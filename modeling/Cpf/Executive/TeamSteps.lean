import Cpf.Executive.TeamControl
import Cpf.Executive.MemberSpec

/-!
# What a step does to the checkpoints

`Change` lists what a step can do to the manager and to the record: most steps leave them alone.
`TeamOk` is the invariant that makes these the only possibilities.
-/

namespace Cpf.Executive.Team

variable {cfg : Config}

def shared (s : Team cfg) (us fs : List ℕ) : Shared cfg.numWorkers :=
  ⟨s.checkpoints, s.merged, us, fs⟩

/-- A process that commits: a worker, or the main process. -/
inductive Committer (cfg : Config)
  | worker (w : Fin cfg.numWorkers) (ret : Return)
  | main

def At (s : Team cfg) : Committer cfg → CommitPc → Prop
  | .worker w ret, pc => (s.members w).pc = .commit pc ret
  | .main, pc => s.main = .commit pc

def commits (s : Team cfg) : Committer cfg → CommitPc → CommitOutcome → Team cfg
  | .worker w ret, pc, r => s.workerCommits w pc ret r
  | .main, pc, r => s.mainCommits pc r

/-- What holds in every reachable state, with the lists `us` and `fs`. -/
structure TeamOk (s : Team cfg) (us fs : List ℕ) : Prop where
  control : s.ControlOk
  shared : (s.shared us fs).Ok
  objects : ∀ o ∈ us, (s.shared us fs).ObjectOk (fun w => (s.members w).asked) o
  members : ∀ w, (s.shared us fs).MemberOk w (s.members w)
  unique : ∀ w v, (s.members w).pc.claims ≠ none → (s.members v).pc.claims ≠ none → w = v
  main : ∀ pc, s.main = .commit pc → (s.shared us fs).CommitOk (fun _ => False) pc
  empty : s.main = .idle ∨ s.main = .recover → us = []

/-- Neither the objects nor the record change, and whoever moves claims nothing. -/
structure Calm (s : Team cfg) (us fs : List ℕ) (s' : Team cfg) : Prop where
  objects : s.checkpoints.SameObjects s'.checkpoints
  merged : s'.merged = s.merged
  issued : s'.issued = s.issued
  combined : s'.combined = s.combined
  asked : ∀ w, (s'.members w).asked = (s.members w).asked
  holding : ∀ w, (s'.members w).pc.holding = none ∨
    (s'.members w).pc.holding = (s.members w).pc.holding
  members : ∀ w, s'.members w = s.members w ∨
    ((s.shared us fs).MemberOk w (s'.members w) ∧ (s'.members w).pc.claims = none)
  main : ∀ pc, s'.main = .commit pc → (s.shared us fs).CommitOk (fun _ => False) pc
  empty : s'.main = .idle ∨ s'.main = .recover → us = []
  resting : s'.main.resting = false → s.main.resting = false

/-- What a step can do to the objects and to the record. -/
inductive Change (s : Team cfg) (us fs : List ℕ) (a : TeamAction cfg) :
    Team cfg → List ℕ → List ℕ → Prop
  | calm {s' : Team cfg} (calm : s.Calm us fs s') : Change s us fs a s' us fs
  | restart {first : ℕ} (empty : us = []) (resting : s.main.resting = true) :
      Change s us fs a (s.restart first) us fs
  | old {w : Fin cfg.numWorkers} {b : Bool} {o : ℕ} (asks : (s.members w).pc.asking = some b)
      (unclaimed : (s.members w).pc.claims = none) (used : o ∈ us)
      (iteration : (s.checkpoints.chkpt o).iteration = effectiveIter (s.members w) b) :
      Change s us fs a (s.grant w b o) us fs
  | new {w : Fin cfg.numWorkers} {b : Bool} {o : ℕ} {m : Manager} {fs' : List ℕ}
      (asks : (s.members w).pc.asking = some b) (unclaimed : (s.members w).pc.claims = none)
      (created : s.checkpoints.Created us fs (effectiveIter (s.members w) b) o m fs')
      (order : (a = .retry w ∧ (s.members w).pc = .retry b) ∨
        ∀ q ∈ us, (s.checkpoints.chkpt q).iteration < effectiveIter (s.members w) b) :
      Change s us fs a (s.requested w b (.new o m)) (us ++ [o]) fs'
  | merge {w : Fin cfg.numWorkers} {b : Bool} {o : ℕ} {p : Speculative} {behind : List IOEvt}
      {copied : ℕ} (pc : (s.members w).pc = .merge b o) :
      Change s us fs a (s.performCheckpoint w b o p behind copied) us fs
  | claim {k : Committer cfg} {alpha beta : ℕ} {rest : List ℕ} (pc : s.At k (.recheck alpha beta))
      (front : us = alpha :: beta :: rest)
      (alphaType : (s.checkpoints.chkpt alpha).type = .clComplete)
      (betaType : (s.checkpoints.chkpt beta).type = .clComplete) :
      Change s us fs a (s.commits k (.recheck alpha beta)
        (.next (s.checkpoints.setType alpha .clFree) (.combine alpha beta))) us fs
  | combined {k : Committer cfg} {alpha beta : ℕ} {c : Checkpoint} (pc : s.At k (.combine alpha beta))
      (claim : (s.shared us fs).Claim alpha beta) (type : c.type = .clComplete)
      (iteration : c.iteration = (s.checkpoints.chkpt beta).iteration)
      (numWorkers : c.numWorkers = (s.checkpoints.chkpt beta).numWorkers) :
      Change s us fs a (s.commits k (.combine alpha beta)
        (.next (s.checkpoints.setChkpt beta c) (.retire alpha beta))) us fs
  | conflict {k : Committer cfg} {alpha beta : ℕ} {c : Checkpoint} (pc : s.At k (.combine alpha beta))
      (claim : (s.shared us fs).Claim alpha beta) (type : c.type = .clBroken)
      (iteration : c.iteration = (s.checkpoints.chkpt beta).iteration)
      (numWorkers : c.numWorkers = (s.checkpoints.chkpt beta).numWorkers) :
      Change s us fs a (s.commits k (.combine alpha beta)
        (.next (s.checkpoints.setChkpt beta c) (.conflict alpha beta))) us fs
  | retire {k : Committer cfg} {alpha beta : ℕ} {rest : List ℕ} (pc : s.At k (.retire alpha beta))
      (claim : (s.shared us fs).Claim alpha beta) (front : us = alpha :: beta :: rest) :
      Change s us fs a (s.commits k (.retire alpha beta)
        (.next (s.checkpoints.retire alpha) (.unlock alpha beta))) (beta :: rest) (fs ++ [alpha])
  | free {o : ℕ} {rest : List ℕ} (main : s.main = .adopt ∨ s.main = .squash) (front : us = o :: rest) :
      Change s us fs a (s.freeFirst o) rest (fs ++ [o])

variable {s s' : Team cfg} {us fs : List ℕ} {a : TeamAction cfg} {w : Fin cfg.numWorkers} {z : Sizes}

/-! ## Steps that are calm -/

theorem sameObjects_refl (s : Team cfg) : s.checkpoints.SameObjects s.checkpoints :=
  Shared.sameObjects_refl _

/-- Worker `w` moves on, to a place where it claims nothing. -/
theorem TeamOk.calm_of_member (h : s.TeamOk us fs) (hobj : s.checkpoints.SameObjects s'.checkpoints)
    (hmerged : s'.merged = s.merged) (hissued : s'.issued = s.issued)
    (hcombined : s'.combined = s.combined) (hmain : s'.main = s.main)
    (hothers : ∀ v, v ≠ w → s'.members v = s.members v)
    (hasked : (s'.members w).asked = (s.members w).asked)
    (hhold : (s'.members w).pc.holding = none ∨
      (s'.members w).pc.holding = (s.members w).pc.holding)
    (hok : (s.shared us fs).MemberOk w (s'.members w)) (hclaims : (s'.members w).pc.claims = none) :
    s.Calm us fs s' where
  objects := hobj
  merged := hmerged
  issued := hissued
  combined := hcombined
  asked v := by
    by_cases hv : v = w
    · rw [hv, hasked]
    · rw [hothers v hv]
  holding v := by
    by_cases hv : v = w
    · rw [hv]
      exact hhold
    · rw [hothers v hv]
      exact Or.inr rfl
  members v := by
    by_cases hv : v = w
    · subst v
      exact Or.inr ⟨hok, hclaims⟩
    · exact Or.inl (hothers v hv)
  main := by
    rw [hmain]
    exact h.main
  empty := by
    rw [hmain]
    exact h.empty
  resting := by
    rw [hmain]
    exact id

theorem TeamOk.calm_setMember (h : s.TeamOk us fs) {p : Member}
    (hasked : p.asked = (s.members w).asked)
    (hhold : p.pc.holding = none ∨ p.pc.holding = (s.members w).pc.holding)
    (hok : (s.shared us fs).MemberOk w p) (hclaims : p.pc.claims = none) :
    s.Calm us fs (s.setMember w p) := by
  refine h.calm_of_member (w := w) (sameObjects_refl s) rfl rfl rfl rfl
    (fun v hv => s.setMember_of_ne p hv) ?_ ?_ ?_ ?_
  all_goals rwa [setMember_self]

theorem Calm.congr {t : Team cfg} (h : s.Calm us fs s')
    (hobj : s'.checkpoints.SameObjects t.checkpoints) (hmerged : t.merged = s'.merged)
    (hissued : t.issued = s'.issued) (hcombined : t.combined = s'.combined)
    (hmain : t.main = s'.main) (hmembers : t.members = s'.members) : s.Calm us fs t where
  objects := ⟨h.objects.toSameLists.trans hobj.toSameLists, hobj.chkpt.trans h.objects.chkpt⟩
  merged := hmerged.trans h.merged
  issued := hissued.trans h.issued
  combined := hcombined.trans h.combined
  asked := by
    rw [hmembers]
    exact h.asked
  holding := by
    rw [hmembers]
    exact h.holding
  members := by
    rw [hmembers]
    exact h.members
  main := by
    rw [hmain]
    exact h.main
  empty := by
    rw [hmain]
    exact h.empty
  resting := by
    rw [hmain]
    exact h.resting

/-- A place where the worker holds no object, asks for nothing and is in no commit. -/
theorem memberOk_plain {A : Shared cfg.numWorkers} {p : Member} (hhold : p.pc.holding = none)
    (hask : p.pc.asking = none) (hcommit : ∀ pc ret, p.pc ≠ .commit pc ret) : A.MemberOk w p :=
  Shared.MemberOk.of_plain hhold (fun b hb => (by rw [hask] at hb; cases hb))
    (fun pc ret hpc => absurd hpc (hcommit pc ret))

theorem calm_main {t : Team cfg}
    (hobj : s.checkpoints.SameObjects t.checkpoints) (hmerged : t.merged = s.merged)
    (hissued : t.issued = s.issued) (hcombined : t.combined = s.combined)
    (hmembers : t.members = s.members)
    (hcommit : ∀ pc, t.main = .commit pc → (s.shared us fs).CommitOk (fun _ => False) pc)
    (hempty : t.main = .idle ∨ t.main = .recover → us = [])
    (hrest : t.main.resting = false → s.main.resting = false) : s.Calm us fs t where
  objects := hobj
  merged := hmerged
  issued := hissued
  combined := hcombined
  asked w := by rw [hmembers]
  holding w := Or.inr (by rw [hmembers])
  members w := Or.inl (by rw [hmembers])
  main := hcommit
  empty := hempty
  resting := hrest

/-! ## Every step is a change -/

theorem blind_ne_univ (s : Team cfg) (us fs : List ℕ) (w : Fin cfg.numWorkers) :
    ∀ o ∈ (s.shared us fs).us, w ∉ (s.shared us fs).merged o →
      (s.shared us fs).merged o ≠ Finset.univ :=
  fun _ _ hw he => hw (by rw [he]; exact Finset.mem_univ w)

theorem TeamOk.change_requested (h : s.TeamOk us fs) {b : Bool}
    (hask : (s.members w).pc.asking = some b) (hclaims : (s.members w).pc.claims = none)
    (horder : (a = .retry w ∧ (s.members w).pc = .retry b) ∨
      ∀ q ∈ us, (s.checkpoints.chkpt q).iteration < effectiveIter (s.members w) b) :
    ∃ us' fs', s.Change us fs a (s.requested w b
      (s.checkpoints.createCheckpoint z (effectiveIter (s.members w) b))) us' fs' := by
  have hasked := (h.members w).asking b hask
  cases hc : s.checkpoints.createCheckpoint z (effectiveIter (s.members w) b) with
  | old o =>
      unfold Manager.createCheckpoint at hc
      split at hc <;> cases hc
  | new o m =>
      obtain ⟨fs', hcreated⟩ := Manager.Created.of_new h.shared.lists hc
      exact ⟨us ++ [o], fs', .new hask hclaims hcreated horder⟩
  | wait =>
      refine ⟨us, fs, .calm (h.calm_setMember rfl (Or.inl rfl) (.of_plain rfl (fun b' hb => ?_)
        (fun pc ret hpc => by cases hpc)) rfl)⟩
      cases hb
      exact hasked
  | abort =>
      unfold Manager.createCheckpoint at hc
      split at hc <;> cases hc

theorem TeamOk.change_workerCommits (h : s.TeamOk us fs) {pc : CommitPc} {ret : Return}
    {r : CommitOutcome} (hpc : (s.members w).pc = .commit pc ret)
    (hs : cfg.commitStep s.checkpoints pc = some r) :
    ∃ us' fs', s.Change us fs a (s.workerCommits w pc ret r) us' fs' := by
  have hmem := h.members w
  have hcase := Shared.CommitCase.of_step h.shared (hmem.commit pc ret hpc)
    (s.blind_ne_univ us fs w) hs
  have hask : ∀ pc' b, (WorkerPc.commit pc' ret).asking = some b →
      (s.members w).asked ≤ effectiveIter (s.members w) b := fun pc' b hb => by
    refine hmem.asking b ?_
    rw [hpc]
    cases ret <;> exact hb
  cases hcase with
  | look same unclaimed claims ok =>
      rename_i pc' m
      refine ⟨us, fs, .calm ?_⟩
      have hok : (s.shared us fs).MemberOk w { s.members w with pc := .commit pc' ret } := by
        refine .of_plain rfl (hask pc') (fun pc'' ret' he => ?_)
        cases he
        exact ok
      have hcalm := h.calm_setMember (p := { s.members w with pc := .commit pc' ret }) rfl
        (Or.inl rfl) hok claims
      cases pc with
      | retire alpha beta => cases unclaimed
      | _ => exact hcalm.congr same rfl rfl rfl rfl rfl
  | claim front alphaType betaType =>
      exact ⟨us, fs, .claim (k := .worker w ret) hpc front alphaType betaType⟩
  | combined claim type iteration numWorkers =>
      exact ⟨us, fs, .combined (k := .worker w ret) hpc claim type iteration numWorkers⟩
  | conflict claim type iteration numWorkers =>
      exact ⟨us, fs, .conflict (k := .worker w ret) hpc claim type iteration numWorkers⟩
  | retire claim =>
      obtain ⟨rest, front⟩ := claim.front
      exact ⟨_, _, .retire (k := .worker w ret) hpc claim front⟩
  | returns same unclaimed =>
      refine ⟨us, fs, .calm ?_⟩
      have hok : (s.shared us fs).MemberOk w { s.members w with pc := returned ret } := by
        cases ret with
        | merged b o =>
            cases b <;> exact memberOk_plain rfl rfl (fun pc ret he => by cases he)
        | waiting b =>
            refine .of_plain rfl (fun b' hb => ?_) (fun pc ret he => by cases he)
            cases hb
            exact hask pc b rfl
      have hclaims : (returned ret).claims = none := by
        cases ret with
        | merged b o => cases b <;> rfl
        | waiting b => rfl
      have hhold : (returned ret).holding = none := by
        cases ret with
        | merged b o => cases b <;> rfl
        | waiting b => rfl
      exact (h.calm_setMember (p := { s.members w with pc := returned ret }) rfl (Or.inl hhold) hok
        hclaims).congr same rfl rfl rfl rfl rfl
  | misspecAt same =>
      refine ⟨us, fs, .calm ?_⟩
      exact (h.calm_setMember (p := { s.members w with pc := .teardown }) rfl (Or.inl rfl)
        (memberOk_plain rfl rfl (fun pc ret he => by cases he)) rfl).congr same rfl rfl rfl rfl rfl

theorem TeamOk.calm_plain (h : s.TeamOk us fs) {p : Member} (hasked : p.asked = (s.members w).asked)
    (hhold : p.pc.holding = none) (hask : p.pc.asking = none) (hclaims : p.pc.claims = none)
    (hcommit : ∀ pc ret, p.pc ≠ .commit pc ret) : s.Calm us fs (s.setMember w p) :=
  h.calm_setMember hasked (Or.inl hhold) (memberOk_plain hhold hask hcommit) hclaims

theorem TeamOk.change_workerStep (h : s.TeamOk us fs) (hs : workerStep z s a = some s') :
    ∃ us' fs', s.Change us fs a s' us' fs' := by
  have hcalm : s.Calm us fs s' → ∃ us' fs', s.Change us fs a s' us' fs' :=
    fun hc => ⟨us, fs, .calm hc⟩
  cases a with
  | beginInvocation | trigger | almostDone | allDone | mainCommit | adopt | squash => cases hs
  | recovered exits => cases hs
  | start w =>
      simp only [workerStep] at hs
      split at hs
      · cases hs
        exact hcalm (h.calm_plain rfl rfl rfl rfl (fun pc ret he => by cases he))
      · cases hs
  | checkpoint w iter b =>
      simp only [workerStep] at hs
      split_ifs at hs with hg hmis
      · cases hs
        refine hcalm ((h.calm_plain (p := { s.members w with currentIter := iter, pc := .teardown })
          rfl rfl rfl rfl (fun pc ret he => by cases he)).congr (sameObjects_refl s)
          rfl rfl rfl rfl ?_)
        simp [misspecAt, setPc, setMember]
      · cases hs
        refine hcalm ((h.calm_setMember (w := w)
          (p := { s.members w with currentIter := iter, pc := .request b }) rfl (Or.inl rfl)
          (.of_plain rfl (fun b' hb => ?_) (fun pc ret he => by cases he)) rfl).congr
          (sameObjects_refl s) rfl rfl rfl rfl ?_)
        · cases hb
          exact hg.2.2
        · simp [setPc, setMember]
  | misspec w iter =>
      simp only [workerStep] at hs
      split_ifs at hs
      cases hs
      refine hcalm ((h.calm_plain (p := { s.members w with currentIter := iter, pc := .teardown })
        rfl rfl rfl rfl (fun pc ret he => by cases he)).congr (sameObjects_refl s)
        rfl rfl rfl rfl ?_)
      simp [misspecAt, setPc, setMember]
  | leave w iter =>
      simp only [workerStep] at hs
      split_ifs at hs
      cases hs
      exact hcalm (h.calm_plain rfl rfl rfl rfl (fun pc ret he => by cases he))
  | get w =>
      simp only [workerStep] at hs
      split at hs
      · rename_i b hpc
        cases hs
        have hask : (s.members w).pc.asking = some b := by rw [hpc]; rfl
        have hclaims : (s.members w).pc.claims = none := by rw [hpc]; rfl
        rcases Manager.getCheckpointForIter_cases h.shared.lists z
          (effectiveIter (s.members w) b) with ⟨o, hr, ho, hiter⟩ | ⟨hlt, hr⟩ | hr
        · rw [show s.checkpoints.getCheckpointForIter z _ = _ from hr]
          exact ⟨us, fs, .old hask hclaims ho hiter⟩
        · rw [show s.checkpoints.getCheckpointForIter z _ = _ from hr]
          exact h.change_requested hask hclaims (Or.inr hlt)
        · rw [show s.checkpoints.getCheckpointForIter z _ = _ from hr]
          exact ⟨us, fs, .calm (h.calm_plain rfl rfl rfl rfl (fun pc ret he => by cases he))⟩
      · cases hs
  | giveUp w =>
      simp only [workerStep] at hs
      split at hs
      · split_ifs at hs
        cases hs
        exact hcalm ((h.calm_plain (p := { s.members w with pc := .teardown }) rfl rfl rfl rfl
          (fun pc ret he => by cases he)).congr (sameObjects_refl s) rfl rfl rfl rfl rfl)
      · cases hs
  | poll w =>
      simp only [workerStep] at hs
      split at hs
      · rename_i b hpc
        cases hs
        refine hcalm (h.calm_setMember rfl (Or.inl rfl) (.of_plain rfl (fun b' hb => ?_)
          (fun pc ret he => ?_)) rfl)
        · cases hb
          exact (h.members w).asking b (by rw [hpc]; rfl)
        · cases he
          exact Shared.commitOk_of_sees (fun o ho => by cases ho) rfl
      · cases hs
  | wake w =>
      simp only [workerStep] at hs
      split at hs
      · rename_i b hpc
        cases hs
        refine hcalm (h.calm_setMember rfl (Or.inl rfl) (.of_plain rfl (fun b' hb => ?_)
          (fun pc ret he => by cases he)) rfl)
        cases hb
        exact (h.members w).asking b (by rw [hpc]; rfl)
      · cases hs
  | retry w =>
      simp only [workerStep] at hs
      split at hs
      · rename_i b hpc
        cases hs
        exact h.change_requested (by rw [hpc]; rfl) (by rw [hpc]; rfl) (Or.inl ⟨rfl, hpc⟩)
      · cases hs
  | lock w =>
      simp only [workerStep] at hs
      split at hs
      · rename_i b o hpc
        split_ifs at hs
        cases hs
        have hhold := (h.members w).holding o (by rw [hpc]; rfl)
        have hok : (s.shared us fs).MemberOk w { s.members w with pc := .merge b o } := by
          refine ⟨fun q hq => ?_, fun b' hb => (by cases hb), fun pc ret he => (by cases he)⟩
          cases hq
          exact hhold
        have hsame : (WorkerPc.merge b o).holding = (s.members w).pc.holding := by
          rw [hpc]
          rfl
        exact hcalm ((h.calm_setMember (p := { s.members w with pc := .merge b o }) rfl
          (Or.inr hsame) hok rfl).congr (Shared.sameObjects_setLock _ o true) rfl rfl rfl rfl rfl)
      · cases hs
  | merge w p behind copied =>
      simp only [workerStep] at hs
      split at hs
      · rename_i b o hpc
        cases hs
        exact ⟨us, fs, .merge hpc⟩
      · cases hs
  | commit w =>
      simp only [workerStep] at hs
      split at hs
      · rename_i pc ret hpc
        obtain ⟨r, hr, rfl⟩ := Option.map_eq_some_iff.1 hs
        exact h.change_workerCommits hpc hr
      · cases hs
  | teardown w =>
      simp only [workerStep] at hs
      split_ifs at hs
      cases hs
      exact hcalm (h.calm_plain rfl rfl rfl rfl (fun pc ret he => by cases he))
  | setFlag w =>
      simp only [workerStep] at hs
      split_ifs at hs
      cases hs
      exact hcalm ((h.calm_plain (p := { s.members w with pc := .pipe }) rfl rfl rfl rfl
        (fun pc ret he => by cases he)).congr (sameObjects_refl s) rfl rfl rfl rfl rfl)

theorem TeamOk.change_mainCommits (h : s.TeamOk us fs) {pc : CommitPc} {r : CommitOutcome}
    (hpc : s.main = .commit pc) (hs : cfg.commitStep s.checkpoints pc = some r) :
    ∃ us' fs', s.Change us fs a (s.mainCommits pc r) us' fs' := by
  have hcase := Shared.CommitCase.of_step h.shared (h.main pc hpc) (fun _ _ hf => hf.elim) hs
  cases hcase with
  | look same unclaimed claims ok =>
      rename_i pc' m
      have hcalm : s.Calm us fs { s.setManager m with main := .commit pc' } := by
        refine calm_main same rfl rfl rfl rfl (fun pc'' he => ?_) (fun he => ?_)
          (fun hr => by cases hr)
        · cases he
          exact ok
        · rcases he with he | he <;> cases he
      cases pc with
      | retire alpha beta => cases unclaimed
      | _ => exact ⟨us, fs, .calm hcalm⟩
  | claim front alphaType betaType =>
      exact ⟨us, fs, .claim (k := .main) hpc front alphaType betaType⟩
  | combined claim type iteration numWorkers =>
      exact ⟨us, fs, .combined (k := .main) hpc claim type iteration numWorkers⟩
  | conflict claim type iteration numWorkers =>
      exact ⟨us, fs, .conflict (k := .main) hpc claim type iteration numWorkers⟩
  | retire claim =>
      obtain ⟨rest, front⟩ := claim.front
      exact ⟨_, _, .retire (k := .main) hpc claim front⟩
  | returns same unclaimed =>
      refine ⟨us, fs, .calm (calm_main same rfl rfl rfl rfl (fun pc he => by cases he)
        (fun he => ?_) (fun hr => by cases hr))⟩
      rcases he with he | he <;> cases he
  | misspecAt same =>
      refine ⟨us, fs, .calm (calm_main same rfl rfl rfl rfl (fun pc he => by cases he)
        (fun he => ?_) (fun hr => by cases hr))⟩
      rcases he with he | he <;> cases he

theorem TeamOk.change_mainStep (h : s.TeamOk us fs) (hs : s.mainStep a = some s') :
    ∃ us' fs', s.Change us fs a s' us' fs' := by
  have hmain : ∀ pc : MainPc, (∀ c, pc = .commit c → c = .readFirst) →
      (pc = .idle ∨ pc = .recover → us = []) → (pc.resting = false → s.main.resting = false) →
      s.Calm us fs { s with main := pc } := by
    intro pc hread hempty hrest
    refine calm_main (sameObjects_refl s) rfl rfl rfl rfl (fun c hc => ?_) hempty hrest
    rw [hread c hc]
    exact Shared.commitOk_of_sees (fun o ho => by cases ho) rfl
  cases a with
  | beginInvocation =>
      simp only [mainStep] at hs
      split_ifs at hs with hm
      cases hs
      exact ⟨us, fs, .restart (h.empty (Or.inl hm)) (by rw [hm]; rfl)⟩
  | trigger =>
      simp only [mainStep] at hs
      split at hs
      · rename_i k hm
        split_ifs at hs with hk
        · cases hs
          have hat := h.control.untriggered k hm ⟨k, hk⟩ le_rfl
          refine ⟨us, fs, .calm (.mk (sameObjects_refl s) rfl rfl rfl (fun v => ?_) (fun v => ?_)
            (fun v => ?_) (fun pc he => by cases he) (fun he => by rcases he with he | he <;> cases he)
            (fun _ => by rw [hm]; rfl))⟩
          · by_cases hv : v = ⟨k, hk⟩ <;> simp [triggerWorker, setMember, hv]
          · by_cases hv : v = ⟨k, hk⟩ <;> simp [triggerWorker, setMember, hv]
          · by_cases hv : v = ⟨k, hk⟩
            · subst v
              refine Or.inr ⟨memberOk_plain ?_ ?_ (fun pc ret he => ?_), ?_⟩
              all_goals simp [triggerWorker, setMember, hat.1, WorkerPc.holding, WorkerPc.asking,
                WorkerPc.claims] at *
            · exact Or.inl (by simp [triggerWorker, setMember, hv])
        · cases hs
          exact ⟨us, fs, .calm (hmain .spin (fun c hc => by cases hc)
            (fun he => by rcases he with he | he <;> cases he) (fun _ => by rw [hm]; rfl))⟩
      · cases hs
  | almostDone =>
      simp only [mainStep] at hs
      split_ifs at hs with hg
      cases hs
      exact ⟨us, fs, .calm (hmain .allDone (fun c hc => by cases hc)
        (fun he => by rcases he with he | he <;> cases he) (fun _ => by rw [hg.1]; rfl))⟩
  | allDone =>
      simp only [mainStep] at hs
      split_ifs at hs
      cases hs
      exact ⟨us, fs, .calm (hmain (.commit .readFirst) (fun c hc => by cases hc; rfl)
        (fun he => by rcases he with he | he <;> cases he) (fun hr => by cases hr))⟩
  | mainCommit =>
      simp only [mainStep] at hs
      split at hs
      · rename_i pc hm
        obtain ⟨r, hr, rfl⟩ := Option.map_eq_some_iff.1 hs
        exact h.change_mainCommits hm hr
      · cases hs
  | adopt =>
      have hsquash := hmain .squash (fun c hc => by cases hc)
        (fun he => by rcases he with he | he <;> cases he) (fun hr => by cases hr)
      have hfirst := h.shared.lists.first_eq
      simp only [mainStep] at hs
      split_ifs at hs with hm
      split at hs
      · rename_i o ho
        split_ifs at hs
        · cases hs
          rw [show s.checkpoints.used.first = us.head? from hfirst] at ho
          obtain ⟨rest, rfl⟩ := List.head?_eq_some_iff.1 ho
          exact ⟨rest, fs ++ [o], .free (Or.inl hm) rfl⟩
        · cases hs
          exact ⟨us, fs, .calm hsquash⟩
      · cases hs
        exact ⟨us, fs, .calm hsquash⟩
  | squash =>
      have hfirst := h.shared.lists.first_eq
      simp only [mainStep] at hs
      by_cases hm : s.main = .squash
      · rw [if_pos hm] at hs
        split at hs
        · rename_i o ho
          cases hs
          rw [show s.checkpoints.used.first = us.head? from hfirst] at ho
          obtain ⟨rest, rfl⟩ := List.head?_eq_some_iff.1 ho
          exact ⟨rest, fs ++ [o], .free (Or.inr hm) rfl⟩
        · rename_i ho
          cases hs
          rw [show s.checkpoints.used.first = us.head? from hfirst] at ho
          refine ⟨us, fs, .calm (hmain _ (fun c hc => ?_) (fun _ => List.head?_eq_none_iff.1 ho)
            (fun hr => ?_))⟩
          · split_ifs at hc
          · split_ifs at hr <;> cases hr
      · rw [if_neg hm] at hs
        cases hs
  | recovered exits =>
      simp only [mainStep] at hs
      split_ifs at hs with hm hex
      · cases hs
        exact ⟨us, fs, .calm (calm_main (sameObjects_refl s) rfl rfl rfl rfl
          (fun c hc => by cases hc) (fun _ => h.empty (Or.inr hm)) (fun hr => by cases hr))⟩
      · cases hs
        exact ⟨us, fs, .restart (h.empty (Or.inr hm)) (by rw [hm]; rfl)⟩
  | start w | get w | giveUp w | poll w | wake w | retry w | lock w | commit w | teardown w
  | setFlag w => cases hs
  | checkpoint w iter b => cases hs
  | misspec w iter | leave w iter => cases hs
  | merge w p behind copied => cases hs

theorem TeamOk.change (h : s.TeamOk us fs) (hs : s.step z a = some s') :
    ∃ us' fs', s.Change us fs a s' us' fs' := by
  rcases step_cases hs with ⟨_, hm⟩ | ⟨w, _, hm⟩
  · exact h.change_mainStep hm
  · exact h.change_workerStep hm

end Cpf.Executive.Team
