import Cpf.Executive.CommitOrder
import Cpf.Executive.PendingPair

/-!
# Who executes the error path

`__specpriv_misspec_at` ends in the worker's read loop. The main process calls the commit function
too; it reaches the error path only if two complete checkpoints stay behind.
-/

namespace Cpf.Executive.Team

variable {cfg : Config} {s s' : Team cfg} {us fs us' fs' : List ℕ} {a : TeamAction cfg}
  {w v : Fin cfg.numWorkers} {z : Sizes} {o c alpha beta : ℕ}

theorem commit_of_workerStep {pc : CommitPc} {ret : Return} (hw : a.worker = some w)
    (hpc : (s.members w).pc = .commit pc ret) (hs : workerStep z s a = some s') :
    a = .commit w ∧ ∃ r, cfg.commitStep s.checkpoints pc = some r ∧
      s' = s.workerCommits w pc ret r := by
  cases a with
  | commit v =>
      cases hw
      simp only [workerStep, hpc] at hs
      obtain ⟨r, hr, rfl⟩ := Option.map_eq_some_iff.1 hs
      exact ⟨rfl, r, hr, rfl⟩
  | beginInvocation | trigger | almostDone | allDone | mainCommit | adopt | squash => cases hw
  | recovered exits => cases hw
  | start v | get v | giveUp v | poll v | wake v | retry v | lock v | teardown v | setFlag v =>
      cases hw
      simp [workerStep, hpc] at hs
  | checkpoint v iter b =>
      cases hw
      simp [workerStep, hpc] at hs
  | misspec v iter | leave v iter =>
      cases hw
      simp [workerStep, hpc] at hs
  | merge v p behind copied =>
      cases hw
      simp [workerStep, hpc] at hs

/-- The next step of a worker that is on track: it stays so, or it claims the two checkpoints. -/
theorem onTrack_step (hok : s.TeamOk us fs) {pc : CommitPc} {rest : List ℕ} {r : CommitOutcome}
    (hus : us = alpha :: beta :: rest) (ha : s.Complete alpha) (hb : s.Complete beta)
    (htrack : pc.OnTrack alpha beta) (hr : cfg.commitStep s.checkpoints pc = some r) :
    (∃ m pc', r = .next m pc' ∧ pc'.OnTrack alpha beta) ∨
      r = .next (s.checkpoints.setType alpha .clFree) (.combine alpha beta) := by
  have hfirst : s.checkpoints.used.first = some alpha := by
    have he := hok.shared.lists.first_eq
    rw [hus] at he
    exact he
  have hnext : s.checkpoints.links.next alpha = some beta := by
    have hused := hok.shared.lists.used
    change s.checkpoints.links.Holds s.checkpoints.used us at hused
    rw [hus] at hused
    exact hused.next_first
  cases pc with
  | readFirst =>
      simp only [Config.commitStep, hfirst, Option.some.injEq] at hr
      exact Or.inl ⟨_, _, hr.symm, rfl⟩
  | readAlpha x =>
      obtain rfl : x = alpha := htrack
      simp only [Config.commitStep, if_pos (show (s.checkpoints.chkpt x).type = _ from ha),
        Option.some.injEq] at hr
      exact Or.inl ⟨_, _, hr.symm, rfl⟩
  | readNext x =>
      obtain rfl : x = alpha := htrack
      simp only [Config.commitStep, hnext, Option.some.injEq] at hr
      exact Or.inl ⟨_, _, hr.symm, rfl, rfl⟩
  | readBeta x y =>
      obtain ⟨rfl, rfl⟩ := htrack
      simp only [Config.commitStep, if_pos (show (s.checkpoints.chkpt y).type = _ from hb),
        Option.some.injEq] at hr
      exact Or.inl ⟨_, _, hr.symm, rfl, rfl⟩
  | lockAlpha x y =>
      obtain ⟨rfl, rfl⟩ := htrack
      simp only [Config.commitStep] at hr
      split_ifs at hr
      cases hr
      exact Or.inl ⟨_, _, rfl, rfl, rfl⟩
  | lockBeta x y =>
      obtain ⟨rfl, rfl⟩ := htrack
      simp only [Config.commitStep] at hr
      split_ifs at hr
      cases hr
      exact Or.inl ⟨_, _, rfl, rfl, rfl⟩
  | recheck x y =>
      obtain ⟨rfl, rfl⟩ := htrack
      have hboth : s.checkpoints.bothComplete x y = true := decide_eq_true ⟨ha, hnext, hb⟩
      simp only [Config.commitStep, hboth, if_true, Option.some.injEq] at hr
      exact Or.inr hr.symm
  | combine x y | conflict x y | retire x y | unlock x y => exact htrack.elim

/-! ## The steps of a commit -/

theorem checkpoints_workerCommits {pc pc' : CommitPc} {ret : Return} {m : Manager} :
    (s.workerCommits w pc ret (.next m pc')).checkpoints = m := by
  cases pc <;> rfl

theorem member_workerCommits {pc pc' : CommitPc} {ret : Return} {m : Manager} :
    (s.workerCommits w pc ret (.next m pc')).members w =
      { s.members w with pc := .commit pc' ret } := by
  cases pc <;> exact setMember_self _ _ _

theorem stepBy_workerCommits {pc pc' : CommitPc} {ret : Return} {m : Manager}
    (hiter : ∀ o, (m.chkpt o).iteration = (s.checkpoints.chkpt o).iteration) :
    s.StepBy (s.workerCommits w pc ret (.next m pc')) us w where
  iteration c _ := by
    rw [iteration, checkpoints_workerCommits]
    exact hiter c
  merged c _ v hv _ := by cases pc <;> exact hv
  others v hv := by cases pc <;> exact setMember_of_ne _ _ hv
  asked := by rw [member_workerCommits]
  holding c _ _ _ := by
    rw [member_workerCommits]
    exact fun he => by cases he
  main := by cases pc <;> rfl

namespace PairOk

/-- The main process combines nothing: what it finds is not complete. -/
theorem worker_of_claims (h : s.PairOk us) {k : Committer cfg} {pc : CommitPc} (hat : s.At k pc)
    (hpc : pc.claims ≠ none) : ∃ w ret, k = .worker w ret := by
  cases k with
  | worker w ret => exact ⟨w, ret, rfl⟩
  | main => exact absurd (h.main pc hat).1 hpc

theorem claim (h : s.PairOk us) (hok : s.TeamOk us fs) {ret : Return} {rest : List ℕ}
    (hpc : (s.members w).pc = .commit (.recheck alpha beta) ret) (hfront : us = alpha :: beta :: rest)
    (ha : s.Complete alpha) (hb : s.Complete beta) :
    (s.workerCommits w (.recheck alpha beta) ret
      (.next (s.checkpoints.setType alpha .clFree) (.combine alpha beta))).PairOk us := by
  have hrun := hok.main_of_busy (w := w) (by simp [hpc])
  have hiter : ∀ o, ((s.checkpoints.setType alpha .clFree).chkpt o).iteration =
      (s.checkpoints.chkpt o).iteration :=
    OrderOk.iteration_setChkpt (c := { s.checkpoints.chkpt alpha with type := .clFree }) rfl
  obtain ⟨v, pc, hlast, _⟩ := h.pair hrun alpha beta rest hfront ha hb
  refine h.of_stepBy (stepBy_workerCommits hiter) hrun (fun x y r hus hx _ => ?_)
    (fun x y c r hus _ hc => ?_)
  · rw [hfront] at hus
    cases hus
    rw [Complete, checkpoints_workerCommits] at hx
    simp [Manager.setType, Manager.setChkpt] at hx
  · rw [hfront] at hus
    cases hus
    have hne : c ≠ alpha := by
      have hnodup := hok.shared.lists.nodup_used
      change us.Nodup at hnodup
      rw [hfront] at hnodup
      rintro rfl
      simp at hnodup
    refine absurd ?_ (h.not_complete_behind hok hfront (Or.inr rfl) hlast.asked)
    rw [Complete, checkpoints_workerCommits] at hc
    simpa [Complete, Manager.setType, Manager.setChkpt, hne] using hc

theorem combine (h : s.PairOk us) (hok : s.TeamOk us fs) {ret : Return} {chk : Checkpoint}
    {pc' : CommitPc} (hpc : (s.members w).pc = .commit (.combine alpha beta) ret)
    (hclaim : (s.shared us fs).Claim alpha beta)
    (hiter : chk.iteration = (s.checkpoints.chkpt beta).iteration) :
    (s.workerCommits w (.combine alpha beta) ret
      (.next (s.checkpoints.setChkpt beta chk) pc')).PairOk us := by
  have hrun := hok.main_of_busy (w := w) (by simp [hpc])
  have hstep : s.StepBy (s.workerCommits w (.combine alpha beta) ret
      (.next (s.checkpoints.setChkpt beta chk) pc')) us w :=
    stepBy_workerCommits (OrderOk.iteration_setChkpt hiter)
  obtain ⟨rest, hfront⟩ := hclaim.front
  change us = alpha :: beta :: rest at hfront
  have hnodup := hok.shared.lists.nodup_used
  change us.Nodup at hnodup
  rw [hfront] at hnodup
  refine h.of_stepBy hstep hrun (fun x y r hus hx _ => ?_) (fun x y c r hus _ hc => ?_)
  · rw [hfront] at hus
    cases hus
    have hne : alpha ≠ beta := by
      rintro rfl
      simp at hnodup
    have hfree : (s.checkpoints.chkpt alpha).type = .clFree := hclaim.alphaType
    rw [Complete, checkpoints_workerCommits] at hx
    simp [Manager.setChkpt, hne, hfree] at hx
  · rw [hfront] at hus
    cases hus
    have hne : c ≠ beta := by
      rintro rfl
      simp at hnodup
    refine h.third_kept hstep hfront (fun b he => ?_) ⟨w, ?_⟩ ?_
    · rw [hpc] at he
      cases he
    · rw [hpc]
      exact fun he => by cases he
    · rw [Complete, checkpoints_workerCommits] at hc
      simpa [Complete, Manager.setChkpt, hne] using hc

/-- Worker `w` retires the oldest checkpoint. Whoever merged into the third one last has not looked
at the list yet. -/
theorem retire (h : s.PairOk us) (hok : s.TeamOk us fs) {ret : Return} {rest : List ℕ}
    (hpc : (s.members w).pc = .commit (.retire alpha beta) ret)
    (hfront : us = alpha :: beta :: rest) :
    (s.workerCommits w (.retire alpha beta) ret
      (.next (s.checkpoints.retire alpha) (.unlock alpha beta))).PairOk (beta :: rest) := by
  have hrun := hok.main_of_busy (w := w) (by simp [hpc])
  have hclaims : (s.members w).pc.claims ≠ none := by
    rw [hpc]
    exact fun he => by cases he
  have hstep : s.StepBy (s.workerCommits w (.retire alpha beta) ret
      (.next (s.checkpoints.retire alpha) (.unlock alpha beta))) us w :=
    stepBy_workerCommits (fun _ => rfl)
  have horder := h.order_stepBy hstep
  have hrequested := h.requested_stepBy hstep
  rw [hfront] at horder hrequested
  refine ⟨fun o ho => hrequested o (List.mem_cons_of_mem _ ho), horder.of_cons,
    fun _ x y r hus _ hy => ?_, fun x y c r _ hcl _ => ?_, fun pc hm => ?_⟩
  · cases hus
    have hidle : ∀ b, (s.members w).pc ≠ .commit .readFirst (.merged b y) := fun b he => by
      rw [hpc] at he
      cases he
    obtain ⟨v, hlast⟩ := h.third_kept hstep hfront hidle ⟨w, hclaims⟩ hy
    exact ⟨v, .readFirst, hlast, trivial⟩
  · obtain ⟨v, hv⟩ := hcl
    have hvw : v ≠ w := by
      rintro rfl
      rw [member_workerCommits] at hv
      exact hv rfl
    rw [hstep.others v hvw] at hv
    exact absurd (hok.unique v w hv hclaims) hvw
  · rw [hstep.main] at hm
    exact absurd hm (main_ne_commit hrun pc)

theorem free (h : s.PairOk us) (hok : s.TeamOk us fs) {rest : List ℕ}
    (hmain : s.main = .adopt ∨ s.main = .squash) (hfront : us = o :: rest) :
    (s.freeFirst o).PairOk rest := by
  subst hfront
  have hrest : s.main.resting = true := by rcases hmain with hm | hm <;> rw [hm] <;> rfl
  have hiter : ∀ q, (s.freeFirst o).iteration q = s.iteration q := fun q =>
    OrderOk.iteration_setChkpt (c := { s.checkpoints.chkpt o with type := .clFree }) rfl q
  refine ⟨fun q hq => ?_, ?_, fun hr => ?_, fun x y c r _ hcl => ?_, fun pc hm => ?_⟩
  · rw [hiter q]
    exact h.requested q (List.mem_cons_of_mem _ hq)
  · refine h.order.of_cons.imp (fun hor => ?_)
    rw [hiter, hiter]
    refine hor.imp_right (fun hb => ?_)
    obtain ⟨v, hv, hlt, hh⟩ := hb
    exact ⟨v, hv, by rw [hiter]; exact hlt, hh⟩
  · rw [show (s.freeFirst o).main = s.main from rfl, hrest] at hr
    cases hr
  · obtain ⟨v, hv⟩ := hcl
    exact absurd (hok.unclaimed_of_resting hrest v) hv
  · rw [show (s.freeFirst o).main = s.main from rfl] at hm
    rcases hmain with he | he <;> rw [he] at hm <;> cases hm

theorem empty (hmain : ∀ pc, s.main ≠ .commit pc) : s.PairOk [] where
  requested o ho := by cases ho
  order := List.Pairwise.nil
  pair _ alpha beta rest hus := by cases hus
  third alpha beta c rest hus := by cases hus
  main pc hm := absurd hm (hmain pc)

/-! ## Steps that change no checkpoint -/

theorem complete_calm (hcalm : s.Calm us fs s') : s'.Complete o ↔ s.Complete o := by
  rw [Complete, Complete, hcalm.objects.chkpt]

theorem iteration_calm (hcalm : s.Calm us fs s') (o : ℕ) : s'.iteration o = s.iteration o := by
  rw [iteration, iteration, hcalm.objects.chkpt]

theorem stepBy_calm (hcalm : s.Calm us fs s') (hmoves : s.Moves s' w) : s.StepBy s' us w where
  iteration c _ := iteration_calm hcalm c
  merged c _ v hv _ := by rwa [hcalm.merged]
  others := hmoves.others
  asked := (hcalm.asked w).ge
  holding c _ _ hh := by
    rcases hcalm.holding w with hn | hn
    · rw [hn]
      exact fun he => by cases he
    · rwa [hn]
  main := hmoves.main

theorem claims_calm (hcalm : s.Calm us fs s') (hcl : ∃ v, (s'.members v).pc.claims ≠ none) :
    ∃ v, (s.members v).pc.claims ≠ none := by
  obtain ⟨v, hv⟩ := hcl
  rcases hcalm.members v with he | ⟨_, hn⟩
  · exact ⟨v, by rwa [← he]⟩
  · exact absurd hn hv

/-- The worker that is to combine the third checkpoint would begin too early. -/
theorem commitsTooEarly_of_third (hok : s.TeamOk us fs) {rest : List ℕ}
    (hus : us = alpha :: beta :: c :: rest) (hcl : ∃ v, (s.members v).pc.claims ≠ none)
    (hc : s.Complete c) (hlast : s.MergedLast w c .readFirst) :
    s.commitsTooEarly (.commit w) = true := by
  obtain ⟨b, hpc⟩ := hlast.pc
  have hused : s.checkpoints.usedObjects = us := hok.shared.lists.usedObjects_eq
  simp only [commitsTooEarly, hpc, hused, hus, decide_eq_true_eq]
  exact ⟨trivial, hc, hcl⟩

theorem calm_worker (h : s.PairOk us) (hok : s.TeamOk us fs) (hcalm : s.Calm us fs s')
    (hcond : s.commitsTooEarly a = false) (hw : a.worker = some w)
    (hs : workerStep z s a = some s') : s'.PairOk us := by
  have hmoves := moves_of_workerStep hok.control hw hs
  have hstep := stepBy_calm hcalm hmoves
  have hrun : s.main.resting = false := by
    by_contra hr
    exact hmoves.busy (hok.control.resting (by simpa using hr) w)
  refine h.of_stepBy hstep hrun (fun alpha beta rest hus ha hb => ?_)
    (fun alpha beta c rest hus hcl hc => ?_)
  · rw [complete_calm hcalm] at ha hb
    obtain ⟨v, pc, hlast, htrack⟩ := h.pair hrun alpha beta rest hus ha hb
    have hbus : beta ∈ us := by
      rw [hus]
      simp
    by_cases hvw : v = w
    · subst v
      obtain ⟨b, hpc⟩ := hlast.pc
      obtain ⟨rfl, r, hr, rfl⟩ := commit_of_workerStep hw hpc hs
      rcases onTrack_step hok hus ha hb htrack hr with ⟨m, pc', rfl, htrack'⟩ | rfl
      · refine ⟨w, pc', ⟨⟨b, by rw [member_workerCommits]⟩, ?_⟩, htrack'⟩
        rw [hcalm.asked, iteration_calm hcalm]
        exact hlast.asked
      · -- a claim is not calm
        exfalso
        have hmem := hcalm.members w
        rw [member_workerCommits] at hmem
        rcases hmem with he | ⟨_, hn⟩
        · rw [← he] at hpc
          cases hpc
          exact htrack
        · cases hn
    · exact ⟨v, pc, hstep.mergedLast hbus hlast hvw, htrack⟩
  · rw [complete_calm hcalm] at hc
    have hcl' := claims_calm hcalm hcl
    obtain ⟨v, hlast⟩ := h.third alpha beta c rest hus hcl' hc
    have hcus : c ∈ us := by
      rw [hus]
      simp
    by_cases hvw : v = w
    · subst v
      obtain ⟨b, hpc⟩ := hlast.pc
      obtain ⟨rfl, _⟩ := commit_of_workerStep hw hpc hs
      rw [commitsTooEarly_of_third hok hus hcl' hc hlast] at hcond
      cases hcond
    · exact ⟨v, hstep.mergedLast hcus hlast hvw⟩

/-- The next step of a commit of the main process, which finds no two complete checkpoints. -/
theorem claims_commitStep (hok : s.TeamOk us fs) {pc pc' : CommitPc} {m : Manager}
    (hat : s.main = .commit pc) (hclaims : pc.claims = none)
    (hnot : ∀ alpha beta rest, us = alpha :: beta :: rest → s.Complete alpha → ¬ s.Complete beta)
    (hr : cfg.commitStep s.checkpoints pc = some (.next m pc')) :
    pc'.claims = none ∧ ∀ alpha beta, pc' ≠ .conflict alpha beta := by
  cases pc with
  | readFirst | readNext x =>
      simp only [Config.commitStep] at hr
      split at hr
      · cases hr
      · cases hr
        exact ⟨rfl, fun _ _ he => by cases he⟩
  | readAlpha x | readBeta x y =>
      simp only [Config.commitStep] at hr
      split_ifs at hr
      · cases hr
        exact ⟨rfl, fun _ _ he => by cases he⟩
      · cases hr
  | lockAlpha x y | lockBeta x y =>
      simp only [Config.commitStep] at hr
      split_ifs at hr
      cases hr
      exact ⟨rfl, fun _ _ he => by cases he⟩
  | recheck x y =>
      simp only [Config.commitStep] at hr
      split_ifs at hr with hboth
      · obtain ⟨rest, hus⟩ := hok.front (k := .main) hat hboth
        obtain ⟨hx, _, hy⟩ := of_decide_eq_true hboth
        exact absurd hy (hnot x y rest hus hx)
      · cases hr
        exact ⟨rfl, fun _ _ he => by cases he⟩
  | combine x y | retire x y => cases hclaims
  | conflict x y | unlock x y => cases hr

/-- How the main process comes to a place in its commit. -/
theorem commit_of_mainStep {pc' : CommitPc} (hs : s.mainStep a = some s')
    (hm : s'.main = .commit pc') :
    (s.main = .allDone ∧ (∀ w, s.workerDoneFlags w = true) ∧ pc' = .readFirst) ∨
      ∃ pc m, s.main = .commit pc ∧ cfg.commitStep s.checkpoints pc = some (.next m pc') := by
  cases a with
  | beginInvocation | almostDone =>
      simp only [mainStep] at hs
      split_ifs at hs
      cases hs
      cases hm
  | trigger =>
      simp only [mainStep] at hs
      split at hs
      · split_ifs at hs
        all_goals
          cases hs
          cases hm
      · cases hs
  | allDone =>
      simp only [mainStep] at hs
      split_ifs at hs with hg
      cases hs
      cases hm
      exact Or.inl ⟨hg.1, hg.2, rfl⟩
  | mainCommit =>
      simp only [mainStep] at hs
      split at hs
      · rename_i pc hpc
        obtain ⟨r, hr, rfl⟩ := Option.map_eq_some_iff.1 hs
        cases r with
        | next m pc'' =>
            have he : MainPc.commit pc'' = .commit pc' := by
              rw [← hm]
              cases pc <;> rfl
            cases he
            exact Or.inr ⟨pc, m, hpc, hr⟩
        | returns m | abort => cases hm
        | misspecAt m iter => cases hm
      · cases hs
  | adopt =>
      simp only [mainStep] at hs
      split_ifs at hs with had
      split at hs
      · split_ifs at hs
        · cases hs
          rw [freeFirst, setManager, had] at hm
          cases hm
        · cases hs
          cases hm
      · cases hs
        cases hm
  | squash =>
      simp only [mainStep] at hs
      by_cases hsq : s.main = .squash
      · rw [if_pos hsq] at hs
        split at hs
        · cases hs
          rw [freeFirst, setManager, hsq] at hm
          cases hm
        · cases hs
          dsimp only at hm
          split_ifs at hm
      · rw [if_neg hsq] at hs
        cases hs
  | recovered exits =>
      simp only [mainStep] at hs
      split_ifs at hs
      all_goals
        cases hs
        cases hm
  | start v | get v | giveUp v | poll v | wake v | retry v | lock v | commit v | teardown v
  | setFlag v => cases hs
  | checkpoint v iter b => cases hs
  | misspec v iter | leave v iter => cases hs
  | merge v p behind copied => cases hs

theorem calm_main (h : s.PairOk us) (hok : s.TeamOk us fs) (hcalm : s.Calm us fs s')
    (hs : s.mainStep a = some s') : s'.PairOk us := by
  have hlast : ∀ {v : Fin cfg.numWorkers} {o : ℕ} {pc : CommitPc}, s.MergedLast v o pc →
      s'.MergedLast v o pc := by
    rintro v o pc ⟨⟨b, hpc⟩, hasked⟩
    refine ⟨⟨b, by rw [pc_mainStep hs, hpc]⟩, ?_⟩
    rw [hcalm.asked, iteration_calm hcalm]
    exact hasked
  refine ⟨fun o ho => ?_, ?_, fun hr alpha beta rest hus ha hb => ?_,
    fun alpha beta c rest hus hcl hc => ?_, fun pc hm => ?_⟩
  · obtain ⟨v, hv⟩ := h.requested o ho
    exact ⟨v, by rw [hcalm.asked, iteration_calm hcalm]; exact hv⟩
  · refine h.order.imp (fun hor => ?_)
    rw [iteration_calm hcalm, iteration_calm hcalm]
    refine hor.imp_right (fun hb => ?_)
    obtain ⟨v, hv, hlt, hh⟩ := hb
    refine ⟨v, by rwa [hcalm.merged], ?_, by rwa [pc_mainStep hs]⟩
    rw [hcalm.asked, iteration_calm hcalm]
    exact hlt
  · rw [complete_calm hcalm] at ha hb
    obtain ⟨v, pc, hl, htrack⟩ := h.pair (hcalm.resting hr) alpha beta rest hus ha hb
    exact ⟨v, pc, hlast hl, htrack⟩
  · rw [complete_calm hcalm] at hc
    obtain ⟨v, hl⟩ := h.third alpha beta c rest hus (claims_calm hcalm hcl) hc
    exact ⟨v, hlast hl⟩
  · have hnot : ∀ alpha beta rest, us = alpha :: beta :: rest → s.Complete alpha →
        ¬ s.Complete beta := by
      intro alpha beta rest hus ha hb
      rcases commit_of_mainStep hs hm with ⟨hall, hflags, _⟩ | ⟨pc₀, m, hpc, _⟩
      · -- all workers are at their pipes, so none is in a commit
        obtain ⟨v, pc', hl, _⟩ := h.pair (by rw [hall]; rfl) alpha beta rest hus ha hb
        obtain ⟨b, hv⟩ := hl.pc
        have hpipe := (hok.control.flagged v (hflags v)).1
        rw [hpipe] at hv
        cases hv
      · exact (h.main pc₀ hpc).2.2 alpha beta rest hus ha hb
    have hgo : pc.claims = none ∧ ∀ alpha beta, pc ≠ .conflict alpha beta := by
      rcases commit_of_mainStep hs hm with ⟨_, _, rfl⟩ | ⟨pc₀, m, hpc, hr⟩
      · exact ⟨rfl, fun _ _ he => by cases he⟩
      · exact claims_commitStep hok hpc (h.main pc₀ hpc).1 hnot hr
    refine ⟨hgo.1, hgo.2, fun alpha beta rest hus ha hb => ?_⟩
    rw [complete_calm hcalm] at ha hb
    exact hnot alpha beta rest hus ha hb

theorem of_change (h : s.PairOk us) (hok : s.TeamOk us fs) (hc : s.Change us fs a s' us' fs')
    (hcond : s.commitsTooEarly a = false) (hs : s.step z a = some s') : s'.PairOk us' := by
  cases hc with
  | calm hcalm =>
      rcases step_cases hs with ⟨_, hm⟩ | ⟨w, hw, hm⟩
      · exact h.calm_main hok hcalm hm
      · exact h.calm_worker hok hcalm hcond hw hm
  | restart hempty resting =>
      rw [hempty]
      exact empty (fun pc he => by cases he)
  | old asks unclaimed used iteration => exact h.old hok asks iteration
  | new asks unclaimed created order => exact h.new hok asks created
  | merge pc => exact h.merge hok pc
  | @claim k alpha beta rest pc front alphaType betaType =>
      cases k with
      | worker w ret => exact h.claim hok pc front alphaType betaType
      | main => exact absurd betaType ((h.main _ pc).2.2 alpha beta rest front alphaType)
  | combined pc claim type iteration numWorkers =>
      obtain ⟨w, ret, rfl⟩ := h.worker_of_claims pc (by simp [CommitPc.claims])
      exact h.combine hok pc claim iteration
  | conflict pc claim type iteration numWorkers =>
      obtain ⟨w, ret, rfl⟩ := h.worker_of_claims pc (by simp [CommitPc.claims])
      exact h.combine hok pc claim iteration
  | retire pc claim front =>
      obtain ⟨w, ret, rfl⟩ := h.worker_of_claims pc (by simp [CommitPc.claims])
      exact h.retire hok pc front
  | free main front => exact h.free hok main front

end PairOk

/-! ## Runs -/

/-- Every call of `__specpriv_misspec_at` so far was one of a worker. -/
def WorkersOnly (s : Team cfg) : Prop :=
  ∀ k ∈ s.misspecBy, ∃ w : Fin cfg.numWorkers, k = some w

theorem WorkersOnly.misspecAt (h : s.WorkersOnly) (w : Fin cfg.numWorkers) (iter : ℕ) :
    (s.misspecAt w iter).WorkersOnly := by
  intro k hk
  rcases List.mem_cons.1 hk with rfl | hk
  · exact ⟨w, rfl⟩
  · exact h k hk

theorem WorkersOnly.workerStep (h : s.WorkersOnly) (hs : workerStep z s a = some s') :
    s'.WorkersOnly := by
  cases a with
  | beginInvocation | trigger | almostDone | allDone | mainCommit | adopt | squash => cases hs
  | recovered exits => cases hs
  | start v | poll v | wake v =>
      simp only [Team.workerStep] at hs
      split at hs
      · cases hs
        exact h
      · cases hs
  | checkpoint v iter b =>
      simp only [Team.workerStep] at hs
      split_ifs at hs
      · cases hs
        exact WorkersOnly.misspecAt (s := s.setMember v _) h v iter
      · cases hs
        exact h
  | misspec v iter =>
      simp only [Team.workerStep] at hs
      split_ifs at hs
      cases hs
      exact WorkersOnly.misspecAt (s := s.setMember v _) h v iter
  | leave v iter | teardown v | setFlag v =>
      simp only [Team.workerStep] at hs
      split_ifs at hs
      cases hs
      exact h
  | get v | retry v =>
      simp only [Team.workerStep] at hs
      split at hs
      · cases hs
        unfold Team.requested
        split <;> exact h
      · cases hs
  | giveUp v =>
      simp only [Team.workerStep] at hs
      split at hs
      · split_ifs at hs
        cases hs
        exact h.misspecAt v _
      · cases hs
  | lock v =>
      simp only [Team.workerStep] at hs
      split at hs
      · split_ifs at hs
        cases hs
        exact h
      · cases hs
  | merge v p behind copied =>
      simp only [Team.workerStep] at hs
      split at hs
      · cases hs
        exact h
      · cases hs
  | commit v =>
      simp only [Team.workerStep] at hs
      split at hs
      · rename_i pc ret hpc
        obtain ⟨r, _, rfl⟩ := Option.map_eq_some_iff.1 hs
        cases r with
        | next m pc' => cases pc <;> exact h
        | returns m | abort => exact h
        | misspecAt m iter => exact WorkersOnly.misspecAt (s := s.setManager m) h v iter
      · cases hs

/-- The main process calls `__specpriv_misspec_at` behind a failed combination only. -/
theorem WorkersOnly.mainStep (h : s.WorkersOnly)
    (hmain : ∀ alpha beta, s.main ≠ .commit (.conflict alpha beta))
    (hs : s.mainStep a = some s') : s'.WorkersOnly := by
  cases a with
  | beginInvocation | almostDone | allDone =>
      simp only [Team.mainStep] at hs
      split_ifs at hs
      cases hs
      exact h
  | trigger =>
      simp only [Team.mainStep] at hs
      split at hs
      · split_ifs at hs
        all_goals
          cases hs
          exact h
      · cases hs
  | mainCommit =>
      simp only [Team.mainStep] at hs
      split at hs
      · rename_i pc hpc
        obtain ⟨r, hr, rfl⟩ := Option.map_eq_some_iff.1 hs
        cases r with
        | next m pc' => cases pc <;> exact h
        | returns m | abort => exact h
        | misspecAt m iter =>
            cases pc with
            | conflict alpha beta => exact absurd hpc (hmain alpha beta)
            | readFirst | readNext x =>
                simp only [Config.commitStep] at hr
                split at hr <;> cases hr
            | readAlpha x | readBeta x y | lockAlpha x y | lockBeta x y | recheck x y
            | retire x y =>
                simp only [Config.commitStep] at hr
                split_ifs at hr <;> cases hr
            | combine x y =>
                simp only [Config.commitStep] at hr
                split at hr <;> cases hr
            | unlock x y => cases hr
      · cases hs
  | adopt =>
      simp only [Team.mainStep] at hs
      split_ifs at hs
      split at hs
      · split_ifs at hs
        all_goals
          cases hs
          exact h
      · cases hs
        exact h
  | squash =>
      simp only [Team.mainStep] at hs
      by_cases hsq : s.main = .squash
      · rw [if_pos hsq] at hs
        split at hs
        all_goals
          cases hs
          exact h
      · rw [if_neg hsq] at hs
        cases hs
  | recovered exits =>
      simp only [Team.mainStep] at hs
      split_ifs at hs
      all_goals
        cases hs
        exact h
  | start v | get v | giveUp v | poll v | wake v | retry v | lock v | commit v | teardown v
  | setFlag v => cases hs
  | checkpoint v iter b => cases hs
  | misspec v iter | leave v iter => cases hs
  | merge v p behind copied => cases hs

theorem WorkersOnly.step (h : s.WorkersOnly) (hpair : s.PairOk us) (hs : s.step z a = some s') :
    s'.WorkersOnly := by
  rcases step_cases hs with ⟨_, hm⟩ | ⟨w, _, hm⟩
  · exact h.mainStep (fun alpha beta hc => (hpair.main _ hc).2.1 alpha beta rfl) hm
  · exact h.workerStep hm

/-- In every run in which no worker begins the commit of the third checkpoint while the two oldest
ones are being combined, only workers execute `__specpriv_misspec_at`. -/
theorem error_path_of_workers (z : Sizes) (chkpt : ℕ → Checkpoint) (reduxUsed : ℕ → ℕ)
    (h : Run (step z) (fun s a => s.commitsTooEarly a = false) (initial cfg chkpt reduxUsed) s) :
    s.WorkersOnly := by
  obtain ⟨us, fs, _, _, honly⟩ := h.invariant
    (fun s : Team cfg => ∃ us fs, s.TeamOk us fs ∧ s.PairOk us ∧ s.WorkersOnly)
    ⟨[], [], .initial cfg chkpt reduxUsed, PairOk.empty (fun pc he => by cases he),
      fun k hk => by cases hk⟩ (by
      rintro s a s' ⟨us, fs, hok, hpair, honly⟩ hcond hs
      obtain ⟨us', fs', hc, hok'⟩ := hok.step hs
      exact ⟨us', fs', hok', hpair.of_change hok hc hcond hs, honly.step hpair hs⟩)
  exact honly

/-- A worker that has written byte 0 of the private heap, and one that has read it. -/
def touches (mark : UInt8) : Speculative :=
  { Loop.idleProc.spec with
    worker := ⟨fun _ => 0, fun i => if i = 0 then mark else liveIn, ⟨0, 1⟩, 0, 0, 0, 0, 0⟩ }

/-- Worker 0 merges into three checkpoints and then combines the first two, which worker 1 has
completed; worker 0 has written byte 0 before the second one. -/
def claimsTwo : List (TeamAction pair) :=
  startPair ++ mergesAt 0 252 2 ++
    [.checkpoint (0 : Fin 2) 504 false, .get (0 : Fin 2), .lock (0 : Fin 2),
      .merge (0 : Fin 2) (touches 3) [] 0, .commit (0 : Fin 2), .commit (0 : Fin 2)] ++
    mergesAt 0 756 0 ++ mergesAt 1 252 4 ++ mergesAt 1 504 0 ++
    List.replicate 7 (.commit (0 : Fin 2)) ++ List.replicate 2 (.commit (1 : Fin 2))

/-- Worker 1, which has read byte 0, completes the third checkpoint. -/
def completesThird : List (TeamAction pair) :=
  [.checkpoint (1 : Fin 2) 756 false, .get (1 : Fin 2), .lock (1 : Fin 2),
    .merge (1 : Fin 2) (touches readLiveIn) [] 0]

/-- Both workers misspeculate, and the main process commits. -/
def bothLeave : List (TeamAction pair) :=
  [.misspec (1 : Fin 2) 757, .teardown (1 : Fin 2), .setFlag (1 : Fin 2),
    .misspec (0 : Fin 2) 756, .teardown (0 : Fin 2), .setFlag (0 : Fin 2), .almostDone, .allDone]

theorem error_path_of_workers_bothLeave : ∃ s : Team pair,
    Run (step pairSizes) (fun s a => s.commitsTooEarly a = false) pairStart s ∧
      s.misspecBy.length = 2 ∧ s.WorkersOnly := by
  have hreplay : (Run.replay (step pairSizes) (fun s a => s.commitsTooEarly a = false) pairStart
      (claimsTwo ++ List.replicate 3 (.commit (0 : Fin 2)) ++ bothLeave)).any
      (fun s => decide (s.misspecBy.length = 2)) = true := by
    decide +kernel
  obtain ⟨s, hrun, hs⟩ := Run.exists_of_any hreplay
  exact ⟨s, hrun, of_decide_eq_true hs, error_path_of_workers pairSizes _ _ hrun⟩

/-- Worker 1 looks at the list while worker 0 combines the first two checkpoints, so the second and
the third one stay behind; the main process finds their conflict. -/
theorem main_misspeculates : ¬ ∀ (cfg : Config) (z : Sizes) (chkpt : ℕ → Checkpoint)
    (reduxUsed : ℕ → ℕ) (s : Team cfg),
    Run (step z) (fun _ _ => True) (initial cfg chkpt reduxUsed) s → s.WorkersOnly := by
  intro hall
  have hreplay : (Run.replay (step pairSizes) (fun _ _ => True) pairStart
      (claimsTwo ++ completesThird ++ List.replicate 2 (.commit (1 : Fin 2)) ++
        List.replicate 3 (.commit (0 : Fin 2)) ++ bothLeave ++ List.replicate 9 .mainCommit)).any
      (fun s => decide (none ∈ s.misspecBy)) = true := by
    decide +kernel
  obtain ⟨s, hrun, hs⟩ := Run.exists_of_any hreplay
  obtain ⟨w, hw⟩ := hall pair pairSizes _ _ s hrun none (of_decide_eq_true hs)
  cases hw

end Cpf.Executive.Team
