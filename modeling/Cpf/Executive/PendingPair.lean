import Cpf.Executive.CheckpointOrder

/-!
# Two complete checkpoints do not stay behind

The worker whose merge completes the second of two checkpoints commits next, so as long as both are
complete some worker is about to combine them. The exception is a worker that completes a third
checkpoint and looks at the list while another one still combines the first two: it finds the oldest
checkpoint claimed and returns, and nobody combines what is left.
-/

namespace Cpf.Executive

/-- The process goes to combine `alpha` and `beta` unless somebody else does. -/
def CommitPc.OnTrack (alpha beta : ℕ) : CommitPc → Prop
  | .readFirst => True
  | .readAlpha x | .readNext x => x = alpha
  | .readBeta x y | .lockAlpha x y | .lockBeta x y | .recheck x y => x = alpha ∧ y = beta
  | .combine _ _ | .conflict _ _ | .retire _ _ | .unlock _ _ => False

namespace Team

variable {cfg : Config} {s s' : Team cfg} {us fs us' fs' : List ℕ} {a : TeamAction cfg}
  {w v : Fin cfg.numWorkers} {z : Sizes} {o c alpha beta : ℕ}

def Complete (s : Team cfg) (o : ℕ) : Prop := (s.checkpoints.chkpt o).type = .clComplete

def iteration (s : Team cfg) (o : ℕ) : ℕ := (s.checkpoints.chkpt o).iteration

/-- Some worker will never merge into the checkpoint `c`: it has asked for its iteration and was
given another object. -/
def Blocked (s : Team cfg) (c : ℕ) : Prop :=
  ∃ v, v ∉ s.merged c ∧ s.iteration c < (s.members v).asked ∧ (s.members v).pc.holding ≠ some c

structure MergedLast (s : Team cfg) (v : Fin cfg.numWorkers) (o : ℕ) (pc : CommitPc) : Prop where
  pc : ∃ b, (s.members v).pc = .commit pc (.merged b o)
  asked : (s.members v).asked = s.iteration o + 1

structure PairOk (s : Team cfg) (us : List ℕ) : Prop where
  requested : ∀ o ∈ us, ∃ v, s.iteration o < (s.members v).asked
  order : us.Pairwise (fun o c => s.iteration o < s.iteration c ∨ s.Blocked c)
  pair : s.main.resting = false → ∀ alpha beta rest, us = alpha :: beta :: rest →
    s.Complete alpha → s.Complete beta → ∃ v pc, s.MergedLast v beta pc ∧ pc.OnTrack alpha beta
  third : ∀ alpha beta c rest, us = alpha :: beta :: c :: rest →
    (∃ v, (s.members v).pc.claims ≠ none) → s.Complete c → ∃ v, s.MergedLast v c .readFirst
  main : ∀ pc, s.main = .commit pc → pc.claims = none ∧ (∀ alpha beta, pc ≠ .conflict alpha beta) ∧
    ∀ alpha beta rest, us = alpha :: beta :: rest → s.Complete alpha → ¬ s.Complete beta

/-- A worker that has merged into the third checkpoint, which is complete, begins its commit while
the two oldest ones are being combined. -/
def commitsTooEarly (s : Team cfg) : TeamAction cfg → Bool
  | .commit w =>
      match (s.members w).pc, s.checkpoints.usedObjects with
      | .commit .readFirst (.merged _ o), _ :: _ :: c :: _ =>
          decide (o = c ∧ (s.checkpoints.chkpt c).type = .clComplete ∧
            ∃ v, (s.members v).pc.claims ≠ none)
      | _, _ => false
  | _ => false

theorem not_complete_of_blocked (h : s.TeamOk us fs) (hc : c ∈ us) (hb : s.Blocked c) :
    ¬ s.Complete c := by
  obtain ⟨v, hv, _⟩ := hb
  intro ht
  have hu : s.merged c = Finset.univ := h.shared.passed c hc ht
  exact hv (by rw [hu]; exact Finset.mem_univ v)

theorem TeamOk.asked_of_complete (h : s.TeamOk us fs) (hc : c ∈ us) (ht : s.Complete c)
    (v : Fin cfg.numWorkers) : s.iteration c < (s.members v).asked := by
  have hu : s.merged c = Finset.univ := h.shared.passed c hc ht
  refine (h.objects c hc).below v ?_
  change v ∈ s.merged c
  rw [hu]
  exact Finset.mem_univ v

/-- A step of worker `w` as the checkpoints `us` see it. -/
structure StepBy (s s' : Team cfg) (us : List ℕ) (w : Fin cfg.numWorkers) : Prop where
  iteration : ∀ c ∈ us, s'.iteration c = s.iteration c
  merged : ∀ c ∈ us, ∀ v, v ∉ s.merged c → (s.members v).pc.holding ≠ some c → v ∉ s'.merged c
  others : ∀ v, v ≠ w → s'.members v = s.members v
  asked : (s.members w).asked ≤ (s'.members w).asked
  holding : ∀ c ∈ us, s.iteration c < (s.members w).asked → (s.members w).pc.holding ≠ some c →
    (s'.members w).pc.holding ≠ some c
  main : s'.main = s.main

theorem StepBy.asked_le (h : s.StepBy s' us w) (v : Fin cfg.numWorkers) :
    (s.members v).asked ≤ (s'.members v).asked := by
  by_cases hv : v = w
  · rw [hv]
    exact h.asked
  · rw [h.others v hv]

theorem StepBy.blocked (h : s.StepBy s' us w) (hc : c ∈ us) (hb : s.Blocked c) : s'.Blocked c := by
  obtain ⟨v, hv, hlt, hh⟩ := hb
  refine ⟨v, h.merged c hc v hv hh, ?_, ?_⟩
  · rw [h.iteration c hc]
    exact lt_of_lt_of_le hlt (h.asked_le v)
  · by_cases hvw : v = w
    · subst v
      exact h.holding c hc hlt hh
    · rw [h.others v hvw]
      exact hh

/-- The worker that merged into `o` last is not the one that makes the step. -/
theorem StepBy.mergedLast (h : s.StepBy s' us w) {pc : CommitPc} (ho : o ∈ us)
    (hlast : s.MergedLast v o pc) (hvw : v ≠ w) : s'.MergedLast v o pc := by
  obtain ⟨⟨b, hpc⟩, hasked⟩ := hlast
  refine ⟨⟨b, ?_⟩, ?_⟩
  · rw [h.others v hvw]
    exact hpc
  · rw [h.others v hvw, h.iteration o ho]
    exact hasked

namespace PairOk

theorem lt_of_complete (h : s.PairOk us) (hok : s.TeamOk us fs) (pre post : List ℕ)
    (hus : us = pre ++ c :: post) (ho : o ∈ pre) (hc : s.Complete c) :
    s.iteration o < s.iteration c := by
  have hpair := h.order
  rw [hus] at hpair
  have hoc := (List.pairwise_append.1 hpair).2.2 o ho c List.mem_cons_self
  refine hoc.resolve_right (fun hb => not_complete_of_blocked hok ?_ hb hc)
  rw [hus]
  exact List.mem_append_right pre List.mem_cons_self

/-- A worker that has merged into `beta` last has not merged into a later checkpoint. -/
theorem not_complete_behind (h : s.PairOk us) (hok : s.TeamOk us fs) {rest : List ℕ}
    (hus : us = alpha :: beta :: c :: rest) {b : ℕ} (hb : b = alpha ∨ b = beta)
    (hasked : (s.members v).asked = s.iteration b + 1) : ¬ s.Complete c := by
  intro hc
  have hmem : b ∈ [alpha, beta] := by rcases hb with rfl | rfl <;> simp
  have hlt := h.lt_of_complete hok [alpha, beta] rest hus hmem hc
  have hcus : c ∈ us := by
    rw [hus]
    simp
  have hbelow := hok.asked_of_complete hcus hc v
  omega

/-- The order and the requests survive a step of a worker. -/
theorem order_stepBy (h : s.PairOk us) (hstep : s.StepBy s' us w) :
    us.Pairwise (fun o c => s'.iteration o < s'.iteration c ∨ s'.Blocked c) := by
  refine h.order.imp_of_mem (fun ho hc hor => ?_)
  rw [hstep.iteration _ ho, hstep.iteration _ hc]
  exact hor.imp_right (hstep.blocked hc)

theorem requested_stepBy (h : s.PairOk us) (hstep : s.StepBy s' us w) :
    ∀ o ∈ us, ∃ v, s'.iteration o < (s'.members v).asked := by
  intro o ho
  obtain ⟨v, hv⟩ := h.requested o ho
  refine ⟨v, ?_⟩
  rw [hstep.iteration o ho]
  exact lt_of_lt_of_le hv (hstep.asked_le v)

end PairOk

/-! ## The steps of the workers -/

theorem ne_of_mergedLast {pc : CommitPc} (hlast : s.MergedLast v o pc)
    (hw : ∀ pc' b, (s.members w).pc ≠ .commit pc' (.merged b o)) : v ≠ w := by
  rintro rfl
  obtain ⟨b, hpc⟩ := hlast.pc
  exact hw pc b hpc

/-- A commit of the main process comes after the workers. -/
theorem main_ne_commit (hrun : s.main.resting = false) (pc : CommitPc) : s.main ≠ .commit pc := by
  intro hm
  rw [hm] at hrun
  cases hrun

theorem stepBy_grant (hok : s.TeamOk us fs) {b : Bool} (hask : (s.members w).pc.asking = some b)
    (hiter : s'.iteration o = effectiveIter (s.members w) b)
    (hsame : ∀ c ∈ us, s'.iteration c = s.iteration c)
    (hmerged : ∀ c ∈ us, s'.merged c = s.merged c)
    (hmem : s'.members = (s.grant w b o).members) (hmain : s'.main = s.main) :
    s.StepBy s' us w := by
  have hle := (hok.members w).asking b hask
  refine ⟨hsame, fun c hc v hv _ => by rwa [hmerged c hc], fun v hv => ?_, ?_, fun c hc hlt _ => ?_,
    hmain⟩
  · rw [hmem]
    exact s.setMember_of_ne _ hv
  · rw [hmem]
    simp only [grant, setMember_self]
    omega
  · rw [hmem]
    simp only [grant, setMember_self, WorkerPc.holding, ne_eq, Option.some.injEq]
    rintro rfl
    rw [hsame o hc] at hiter
    omega

namespace PairOk

/-- What is left to show for a step of a worker: the pair and the third checkpoint. -/
theorem of_stepBy (h : s.PairOk us) (hstep : s.StepBy s' us w) (hrun : s.main.resting = false)
    (hpair : ∀ alpha beta rest, us = alpha :: beta :: rest → s'.Complete alpha → s'.Complete beta →
      ∃ v pc, s'.MergedLast v beta pc ∧ pc.OnTrack alpha beta)
    (hthird : ∀ alpha beta c rest, us = alpha :: beta :: c :: rest →
      (∃ v, (s'.members v).pc.claims ≠ none) → s'.Complete c → ∃ v, s'.MergedLast v c .readFirst) :
    s'.PairOk us where
  requested := h.requested_stepBy hstep
  order := h.order_stepBy hstep
  pair _ := hpair
  third := hthird
  main pc hm := by
    rw [hstep.main] at hm
    exact absurd hm (main_ne_commit hrun pc)

theorem pair_kept (h : s.PairOk us) (hstep : s.StepBy s' us w) (hrun : s.main.resting = false)
    {rest : List ℕ} (hus : us = alpha :: beta :: rest)
    (hidle : ∀ pc b, (s.members w).pc ≠ .commit pc (.merged b beta))
    (ha : s.Complete alpha) (hb : s.Complete beta) :
    ∃ v pc, s'.MergedLast v beta pc ∧ pc.OnTrack alpha beta := by
  obtain ⟨v, pc, hlast, htrack⟩ := h.pair hrun alpha beta rest hus ha hb
  have hbeta : beta ∈ us := by
    rw [hus]
    simp
  exact ⟨v, pc, hstep.mergedLast hbeta hlast (ne_of_mergedLast hlast hidle), htrack⟩

theorem third_kept (h : s.PairOk us) (hstep : s.StepBy s' us w) {rest : List ℕ}
    (hus : us = alpha :: beta :: c :: rest)
    (hidle : ∀ b, (s.members w).pc ≠ .commit .readFirst (.merged b c))
    (hcl : ∃ v, (s.members v).pc.claims ≠ none) (hc : s.Complete c) :
    ∃ v, s'.MergedLast v c .readFirst := by
  obtain ⟨v, hlast⟩ := h.third alpha beta c rest hus hcl hc
  have hcus : c ∈ us := by
    rw [hus]
    simp
  refine ⟨v, hstep.mergedLast hcus hlast ?_⟩
  rintro rfl
  obtain ⟨b, hpc⟩ := hlast.pc
  exact hidle b hpc

/-- A worker that claims nothing after its step is not the one that claims. -/
theorem claims_of_stepBy (hstep : s.StepBy s' us w) (hw : (s'.members w).pc.claims = none)
    (hcl : ∃ v, (s'.members v).pc.claims ≠ none) : ∃ v, (s.members v).pc.claims ≠ none := by
  obtain ⟨v, hv⟩ := hcl
  refine ⟨v, ?_⟩
  rw [← hstep.others v]
  · exact hv
  · rintro rfl
    exact hv hw

theorem ne_commit_of_asking {b : Bool} (hask : (s.members w).pc.asking = some b) (pc : CommitPc)
    (b' : Bool) : (s.members w).pc ≠ .commit pc (.merged b' o) := by
  intro hpc
  rw [hpc] at hask
  cases hask

theorem old (h : s.PairOk us) (hok : s.TeamOk us fs) {b : Bool}
    (hask : (s.members w).pc.asking = some b)
    (hiter : (s.checkpoints.chkpt o).iteration = effectiveIter (s.members w) b) :
    (s.grant w b o).PairOk us := by
  have hstep : s.StepBy (s.grant w b o) us w :=
    stepBy_grant hok hask hiter (fun _ _ => rfl) (fun _ _ => rfl) rfl rfl
  have hrun := hok.main_of_busy (TeamOk.busy_of_asking hask)
  refine h.of_stepBy hstep hrun (fun alpha beta rest hus ha hb => ?_)
    (fun alpha beta c rest hus hcl hc => ?_)
  · exact h.pair_kept hstep hrun hus (ne_commit_of_asking hask) ha hb
  · refine h.third_kept hstep hus (ne_commit_of_asking hask _) (claims_of_stepBy hstep ?_ hcl) hc
    simp [grant, WorkerPc.claims]

/-- What stands before the last object. -/
theorem front_of_append (pre : List ℕ) {rest : List ℕ} (h : us ++ [o] = pre ++ c :: rest) (hne : c ≠ o) :
    ∃ rest', us = pre ++ c :: rest' := by
  rcases List.eq_nil_or_concat rest with rfl | ⟨r, x, rfl⟩
  · have hlast := (List.append_inj' h rfl).2
    exact absurd (List.cons.inj hlast).1.symm hne
  · have hsplit : us ++ [o] = (pre ++ c :: r) ++ [x] := by
      rw [h]
      simp
    exact ⟨r, (List.append_inj' hsplit rfl).1⟩

/-- A new checkpoint: if it is not the latest one, somebody else has asked for a later one and will
not merge into it. -/
theorem new (h : s.PairOk us) (hok : s.TeamOk us fs) {b : Bool} {m : Manager}
    (hask : (s.members w).pc.asking = some b)
    (hc : s.checkpoints.Created us fs (effectiveIter (s.members w) b) o m fs') :
    (s.requested w b (.new o m)).PairOk (us ++ [o]) := by
  set t := s.requested w b (.new o m) with ht
  have hother : ∀ c ∈ us, c ≠ o := fun c hcus he => hc.fresh (he ▸ hcus)
  have hiter : ∀ c ∈ us, t.iteration c = s.iteration c := fun c hcus =>
    congrArg Checkpoint.iteration (hc.others c (hother c hcus))
  have hmerged : ∀ c ∈ us, t.merged c = s.merged c := fun c hcus =>
    Function.update_of_ne (hother c hcus) _ _
  have hcomplete : ∀ c ∈ us, t.Complete c → s.Complete c := fun c hcus htype => by
    rw [Complete, ← hc.others c (hother c hcus)]
    exact htype
  have hnew : ¬ t.Complete o := fun htype => by
    rw [Complete, show (t.checkpoints.chkpt o).type = _ from hc.type] at htype
    cases htype
  have hstep : s.StepBy t us w := stepBy_grant hok hask hc.iteration hiter hmerged rfl rfl
  have hrun := hok.main_of_busy (TeamOk.busy_of_asking hask)
  have hle := (hok.members w).asking b hask
  refine ⟨fun q hq => ?_, ?_, fun _ alpha beta rest hus ha hb => ?_,
    fun alpha beta c rest hus hcl htype => ?_, fun pc hm => ?_⟩
  · rcases List.mem_append.1 hq with hq | hq
    · exact h.requested_stepBy hstep q hq
    · rw [List.mem_singleton.1 hq]
      refine ⟨w, ?_⟩
      rw [show t.iteration o = _ from hc.iteration]
      simp [ht, Team.requested, grant, setManager]
  · refine List.pairwise_append.2 ⟨h.order_stepBy hstep, List.pairwise_singleton _ _,
      fun q hq c hcs => ?_⟩
    rw [List.mem_singleton.1 hcs, show t.iteration o = _ from hc.iteration, hiter q hq]
    by_cases hlt : s.iteration q < effectiveIter (s.members w) b
    · exact Or.inl hlt
    · obtain ⟨v, hv⟩ := h.requested q hq
      have hvw : v ≠ w := by
        rintro rfl
        omega
      refine Or.inr ⟨v, ?_, ?_, ?_⟩
      · simp [ht, Team.requested]
      · rw [show t.iteration o = _ from hc.iteration, hstep.others v hvw]
        omega
      · rw [hstep.others v hvw]
        exact fun hh => hc.fresh ((hok.members v).holding o hh).1
  · obtain ⟨rest', hus'⟩ := front_of_append [alpha] hus (fun he => hnew (he ▸ hb))
    refine h.pair_kept hstep hrun hus' (ne_commit_of_asking hask) (hcomplete alpha ?_ ha)
      (hcomplete beta ?_ hb)
    all_goals
      rw [hus']
      simp
  · obtain ⟨rest', hus'⟩ := front_of_append [alpha, beta] hus
      (fun he => hnew (he ▸ htype))
    have hcus : c ∈ us := by
      rw [hus']
      simp
    refine h.third_kept hstep hus' (ne_commit_of_asking hask _) (claims_of_stepBy hstep ?_ hcl)
      (hcomplete c hcus htype)
    simp [ht, Team.requested, grant, WorkerPc.claims]
  · exact absurd hm (main_ne_commit hrun pc)

theorem merge (h : s.PairOk us) (hok : s.TeamOk us fs) {b : Bool} {p : Speculative}
    {behind : List IOEvt} {copied : ℕ} (hpc : (s.members w).pc = .merge b o) :
    (s.performCheckpoint w b o p behind copied).PairOk us := by
  have hinto := TeamOk.mergeInto_performCheckpoint s us fs w b o p behind copied
  set t := s.performCheckpoint w b o p behind copied with ht
  obtain ⟨hous, hnot, hasked⟩ := (hok.members w).holding o (by rw [hpc]; rfl)
  have hmine : t.members w =
      { s.members w with pc := .commit .readFirst (.merged b o) } := by
    simp [ht, performCheckpoint, setPc, setManager, setMember]
  have hiter : ∀ q, t.iteration q = s.iteration q := fun q => hinto.iteration_eq q
  have hrun := hok.main_of_busy (w := w) (by simp [hpc])
  have hidle : ∀ q pc b', (s.members w).pc ≠ .commit pc (.merged b' q) := fun q pc b' he => by
    rw [hpc] at he
    cases he
  have hstep : s.StepBy t us w := by
    refine ⟨fun c _ => hiter c, fun c _ v hv hh => ?_, fun v hv => ?_, ?_, fun c _ _ _ => ?_, rfl⟩
    · by_cases hco : c = o
      · subst c
        have hvw : v ≠ w := by
          rintro rfl
          exact hh (by rw [hpc]; rfl)
        simpa [ht, performCheckpoint, hvw] using hv
      · simpa [ht, performCheckpoint, hco] using hv
    · simp [ht, performCheckpoint, setPc, setManager, setMember, hv]
    · rw [hmine]
    · rw [hmine]
      exact fun he => by cases he
  have hcomplete : ∀ q, q ≠ o → t.Complete q → s.Complete q := fun q hq htype => by
    have hsame : t.checkpoints.chkpt q = s.checkpoints.chkpt q := hinto.others q hq
    rw [Complete, ← hsame]
    exact htype
  have hlast : t.MergedLast w o .readFirst := by
    refine ⟨⟨b, by rw [hmine]⟩, ?_⟩
    rw [hmine, hiter o]
    exact hasked
  refine h.of_stepBy hstep hrun (fun alpha beta rest hus ha hb => ?_)
    (fun alpha beta c rest hus hcl hc => ?_)
  · by_cases hbo : beta = o
    · subst beta
      exact ⟨w, .readFirst, hlast, trivial⟩
    · by_cases hao : alpha = o
      · -- everybody has merged into `beta`, so worker `w` has asked for more than `alpha`
        subst alpha
        have hbs := hcomplete beta hbo hb
        have hlt := h.lt_of_complete hok [o] rest hus List.mem_cons_self hbs
        have hbus : beta ∈ us := by
          rw [hus]
          simp
        have hbelow := hok.asked_of_complete hbus hbs w
        change (s.members w).asked = s.iteration o + 1 at hasked
        omega
      · exact h.pair_kept hstep hrun hus (hidle beta) (hcomplete alpha hao ha)
          (hcomplete beta hbo hb)
  · by_cases hco : c = o
    · subst c
      exact ⟨w, hlast⟩
    · refine h.third_kept hstep hus (hidle c _) (claims_of_stepBy hstep ?_ hcl)
        (hcomplete c hco hc)
      rw [hmine]
      rfl

end PairOk

end Team
end Cpf.Executive
