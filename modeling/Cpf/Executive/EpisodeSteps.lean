import Cpf.Executive.Ledger

/-!
# The invariant of a parallel region

`EpisodeOk` ties the workers and the checkpoints in use together; the number of checkpoints that
have been combined away is the number of those whose output was written. Every step of a worker
keeps it.
-/

namespace Cpf.Executive

open Loop

/-- The first iteration whose effects the checkpoint of group `m` holds, if those of the groups
before `k` have been combined into that of group `k`. -/
def Loop.low (cfg : Config) (first k m : ℕ) : ℕ := if m = k then first else groupStart cfg first m

theorem Loop.low_self (cfg : Config) (first k : ℕ) : low cfg first k k = first := if_pos rfl

theorem Loop.low_of_ne {cfg : Config} {first k m : ℕ} (h : m ≠ k) :
    low cfg first k m = groupStart cfg first m := if_neg h

namespace State

variable {cfg : Config}

def merges (s : State cfg) (w : Fin cfg.numWorkers) : ℕ := (s.procs w).merges

/-- The oldest checkpoint can no longer be adopted, and every worker is behind its boundary. -/
def FrontLost (s : State cfg) : Prop :=
  ∃ c cs, s.used = c :: cs ∧ c.type ≠ .clComplete ∧ ∀ w, s.emitted.length < s.merges w

end State

/-- What holds while the workers run. -/
structure EpisodeOk {cfg : Config} (loop : Loop cfg) (s : State cfg) : Prop where
  procs : ∀ w, ProcOk loop s.firstIteration s.misspeculationHappened w (s.procs w)
  groups : Numbered (fun m c => GroupOk loop s.firstIteration s.misspeculationHappened s.merges
    s.effects (low cfg s.firstIteration s.emitted.length m) m c) s.emitted.length s.used
  passed : 0 < s.emitted.length → ∀ w, s.emitted.length < s.merges w
  merges_le : ∀ w, s.merges w ≤ s.emitted.length + s.used.length
  length_le : s.emitted.length + s.used.length ≤ loop.numGroups s.firstIteration
  unused : ∀ m, s.emitted.length + s.used.length ≤ m → m < loop.numGroups s.firstIteration →
    s.effects (loop.boundary s.firstIteration m) = []
  emitted : s.emitted = (List.range s.emitted.length).map (loop.boundary s.firstIteration)
  adopted : s.adopted = []
  misspec : s.misspeculationHappened = true → s.firstIteration ≤ s.misspeculatedIteration ∧
    ((∃ w, (s.procs w).pc = .done ∧ (s.procs w).currentIter = s.misspeculatedIteration ∧
      s.merges w < loop.numGroups s.firstIteration) ∨ s.FrontLost)

namespace EpisodeOk

variable {cfg : Config} {loop : Loop cfg} {s : State cfg} {w : Fin cfg.numWorkers} {p : Proc}

theorem emitted_le (h : EpisodeOk loop s) (w : Fin cfg.numWorkers) :
    s.emitted.length ≤ s.merges w := by
  rcases Nat.eq_zero_or_pos s.emitted.length with hz | hpos
  · rw [hz]
    exact Nat.zero_le _
  · exact (h.passed hpos w).le

theorem merges_setProc (hm : p.merges = (s.procs w).merges) : (s.setProc w p).merges = s.merges := by
  funext v
  by_cases hv : v = w
  · subst v
    simp [State.merges, State.setProc, hm]
  · simp [State.merges, State.setProc, Function.update_of_ne hv]

/-- A step of one worker that merges nothing. The worker may stop, unless it is the one that the
misspeculation is attributed to. -/
theorem setProc (h : EpisodeOk loop s)
    (hp : ProcOk loop s.firstIteration s.misspeculationHappened w p)
    (hm : p.merges = (s.procs w).merges) (hpc : (s.procs w).pc ≠ .done) :
    EpisodeOk loop (s.setProc w p) := by
  have hmerges := merges_setProc (s := s) (w := w) hm
  have hproc : ∀ v, v ≠ w → (s.setProc w p).procs v = s.procs v :=
    fun v hv => Function.update_of_ne hv _ _
  refine ⟨fun v => ?_, ?_, ?_, ?_, h.length_le, h.unused, h.emitted, h.adopted,
    fun hmis => ?_⟩
  · by_cases hv : v = w
    · subst v
      rw [show (s.setProc w p).procs w = p from Function.update_self _ _ _]
      exact hp
    · rw [hproc v hv]
      exact h.procs v
  · rw [hmerges]
    exact h.groups
  · rw [hmerges]
    exact h.passed
  · rw [hmerges]
    exact h.merges_le
  · obtain ⟨hle, hor⟩ := h.misspec hmis
    refine ⟨hle, ?_⟩
    rcases hor with ⟨v, hv, hcur, hlt⟩ | ⟨c, cs, hused, htype, hall⟩
    · have hvw : v ≠ w := by
        rintro rfl
        exact hpc hv
      refine Or.inl ⟨v, ?_, ?_, ?_⟩
      · rw [hproc v hvw]
        exact hv
      · rw [hproc v hvw]
        exact hcur
      · rw [hmerges]
        exact hlt
    · refine Or.inr ⟨c, cs, hused, htype, ?_⟩
      rw [hmerges]
      exact hall

/-- A worker misspeculates at its current iteration, before its last merge. -/
theorem misspecAt (h : EpisodeOk loop s)
    (hlt : s.merges w < loop.numGroups s.firstIteration) :
    EpisodeOk loop (s.misspecAt w (s.procs w).currentIter) := by
  have hmerges : (s.misspecAt w (s.procs w).currentIter).merges = s.merges :=
    merges_setProc (s := s) (w := w) (p := { s.procs w with pc := .done }) rfl
  refine ⟨fun v => ?_, ?_, ?_, ?_, h.length_le, h.unused, h.emitted, h.adopted,
    fun _ => ⟨(h.procs w).first_le, Or.inl ⟨w, ?_, ?_, ?_⟩⟩⟩
  · by_cases hv : v = w
    · subst v
      change ProcOk loop _ true w (Function.update s.procs w _ w)
      rw [Function.update_self]
      exact (h.procs w).stop
    · change ProcOk loop _ true v (Function.update s.procs w _ v)
      rw [Function.update_of_ne hv]
      exact (h.procs v).afterMisspec
  · rw [hmerges]
    exact h.groups.mono (fun i _ _ c hc => hc.afterMisspec)
  · rw [hmerges]
    exact h.passed
  · rw [hmerges]
    exact h.merges_le
  · change (Function.update s.procs w _ w).pc = _
    rw [Function.update_self]
  · change (Function.update s.procs w _ w).currentIter = _
    rw [Function.update_self]
    rfl
  · rw [hmerges]
    exact hlt

/-- Worker `w` is at the end of its part of group `m`, at a boundary or at the end of the loop. -/
def AtGroupEnd (loop : Loop cfg) (s : State cfg) (w : Fin cfg.numWorkers) (iter : ℕ)
    (isFinalCheckpoint : Bool) : Prop :=
  (isFinalCheckpoint = false ∧ s.merges w + 1 < loop.numGroups s.firstIteration ∧
    (s.procs w).currentIter = groupStart cfg s.firstIteration (s.merges w + 1) ∧
    iter = (s.procs w).currentIter) ∨
  (isFinalCheckpoint = true ∧ s.merges w + 1 = loop.numGroups s.firstIteration ∧
    (s.procs w).currentIter = loop.stop s.firstIteration ∧ iter = lastIteration)

theorem atGroupEnd_facts {iter : ℕ} {b : Bool} (hend : AtGroupEnd loop s w iter b) :
    s.merges w < loop.numGroups s.firstIteration ∧
      iter = loop.boundary s.firstIteration (s.merges w) ∧
      (s.procs w).currentIter = loop.groupEnd s.firstIteration (s.merges w) := by
  rcases hend with ⟨_, hlt, hcur, rfl⟩ | ⟨_, hlast, hcur, rfl⟩
  · refine ⟨by omega, ?_, ?_⟩
    · rw [boundary_of_lt hlt, hcur]
    · rw [groupEnd_of_lt hlt, hcur]
  · refine ⟨by omega, ?_, ?_⟩
    · rw [boundary_of_last hlast]
    · rw [groupEnd_of_last hlast, hcur]

theorem procOk_merge {iter : ℕ} {b : Bool} (h : EpisodeOk loop s)
    (hend : AtGroupEnd loop s w iter b) (c : Checkpoint) :
    ProcOk loop s.firstIteration s.misspeculationHappened w
      { s.procs w with
        spec := cfg.afterCheckpoint (s.procs w).spec c
        pc := .commit b
        merges := (s.procs w).merges + 1
        pending := [] } := by
  have hp := h.procs w
  have hpos := cfg.granularity_pos
  have hworker : (cfg.afterCheckpoint (s.procs w).spec c).worker.firstIteration =
      (s.procs w).spec.worker.firstIteration ∧
      (cfg.afterCheckpoint (s.procs w).spec c).worker.checkpointGranularity =
        (s.procs w).spec.worker.checkpointGranularity := by
    unfold Config.afterCheckpoint
    cases cfg.mergePrivate (s.procs w).spec c <;> exact ⟨rfl, rfl⟩
  rcases hend with ⟨rfl, hlt, hcur, _⟩ | ⟨rfl, hlast, hcur, _⟩
  · change (s.procs w).merges + 1 < _ at hlt
    change _ = groupStart cfg s.firstIteration ((s.procs w).merges + 1) at hcur
    refine ⟨hp.le_stop, hlt.le, fun _ => hcur.ge, fun he => absurd he hlt.ne, fun _ => ⟨hlt, ?_⟩,
      by simp, by simp, by simp, ?_, rfl,
      hworker.1.trans hp.first_eq, hworker.2.trans hp.granularity⟩
    · dsimp only
      rw [hcur, groupStart_succ (m := (s.procs w).merges + 1)]
      omega
    · dsimp only
      rw [hcur, forRange_self]
      rfl
  · change (s.procs w).merges + 1 = _ at hlast
    refine ⟨hp.le_stop, hlast.le, fun hlt => absurd hlast hlt.ne, fun _ => hcur, by simp,
      by simp, fun _ => hlast, by simp, ?_, rfl,
      hworker.1.trans hp.first_eq, hworker.2.trans hp.granularity⟩
    · have hgt : loop.stop s.firstIteration ≤ groupStart cfg s.firstIteration ((s.procs w).merges + 1) := by
        by_contra hle
        have hlt := groupStart_le_iff.1 (not_le.1 hle).le
        omega
      dsimp only
      rw [hcur, forRange, Nat.sub_eq_zero_of_le hgt]
      rfl

theorem numbered_mergeInto {P Q : ℕ → Checkpoint → Prop} {bound : ℕ → ℕ}
    {f : Checkpoint → Checkpoint} {fresh : Checkpoint} {used : List Checkpoint} {k t : ℕ}
    (h : Numbered P k used) (hiter : ∀ i c, P i c → c.iteration = bound i)
    (hinj : ∀ i < t, bound i ≠ bound t) (hk : k ≤ t) (ht : t ≤ k + used.length)
    (hself : ∀ c, P t c → Q t (f c)) (hother : ∀ i, i ≠ t → i < k + used.length → ∀ c, P i c → Q i c)
    (hfresh : t = k + used.length → Q t (f fresh)) :
    Numbered Q k (State.mergeInto (bound t) f fresh used) ∧
      k + (State.mergeInto (bound t) f fresh used).length = max (k + used.length) (t + 1) := by
  induction used generalizing k with
  | nil =>
      have hkt : t = k := le_antisymm ht hk
      subst t
      exact ⟨⟨hfresh rfl, trivial⟩, by simp [State.mergeInto]⟩
  | cons c cs ih =>
      obtain ⟨hc, hcs⟩ := h
      rw [List.length_cons] at ht hother hfresh ⊢
      rw [State.mergeInto, hiter k c hc]
      by_cases hkt : k = t
      · subst t
        rw [if_pos rfl]
        refine ⟨⟨hself c hc, hcs.mono (fun i hi hi' a ha => hother i (by omega) (by omega) a ha)⟩, ?_⟩
        rw [List.length_cons]
        omega
      · rw [if_neg (hinj k (by omega))]
        obtain ⟨hrest, hlen⟩ := ih hcs (by omega) (by omega)
          (fun i hne hlt => hother i hne (by omega)) (fun he => hfresh (by omega))
        refine ⟨⟨hother k hkt (by omega) c hc, hrest⟩, ?_⟩
        rw [List.length_cons]
        omega

theorem merges_performCheckpoint (s : State cfg) (w : Fin cfg.numWorkers) (object : Checkpoint)
    (behind : List IOEvt) (iter : ℕ) (b : Bool) :
    (s.performCheckpoint w object behind iter b).merges =
      Function.update s.merges w (s.merges w + 1) := by
  funext v
  by_cases hv : v = w
  · subst v
    simp [State.merges, State.performCheckpoint, State.setProc]
  · simp [State.merges, State.performCheckpoint, State.setProc, Function.update_of_ne hv]

theorem merges_le_update (s : State cfg) (w v : Fin cfg.numWorkers) :
    s.merges v ≤ Function.update s.merges w (s.merges w + 1) v := by
  by_cases hv : v = w
  · subst v
    rw [Function.update_self]
    exact Nat.le_succ _
  · rw [Function.update_of_ne hv]

theorem lt_update_of_ne {i : ℕ} (hi : i ≠ s.merges w) (v : Fin cfg.numWorkers) :
    i < Function.update s.merges w (s.merges w + 1) v ↔ i < s.merges v := by
  by_cases hv : v = w
  · subst v
    rw [Function.update_self]
    omega
  · rw [Function.update_of_ne hv]

/-- A group that a worker has still to merge into is not one that was combined. -/
theorem low_merges (h : EpisodeOk loop s) :
    low cfg s.firstIteration s.emitted.length (s.merges w) =
      groupStart cfg s.firstIteration (s.merges w) := by
  unfold low
  split_ifs with he
  · have hz : s.emitted.length = 0 := by
      by_contra hne
      exact absurd (h.passed (Nat.pos_of_ne_zero hne) w) (by omega)
    rw [he, hz, groupStart_zero]
  · rfl

theorem groups_performCheckpoint (h : EpisodeOk loop s) {iter : ℕ} {b : Bool}
    (hend : AtGroupEnd loop s w iter b) (object : Checkpoint) (behind : List IOEvt) :
    Numbered (fun m c => GroupOk loop s.firstIteration s.misspeculationHappened
        (Function.update s.merges w (s.merges w + 1))
        (Function.update s.effects iter (s.effects iter ++ (s.procs w).pending))
        (low cfg s.firstIteration s.emitted.length m) m c)
      s.emitted.length (s.performCheckpoint w object behind iter b).used ∧
    s.emitted.length + (s.performCheckpoint w object behind iter b).used.length =
      max (s.emitted.length + s.used.length) (s.merges w + 1) := by
  obtain ⟨hlt, hiter, hcur⟩ := atGroupEnd_facts hend
  have hmerge : ∀ c, GroupOk loop s.firstIteration s.misspeculationHappened s.merges s.effects
      (low cfg s.firstIteration s.emitted.length (s.merges w)) (s.merges w) c →
      GroupOk loop s.firstIteration s.misspeculationHappened
        (Function.update s.merges w (s.merges w + 1))
        (Function.update s.effects iter (s.effects iter ++ (s.procs w).pending))
        (low cfg s.firstIteration s.emitted.length (s.merges w)) (s.merges w)
        (cfg.performCheckpointLocked w (s.procs w).currentIter behind (s.procs w).spec c) := by
    intro c hc
    have hresult := hc.merge (h.procs w) rfl rfl h.low_merges hcur behind
    rwa [hc.iteration, ← hiter] at hresult
  have hrest : ∀ i, i ≠ s.merges w → i < s.emitted.length + s.used.length → ∀ c,
      GroupOk loop s.firstIteration s.misspeculationHappened s.merges s.effects
        (low cfg s.firstIteration s.emitted.length i) i c →
      GroupOk loop s.firstIteration s.misspeculationHappened
        (Function.update s.merges w (s.merges w + 1))
        (Function.update s.effects iter (s.effects iter ++ (s.procs w).pending))
          (low cfg s.firstIteration s.emitted.length i) i c := by
    intro i hne hi c hc
    refine hc.congr (lt_update_of_ne hne) (Function.update_of_ne (fun he => hne ?_) _ _)
    rw [hc.iteration, hiter] at he
    exact boundary_inj (lt_of_lt_of_le hi h.length_le) hlt he
  have hfresh : s.merges w = s.emitted.length + s.used.length →
      GroupOk loop s.firstIteration s.misspeculationHappened s.merges s.effects
        (low cfg s.firstIteration s.emitted.length (s.merges w)) (s.merges w)
          (State.freshCheckpoint object iter) := by
    intro he
    rw [hiter]
    exact GroupOk.fresh object (fun v => he ▸ h.merges_le v) (h.unused _ he.ge hlt)
  have hresult := numbered_mergeInto (Q := fun m c => GroupOk loop s.firstIteration
      s.misspeculationHappened (Function.update s.merges w (s.merges w + 1))
      (Function.update s.effects iter (s.effects iter ++ (s.procs w).pending))
        (low cfg s.firstIteration s.emitted.length m) m c)
    h.groups (fun i c hc => hc.iteration) (fun i hi => (boundary_lt hi hlt).ne)
    (h.emitted_le w) (h.merges_le w) hmerge hrest (fun he => hmerge _ (hfresh he))
  rwa [← hiter] at hresult

/-- A merge does not change where a misspeculation comes from. -/
theorem misspec_performCheckpoint (h : EpisodeOk loop s) {iter : ℕ} {b : Bool}
    (hend : AtGroupEnd loop s w iter b) (hpc : (s.procs w).pc ≠ .done) (object : Checkpoint)
    (behind : List IOEvt) (hmis : s.misspeculationHappened = true) :
    (∃ v, ((s.performCheckpoint w object behind iter b).procs v).pc = .done ∧
      ((s.performCheckpoint w object behind iter b).procs v).currentIter =
        s.misspeculatedIteration ∧
      (s.performCheckpoint w object behind iter b).merges v < loop.numGroups s.firstIteration) ∨
      (s.performCheckpoint w object behind iter b).FrontLost := by
  obtain ⟨hlt, hiter, _⟩ := atGroupEnd_facts hend
  rcases (h.misspec hmis).2 with ⟨v, hv, hvcur, hvlt⟩ | ⟨c, cs, hused, htype, hall⟩
  · have hvw : v ≠ w := by
      rintro rfl
      exact hpc hv
    have hproc : (s.performCheckpoint w object behind iter b).procs v = s.procs v :=
      Function.update_of_ne hvw _ _
    refine Or.inl ⟨v, ?_, ?_, ?_⟩
    · rw [hproc]
      exact hv
    · rw [hproc]
      exact hvcur
    · rw [merges_performCheckpoint, Function.update_of_ne hvw]
      exact hvlt
  · have hc := h.groups
    rw [hused] at hc
    have hne : c.iteration ≠ iter := by
      rw [hc.1.iteration, hiter]
      exact (boundary_lt (hall w) hlt).ne
    have hused' : (s.performCheckpoint w object behind iter b).used = c :: State.mergeInto iter
        (cfg.performCheckpointLocked w (s.procs w).currentIter behind (s.procs w).spec)
        (State.freshCheckpoint object iter) cs := by
      change State.mergeInto iter _ _ s.used = _
      rw [hused, State.mergeInto, if_neg hne]
    refine Or.inr ⟨c, _, hused', htype, fun v => ?_⟩
    rw [merges_performCheckpoint]
    exact lt_of_lt_of_le (hall v) (merges_le_update s w v)

/-- A merge, whether or not it finds a conflict. -/
theorem performCheckpoint (h : EpisodeOk loop s) {iter : ℕ} {b : Bool}
    (hend : AtGroupEnd loop s w iter b) (hpc : (s.procs w).pc ≠ .done) (object : Checkpoint)
    (behind : List IOEvt) : EpisodeOk loop (s.performCheckpoint w object behind iter b) := by
  obtain ⟨hlt, hiter, _⟩ := atGroupEnd_facts hend
  obtain ⟨hnum, hlen⟩ := groups_performCheckpoint h hend object behind
  have hmerges := merges_performCheckpoint s w object behind iter b
  refine ⟨fun v => ?_, hmerges ▸ hnum, fun hpos v => ?_, fun v => ?_, ?_,
    fun m hm hm' => ?_, h.emitted, h.adopted, fun hmis => ⟨(h.misspec hmis).1,
      misspec_performCheckpoint h hend hpc object behind hmis⟩⟩
  · by_cases hv : v = w
    · subst v
      rw [show (s.performCheckpoint w object behind iter b).procs w = _ from
        Function.update_self _ _ _]
      exact procOk_merge h hend _
    · rw [show (s.performCheckpoint w object behind iter b).procs v = s.procs v from
        Function.update_of_ne hv _ _]
      exact h.procs v
  · rw [hmerges]
    exact lt_of_lt_of_le (h.passed hpos v) (merges_le_update s w v)
  · rw [hmerges]
    refine le_of_le_of_eq ?_ hlen.symm
    by_cases hv : v = w
    · subst v
      rw [Function.update_self]
      exact le_max_right _ _
    · rw [Function.update_of_ne hv]
      exact le_max_of_le_left (h.merges_le v)
  · exact le_of_eq_of_le hlen (max_le h.length_le hlt)
  · have hmax := le_of_eq_of_le hlen.symm hm
    change Function.update s.effects iter _ _ = []
    rw [Function.update_of_ne (fun he => ?_)]
    · exact h.unused m (le_trans (le_max_left _ _) hmax) hm'
    · rw [hiter] at he
      have heq := boundary_inj hm' hlt he
      have hlast := le_trans (le_max_right (s.emitted.length + s.used.length) (s.merges w + 1)) hmax
      omega

theorem combined (h : EpisodeOk loop s) {used : List Checkpoint} {out : List IOEvt}
    (hc : cfg.commitZeroOrMoreCheckpoints s.used = .combined used out) :
    EpisodeOk loop (s.combined used out) := by
  obtain ⟨alpha, beta, newer, rest, hused, rfl, hat, hbt, hcomb⟩ := Config.commit_combined hc
  have hgroups := h.groups
  have hmle := h.merges_le
  have hlen := h.length_le
  have hunused := h.unused
  rw [hused] at hgroups hmle hlen hunused
  simp only [List.length_cons] at hmle hlen hunused
  obtain ⟨ha, hb, hrest⟩ := hgroups
  rw [low_self] at ha
  rw [low_of_ne (Nat.succ_ne_self _)] at hb
  have hs : s.combined (newer :: rest) out =
      { s with
        used := newer :: rest
        output := s.output ++ out
        effects := Function.update s.effects beta.iteration
          (s.effects alpha.iteration ++ s.effects beta.iteration)
        emitted := s.emitted ++ [alpha.iteration] } := by
    simp only [State.combined, hused]
  have hne : ∀ m, m < loop.numGroups s.firstIteration → m ≠ s.emitted.length + 1 →
      loop.boundary s.firstIteration m ≠ beta.iteration := by
    intro m hm hm' he
    rw [hb.iteration] at he
    exact hm' (boundary_inj hm (by omega) he)
  rw [hs]
  refine ⟨h.procs, ?_, fun _ => ?_, fun w => ?_, ?_, fun m hm hm' => ?_, ?_, h.adopted,
    fun hmis => ?_⟩
  · change Numbered (fun m c => GroupOk loop s.firstIteration s.misspeculationHappened s.merges
      (Function.update s.effects beta.iteration
        (s.effects alpha.iteration ++ s.effects beta.iteration))
      (low cfg s.firstIteration (s.emitted ++ [alpha.iteration]).length m) m c)
      (s.emitted ++ [alpha.iteration]).length (newer :: rest)
    rw [List.length_append, List.length_singleton]
    refine ⟨?_, hrest.mono (fun i hi hi' c hc => ?_)⟩
    · dsimp only
      rw [low_self]
      exact ha.combine (by omega) hb hat hbt hcomb
    · rw [low_of_ne (by omega)] at hc ⊢
      refine hc.congr (fun _ => Iff.rfl) (Function.update_of_ne ?_ _ _)
      rw [hc.iteration]
      exact hne i (by omega) (by omega)
  · rw [List.length_append, List.length_singleton]
    exact hb.passed hbt
  · rw [List.length_append, List.length_singleton, List.length_cons]
    have := hmle w
    change s.merges w ≤ _
    omega
  · rw [List.length_append, List.length_singleton, List.length_cons]
    change _ ≤ loop.numGroups s.firstIteration
    omega
  · rw [List.length_append, List.length_singleton, List.length_cons] at hm
    change m < loop.numGroups s.firstIteration at hm'
    change Function.update s.effects beta.iteration _ (loop.boundary s.firstIteration m) = []
    rw [Function.update_of_ne (hne m hm' (by omega))]
    exact hunused m (by omega) hm'
  · change s.emitted ++ [alpha.iteration] = _
    rw [List.length_append, List.length_singleton, List.range_succ, List.map_append, ← h.emitted,
      ha.iteration]
    rfl
  · obtain ⟨hle, hor⟩ := h.misspec hmis
    refine ⟨hle, hor.imp_right ?_⟩
    rintro ⟨c, cs, hcs, htype, _⟩
    rw [hused] at hcs
    cases hcs
    exact absurd hat htype

/-- The two oldest checkpoints conflict, and worker `w` misspeculates at the newer one. -/
theorem conflict (h : EpisodeOk loop s) {used : List Checkpoint} {i : ℕ}
    (hc : cfg.commitZeroOrMoreCheckpoints s.used = .conflict used i) (w : Fin cfg.numWorkers) :
    EpisodeOk loop (State.misspecAt { s with used := used } w i) := by
  obtain ⟨alpha, beta, rest, img, hused, rfl, rfl, hat, hbt⟩ := Config.commit_conflict hc
  have hgroups := h.groups
  have hmle := h.merges_le
  have hlen := h.length_le
  have hunused := h.unused
  rw [hused] at hgroups hmle hlen hunused
  obtain ⟨ha, hb, hrest⟩ := hgroups
  have hmerges : (State.misspecAt { s with used := { alpha with type := .clFree } ::
      { beta with priv := img, type := .clBroken } :: rest } w beta.iteration).merges = s.merges :=
    merges_setProc (s := s) (w := w) (p := { s.procs w with pc := .done }) rfl
  refine ⟨fun v => ?_, ?_, ?_, ?_, hlen, hunused, h.emitted, h.adopted,
    fun _ => ⟨?_, Or.inr ⟨_, _, rfl, CheckpointLife.noConfusion, ?_⟩⟩⟩
  · by_cases hv : v = w
    · subst v
      change ProcOk loop _ true w (Function.update s.procs w _ w)
      rw [Function.update_self]
      exact (h.procs w).stop
    · change ProcOk loop _ true v (Function.update s.procs w _ v)
      rw [Function.update_of_ne hv]
      exact (h.procs v).afterMisspec
  · rw [hmerges]
    refine ⟨?_, ?_, hrest.mono (fun i _ _ c hc => hc.afterMisspec)⟩
    · exact { ha.afterMisspec with
        passed := fun ht => by cases ht
        complete := fun hf => by cases hf }
    · exact { hb.afterMisspec with
        passed := fun ht => by cases ht
        complete := fun hf => by cases hf }
  · rw [hmerges]
    exact h.passed
  · rw [hmerges]
    exact hmle
  · change s.firstIteration ≤ beta.iteration
    rw [hb.iteration]
    rw [List.length_cons, List.length_cons] at hlen
    exact first_le_boundary (by omega)
  · rw [hmerges]
    exact ha.passed hat

end EpisodeOk
end Cpf.Executive
