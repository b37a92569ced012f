import Cpf.Executive.Recovery
import Cpf.Executive.SharePrivate

/-!
# The steps of the workers and the share-private heap

`ShareEpisode` holds while the workers run: the main process has the values of the iterations before
the start, every worker those of its own iterations, and every checkpoint those of the merges into it.
-/

namespace Cpf.Executive

open Loop

variable {cfg : Config} {loop : ShareLoop cfg} {start : Heap} {t t' : Sharing cfg} {s : State cfg}
  {stored stored' : ℕ → Option UInt8} {w : Fin cfg.numWorkers} {p p' : Proc} {first : ℕ} {base : Heap}

/-- What holds between a start of the workers and the next join. -/
structure ShareEpisode (loop : ShareLoop cfg) (start : Heap) (t : Sharing cfg) : Prop where
  startOk : StartOk t.state
  main : ∀ k, t.state.main.sharepriv k =
    if loop.writer k < t.state.firstIteration then (t.stored k).getD (start k) else start k
  procs : ∀ w, ShareProc loop t.state.firstIteration t.state.main.sharepriv t.stored w
    (t.state.procs w)
  groups : Numbered (fun m c => ShareGroup loop t.state.firstIteration t.state.main.sharepriv t.stored
    t.state.merges (low cfg t.state.firstIteration t.state.emitted.length m) m c)
    t.state.emitted.length t.state.used

theorem writer_of_storedAt {ptr i k : ℕ} {bytes : List UInt8} {v : UInt8}
    (hwriter : ∀ j < bytes.length, loop.writer (ptr + j) = i)
    (hv : storedAt ptr bytes k = some v) : loop.writer k = i := by
  obtain ⟨hle, hlt⟩ := lt_of_storedAt hv
  have hk := hwriter (k - ptr) (by omega)
  rwa [Nat.add_sub_cancel' hle] at hk

namespace ShareProc

/-- A worker that goes on and stores nothing. -/
theorem keeps (h : ShareProc loop first base stored w p) (hshare : p'.spec.share = p.spec.share)
    (hmerges : p'.merges = p.merges) (hgoes : p.currentIter < p'.currentIter ∨
      (p'.currentIter = p.currentIter ∧ p'.pc ≠ .checkpoint ∧ ∀ b, p'.pc ≠ .commit b)) :
    ShareProc loop first base stored w p' where
  shadow := by
    rw [hshare]
    exact h.shadow
  priv := by
    rw [hshare]
    exact h.priv
  within := by
    rw [hshare]
    exact h.within
  touched := by
    rw [hshare, hmerges]
    exact h.touched
  executed k v hs hw hf := by
    obtain ⟨hk, ht, hor⟩ := h.executed k v hs hw hf
    refine ⟨hk, ht, ?_⟩
    rcases hgoes with hlt | ⟨he, hcheck, hcommit⟩
    · rcases hor with hlt' | ⟨he, _⟩ <;> exact Or.inl (by omega)
    · rw [he]
      exact hor.imp_right (fun hc => ⟨hc.1, hcheck, hcommit⟩)

theorem stop (h : ShareProc loop first base stored w p) :
    ShareProc loop first base stored w { p with pc := .done } :=
  h.keeps rfl rfl (Or.inr ⟨rfl, Pc.noConfusion, fun _ => Pc.noConfusion⟩)

theorem starts (m : Main) (redux : ReduxHeap) (hr : p.spec.share.range.Within
    cfg.sizeofShareprivate.val) (hnone : ∀ k, first ≤ loop.writer k → stored k = none) :
    ShareProc loop first m.sharepriv stored w (cfg.workerStarts m redux first p) where
  shadow := rfl
  priv k := by
    change m.sharepriv k = _
    split_ifs with hk
    · rw [hnone k hk.2]
      rfl
    · rfl
  within := hr
  touched k v hs _ hle := by
    change groupStart cfg first 0 ≤ _ at hle
    rw [groupStart_zero] at hle
    rw [hnone k hle] at hs
    cases hs
  executed k v hs _ hf := by
    rw [hnone k hf] at hs
    cases hs

theorem store_of_ne (h : ShareProc loop first base stored w p)
    (hsame : ∀ k, loop.owner (loop.writer k) = w → stored' k = stored k) :
    ShareProc loop first base stored' w p where
  shadow := h.shadow
  priv k := by
    rw [h.priv k]
    by_cases hw : loop.owner (loop.writer k) = w
    · rw [hsame k hw]
    · rw [if_neg (fun hc => hw hc.1), if_neg (fun hc => hw hc.1)]
  within := h.within
  touched k v hs hw hle := by
    rw [hsame k hw] at hs
    exact h.touched k v hs hw hle
  executed k v hs hw hf := by
    rw [hsame k hw] at hs
    exact h.executed k v hs hw hf

theorem store (h : ShareProc loop first base stored w p) {ptr : ℕ} {bytes : List UInt8}
    (hpc : p.pc = .iterate) (hlt : p.currentIter < loop.trip) (hw : loop.owner p.currentIter = w)
    (hwriter : ∀ j < bytes.length, loop.writer (ptr + j) = p.currentIter)
    (hsize : ptr + bytes.length ≤ cfg.sizeofShareprivate.val) (hfirst : first ≤ p.currentIter)
    {killpriv : Heap} {redux : ReduxHeap} :
    ShareProc loop first base (fun k => (storedAt ptr bytes k).or (stored k)) w
      { p with spec := { p.spec with
        killpriv := killpriv, share := p.spec.share.storeRange ptr bytes, redux := redux } } := by
  have hat : ∀ {k v}, storedAt ptr bytes k = some v → loop.writer k = p.currentIter :=
    fun hv => writer_of_storedAt hwriter hv
  refine ⟨h.shadow, fun k => ?_, h.within.update cfg.sizeofShareprivate.lt hsize,
    fun k v hs hwk hle => ?_, fun k v hs hwk hf => ?_⟩
  · change (storedAt ptr bytes k).getD (p.spec.share.priv k) = _
    cases hv : storedAt ptr bytes k with
    | none => exact h.priv k
    | some v => rw [if_pos ⟨by rw [hat hv, hw], by rw [hat hv]; exact hfirst⟩, Option.some_or,
        Option.getD_some, Option.getD_some]
  · change (p.spec.share.range.update ptr bytes.length).Covers k
    cases hv : storedAt ptr bytes k with
    | none =>
        rw [hv, Option.none_or] at hs
        exact (h.touched k v hs hwk hle).update ptr bytes.length
    | some u =>
        obtain ⟨hle, hlt⟩ := lt_of_storedAt hv
        exact ShadowRange.covers_update hle hlt
  · cases hv : storedAt ptr bytes k with
    | none =>
        rw [hv, Option.none_or] at hs
        exact h.executed k v hs hwk hf
    | some u =>
        obtain ⟨_, hk⟩ := lt_of_storedAt hv
        refine ⟨by omega, by rw [hat hv]; exact hlt, Or.inr ⟨hat hv, ?_, fun b => ?_⟩⟩
        · simp [hpc]
        · simp [hpc]

end ShareProc

namespace ShareEpisode

/-- Only the misspeculation flag has changed. -/
theorem congr (h : ShareEpisode loop start t) (hstored : t'.stored = t.stored)
    (hmain : t'.state.main = t.state.main)
    (hfirst : t'.state.firstIteration = t.state.firstIteration)
    (hprocs : t'.state.procs = t.state.procs) (hemitted : t'.state.emitted = t.state.emitted)
    (hused : t'.state.used = t.state.used) : ShareEpisode loop start t' := by
  have hmerges : t'.state.merges = t.state.merges := by
    funext w
    rw [State.merges, State.merges, hprocs]
  constructor
  · rw [StartOk, hmain, hfirst]
    exact h.startOk
  · rw [hmain, hfirst, hstored]
    exact h.main
  · rw [hmain, hfirst, hstored, hprocs]
    exact h.procs
  · rw [hmain, hfirst, hstored, hmerges, hemitted, hused]
    exact h.groups

/-- A step of one worker that merges nothing. -/
theorem setProc (h : ShareEpisode loop start t)
    (hp : ShareProc loop t.state.firstIteration t.state.main.sharepriv t.stored w p)
    (hm : p.merges = (t.state.procs w).merges) :
    ShareEpisode loop start ⟨t.state.setProc w p, t.stored⟩ where
  startOk := h.startOk
  main := h.main
  procs v := by
    by_cases hv : v = w
    · subst v
      change ShareProc _ _ _ _ _ (Function.update t.state.procs w p w)
      rw [Function.update_self]
      exact hp
    · change ShareProc _ _ _ _ _ (Function.update t.state.procs w p v)
      rw [Function.update_of_ne hv]
      exact h.procs v
  groups := by
    dsimp only
    rw [EpisodeOk.merges_setProc hm]
    exact h.groups

theorem misspecAt (h : ShareEpisode loop start t) (w : Fin cfg.numWorkers) (i : ℕ) :
    ShareEpisode loop start ⟨t.state.misspecAt w i, t.stored⟩ :=
  (h.setProc (h.procs w).stop rfl).congr rfl rfl rfl rfl rfl rfl

/-- The values of the iteration that worker `w` executes have changed. -/
theorem store (h : ShareEpisode loop start t) (hep : EpisodeOk loop.toLoop t.state)
    (hpc : (t.state.procs w).pc = .iterate) (hw : loop.owner (t.state.procs w).currentIter = w)
    (hnew : ∀ k, loop.writer k ≠ (t.state.procs w).currentIter → stored' k = t.stored k)
    (hp : ShareProc loop t.state.firstIteration t.state.main.sharepriv stored' w p)
    (hm : p.merges = (t.state.procs w).merges) :
    ShareEpisode loop start ⟨t.state.setProc w p, stored'⟩ := by
  have hfirst := (hep.procs w).first_le
  refine ⟨h.startOk, fun k => ?_, fun v => ?_, ?_⟩
  · change t.state.main.sharepriv k = if loop.writer k < t.state.firstIteration then
      (stored' k).getD (start k) else start k
    rw [h.main k]
    by_cases hk : loop.writer k < t.state.firstIteration
    · rw [if_pos hk, if_pos hk, hnew k (by omega)]
    · rw [if_neg hk, if_neg hk]
  · by_cases hv : v = w
    · subst v
      change ShareProc _ _ _ _ _ (Function.update t.state.procs w p w)
      rw [Function.update_self]
      exact hp
    · change ShareProc _ _ _ _ _ (Function.update t.state.procs w p v)
      rw [Function.update_of_ne hv]
      refine (h.procs v).store_of_ne (fun k hk => hnew k (fun he => hv ?_))
      rw [← hk, he, hw]
  · dsimp only
    rw [EpisodeOk.merges_setProc hm]
    refine h.groups.mono (fun i _ _ c hc => hc.store (fun k hk => hnew k (fun he => ?_)))
    rw [he, hw] at hk
    have hiter := (hep.procs w).iterate (Or.inl hpc)
    have hstart := (hep.procs w).start_le hiter.1
    change _ < groupStart cfg t.state.firstIteration (t.state.procs w).merges at hk
    omega

/-- The stores of a worker at the end of its group are before the next group. -/
theorem lt_of_atGroupEnd (h : ShareEpisode loop start t) {iter : ℕ} {b : Bool}
    (hend : EpisodeOk.AtGroupEnd loop.toLoop t.state w iter b)
    (hpc : (t.state.procs w).pc = .checkpoint ∨ loop.trip ≤ (t.state.procs w).currentIter) :
    ∀ k v, t.stored k = some v → loop.owner (loop.writer k) = w →
      t.state.firstIteration ≤ loop.writer k →
      loop.writer k < (t.state.procs w).currentIter ∧
        loop.writer k < groupStart cfg t.state.firstIteration (t.state.merges w + 1) := by
  intro k v hs hw hf
  obtain ⟨_, ht, hor⟩ := (h.procs w).executed k v hs hw hf
  obtain ⟨hlt, _, hcur⟩ := EpisodeOk.atGroupEnd_facts hend
  have hbefore : loop.writer k < (t.state.procs w).currentIter := by
    rcases hor with hlt | ⟨_, hcheck, _⟩
    · exact hlt
    · rcases hpc with hc | hle
      · exact absurd hc hcheck
      · omega
  refine ⟨hbefore, ?_⟩
  rw [hcur] at hbefore
  exact lt_of_lt_of_le hbefore (min_le_left _ _)

theorem shareProc_merge (h : ShareEpisode loop start t)
    (hlt : ∀ k v, t.stored k = some v → loop.owner (loop.writer k) = w →
      t.state.firstIteration ≤ loop.writer k →
      loop.writer k < (t.state.procs w).currentIter ∧
        loop.writer k < groupStart cfg t.state.firstIteration (t.state.merges w + 1))
    (c : Checkpoint) (b : Bool) :
    ShareProc loop t.state.firstIteration t.state.main.sharepriv t.stored w
      { t.state.procs w with
        spec := cfg.afterCheckpoint (t.state.procs w).spec c
        pc := .commit b
        merges := (t.state.procs w).merges + 1
        pending := [] } where
  shadow := (h.procs w).shadow
  priv := (h.procs w).priv
  within := ShadowRange.reset_within _
  touched k v hs hw hle := by
    have hf : t.state.firstIteration ≤ loop.writer k := le_trans (Nat.le_add_right _ _) hle
    exact absurd (hlt k v hs hw hf).2 (not_lt.2 hle)
  executed k v hs hw hf := by
    obtain ⟨hk, ht, _⟩ := (h.procs w).executed k v hs hw hf
    exact ⟨hk, ht, Or.inl (hlt k v hs hw hf).1⟩

theorem shareGroup_merge (h : ShareEpisode loop start t) (hep : EpisodeOk loop.toLoop t.state)
    (hlt : ∀ k v, t.stored k = some v → loop.owner (loop.writer k) = w →
      t.state.firstIteration ≤ loop.writer k →
      loop.writer k < (t.state.procs w).currentIter ∧
        loop.writer k < groupStart cfg t.state.firstIteration (t.state.merges w + 1))
    (behind : List IOEvt) {c : Checkpoint}
    (hnone : c.numWorkers = 0 → ∀ v, t.state.merges v ≤ t.state.merges w)
    (hsome : c.numWorkers ≠ 0 → ShareGroup loop t.state.firstIteration t.state.main.sharepriv
      t.stored t.state.merges (low cfg t.state.firstIteration t.state.emitted.length
        (t.state.merges w)) (t.state.merges w) c) :
    ShareGroup loop t.state.firstIteration t.state.main.sharepriv t.stored
      (Function.update t.state.merges w (t.state.merges w + 1))
      (low cfg t.state.firstIteration t.state.emitted.length (t.state.merges w)) (t.state.merges w)
      (cfg.performCheckpointLocked w (t.state.procs w).currentIter behind (t.state.procs w).spec
        c) := by
  have hbase : ShareGroup loop t.state.firstIteration t.state.main.sharepriv t.stored t.state.merges
      (low cfg t.state.firstIteration t.state.emitted.length (t.state.merges w)) (t.state.merges w)
      (if c.numWorkers = 0 then cfg.initializePartialCheckpoint c else c) := by
    split_ifs with hc
    · exact .initialized c (hnone hc)
    · exact hsome hc
  exact (hbase.merge (h.procs w) rfl rfl hep.low_merges (fun k v hs hw hf => (hlt k v hs hw hf).2)
    rfl).congr rfl

theorem performCheckpoint (h : ShareEpisode loop start t) (hep : EpisodeOk loop.toLoop t.state)
    {iter : ℕ} {b : Bool} (hend : EpisodeOk.AtGroupEnd loop.toLoop t.state w iter b)
    (hpc : (t.state.procs w).pc = .checkpoint ∨ loop.trip ≤ (t.state.procs w).currentIter)
    (object : Checkpoint) (behind : List IOEvt) :
    ShareEpisode loop start ⟨t.state.performCheckpoint w object behind iter b, t.stored⟩ := by
  have hlt := h.lt_of_atGroupEnd hend hpc
  obtain ⟨hmlt, hiter, _⟩ := EpisodeOk.atGroupEnd_facts hend
  refine ⟨h.startOk, h.main, fun v => ?_, ?_⟩
  · by_cases hv : v = w
    · subst v
      change ShareProc _ _ _ _ _ (Function.update t.state.procs w _ w)
      rw [Function.update_self]
      exact h.shareProc_merge hlt _ b
    · change ShareProc _ _ _ _ _ (Function.update t.state.procs w _ v)
      rw [Function.update_of_ne hv]
      exact h.procs v
  · dsimp only
    rw [EpisodeOk.merges_performCheckpoint]
    have hself : ∀ c, GroupOk loop.toLoop t.state.firstIteration t.state.misspeculationHappened
        t.state.merges t.state.effects
          (low cfg t.state.firstIteration t.state.emitted.length (t.state.merges w))
          (t.state.merges w) c ∧
        ShareGroup loop t.state.firstIteration t.state.main.sharepriv t.stored t.state.merges
          (low cfg t.state.firstIteration t.state.emitted.length (t.state.merges w))
          (t.state.merges w) c →
        ShareGroup loop t.state.firstIteration t.state.main.sharepriv t.stored
          (Function.update t.state.merges w (t.state.merges w + 1))
          (low cfg t.state.firstIteration t.state.emitted.length (t.state.merges w))
          (t.state.merges w) (cfg.performCheckpointLocked w (t.state.procs w).currentIter behind
            (t.state.procs w).spec c) := by
      intro c hc
      refine h.shareGroup_merge hep hlt behind (fun hz v => ?_) (fun _ => hc.2)
      by_contra hgt
      have hcard := hc.1.numWorkers
      rw [hz] at hcard
      have hmem : v ∈ Finset.univ.filter (fun v => t.state.merges w < t.state.merges v) :=
        Finset.mem_filter.2 ⟨Finset.mem_univ v, not_le.1 hgt⟩
      rw [Finset.card_eq_zero.1 hcard.symm] at hmem
      cases hmem
    have hfresh : t.state.merges w = t.state.emitted.length + t.state.used.length →
        ShareGroup loop t.state.firstIteration t.state.main.sharepriv t.stored
          (Function.update t.state.merges w (t.state.merges w + 1))
          (low cfg t.state.firstIteration t.state.emitted.length (t.state.merges w))
          (t.state.merges w) (cfg.performCheckpointLocked w (t.state.procs w).currentIter behind
            (t.state.procs w).spec (State.freshCheckpoint object iter)) := by
      intro he
      refine h.shareGroup_merge hep hlt behind (fun _ v => ?_) (fun hz => absurd rfl hz)
      rw [he]
      exact hep.merges_le v
    have hresult := EpisodeOk.numbered_mergeInto
      (Q := fun m c => ShareGroup loop t.state.firstIteration t.state.main.sharepriv t.stored
        (Function.update t.state.merges w (t.state.merges w + 1))
        (low cfg t.state.firstIteration t.state.emitted.length m) m c)
      (hep.groups.and h.groups) (fun i c hc => hc.1.iteration)
      (fun i hi => (boundary_lt hi hmlt).ne) (hep.emitted_le w) (hep.merges_le w) hself
      (fun i hne _ c hc => hc.2.mono (fun v => (EpisodeOk.lt_update_of_ne hne v).1)
        (EpisodeOk.merges_le_update t.state w)) hfresh
    rw [← hiter] at hresult
    exact hresult.1

theorem combined (h : ShareEpisode loop start t) (hep : EpisodeOk loop.toLoop t.state)
    {used : List Checkpoint} {out : List IOEvt}
    (hc : cfg.commitZeroOrMoreCheckpoints t.state.used = .combined used out) :
    ShareEpisode loop start ⟨t.state.combined used out, t.stored⟩ := by
  obtain ⟨alpha, beta, newer, rest, hused, rfl, hat, hbt, hcomb⟩ := Config.commit_combined hc
  obtain ⟨img, _, hnewer, _⟩ := Config.combineCheckpoints_ok hcomb
  have hgroups := h.groups
  have hepgroups := hep.groups
  have hlen := hep.length_le
  rw [hused] at hgroups hepgroups hlen
  simp only [List.length_cons] at hlen
  obtain ⟨ha, hb, hrest⟩ := hgroups
  rw [low_self] at ha
  rw [low_of_ne (Nat.succ_ne_self _)] at hb
  have hs : t.state.combined (newer :: rest) out =
      { t.state with
        used := newer :: rest
        output := t.state.output ++ out
        effects := Function.update t.state.effects beta.iteration
          (t.state.effects alpha.iteration ++ t.state.effects beta.iteration)
        emitted := t.state.emitted ++ [alpha.iteration] } := by
    simp only [State.combined, hused]
  rw [hs]
  refine ⟨h.startOk, h.main, h.procs, ?_⟩
  change Numbered (fun m c => ShareGroup loop t.state.firstIteration t.state.main.sharepriv t.stored
    t.state.merges (low cfg t.state.firstIteration (t.state.emitted ++ [alpha.iteration]).length m)
    m c) (t.state.emitted ++ [alpha.iteration]).length (newer :: rest)
  rw [List.length_append, List.length_singleton]
  refine ⟨?_, hrest.mono (fun i hi hi' c hc => ?_)⟩
  · dsimp only
    rw [low_self, hnewer]
    exact (ha.combine hb (by omega) (hepgroups.1.passed hat) rfl).congr rfl
  · rw [low_of_ne (by omega)] at hc ⊢
    exact hc

theorem conflict (h : ShareEpisode loop start t) {used : List Checkpoint} {i : ℕ}
    (hc : cfg.commitZeroOrMoreCheckpoints t.state.used = .conflict used i)
    (w : Fin cfg.numWorkers) :
    ShareEpisode loop start ⟨State.misspecAt { t.state with used := used } w i, t.stored⟩ := by
  obtain ⟨alpha, beta, rest, img, hused, rfl, rfl, _, _⟩ := Config.commit_conflict hc
  have hgroups := h.groups
  rw [hused] at hgroups
  obtain ⟨ha, hb, hrest⟩ := hgroups
  have hset : ShareEpisode loop start ⟨{ t.state with used := { alpha with type := .clFree } ::
      { beta with priv := img, type := .clBroken } :: rest }, t.stored⟩ :=
    ⟨h.startOk, h.main, h.procs, ha.congr rfl, hb.congr rfl, hrest⟩
  exact hset.misspecAt w beta.iteration

end ShareEpisode

end Cpf.Executive
