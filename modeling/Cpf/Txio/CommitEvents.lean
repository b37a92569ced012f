import Cpf.Basics.RingIndex
import Cpf.Txio.CommitProgress

/-!
# Nothing is lost

Between two events no transaction has anything left to do. As long as an event is missing the root is
not done. Once all events have arrived, a ready transaction that is not done would have a ready
transaction at the front of its queue, and so on without an end; so the root is done, and everything
below it is run and freed.
-/

namespace Cpf.Txio.TxTree

variable {N : Type} [DecidableEq N] {T : TxTree N} {arrived : Finset N} {s : State N} {p x y : N}
  {t parent : TX N} [Fintype N]

structure Still (T : TxTree N) (arrived : Finset N) (s : State N) : Prop where
  ok : T.Ok arrived s
  settled : ∀ y u, s.tx y = some u → T.Settled arrived s y u

theorem initial_still : T.Still ∅ T.initial := by
  have htx : ∀ p t, T.initial.tx p = some t → T.isTx p = true ∧ t = T.opened p := by
    intro p t hp
    unfold initial at hp
    dsimp only at hp
    split_ifs at hp with hptx
    · exact ⟨hptx, (Option.some.inj hp).symm⟩
  have hnone : ∀ p, T.isTx p = true → T.initial.tx p ≠ none := by
    intro p hp
    simp [initial, hp]
  have hnot : ∀ y, T.finished T.initial y = false := by
    intro y
    unfold finished
    split_ifs with hy
    · simp [initial, hy]
    · simp [initial]
  have hwait : ∀ y p, T.parent y = some p → T.waiting ∅ T.initial y = false := by
    intro y p hp
    unfold waiting
    split_ifs with hy
    · have hne : y ≠ T.root := by
        rintro rfl
        rw [T.parent_root] at hp
        cases hp
      simp [initial, hy, opened, hne]
    · simp
  constructor
  · refine ⟨⟨?_, ?_⟩, ?_, ?_, ?_, ?_, ?_, ?_⟩
    · intro t ht
      obtain ⟨-, rfl⟩ := htx _ t ht
      simp [opened]
    · intro y u p hy hready hp
      obtain ⟨-, rfl⟩ := htx y u hy
      have hroot : y = T.root := by simpa [opened] using hready
      rw [hroot, T.parent_root] at hp
      cases hp
    · intro p t hp
      obtain ⟨-, rfl⟩ := htx p t hp
      refine ⟨List.nodup_nil, fun y => ?_, ?_, ?_, ?_, ?_⟩
      · constructor
        · intro hy
          cases hy
        · rintro ⟨hyp, hw⟩
          rw [hwait y p hyp] at hw
          cases hw
      · simp [opened, hnot]
      · simp [opened]
      · simp [opened]
      · exact Or.inl rfl
    · exact fun p t hp => (htx p t hp).1
    · exact fun p hp hn => absurd hn (hnone p hp)
    · intro x hx
      cases hx
    · intro x
      simp [initial]
    · intro x
      rw [if_neg (fun hx => hnone x hx.1 hx.2)]
      rfl
  · intro y u hy
    obtain ⟨-, rfl⟩ := htx y u hy
    refine ⟨fun hdone => hdone.1 rfl, fun hmem => absurd hmem (Finset.notMem_empty y), ?_⟩
    intro _ front rest hqueue
    cases hqueue

/-! ### Events -/

theorem Still.loopOk (h : T.Still arrived s) {arrived' : Finset N} {s' : State N}
    (hok : T.Ok arrived' s') {t' : TX N} (hx : s'.tx x = some t') (hmem : ∀ y, y ≠ x →
      T.isTx y = true → y ∈ arrived' → y ∈ arrived) (hother : ∀ y, y ≠ x → s'.tx y = s.tx y)
    (hready : s.tx x = some t → t.ready = true → t'.ready = true) (ht : s.tx x = some t) :
    T.LoopOk arrived' ⟨s', some x⟩ where
  ok := hok
  current y hy := by
    cases hy
    exact ⟨t', hx⟩
  rootDone hn := by cases hn
  settled y u hne hy := by
    have hyx : y ≠ x := fun he => hne (congrArg some he.symm)
    dsimp only at hy
    rw [hother y hyx] at hy
    have hsettled := h.settled y u hy
    have hcongr : T.Settled arrived s' y u := by
      apply hsettled.congr (h.ok.parent_of_mem hy)
      intro c child _ hc hcr
      by_cases hcx : c = x
      · subst hcx
        rw [ht] at hc
        cases hc
        exact ⟨t', hx, hready ht hcr⟩
      · exact ⟨child, (hother c hcx).trans hc, hcr⟩
    refine ⟨hcongr.notDone, fun hmemy => hcongr.queued ?_, hcongr.quiet⟩
    exact hmem y hyx (h.ok.isTx y u hy) hmemy

/-- A transaction is not freed before its event has arrived. -/
theorem Ok.alive_of_notMem (h : T.Ok arrived s) (htx : T.isTx x = true) (hx : x ∉ arrived) :
    ∃ t, s.tx x = some t := by
  cases hs : s.tx x with
  | some t => exact ⟨t, rfl⟩
  | none => exact absurd (h.freed x htx hs).1 hx

/-- The transaction of an operation is not freed before the event of the operation has arrived. -/
theorem Ok.parent_alive_of_notMem (h : T.Ok arrived s) (hop : T.isTx x = false)
    (hp : T.parent x = some p) (hx : x ∉ arrived) : ∃ parent, s.tx p = some parent := by
  cases hs : s.tx p with
  | some parent => exact ⟨parent, rfl⟩
  | none =>
      have hfin := (h.freed p (T.isTx_parent x p hp) hs).2 x hp
      rw [finished, hop] at hfin
      exact absurd (h.ran x (of_decide_eq_true hfin)).2 hx

def closed (T : TxTree N) (x : N) (t : TX N) : TX N :=
  if t.total = unknown ∧ T.notTotal x ≠ unknown then { t with total := T.notTotal x } else t

theorem closed_eq (hx : (T.children x).card < 2 ^ 32) (ht : t.total = unknown) :
    T.closed x t = { t with total := (T.children x).card } := by
  unfold closed notTotal
  rw [Nat.mod_eq_of_lt hx]
  split_ifs with hcond
  · rfl
  · have hcard : (T.children x).card = unknown := by
      by_contra hne
      exact hcond ⟨ht, hne⟩
    rw [hcard, ← ht]

theorem Ok.close (h : T.Ok arrived s) (hsmall : (T.children x).card < 2 ^ 32)
    (hx : s.tx x = some t) (hnew : x ∉ arrived) : T.Ok (insert x arrived) (s.set x (T.closed x t)) := by
  have hxtx := h.isTx x t hx
  have htotal := (h.txOk x t hx).total
  rw [if_neg hnew] at htotal
  rw [closed_eq hsmall htotal]
  have hf : ∀ y, T.finished (s.set x { t with total := (T.children x).card }) y = T.finished s y :=
    fun y => finished_set hx y
  have hw : ∀ y, T.waiting (insert x arrived) (s.set x { t with total := (T.children x).card }) y =
      T.waiting arrived s y := by
    intro y
    rw [← @waiting_set N _ T arrived s x t { t with total := (T.children x).card } hx rfl y]
    unfold waiting
    split_ifs with hy
    · rfl
    · have hyx : y ≠ x := by
        rintro rfl
        exact hy hxtx
      simp [hyx]
  apply h.of_same (Finset.subset_insert x arrived)
  · rfl
  · exact set_eq_none_iff hx
  · intro y u hy
    rw [State.set_tx] at hy
    split_ifs at hy with hyx
    · cases hy
      subst hyx
      have hok := h.txOk y t hx
      refine ⟨hok.nodup, fun z => ?_, ?_, ?_, hok.room.length_le, hok.room.capacity⟩
      · rw [hw z]
        exact hok.mem_queue z
      · simp only [hf]
        exact hok.already
      · rw [if_pos (Finset.mem_insert_self y arrived)]
    · have hok := h.txOk y u hy
      refine ⟨hok.nodup, fun z => ?_, ?_, ?_, hok.room⟩
      · rw [hw z]
        exact hok.mem_queue z
      · simp only [hf]
        exact hok.already
      · rw [hok.total]
        simp only [Finset.mem_insert, hyx, false_or]
  · apply h.toFlagsOk.set_of_eq hx
    · rfl
    · exact fun hq => hq

theorem Ok.issue (h : T.Ok arrived s) (hop : T.isTx x = false) (hp : T.parent x = some p)
    (hparent : s.tx p = some parent) (hnew : x ∉ arrived)
    (hroom : parent.queue.length < maybeGrow parent.queue.length parent.capacity) :
    T.Ok (insert x arrived) (s.set p (T.inserted x parent)) := by
  have hnotrun : Action.run x ∉ s.log := fun hrun => hnew (h.ran x hrun).2
  have hxw : T.waiting arrived s x = false := by
    rw [waiting, hop]
    simp [hnew]
  have hf : ∀ y, T.finished (s.set p (T.inserted x parent)) y = T.finished s y :=
    fun y => finished_set hparent y
  have hw : ∀ y, T.waiting (insert x arrived) (s.set p (T.inserted x parent)) y =
      (T.waiting arrived s y || decide (y = x)) := by
    intro y
    have hset : T.waiting (insert x arrived) (s.set p (T.inserted x parent)) y =
        T.waiting (insert x arrived) s y := by
      apply waiting_set hparent
      rfl
    rw [hset]
    unfold waiting
    by_cases hyx : y = x
    · subst hyx
      rw [hop]
      simp [hnotrun]
    · simp [hyx]
  have hpx : ∀ y u, s.tx y = some u → y ≠ x := by
    rintro y u hy rfl
    have hytx := h.isTx y u hy
    rw [hop] at hytx
    cases hytx
  apply h.of_same (Finset.subset_insert x arrived)
  · rfl
  · exact set_eq_none_iff hparent
  · intro y u hy
    rw [State.set_tx] at hy
    split_ifs at hy with hyp
    · cases hy
      subst hyp
      apply (h.txOk y parent hparent).child_waits hroom hp hxw _ hf fun z _ => hw z
      simp [hpx y parent hparent]
    · have hok := h.txOk y u hy
      refine ⟨hok.nodup, fun z => ?_, ?_, ?_, hok.room⟩
      · rw [hok.mem_queue z]
        apply and_congr_right
        intro hz
        have hzx : z ≠ x := by
          rintro rfl
          rw [hp] at hz
          exact hyp (Option.some.inj hz).symm
        rw [hw z]
        simp [hzx]
      · simp only [hf]
        exact hok.already
      · rw [hok.total]
        simp only [Finset.mem_insert, hpx y u hy, false_or]
  · apply h.toFlagsOk.set_of_eq hparent
    · rfl
    · exact fun hq => hq

/-- A number of rounds that is enough for `progress` in every state. -/
def fuelBound (T : TxTree N) : ℕ := (T.height + 2) * (2 * Fintype.card N + 1)

theorem loopMeasure_lt_fuelBound (l : Progress N) : T.loopMeasure l < T.fuelBound := by
  have hweight : ∀ y, T.weight l.state y ≤ 2 := by
    intro y
    unfold weight
    split_ifs
    · split
      · omega
      · split_ifs <;> omega
    · omega
    · omega
  have hsum : ∑ y, T.weight l.state y ≤ Fintype.card N * 2 := by
    have := Finset.sum_le_card_nsmul Finset.univ (T.weight l.state) 2 fun y _ => hweight y
    simpa using this
  have hmul := Nat.mul_le_mul_left (T.height + 2) hsum
  have hphase : T.phase l ≤ T.height + 1 := phase_le l
  have heq : T.fuelBound = (T.height + 2) * (Fintype.card N * 2) + (T.height + 2) := by
    unfold fuelBound
    ring
  unfold loopMeasure
  omega

/-- What an event does before `progress`. -/
theorem Still.receive (h : T.Still arrived s) (hsmall : ∀ p, (T.children p).card < 2 ^ 32)
    (hx : x ∉ arrived) {s' : State N} {z : N} (hs' : T.receive s x = .ok (s', z)) :
    T.LoopOk (insert x arrived) ⟨s', some z⟩ := by
  unfold TxTree.receive at hs'
  cases hxtx : T.isTx x with
  | true =>
      obtain ⟨t, ht⟩ := h.ok.alive_of_notMem hxtx hx
      rw [hxtx, if_pos rfl, ht] at hs'
      cases hs'
      have hok := h.ok.close (hsmall x) ht hx
      have hset : (s.set x (T.closed x t)).tx x = some (T.closed x t) := by
        rw [State.set_tx, if_pos rfl]
      refine h.loopOk hok hset ?_ ?_ ?_ ht
      · intro y hyx _ hy
        exact Finset.mem_of_mem_insert_of_ne hy hyx
      · intro y hyx
        rw [State.set_tx, if_neg hyx]
      · intro _ hready
        unfold closed
        split_ifs <;> exact hready
  | false =>
      rw [hxtx, if_neg (by decide)] at hs'
      cases hp : T.parent x with
      | none =>
          rw [T.eq_root x hp, T.isTx_root] at hxtx
          cases hxtx
      | some p =>
          obtain ⟨parent, hparent⟩ := h.ok.parent_alive_of_notMem hxtx hp hx
          rw [hp] at hs'
          dsimp only at hs'
          rw [hparent] at hs'
          dsimp only at hs'
          rw [insertEvt] at hs'
          split_ifs at hs' with hfull
          · cases hs'
          · obtain ⟨rfl, rfl⟩ := Prod.mk.inj (Except.ok.inj hs')
            have hok := h.ok.issue hxtx hp hparent hx (Nat.not_le.1 hfull)
            have hset : (s.set p (T.inserted x parent)).tx p = some (T.inserted x parent) := by
              rw [State.set_tx, if_pos rfl]
            refine h.loopOk hok hset ?_ ?_ ?_ hparent
            · intro y _ hytx hy
              apply Finset.mem_of_mem_insert_of_ne hy
              rintro rfl
              rw [hxtx] at hytx
              cases hytx
            · intro y hyp
              rw [State.set_tx, if_neg hyp]
            · exact fun _ hready => hready

/-- An event is received if no queue can get too long. -/
theorem Ok.exists_receive (h : T.Ok arrived s) (hsmall : ∀ p, (T.children p).card ≤ 2 ^ 31)
    (hx : x ∉ arrived) : ∃ s' z, T.receive s x = .ok (s', z) := by
  unfold TxTree.receive
  cases hxtx : T.isTx x with
  | true =>
      obtain ⟨t, ht⟩ := h.alive_of_notMem hxtx hx
      rw [if_pos rfl, ht]
      exact ⟨_, _, rfl⟩
  | false =>
      rw [if_neg (by decide)]
      cases hp : T.parent x with
      | none =>
          rw [T.eq_root x hp, T.isTx_root] at hxtx
          cases hxtx
      | some p =>
          obtain ⟨parent, hparent⟩ := h.parent_alive_of_notMem hxtx hp hx
          have hpok := h.txOk p parent hparent
          have hxw : T.waiting arrived s x = false := by
            rw [waiting, hxtx]
            simp [hx]
          have hxf : T.finished s x = false := by
            rw [finished, hxtx]
            exact decide_eq_false fun hrun => hx (h.ran x hrun).2
          have hlength := hpok.length_lt hp hxw hxf
          have hp' := hsmall p
          have hroom := hpok.room.lt_maybeGrow (by omega)
          dsimp only
          rw [hparent]
          dsimp only
          rw [insertEvt, if_neg (Nat.not_le.2 hroom)]
          exact ⟨_, _, rfl⟩

/-- One event: no failure, and nothing is left to do. -/
theorem Still.processEvt (h : T.Still arrived s) (hsmall : ∀ p, (T.children p).card ≤ 2 ^ 31)
    (hx : x ∉ arrived) {fuel : ℕ} (hfuel : T.fuelBound ≤ fuel) :
    ∃ s', T.processEvt fuel s x = .ok (s', (s'.tx T.root).isNone) ∧ T.Still (insert x arrived) s' := by
  obtain ⟨s₁, z, hs₁⟩ := h.ok.exists_receive hsmall hx
  have hloop := h.receive (fun p => (hsmall p).trans_lt (by decide)) hx hs₁
  obtain ⟨s', hs', hok, hsettled⟩ :=
    hloop.progress hsmall ((loopMeasure_lt_fuelBound _).trans_le hfuel)
  refine ⟨s', ?_, hok, hsettled⟩
  unfold TxTree.processEvt
  rw [hs₁]
  exact hs'

/-! ### The end -/

/-- If all events have arrived, the queue of a transaction holds every child that is not finished. -/
theorem Still.length_add_already (h : T.Still arrived s) (hall : ∀ y, y ∈ arrived)
    (hx : s.tx x = some t) : t.queue.length + t.already = (T.children x).card := by
  have hxok := h.ok.txOk x t hx
  rw [← hxok.card_queue_union]
  congr 1
  apply Finset.Subset.antisymm hxok.queue_union_subset
  intro y hy
  have hyx := mem_children.1 hy
  rw [Finset.mem_union, List.mem_toFinset, hxok.mem_queue y, Finset.mem_filter]
  by_cases hfin : T.finished s y = true
  · exact Or.inr ⟨hy, hfin⟩
  · refine Or.inl ⟨hyx, ?_⟩
    unfold finished at hfin
    unfold waiting
    split_ifs at hfin ⊢ with hytx
    · cases hs : s.tx y with
      | none =>
          rw [hs] at hfin
          exact absurd rfl hfin
      | some u =>
          rw [Option.any_some]
          exact (h.settled y u hs).queued (hall y)
    · simpa [hall y] using hfin

/-- If all events have arrived, the first event of a ready transaction is a ready transaction. -/
theorem Still.exists_ready_child (h : T.Still arrived s)
    (hsmall : ∀ p, (T.children p).card ≤ 2 ^ 31) (hall : ∀ y, y ∈ arrived) (hx : s.tx x = some t)
    (hready : t.ready = true) :
    ∃ y u, T.parent y = some x ∧ s.tx y = some u ∧ u.ready = true := by
  have hxok := h.ok.txOk x t hx
  have hsettled := h.settled x t hx
  have hsum := h.length_add_already hall hx
  have hcard := hsmall x
  have htotal := hxok.total
  rw [if_pos (hall x)] at htotal
  have hknown : t.total ≠ unknown := by
    unfold unknown
    omega
  have hless : t.already < t.total := by
    by_contra hle
    exact hsettled.notDone ⟨hknown, Nat.not_lt.1 hle⟩
  cases hqueue : t.queue with
  | nil =>
      rw [hqueue, List.length_nil] at hsum
      omega
  | cons front rest =>
      have hmay : T.mayExecute t front = true := by
        unfold mayExecute sizeQ
        rw [Bool.or_eq_true, decide_eq_true_iff]
        refine Or.inl ⟨hknown, ?_⟩
        rw [Nat.mod_eq_of_lt (by omega), Nat.mod_eq_of_lt (by omega)]
        omega
      obtain ⟨child, hchild, hcr⟩ := hsettled.quiet hready front rest hqueue hmay
      have hmem : front ∈ t.queue := by
        rw [hqueue]
        exact List.mem_cons_self
      exact ⟨front, child, h.ok.parent_of_mem hx front hmem, hchild, hcr⟩

theorem Still.root_done (h : T.Still arrived s) (hsmall : ∀ p, (T.children p).card ≤ 2 ^ 31)
    (hall : ∀ y, y ∈ arrived) : s.tx T.root = none := by
  have hdepth : ∀ y, T.depth y ≤ T.height := fun y => Finset.le_sup (Finset.mem_univ y)
  have hnone : ∀ d x t, s.tx x = some t → t.ready = true → T.height - T.depth x ≠ d := by
    intro d
    induction d with
    | zero =>
        intro x t hx hready hd
        obtain ⟨y, u, hp, -, -⟩ := h.exists_ready_child hsmall hall hx hready
        have := T.depth_parent y x hp
        have := hdepth y
        omega
    | succ d ih =>
        intro x t hx hready hd
        obtain ⟨y, u, hp, hy, hyr⟩ := h.exists_ready_child hsmall hall hx hready
        have := T.depth_parent y x hp
        exact ih y u hy hyr (by omega)
  cases hs : s.tx T.root with
  | none => rfl
  | some t => exact absurd rfl (hnone _ T.root t hs (h.ok.rootReady t hs).1)

/-- If the root is done, all events have arrived and everything is finished. -/
theorem Ok.finished_of_root_done (h : T.Ok arrived s) (hroot : s.tx T.root = none) (x : N) :
    T.finished s x = true ∧ x ∈ arrived := by
  have hmem : ∀ y, T.finished s y = true → y ∈ arrived := by
    intro y hy
    unfold finished at hy
    split_ifs at hy with hytx
    · exact (h.freed y hytx (Option.isNone_iff_eq_none.1 hy)).1
    · exact (h.ran y (of_decide_eq_true hy)).2
  have hfin : ∀ d y, T.depth y = d → T.finished s y = true := by
    intro d
    induction d with
    | zero =>
        intro y hy
        cases hp : T.parent y with
        | none => rw [T.eq_root y hp, finished, if_pos T.isTx_root, hroot]; rfl
        | some p =>
            have := T.depth_parent y p hp
            omega
    | succ d ih =>
        intro y hy
        cases hp : T.parent y with
        | none => rw [T.eq_root y hp, finished, if_pos T.isTx_root, hroot]; rfl
        | some p =>
            have := T.depth_parent y p hp
            have hpfin := ih p (by omega)
            have hptx := T.isTx_parent y p hp
            rw [finished, if_pos hptx] at hpfin
            exact (h.freed p hptx (Option.isNone_iff_eq_none.1 hpfin)).2 y hp
  exact ⟨hfin _ x rfl, hmem x (hfin _ x rfl)⟩

/-- The calls for the events that are left: only the last one finds the root done. -/
theorem Still.processEvts (h : T.Still arrived s) (hsmall : ∀ p, (T.children p).card ≤ 2 ^ 31)
    {fuel : ℕ} (hfuel : T.fuelBound ≤ fuel) {evts : List N} (hne : evts ≠ [])
    (hnodup : evts.Nodup) (hnew : ∀ x ∈ evts, x ∉ arrived) (hall : ∀ x, x ∈ arrived ∨ x ∈ evts) :
    ∃ s', T.processEvts fuel evts s = .ok (s', List.replicate (evts.length - 1) false ++ [true]) ∧
      (∃ arrived', T.Ok arrived' s') ∧ s'.tx T.root = none := by
  induction evts generalizing arrived s with
  | nil => exact absurd rfl hne
  | cons x evts ih =>
      obtain ⟨hxevts, hnodup'⟩ := List.nodup_cons.1 hnodup
      obtain ⟨s₁, hs₁, hstill⟩ := h.processEvt hsmall (hnew x List.mem_cons_self) hfuel
      rw [TxTree.processEvts, hs₁]
      cases evts with
      | nil =>
          have hroot := hstill.root_done hsmall fun y => by
            rcases hall y with hy | hy
            · exact Finset.mem_insert_of_mem hy
            · rw [List.mem_singleton] at hy
              rw [hy]
              exact Finset.mem_insert_self x arrived
          refine ⟨s₁, ?_, ⟨_, hstill.ok⟩, hroot⟩
          rw [hroot]
          rfl
      | cons y evts =>
          have hynew : ∀ z ∈ y :: evts, z ∉ insert x arrived := by
            intro z hz hmem
            rcases Finset.mem_insert.1 hmem with rfl | hmem
            · exact hxevts hz
            · exact hnew z (List.mem_cons_of_mem x hz) hmem
          have hroot : (s₁.tx T.root).isNone = false := by
            cases hr : s₁.tx T.root with
            | some u => rfl
            | none =>
                have hy := (hstill.ok.finished_of_root_done hr y).2
                exact absurd hy (hynew y List.mem_cons_self)
          obtain ⟨s', hs', hok, hdone⟩ := ih hstill (List.cons_ne_nil y evts) hnodup' hynew fun z => by
            rcases hall z with hz | hz
            · exact Or.inl (Finset.mem_insert_of_mem hz)
            · rcases List.mem_cons.1 hz with rfl | hz
              · exact Or.inl (Finset.mem_insert_self z arrived)
              · exact Or.inr hz
          refine ⟨s', ?_, hok, hdone⟩
          rw [hroot]
          simp only [bind, Except.bind, hs']
          rfl

/-- When all events have arrived, in any order, every operation has been run once, every transaction
has been freed once, and the last call has found the root done. -/
theorem processEvts_complete (T : TxTree N) (hsmall : ∀ p, (T.children p).card ≤ 2 ^ 31)
    {fuel : ℕ} (hfuel : T.fuelBound ≤ fuel) {evts : List N} (hnodup : evts.Nodup)
    (hall : ∀ x, x ∈ evts) :
    ∃ s, T.processEvts fuel evts T.initial =
        .ok (s, List.replicate (evts.length - 1) false ++ [true]) ∧
      (∀ x, s.log.count (.run x) = if T.isTx x then 0 else 1) ∧
      ∀ x, s.log.count (.free x) = if T.isTx x then 1 else 0 := by
  have hne : evts ≠ [] := List.ne_nil_of_mem (hall T.root)
  obtain ⟨s, hs, ⟨arrived, hok⟩, hroot⟩ := initial_still.processEvts hsmall hfuel hne hnodup
    (fun x _ => Finset.notMem_empty x) (fun x => Or.inr (hall x))
  refine ⟨s, hs, fun x => ?_, fun x => ?_⟩
  · have hfin := (hok.finished_of_root_done hroot x).1
    unfold finished at hfin
    split_ifs at hfin ⊢ with htx
    · apply List.count_eq_zero_of_not_mem
      intro hrun
      have hop := (hok.ran x hrun).1
      rw [htx] at hop
      cases hop
    · have hpos := List.count_pos_iff.2 (of_decide_eq_true hfin)
      have hle := hok.countRun x
      omega
  · have hfin := (hok.finished_of_root_done hroot x).1
    rw [hok.countFree x]
    by_cases htx : T.isTx x = true
    · rw [finished, if_pos htx] at hfin
      rw [if_pos htx, if_pos ⟨htx, Option.isNone_iff_eq_none.1 hfin⟩]
    · rw [if_neg htx, if_neg fun hand => htx hand.1]

/-- Two operations, between them a transaction that has only an empty transaction. -/
def early : TxTree (Fin 5) where
  root := 0
  parent x := if x = 0 then none else if x = 4 then some 2 else some 0
  isTx x := decide (x = 0 ∨ x = 2 ∨ x = 4)
  time x := if x = 0 ∨ x = 4 then [0] else [UInt32.ofNat (x - 1)]
  depth x := if x = 0 then 0 else if x = 4 then 2 else 1
  parent_root := rfl
  isTx_root := rfl
  eq_root := by decide
  isTx_parent := by decide
  depth_parent := by decide

theorem processEvts_complete_early : ∃ s, early.processEvts early.fuelBound [2, 4, 3, 1, 0] early.initial =
      .ok (s, [false, false, false, false, true]) ∧
    (∀ x, s.log.count (.run x) = if early.isTx x then 0 else 1) ∧
    ∀ x, s.log.count (.free x) = if early.isTx x then 1 else 0 :=
  processEvts_complete early (fun p => (Finset.card_le_univ _).trans (by decide)) le_rfl
    (by decide) (by decide)

/-! ### A queue that gets too long -/

omit [DecidableEq N] [Fintype N] in
/-- A queue of `2 ^ 31` events is given an array of 16 when it has to grow. -/
theorem RoomOk.full (h : RoomOk t) (hlength : 2 ^ 31 ≤ t.queue.length) :
    maybeGrow t.queue.length t.capacity ≤ t.queue.length := by
  obtain ⟨hle, hcap⟩ := h
  have hmax : t.capacity ≤ 2 ^ 31 := by
    rcases hcap with hcap | ⟨k, hk, hcap⟩
    · omega
    · rw [hcap]
      exact (Nat.mul_le_mul_left minCapacity (Nat.pow_le_pow_right (by omega) hk)).trans (by decide)
  have hcapacity : t.capacity = 2 ^ 31 := by omega
  have hlen : t.queue.length = 2 ^ 31 := by omega
  rw [hcapacity, hlen]
  decide

def crowd (n : ℕ) : TxTree (Fin (n + 1)) where
  root := 0
  parent x := if x = 0 then none else some 0
  isTx x := decide (x = 0)
  time x := [UInt32.ofNat x]
  depth x := if x = 0 then 0 else 1
  parent_root := rfl
  isTx_root := rfl
  eq_root x hx := by
    split_ifs at hx with h0
    exact h0
  isTx_parent x p hp := by
    split_ifs at hp with h0
    cases hp
    rfl
  depth_parent x p hp := by
    split_ifs at hp with h0
    cases hp
    simp [h0]

/-- The operations before the last event, which closes the transaction. -/
def crowdEvts (n : ℕ) : List (Fin (n + 1)) := (List.finRange n).map Fin.succ ++ [0]

/-- The transaction waits for the operation with time zero. -/
structure CrowdWaits {n : ℕ} (s : State (Fin (n + 1))) (t : TX (Fin (n + 1))) : Prop where
  root : s.tx 0 = some t
  ready : t.ready = true
  total : t.total = unknown
  upto : t.upto = none
  queue : ∀ x ∈ t.queue, x ≠ 0
  room : RoomOk t

theorem crowd_progress {n : ℕ} (hn : n < 2 ^ 32) {s : State (Fin (n + 1))} {t : TX (Fin (n + 1))}
    (h : CrowdWaits s t) (fuel : ℕ) : (crowd n).progress (fuel + 1) s 0 = .ok (s, false) := by
  have hdone : ¬ t.Done := fun hdone => hdone.1 h.total
  have hexecute : (crowd n).execute s 0 t = .ok none := by
    unfold execute
    cases hqueue : t.queue with
    | nil => rfl
    | cons front rest =>
        have hfront : front ≠ 0 := by
          apply h.queue
          rw [hqueue]
          exact List.mem_cons_self
        have htime : UInt32.ofNat front.val ≠ 0 := by
          intro hzero
          have hmod := congrArg UInt32.toNat hzero
          rw [UInt32.toNat_ofNat', UInt32.toNat_zero, Nat.mod_eq_of_lt (by omega)] at hmod
          exact hfront (Fin.ext hmod)
        have hmay : (crowd n).mayExecute t front = false := by
          unfold mayExecute
          rw [h.total, h.upto]
          simp [tvAreAdjacent, isAllZero, crowd, htime]
        dsimp only
        rw [hmay]
        rfl
  have hstep : (crowd n).progressStep ⟨s, some 0⟩ = .ok none := by
    unfold progressStep
    dsimp only
    rw [h.root]
    dsimp only
    rw [if_neg hdone, advance]
    have hp : (crowd n).parent 0 = none := rfl
    rw [hp]
    dsimp only
    rw [if_pos h.ready]
    exact hexecute
  unfold progress
  rw [iterate, hstep]
  rfl

/-- Operations that arrive are only collected, until the queue overflows. -/
theorem crowd_overflows {n : ℕ} (hn : n < 2 ^ 32) (fuel : ℕ) {evts rest : List (Fin (n + 1))}
    {s : State (Fin (n + 1))} {t : TX (Fin (n + 1))} (h : CrowdWaits s t)
    (hevts : ∀ x ∈ evts, x ≠ 0) (hlength : 2 ^ 31 < t.queue.length + evts.length) :
    (crowd n).processEvts (fuel + 1) (evts ++ rest) s = .error .badPointer := by
  induction evts generalizing s t with
  | nil =>
      exfalso
      have hle := h.room.length_le
      rcases h.room.capacity with hcap | ⟨k, hk, hcap⟩
      · simp only [List.length_nil] at hlength
        omega
      · have hpow : minCapacity * 2 ^ k ≤ minCapacity * 2 ^ 27 :=
          Nat.mul_le_mul_left _ (Nat.pow_le_pow_right (by omega) hk)
        simp only [minCapacity, List.length_nil] at *
        omega
  | cons x evts ih =>
      have hx : x ≠ 0 := hevts x List.mem_cons_self
      have hp : (crowd n).parent x = some 0 := if_neg hx
      have hop : (crowd n).isTx x = false := decide_eq_false hx
      have hevt : (crowd n).processEvt (fuel + 1) s x = (do
          let parent ← (crowd n).insertEvt x t
          (crowd n).progress (fuel + 1) (s.set 0 parent) 0) := by
        unfold processEvt receive
        rw [hop, if_neg (by decide), hp]
        dsimp only
        rw [h.root]
        dsimp only
        rw [insertEvt]
        split_ifs <;> rfl
      rw [List.cons_append, processEvts, hevt, insertEvt]
      by_cases hfull : maybeGrow t.queue.length t.capacity ≤ t.queue.length
      · rw [if_pos hfull]
        rfl
      · rw [if_neg hfull]
        have hwaits : CrowdWaits (s.set 0 ((crowd n).inserted x t)) ((crowd n).inserted x t) := by
          refine ⟨by rw [State.set_tx, if_pos rfl], h.ready, h.total, h.upto, fun y hy => ?_,
            h.room.inserted (Nat.not_le.1 hfull)⟩
          rw [inserted_queue_perm.mem_iff, List.mem_cons] at hy
          rcases hy with rfl | hy
          · exact hx
          · exact h.queue y hy
        have hrest := ih hwaits (fun y hy => hevts y (List.mem_cons_of_mem x hy)) (by
          rw [inserted_queue_perm.length_eq]
          simp only [List.length_cons] at hlength ⊢
          omega)
        have hprogress := crowd_progress hn hwaits fuel
        simp only [bind, Except.bind, hprogress, hrest]

/-- With `2 ^ 31 + 1` children, a queue can outgrow its array. -/
theorem crowd_processEvts_fails :
    (crowdEvts (2 ^ 31 + 1)).Nodup ∧ (∀ x, x ∈ crowdEvts (2 ^ 31 + 1)) ∧
      ∀ fuel, (crowd (2 ^ 31 + 1)).processEvts (fuel + 1) (crowdEvts (2 ^ 31 + 1))
        (crowd (2 ^ 31 + 1)).initial = .error .badPointer := by
  have hgeneral : ∀ n, 2 ^ 31 < n → n < 2 ^ 32 → (crowdEvts n).Nodup ∧ (∀ x, x ∈ crowdEvts n) ∧
      ∀ fuel, (crowd n).processEvts (fuel + 1) (crowdEvts n) (crowd n).initial =
        .error .badPointer := by
    intro n hlarge hn
    have hmem : ∀ x ∈ (List.finRange n).map Fin.succ, x ≠ 0 := by
      intro x hx
      obtain ⟨y, -, rfl⟩ := List.mem_map.1 hx
      exact Fin.succ_ne_zero y
    refine ⟨?_, fun x => ?_, fun fuel => ?_⟩
    · unfold crowdEvts
      rw [List.nodup_append]
      refine ⟨(List.nodup_finRange n).map (Fin.succ_injective n), List.nodup_singleton 0, ?_⟩
      intro x hx y hy
      rw [List.mem_singleton.1 hy]
      exact hmem x hx
    · unfold crowdEvts
      rw [List.mem_append]
      by_cases hx : x = 0
      · exact Or.inr (List.mem_singleton.2 hx)
      · obtain ⟨y, rfl⟩ := Fin.exists_succ_eq.2 hx
        exact Or.inl (List.mem_map_of_mem (List.mem_finRange y))
    · apply crowd_overflows hn
      · refine ⟨rfl, rfl, rfl, rfl, ?_, ?_, Or.inl rfl⟩
        · intro x hx
          cases hx
        · exact le_refl _
      · exact hmem
      · rw [List.length_map, List.length_finRange]
        exact lt_of_lt_of_le hlarge (Nat.le_add_left _ _)
  exact hgeneral (2 ^ 31 + 1) (by omega) (by omega)

end Cpf.Txio.TxTree
