import Cpf.Txio.CommitInvariant

/-!
# Every round keeps the records right

What a round changes is said once for the children that are finished and for those that wait; the
records of the other transactions are not touched.
-/

namespace Cpf.Txio.TxTree

variable {N : Type} [DecidableEq N] {T : TxTree N} {arrived : Finset N} {s s' : State N}
  {p x c y : N} {t t' parent : TX N}

/-! ### Which children are finished and which wait -/

theorem finished_set (hx : s.tx x = some t) (y : N) : T.finished (s.set x t') y = T.finished s y := by
  unfold finished
  rw [State.set_tx, State.set_log]
  by_cases hyx : y = x
  · rw [if_pos hyx, hyx, hx]
    rfl
  · rw [if_neg hyx]

theorem waiting_set (hx : s.tx x = some t) (hq : t'.inParentQ = t.inParentQ) (y : N) :
    T.waiting arrived (s.set x t') y = T.waiting arrived s y := by
  unfold waiting
  rw [State.set_tx, State.set_log]
  by_cases hyx : y = x
  · rw [if_pos hyx, hyx, hx, Option.any_some, Option.any_some, hq]
  · rw [if_neg hyx]

theorem finished_free (htx : T.isTx x = true) (y : N) :
    T.finished (s.free x) y = (T.finished s y || decide (y = x)) := by
  unfold finished
  rw [State.free_tx, State.free_log]
  by_cases hyx : y = x
  · rw [hyx, if_pos htx, if_pos htx, if_pos rfl]
    simp
  · rw [if_neg hyx]
    simp [hyx]

theorem waiting_free (htx : T.isTx x = true) (y : N) :
    T.waiting arrived (s.free x) y = (T.waiting arrived s y && decide (y ≠ x)) := by
  unfold waiting
  rw [State.free_tx, State.free_log]
  by_cases hyx : y = x
  · rw [hyx, if_pos htx, if_pos htx, if_pos rfl]
    simp
  · rw [if_neg hyx]
    simp [hyx]

theorem waiting_enqueue (htx : T.isTx x = true) (y : N) :
    T.waiting arrived (s.set x { t with inParentQ := true }) y =
      (T.waiting arrived s y || decide (y = x)) := by
  unfold waiting
  rw [State.set_tx, State.set_log]
  by_cases hyx : y = x
  · rw [hyx, if_pos htx, if_pos htx, if_pos rfl]
    simp
  · rw [if_neg hyx]
    simp [hyx]

theorem finished_ran (hx : s.tx x = some t) (hop : T.isTx c = false) (y : N) :
    T.finished (s.ran x t' c) y = (T.finished s y || decide (y = c)) := by
  unfold finished
  rw [State.ran_tx, State.ran_log]
  by_cases hyc : y = c
  · rw [hyc, hop]
    simp
  · by_cases hyx : y = x
    · rw [if_pos hyx, hyx, hx]
      have hxc : x ≠ c := hyx ▸ hyc
      simp [hxc]
    · rw [if_neg hyx]
      simp [hyc]

theorem waiting_ran (hx : s.tx x = some t) (hq : t'.inParentQ = t.inParentQ)
    (hop : T.isTx c = false) (y : N) :
    T.waiting arrived (s.ran x t' c) y = (T.waiting arrived s y && decide (y ≠ c)) := by
  unfold waiting
  rw [State.ran_tx, State.ran_log]
  by_cases hyc : y = c
  · rw [hyc, hop]
    simp
  · by_cases hyx : y = x
    · rw [if_pos hyx, hyx, hx]
      have hxc : x ≠ c := hyx ▸ hyc
      simp [hxc, hq]
    · rw [if_neg hyx]
      simp [hyc]

variable [Fintype N]

/-! ### The record of the transaction of a child -/

/-- A child is finished: it leaves the queue, if it is there, and is counted. -/
theorem TxOk.child_finished (h : T.TxOk arrived s p t) (hsmall : (T.children p).card < 2 ^ 32)
    (hc : T.parent c = some p) (hcf : T.finished s c = false)
    (hf : ∀ y, T.finished s' y = (T.finished s y || decide (y = c)))
    (hw : ∀ y, T.waiting arrived s' y = (T.waiting arrived s y && decide (y ≠ c)))
    (hqueue : t'.queue.Nodup ∧ ∀ y, y ∈ t'.queue ↔ y ∈ t.queue ∧ y ≠ c)
    (halready : t'.already = (t.already + 1) % 2 ^ 32) (htotal : t'.total = t.total)
    (hcapacity : t'.capacity = t.capacity) : T.TxOk arrived s' p t' where
  nodup := hqueue.1
  mem_queue y := by
    rw [hqueue.2 y, h.mem_queue y, hw y, Bool.and_eq_true, decide_eq_true_iff, and_assoc]
  already := by
    have hinsert : ((T.children p).filter fun y => T.finished s' y = true) =
        insert c ((T.children p).filter fun y => T.finished s y = true) := by
      ext y
      rw [Finset.mem_insert, Finset.mem_filter, Finset.mem_filter, hf y, Bool.or_eq_true,
        decide_eq_true_iff]
      constructor
      · rintro ⟨hy, hfin | rfl⟩
        · exact Or.inr ⟨hy, hfin⟩
        · exact Or.inl rfl
      · rintro (rfl | ⟨hy, hfin⟩)
        · exact ⟨mem_children.2 hc, Or.inr rfl⟩
        · exact ⟨hy, Or.inl hfin⟩
    have hnot : c ∉ (T.children p).filter fun y => T.finished s y = true := by
      intro hmem
      have hfin := (Finset.mem_filter.1 hmem).2
      rw [hcf] at hfin
      cases hfin
    have hle : ((T.children p).filter fun y => T.finished s' y = true).card ≤ (T.children p).card :=
      Finset.card_filter_le _ _
    rw [hinsert, Finset.card_insert_of_notMem hnot, ← h.already] at hle
    rw [hinsert, Finset.card_insert_of_notMem hnot, ← h.already, halready,
      Nat.mod_eq_of_lt (by omega)]
  total := by
    rw [htotal]
    exact h.total
  room := by
    refine ⟨?_, hcapacity ▸ h.room.capacity⟩
    have hle : t'.queue.length ≤ t.queue.length := by
      apply (hqueue.1.subperm _).length_le
      exact fun y hy => ((hqueue.2 y).1 hy).1
    exact hle.trans (hcapacity ▸ h.room.length_le)

theorem TxOk.child_waits (h : T.TxOk arrived s p t)
    (hroom : t.queue.length < maybeGrow t.queue.length t.capacity) (hc : T.parent c = some p)
    (hcw : T.waiting arrived s c = false) {arrived' : Finset N}
    (harr : p ∈ arrived' ↔ p ∈ arrived)
    (hf : ∀ y, T.finished s' y = T.finished s y)
    (hw : ∀ y, T.parent y = some p →
      T.waiting arrived' s' y = (T.waiting arrived s y || decide (y = c))) :
    T.TxOk arrived' s' p (T.inserted c t) where
  nodup := by
    rw [inserted_queue_perm.nodup_iff, List.nodup_cons]
    refine ⟨fun hmem => ?_, h.nodup⟩
    have hwait := ((h.mem_queue c).1 hmem).2
    rw [hcw] at hwait
    cases hwait
  mem_queue y := by
    rw [inserted_queue_perm.mem_iff, List.mem_cons, h.mem_queue y]
    constructor
    · rintro (rfl | ⟨hy, hwait⟩)
      · refine ⟨hc, ?_⟩
        rw [hw y hc]
        simp
      · refine ⟨hy, ?_⟩
        rw [hw y hy, hwait, Bool.true_or]
    · rintro ⟨hy, hwait⟩
      rw [hw y hy, Bool.or_eq_true, decide_eq_true_iff] at hwait
      rcases hwait with hwait | rfl
      · exact Or.inr ⟨hy, hwait⟩
      · exact Or.inl rfl
  already := by
    rw [inserted, h.already]
    simp only [hf]
  total := by
    rw [inserted, h.total]
    simp only [harr]
  room := h.room.inserted hroom

/-- Records of transactions that are not the parent of the child do not change. -/
theorem TxOk.of_other (h : T.TxOk arrived s p t) (hc : T.parent c ≠ some p)
    (hf : ∀ y ≠ c, T.finished s' y = T.finished s y)
    (hw : ∀ y ≠ c, T.waiting arrived s' y = T.waiting arrived s y) : T.TxOk arrived s' p t := by
  apply h.congr
  · intro y hy
    apply hw
    rintro rfl
    exact hc hy
  · intro y hy
    apply hf
    rintro rfl
    exact hc hy

/-! ### Rounds -/

omit [DecidableEq N] [Fintype N] in
theorem parent_ne (hp : T.parent x = some p) : p ≠ x := by
  rintro rfl
  have := T.depth_parent p p hp
  omega

theorem Ok.free (h : T.Ok arrived s) (hx : s.tx x = some t) (hdone : t.Done)
    (hcount : ∀ p parent, T.parent x = some p → s.tx p = some parent → ∃ r, s'.tx p = some r ∧
      r.ready = parent.ready ∧ r.inParentQ = parent.inParentQ ∧ T.TxOk arrived s' p r)
    (htx : ∀ y, T.parent x ≠ some y → s'.tx y = if y = x then none else s.tx y)
    (hlog : s'.log = s.log ++ [.free x])
    (hf : ∀ y, T.finished s' y = (T.finished s y || decide (y = x)))
    (hw : ∀ y, T.waiting arrived s' y = (T.waiting arrived s y && decide (y ≠ x))) :
    T.Ok arrived s' := by
  obtain ⟨harr, -, -, hchildren⟩ := (h.txOk x t hx).of_done hdone
  have hxtx := h.isTx x t hx
  have hmono : ∀ y, T.finished s y = true → T.finished s' y = true := by
    intro y hy
    rw [hf y, hy, Bool.true_or]
  -- the records of `s'`: that of the parent of `x` is another one with the same flags
  have hback : ∀ y u, s'.tx y = some u → y ≠ x ∧ ∃ u', s.tx y = some u' ∧ u.ready = u'.ready ∧
      u.inParentQ = u'.inParentQ ∧ T.TxOk arrived s' y u := by
    intro y u hy
    by_cases hpy : T.parent x = some y
    · obtain ⟨parent, hparent⟩ := h.parent_alive hx hpy
      obtain ⟨r, hr, hready, hq, hok⟩ := hcount y parent hpy hparent
      rw [hr] at hy
      cases hy
      exact ⟨parent_ne hpy, parent, hparent, hready, hq, hok⟩
    · rw [htx y hpy] at hy
      by_cases hyx : y = x
      · rw [if_pos hyx] at hy
        cases hy
      · rw [if_neg hyx] at hy
        refine ⟨hyx, u, hy, rfl, rfl, (h.txOk y u hy).of_other hpy ?_ ?_⟩
        · intro z hz
          rw [hf z]
          simp [hz]
        · intro z hz
          rw [hw z]
          simp [hz]
  have hforth : ∀ y u, s.tx y = some u → y ≠ x → ∃ u', s'.tx y = some u' ∧ u'.ready = u.ready := by
    intro y u hy hyx
    by_cases hpy : T.parent x = some y
    · obtain ⟨r, hr, hready, -⟩ := hcount y u hpy hy
      exact ⟨r, hr, hready⟩
    · refine ⟨u, ?_, rfl⟩
      rw [htx y hpy, if_neg hyx]
      exact hy
  have hnone : ∀ y, s'.tx y = none ↔ y = x ∨ s.tx y = none := by
    intro y
    constructor
    · intro hy
      by_cases hyx : y = x
      · exact Or.inl hyx
      · cases hsy : s.tx y with
        | none => exact Or.inr rfl
        | some u =>
            obtain ⟨u', hu', -⟩ := hforth y u hsy hyx
            rw [hu'] at hy
            cases hy
    · intro hy
      cases hsy : s'.tx y with
      | none => rfl
      | some u =>
          obtain ⟨hyx, u', hu', -⟩ := hback y u hsy
          rcases hy with rfl | hy
          · exact absurd rfl hyx
          · rw [hu'] at hy
            cases hy
  have hflags : T.FlagsOk s' := by
    constructor
    · intro u hu
      obtain ⟨-, u', hu', hready, hq, -⟩ := hback _ u hu
      rw [hready, hq]
      exact h.rootReady u' hu'
    · intro y u q hy hready hq
      obtain ⟨hyx, u', hu', hready', hq', -⟩ := hback y u hy
      rw [hready'] at hready
      obtain ⟨hqueued, tq, htq, htqready⟩ := h.ready y u' q hu' hready hq
      refine ⟨hq'.trans hqueued, ?_⟩
      have hqx : q ≠ x := by
        rintro rfl
        have hfin := hchildren y hq
        rw [finished, if_pos (h.isTx y u' hu'), hu'] at hfin
        cases hfin
      obtain ⟨r, hr, hrr⟩ := hforth q tq htq hqx
      exact ⟨r, hr, hrr.trans htqready⟩
  refine ⟨hflags, ?_, ?_, ?_, ?_, ?_, ?_⟩
  · intro y u hy
    obtain ⟨-, -, -, -, -, hok⟩ := hback y u hy
    exact hok
  · intro y u hy
    obtain ⟨-, u', hu', -⟩ := hback y u hy
    exact h.isTx y u' hu'
  · intro y hytx hy
    rcases (hnone y).1 hy with rfl | hy
    · exact ⟨harr, fun z hz => hmono z (hchildren z hz)⟩
    · obtain ⟨hyarr, hyc⟩ := h.freed y hytx hy
      exact ⟨hyarr, fun z hz => hmono z (hyc z hz)⟩
  · intro y hy
    rw [hlog, List.mem_append, List.mem_singleton] at hy
    rcases hy with hy | hy
    · exact h.ran y hy
    · cases hy
  · intro y
    rw [hlog, List.count_append]
    have hzero : List.count (Action.run y) [Action.free x] = 0 := by simp
    rw [hzero]
    exact h.countRun y
  · intro y
    rw [hlog, List.count_append, h.countFree y]
    by_cases hyx : y = x
    · subst hyx
      rw [if_neg (by simp [hx]), if_pos ⟨hxtx, (hnone y).2 (Or.inl rfl)⟩]
      simp
    · have hzero : List.count (Action.free y) [Action.free x] = 0 := by
        simp [Ne.symm hyx]
      rw [hzero, Nat.add_zero]
      have hiff : s'.tx y = none ↔ s.tx y = none := by
        rw [hnone y]
        simp [hyx]
      simp only [hiff]

theorem Ok.finishRoot (h : T.Ok arrived s) (hx : s.tx x = some t) (hdone : t.Done)
    (hp : T.parent x = none) : T.Ok arrived (s.free x) := by
  have hxtx := h.isTx x t hx
  apply h.free hx hdone
  · intro p parent hp'
    rw [hp] at hp'
    cases hp'
  · intro y _
    exact State.free_tx s x y
  · rfl
  · exact finished_free hxtx
  · exact waiting_free hxtx

theorem Ok.finish (h : T.Ok arrived s) (hx : s.tx x = some t) (hdone : t.Done)
    (hp : T.parent x = some p) (hparent : s.tx p = some parent)
    (hsmall : (T.children p).card < 2 ^ 32) :
    T.Ok arrived ((s.free x).set p (T.released x t parent)) := by
  have hxtx := h.isTx x t hx
  have hparent' : (s.free x).tx p = some parent := by
    rw [State.free_tx, if_neg (parent_ne hp)]
    exact hparent
  have hf : ∀ y, T.finished ((s.free x).set p (T.released x t parent)) y =
      (T.finished s y || decide (y = x)) := fun y =>
    (finished_set hparent' y).trans (finished_free hxtx y)
  have hw : ∀ y, T.waiting arrived ((s.free x).set p (T.released x t parent)) y =
      (T.waiting arrived s y && decide (y ≠ x)) := by
    intro y
    rw [← waiting_free hxtx y]
    apply waiting_set hparent'
    rfl
  apply h.free hx hdone _ _ _ hf hw
  · intro q parent' hq hparent''
    rw [hp] at hq
    cases hq
    rw [hparent] at hparent''
    cases hparent''
    refine ⟨T.released x t parent, by rw [State.set_tx, if_pos rfl], rfl, rfl, ?_⟩
    have hpok := h.txOk p parent hparent
    have hxf : T.finished s x = false := by
      rw [finished, if_pos hxtx, hx]
      rfl
    refine hpok.child_finished hsmall hp hxf hf hw ?_ (by rfl) (by rfl) (by rfl)
    have hmem : x ∈ parent.queue ↔ t.inParentQ = true := by
      rw [hpok.mem_queue x, waiting, if_pos hxtx, hx, Option.any_some]
      simp [hp]
    unfold released
    dsimp only
    split_ifs with hq
    · exact nodup_and_mem_of_perm (removeFromQ_perm (hmem.2 hq)) hpok.nodup
    · refine ⟨hpok.nodup, fun y => ?_⟩
      constructor
      · intro hy
        refine ⟨hy, ?_⟩
        rintro rfl
        exact hq (hmem.1 hy)
      · exact And.left
  · intro y hy
    rw [State.set_tx, State.free_tx, if_neg]
    rintro rfl
    exact hy hp
  · rfl

theorem Ok.of_same (h : T.Ok arrived s) {arrived' : Finset N} (harr : arrived ⊆ arrived')
    (hlog : s'.log = s.log) (hnone : ∀ y, s'.tx y = none ↔ s.tx y = none)
    (hok : ∀ y u, s'.tx y = some u → T.TxOk arrived' s' y u) (hflags : T.FlagsOk s') :
    T.Ok arrived' s' where
  toFlagsOk := hflags
  txOk := hok
  isTx y u hy := by
    cases hsy : s.tx y with
    | none =>
        rw [(hnone y).2 hsy] at hy
        cases hy
    | some u' => exact h.isTx y u' hsy
  freed y hytx hy := by
    obtain ⟨hyarr, hyc⟩ := h.freed y hytx ((hnone y).1 hy)
    refine ⟨harr hyarr, fun z hz => ?_⟩
    have hfin := hyc z hz
    unfold finished at hfin ⊢
    split_ifs at hfin ⊢ with hztx
    · rw [Option.isNone_iff_eq_none] at hfin ⊢
      exact (hnone z).2 hfin
    · rw [hlog]
      exact hfin
  ran y hy := by
    rw [hlog] at hy
    exact ⟨(h.ran y hy).1, harr (h.ran y hy).2⟩
  countRun y := by
    rw [hlog]
    exact h.countRun y
  countFree y := by
    rw [hlog, h.countFree y]
    simp only [hnone y]

omit [Fintype N] in
/-- The record of one transaction is replaced by one with the flags it had, or more. -/
theorem FlagsOk.set (h : T.FlagsOk s) (hx : s.tx x = some t)
    (hr : t.ready = true → t'.ready = true) (hq : t.inParentQ = true → t'.inParentQ = true)
    (hnew : t'.ready = true → t.ready = false → t'.inParentQ = true ∧
      ∃ p parent, T.parent x = some p ∧ s.tx p = some parent ∧ parent.ready = true) :
    T.FlagsOk (s.set x t') := by
  have hforth : ∀ q r, s.tx q = some r → r.ready = true →
      ∃ r', (s.set x t').tx q = some r' ∧ r'.ready = true := by
    intro q r hsr hrr
    by_cases hqx : q = x
    · subst hqx
      rw [hx] at hsr
      cases hsr
      exact ⟨t', by rw [State.set_tx, if_pos rfl], hr hrr⟩
    · exact ⟨r, by rw [State.set_tx, if_neg hqx, hsr], hrr⟩
  constructor
  · intro u hu
    rw [State.set_tx] at hu
    split_ifs at hu with hxr
    · cases hu
      rw [← hxr] at hx
      obtain ⟨hr', hq'⟩ := h.rootReady t hx
      exact ⟨hr hr', hq hq'⟩
    · exact h.rootReady u hu
  · intro y u q hy hu hyq
    rw [State.set_tx] at hy
    split_ifs at hy with hyx
    · cases hy
      subst hyx
      cases hready : t.ready with
      | true =>
          obtain ⟨hqueued, r, hsr, hrr⟩ := h.ready y t q hx hready hyq
          exact ⟨hq hqueued, hforth q r hsr hrr⟩
      | false =>
          obtain ⟨hqueued, q', parent, hq', hparent, hpr⟩ := hnew hu hready
          rw [hq'] at hyq
          cases hyq
          exact ⟨hqueued, hforth _ parent hparent hpr⟩
    · obtain ⟨hqueued, r, hsr, hrr⟩ := h.ready y u q hy hu hyq
      exact ⟨hqueued, hforth q r hsr hrr⟩

omit [Fintype N] in
theorem FlagsOk.set_of_eq (h : T.FlagsOk s) (hx : s.tx x = some t) (hr : t'.ready = t.ready)
    (hq : t.inParentQ = true → t'.inParentQ = true) : T.FlagsOk (s.set x t') := by
  apply h.set hx (fun hready => hr.trans hready) hq
  intro hready hfalse
  rw [hr, hfalse] at hready
  cases hready

omit [Fintype N] in
theorem set_eq_none_iff (hx : s.tx x = some t) (y : N) : (s.set x t').tx y = none ↔ s.tx y = none := by
  rw [State.set_tx]
  split_ifs with hyx
  · rw [hyx, hx]
    simp
  · exact Iff.rfl

theorem Ok.enqueue (h : T.Ok arrived s) (hx : s.tx x = some t) (hp : T.parent x = some p)
    (hq : t.inParentQ = false) (hparent : s.tx p = some parent)
    (hroom : parent.queue.length < maybeGrow parent.queue.length parent.capacity) :
    T.Ok arrived ((s.set x { t with inParentQ := true }).set p
      (T.inserted x parent)) := by
  have hne : p ≠ x := parent_ne hp
  have hxtx := h.isTx x t hx
  have hparent' : (s.set x { t with inParentQ := true }).tx p = some parent := by
    rw [State.set_tx, if_neg hne]
    exact hparent
  have hxw : T.waiting arrived s x = false := by
    rw [waiting, if_pos hxtx, hx, Option.any_some]
    exact hq
  have hf : ∀ y, T.finished ((s.set x { t with inParentQ := true }).set p
      (T.inserted x parent)) y = T.finished s y := fun y =>
    (finished_set hparent' y).trans (finished_set hx y)
  have hw : ∀ y, T.waiting arrived ((s.set x { t with inParentQ := true }).set p
      (T.inserted x parent)) y =
      (T.waiting arrived s y || decide (y = x)) := by
    intro y
    rw [← @waiting_enqueue N _ T arrived s x t hxtx y]
    apply waiting_set hparent'
    rfl
  have hother : ∀ y u, y ≠ p → T.TxOk arrived s y u → T.TxOk arrived
      ((s.set x { t with inParentQ := true }).set p
        (T.inserted x parent)) y u := by
    intro y u hyp hu
    apply hu.of_other
    · rw [hp]
      exact fun he => hyp (Option.some.inj he).symm
    · exact fun z _ => hf z
    · intro z hz
      rw [hw z]
      simp [hz]
  apply h.of_same (Finset.Subset.refl _)
  · rfl
  · intro y
    rw [set_eq_none_iff hparent', set_eq_none_iff hx]
  · intro y u hy
    rw [State.set_tx] at hy
    split_ifs at hy with hyp
    · cases hy
      subst hyp
      exact (h.txOk y parent hparent).child_waits hroom hp hxw Iff.rfl hf fun z _ => hw z
    · rw [State.set_tx] at hy
      split_ifs at hy with hyx
      · cases hy
        subst hyx
        have hok := hother y t hyp (h.txOk y t hx)
        exact ⟨hok.nodup, hok.mem_queue, hok.already, hok.total, hok.room.length_le, hok.room.capacity⟩
      · exact hother y u hyp (h.txOk y u hy)
  · have hflags : T.FlagsOk (s.set x { t with inParentQ := true }) := by
      apply h.toFlagsOk.set_of_eq hx
      · rfl
      · exact fun _ => rfl
    apply hflags.set_of_eq hparent'
    · rfl
    · exact fun hqueued => hqueued

/-- The first event of a transaction is a transaction, which becomes ready. -/
theorem Ok.descend (h : T.Ok arrived s) (hx : s.tx x = some t) (hready : t.ready = true)
    (hp : T.parent c = some x) {child : TX N} (hc : s.tx c = some child)
    (hq : child.inParentQ = true) : T.Ok arrived (s.set c { child with ready := true }) := by
  apply h.of_same (Finset.Subset.refl _)
  · rfl
  · exact set_eq_none_iff hc
  · intro y u hy
    have hcongr : ∀ u', T.TxOk arrived s y u' →
        T.TxOk arrived (s.set c { child with ready := true }) y u' := by
      intro u' hu'
      apply hu'.congr
      · intro z _
        apply waiting_set hc
        rfl
      · exact fun z _ => finished_set hc z
    rw [State.set_tx] at hy
    split_ifs at hy with hyc
    · cases hy
      subst hyc
      have hok := hcongr child (h.txOk y child hc)
      exact ⟨hok.nodup, hok.mem_queue, hok.already, hok.total, hok.room.length_le, hok.room.capacity⟩
    · exact hcongr u (h.txOk y u hy)
  · apply h.toFlagsOk.set hc
    · exact fun _ => rfl
    · exact fun hqueued => hqueued
    · exact fun _ _ => ⟨hq, x, t, hp, hx, hready⟩

theorem Ok.run (h : T.Ok arrived s) (hx : s.tx x = some t) {front : N} {rest : List N}
    (hqueue : t.queue = front :: rest) (hop : T.isTx front = false)
    (hsmall : (T.children x).card < 2 ^ 32) :
    T.Ok arrived (s.ran x (T.executed t front) front) := by
  have hxok := h.txOk x t hx
  have hmem : front ∈ t.queue := by
    rw [hqueue]
    exact List.mem_cons_self
  obtain ⟨hfp, hfw⟩ := (hxok.mem_queue front).1 hmem
  have hff := not_finished_of_waiting hfw
  have hfarr : front ∈ arrived ∧ Action.run front ∉ s.log := by
    rw [waiting, hop] at hfw
    simpa using hfw
  have hf : ∀ y, T.finished (s.ran x (T.executed t front) front) y =
      (T.finished s y || decide (y = front)) := finished_ran hx hop
  have hw : ∀ y, T.waiting arrived (s.ran x (T.executed t front) front) y =
      (T.waiting arrived s y && decide (y ≠ front)) := by
    intro y
    apply waiting_ran hx _ hop
    rfl
  have hnone : ∀ y, (s.ran x (T.executed t front) front).tx y = none ↔ s.tx y = none :=
    set_eq_none_iff hx
  have hflags : T.FlagsOk (s.set x (T.executed t front)) := by
    apply h.toFlagsOk.set_of_eq hx
    · rfl
    · exact fun hqueued => hqueued
  refine ⟨⟨hflags.rootReady, hflags.ready⟩, ?_, ?_, ?_, ?_, ?_, ?_⟩
  · intro y u hy
    rw [State.ran_tx] at hy
    split_ifs at hy with hyx
    · cases hy
      subst hyx
      refine hxok.child_finished hsmall hfp hff hf hw ?_ (by rfl) (by rfl) (by rfl)
      apply nodup_and_mem_of_perm _ hxok.nodup
      rw [executed, hqueue]
      exact removeminEvt_perm
    · apply (h.txOk y u hy).of_other
      · rw [hfp]
        exact fun he => hyx (Option.some.inj he).symm
      · intro z hz
        rw [hf z]
        simp [hz]
      · intro z hz
        rw [hw z]
        simp [hz]
  · intro y u hy
    cases hsy : s.tx y with
    | none =>
        rw [(hnone y).2 hsy] at hy
        cases hy
    | some u' => exact h.isTx y u' hsy
  · intro y hytx hy
    obtain ⟨hyarr, hyc⟩ := h.freed y hytx ((hnone y).1 hy)
    refine ⟨hyarr, fun z hz => ?_⟩
    rw [hf z, hyc z hz, Bool.true_or]
  · intro y hy
    rw [State.ran_log, List.mem_append, List.mem_singleton] at hy
    rcases hy with hy | hy
    · exact h.ran y hy
    · cases hy
      exact ⟨hop, hfarr.1⟩
  · intro y
    rw [State.ran_log, List.count_append]
    by_cases hyf : y = front
    · subst hyf
      rw [List.count_eq_zero_of_not_mem hfarr.2]
      simp
    · have hzero : List.count (Action.run y) [Action.run front] = 0 := by simp [Ne.symm hyf]
      rw [hzero]
      exact h.countRun y
  · intro y
    rw [State.ran_log, List.count_append, h.countFree y]
    have hzero : List.count (Action.free y) [Action.run front] = 0 := by simp
    rw [hzero]
    simp only [hnone y, Nat.add_zero]

/-- Every round keeps the records right. -/
theorem Ok.round (h : T.Ok arrived s) (hsmall : ∀ p, (T.children p).card < 2 ^ 32)
    (hx : s.tx x = some t) {l : Progress N} (hround : T.Round s x t (some l)) :
    T.Ok arrived l.state := by
  cases hround with
  | finishRoot hdone hp => exact h.finishRoot hx hdone hp
  | finish hdone hp hparent => exact h.finish hx hdone hp hparent (hsmall _)
  | enqueue hdone hp hq hparent hroom => exact h.enqueue hx hp hq hparent hroom
  | climb hdone hp hq hready hparent hpready => exact h
  | descend hdone hq hready hqueue hmay htx hchild =>
      have hmem : _ ∈ t.queue := hqueue ▸ List.mem_cons_self
      obtain ⟨hp, hw⟩ := ((h.txOk x t hx).mem_queue _).1 hmem
      rw [waiting, if_pos htx, hchild, Option.any_some] at hw
      exact h.descend hx hready hp hchild hw
  | run hdone hq hready hqueue hmay hop => exact h.run hx hqueue hop (hsmall _)

end Cpf.Txio.TxTree
