import Cpf.Txio.Commit

/-!
# The states of the commit thread

`Ok` relates the records of the transactions to the events that have arrived and to what was done: a
queue holds the children that wait, and the counters count the children that are finished. `Round`
lists what one round of `progress` does, and every round keeps `Ok`.
-/

namespace Cpf.Txio

variable {N : Type} [DecidableEq N]

namespace State

@[simp] theorem set_tx (s : State N) (x y : N) (t : TX N) :
    (s.set x t).tx y = if y = x then some t else s.tx y :=
  Function.update_apply s.tx x (some t) y

@[simp] theorem set_log (s : State N) (x : N) (t : TX N) : (s.set x t).log = s.log := rfl

@[simp] theorem free_tx (s : State N) (x y : N) :
    (s.free x).tx y = if y = x then none else s.tx y :=
  Function.update_apply s.tx x none y

@[simp] theorem free_log (s : State N) (x : N) : (s.free x).log = s.log ++ [.free x] := rfl

/-- An operation is run and removed from the queue of its transaction. -/
def ran (s : State N) (x : N) (t : TX N) (op : N) : State N :=
  { s.set x t with log := s.log ++ [.run op] }

@[simp] theorem ran_tx (s : State N) (x y op : N) (t : TX N) :
    (s.ran x t op).tx y = if y = x then some t else s.tx y := set_tx s x y t

@[simp] theorem ran_log (s : State N) (x op : N) (t : TX N) :
    (s.ran x t op).log = s.log ++ [.run op] := rfl

end State

namespace TxTree

variable (T : TxTree N)

/-- The record of the parent when a child with record `t` is done. -/
def released (x : N) (t parent : TX N) : TX N where
  ready := parent.ready
  inParentQ := parent.inParentQ
  total := parent.total
  already := (parent.already + 1) % 2 ^ 32
  upto := if t.inParentQ ∧ parent.queue.head? = some x then some (T.time x) else parent.upto
  queue := if t.inParentQ then T.removeFromQ x parent.queue else parent.queue
  capacity := parent.capacity

/-- The record of a transaction whose first event is run. -/
def executed (t : TX N) (front : N) : TX N :=
  { t with
    queue := T.removeminEvt t.queue
    upto := some (T.time front)
    already := (t.already + 1) % 2 ^ 32 }

/-- What one round of `progress` at transaction `x` with record `t` does. -/
inductive Round (s : State N) (x : N) (t : TX N) : Option (Progress N) → Prop
  | finishRoot (hdone : t.Done) (hp : T.parent x = none) : Round s x t (some ⟨s.free x, none⟩)
  | finish {p : N} {parent : TX N} (hdone : t.Done) (hp : T.parent x = some p)
      (hparent : s.tx p = some parent) :
      Round s x t (some ⟨(s.free x).set p (T.released x t parent), some p⟩)
  | enqueue {p : N} {parent : TX N} (hdone : ¬ t.Done) (hp : T.parent x = some p)
      (hq : t.inParentQ = false) (hparent : s.tx p = some parent)
      (hroom : parent.queue.length < maybeGrow parent.queue.length parent.capacity) :
      Round s x t (some ⟨(s.set x { t with inParentQ := true }).set p (T.inserted x parent), some p⟩)
  | climb {p : N} {parent : TX N} (hdone : ¬ t.Done) (hp : T.parent x = some p)
      (hq : t.inParentQ = true) (hready : t.ready = false) (hparent : s.tx p = some parent)
      (hpready : parent.ready = true) : Round s x t (some ⟨s, some p⟩)
  | wait {p : N} (hdone : ¬ t.Done) (hp : T.parent x = some p) (hq : t.inParentQ = true)
      (hready : t.ready = false) : Round s x t none
  | idle (hdone : ¬ t.Done) (hq : T.parent x ≠ none → t.inParentQ = true) (hready : t.ready = true)
      (hfront : ∀ front rest, t.queue = front :: rest → T.mayExecute t front = false) : Round s x t none
  | descend {front : N} {rest : List N} {child : TX N} (hdone : ¬ t.Done)
      (hq : T.parent x ≠ none → t.inParentQ = true) (hready : t.ready = true)
      (hqueue : t.queue = front :: rest) (hmay : T.mayExecute t front = true)
      (htx : T.isTx front = true) (hchild : s.tx front = some child) :
      Round s x t (some ⟨s.set front { child with ready := true }, some front⟩)
  | run {front : N} {rest : List N} (hdone : ¬ t.Done)
      (hq : T.parent x ≠ none → t.inParentQ = true) (hready : t.ready = true)
      (hqueue : t.queue = front :: rest) (hmay : T.mayExecute t front = true)
      (hop : T.isTx front = false) :
      Round s x t (some ⟨s.ran x (T.executed t front) front, some x⟩)

def finished (s : State N) (y : N) : Bool :=
  if T.isTx y then (s.tx y).isNone else decide (Action.run y ∈ s.log)

def waiting (arrived : Finset N) (s : State N) (y : N) : Bool :=
  if T.isTx y then (s.tx y).any TX.inParentQ
  else decide (y ∈ arrived) && decide (Action.run y ∉ s.log)

structure FlagsOk (s : State N) : Prop where
  rootReady : ∀ t, s.tx T.root = some t → t.ready = true ∧ t.inParentQ = true
  ready : ∀ y u p, s.tx y = some u → u.ready = true → T.parent y = some p →
    u.inParentQ = true ∧ ∃ t, s.tx p = some t ∧ t.ready = true

/-- The capacities a queue can have before they overflow. -/
structure RoomOk (t : TX N) : Prop where
  length_le : t.queue.length ≤ t.capacity
  capacity : t.capacity = 0 ∨ ∃ k ≤ 27, t.capacity = minCapacity * 2 ^ k

variable [Fintype N]

structure TxOk (arrived : Finset N) (s : State N) (p : N) (t : TX N) : Prop where
  nodup : t.queue.Nodup
  mem_queue : ∀ y, y ∈ t.queue ↔ T.parent y = some p ∧ T.waiting arrived s y = true
  already : t.already = ((T.children p).filter fun y => T.finished s y = true).card
  total : t.total = if p ∈ arrived then (T.children p).card else unknown
  room : RoomOk t

structure Ok (arrived : Finset N) (s : State N) : Prop extends T.FlagsOk s where
  txOk : ∀ p t, s.tx p = some t → T.TxOk arrived s p t
  isTx : ∀ p t, s.tx p = some t → T.isTx p = true
  freed : ∀ p, T.isTx p = true → s.tx p = none → p ∈ arrived ∧
    ∀ y, T.parent y = some p → T.finished s y = true
  ran : ∀ x, Action.run x ∈ s.log → T.isTx x = false ∧ x ∈ arrived
  countRun : ∀ x, s.log.count (.run x) ≤ 1
  countFree : ∀ x, s.log.count (.free x) = if T.isTx x = true ∧ s.tx x = none then 1 else 0

section

variable {T} {arrived : Finset N} {s s' : State N} {p x : N} {t : TX N}

theorem mem_children {y : N} : y ∈ T.children p ↔ T.parent y = some p := by
  simp [children]

theorem TxOk.congr (h : T.TxOk arrived s p t)
    (hw : ∀ y, T.parent y = some p → T.waiting arrived s' y = T.waiting arrived s y)
    (hf : ∀ y, T.parent y = some p → T.finished s' y = T.finished s y) : T.TxOk arrived s' p t where
  nodup := h.nodup
  mem_queue y := by
    rw [h.mem_queue y]
    apply and_congr_right
    intro hy
    rw [hw y hy]
  already := by
    rw [h.already]
    congr 1
    apply Finset.filter_congr
    intro y hy
    rw [hf y (mem_children.1 hy)]
  total := h.total
  room := h.room

omit [Fintype N] in
theorem not_finished_of_waiting {y : N} (h : T.waiting arrived s y = true) :
    T.finished s y = false := by
  unfold waiting at h
  unfold finished
  split_ifs at h ⊢ with htx
  · cases hs : s.tx y with
    | none =>
        rw [hs] at h
        cases h
    | some u => rfl
  · rw [Bool.and_eq_true, decide_eq_true_iff, decide_eq_true_iff] at h
    exact decide_eq_false h.2

theorem TxOk.card_queue_union (h : T.TxOk arrived s p t) :
    (t.queue.toFinset ∪ (T.children p).filter fun y => T.finished s y = true).card =
      t.queue.length + t.already := by
  rw [h.already, ← List.toFinset_card_of_nodup h.nodup]
  have hdisj : Disjoint t.queue.toFinset ((T.children p).filter fun y => T.finished s y = true) := by
    rw [Finset.disjoint_left]
    intro y hy hy'
    have hwait := ((h.mem_queue y).1 (List.mem_toFinset.1 hy)).2
    have hfin := (Finset.mem_filter.1 hy').2
    rw [not_finished_of_waiting hwait] at hfin
    cases hfin
  exact Finset.card_union_of_disjoint hdisj

theorem TxOk.queue_union_subset (h : T.TxOk arrived s p t) :
    (t.queue.toFinset ∪ (T.children p).filter fun y => T.finished s y = true) ⊆ T.children p := by
  apply Finset.union_subset
  · intro y hy
    exact mem_children.2 ((h.mem_queue y).1 (List.mem_toFinset.1 hy)).1
  · exact Finset.filter_subset _ _

theorem TxOk.length_add_already (h : T.TxOk arrived s p t) :
    t.queue.length + t.already ≤ (T.children p).card := by
  rw [← h.card_queue_union]
  exact Finset.card_le_card h.queue_union_subset

/-- There is room for a child that is neither finished nor in the queue. -/
theorem TxOk.length_lt (h : T.TxOk arrived s p t) {c : N} (hc : T.parent c = some p)
    (hcw : T.waiting arrived s c = false) (hcf : T.finished s c = false) :
    t.queue.length + t.already < (T.children p).card := by
  rw [← h.card_queue_union]
  apply Finset.card_lt_card
  refine ⟨h.queue_union_subset, fun hsub => ?_⟩
  rcases Finset.mem_union.1 (hsub (mem_children.2 hc)) with hmem | hmem
  · have hwait := ((h.mem_queue c).1 (List.mem_toFinset.1 hmem)).2
    rw [hcw] at hwait
    cases hwait
  · have hfin := (Finset.mem_filter.1 hmem).2
    rw [hcf] at hfin
    cases hfin

omit [DecidableEq N] [Fintype N] in
theorem inserted_queue_perm : (T.inserted x t).queue.Perm (x :: t.queue) :=
  BinaryHeap.insert_perm _ _ _

omit [DecidableEq N] [Fintype N] in
theorem RoomOk.inserted (h : RoomOk t)
    (hroom : t.queue.length < maybeGrow t.queue.length t.capacity) : RoomOk (T.inserted x t) := by
  refine ⟨by rwa [inserted_queue_perm.length_eq], ?_⟩
  obtain ⟨hle, hcap⟩ := h
  unfold TxTree.inserted maybeGrow at *
  dsimp only at *
  split_ifs at hroom ⊢ with hgrow
  · rcases hcap with hcap | ⟨k, hk, hcap⟩
    · exact Or.inr ⟨0, by omega, by rw [hcap]; decide⟩
    · by_cases hk' : k = 27
      · exact Or.inr ⟨0, by omega, by rw [hcap, hk']; decide⟩
      · refine Or.inr ⟨k + 1, by omega, ?_⟩
        have hpow : minCapacity * 2 ^ (k + 1) ≤ minCapacity * 2 ^ 27 :=
          Nat.mul_le_mul_left _ (Nat.pow_le_pow_right (by omega) (by omega))
        have hdouble : 2 * t.capacity = minCapacity * 2 ^ (k + 1) := by
          rw [hcap]
          ring
        have hge : minCapacity ≤ minCapacity * 2 ^ (k + 1) :=
          Nat.le_mul_of_pos_right _ (by positivity)
        rw [hdouble, Nat.mod_eq_of_lt (lt_of_le_of_lt hpow (by decide)), max_eq_right hge]
  · exact hcap

omit [DecidableEq N] [Fintype N] in
/-- There is room for one more unless the queue has reached the largest capacity. -/
theorem RoomOk.lt_maybeGrow (h : RoomOk t) (hlength : t.queue.length < 2 ^ 31) :
    t.queue.length < maybeGrow t.queue.length t.capacity := by
  obtain ⟨hle, hcap⟩ := h
  rw [maybeGrow, Nat.mod_eq_of_lt (by omega)]
  split_ifs with hgrow
  · rcases hcap with hcap | ⟨k, hk, hcap⟩
    · rw [hcap] at hle ⊢
      have hpos : 0 < minCapacity := by decide
      exact lt_max_of_lt_left (by omega)
    · have hpos : 0 < t.capacity := by
        rw [hcap]
        simp [minCapacity]
      apply lt_max_of_lt_right
      rw [Nat.mod_eq_of_lt (by omega)]
      omega
  · omega

/-- A transaction that is done was closed, and all its children are finished. -/
theorem TxOk.of_done (h : T.TxOk arrived s p t) (hdone : t.Done) :
    p ∈ arrived ∧ t.already = t.total ∧ t.queue = [] ∧
      ∀ y, T.parent y = some p → T.finished s y = true := by
  obtain ⟨hknown, hle⟩ := hdone
  have htotal := h.total
  have hp : p ∈ arrived := by
    by_contra hp
    rw [if_neg hp] at htotal
    exact hknown htotal
  rw [if_pos hp] at htotal
  have hlen := h.length_add_already
  refine ⟨hp, by omega, List.length_eq_zero_iff.1 (by omega), ?_⟩
  have hcard : ((T.children p).filter fun y => T.finished s y = true).card = (T.children p).card := by
    rw [← h.already]
    omega
  intro y hy
  exact Finset.card_filter_eq_iff.1 hcard y (mem_children.2 hy)

omit [Fintype N] in
theorem removeFromQ_perm {queue : List N} (hx : x ∈ queue) :
    (x :: T.removeFromQ x queue).Perm queue := by
  rw [removeFromQ, if_pos hx]
  exact BinaryHeap.removePos_perm _ (List.getElem?_idxOf hx)

omit [DecidableEq N] [Fintype N] in
theorem removeminEvt_perm {front : N} {rest : List N} :
    (front :: T.removeminEvt (front :: rest)).Perm (front :: rest) :=
  BinaryHeap.removePos_perm _ rfl

omit [DecidableEq N] [Fintype N] in
theorem nodup_and_mem_of_perm {queue queue' : List N} (h : (x :: queue').Perm queue)
    (hnodup : queue.Nodup) : queue'.Nodup ∧ ∀ y, y ∈ queue' ↔ y ∈ queue ∧ y ≠ x := by
  obtain ⟨hx, hnodup'⟩ := List.nodup_cons.1 (h.nodup_iff.2 hnodup)
  refine ⟨hnodup', fun y => ?_⟩
  rw [← h.mem_iff, List.mem_cons]
  constructor
  · intro hy
    refine ⟨Or.inr hy, ?_⟩
    rintro rfl
    exact hx hy
  · rintro ⟨rfl | hy, hne⟩
    · exact absurd rfl hne
    · exact hy

theorem Ok.parent_alive (h : T.Ok arrived s) (hx : s.tx x = some t) (hp : T.parent x = some p) :
    ∃ parent, s.tx p = some parent := by
  cases hs : s.tx p with
  | some parent => exact ⟨parent, rfl⟩
  | none =>
      have hfin := (h.freed p (T.isTx_parent x p hp) hs).2 x hp
      rw [finished, if_pos (h.isTx x t hx), hx] at hfin
      cases hfin

/-- A round fails only when an event does not fit in a queue. -/
theorem Ok.round_or_full (h : T.Ok arrived s) (hx : s.tx x = some t) :
    (∃ r, T.progressStep ⟨s, some x⟩ = .ok r ∧ T.Round s x t r) ∨
      T.progressStep ⟨s, some x⟩ = .error .badPointer ∧ t.inParentQ = false ∧
        ∃ p parent, T.parent x = some p ∧ s.tx p = some parent ∧
          maybeGrow parent.queue.length parent.capacity ≤ parent.queue.length := by
  unfold TxTree.progressStep
  dsimp only
  rw [hx]
  have hexec : ∀ hdone : ¬ t.Done, (T.parent x ≠ none → t.inParentQ = true) → t.ready = true →
      ∃ r, T.execute s x t = .ok r ∧ T.Round s x t r := by
    intro hdone hq hready
    unfold execute
    cases hqueue : t.queue with
    | nil =>
        refine ⟨none, rfl, Round.idle hdone hq hready fun front rest hf => ?_⟩
        rw [hqueue] at hf
        cases hf
    | cons front rest =>
        dsimp only
        cases hmay : T.mayExecute t front with
        | false =>
            refine ⟨none, by simp, Round.idle hdone hq hready fun front' rest' hf => ?_⟩
            rw [hqueue] at hf
            cases hf
            exact hmay
        | true =>
            cases htx : T.isTx front with
            | false =>
                refine ⟨_, ?_, Round.run hdone hq hready hqueue hmay htx⟩
                simp [State.ran, executed, hqueue]
            | true =>
                have hmem : front ∈ t.queue := by
                  rw [hqueue]
                  exact List.mem_cons_self
                have hwait := (((h.txOk x t hx).mem_queue front).1 hmem).2
                rw [waiting, if_pos htx] at hwait
                cases hchild : s.tx front with
                | none =>
                    rw [hchild] at hwait
                    cases hwait
                | some child =>
                    exact ⟨_, by simp, Round.descend hdone hq hready hqueue hmay htx hchild⟩
  dsimp only
  by_cases hdone : t.Done
  · obtain ⟨-, heq, hempty, -⟩ := (h.txOk x t hx).of_done hdone
    rw [if_pos hdone, TxTree.finish, if_neg (by simp [heq, hempty, sizeQ])]
    cases hp : T.parent x with
    | none => exact Or.inl ⟨_, rfl, Round.finishRoot hdone hp⟩
    | some p =>
        obtain ⟨parent, hparent⟩ := h.parent_alive hx hp
        refine Or.inl ⟨_, ?_, Round.finish hdone hp hparent⟩
        dsimp only
        rw [hparent]
        cases hq : t.inParentQ <;> simp [released, hq, Except.map]
  · rw [if_neg hdone, TxTree.advance]
    cases hp : T.parent x with
    | none =>
        obtain rfl := T.eq_root x hp
        obtain ⟨hready, -⟩ := h.rootReady t hx
        dsimp only
        rw [if_pos hready]
        exact Or.inl (hexec hdone (fun hne => absurd hp hne) hready)
    | some p =>
        obtain ⟨parent, hparent⟩ := h.parent_alive hx hp
        dsimp only
        cases hq : t.inParentQ with
        | false =>
            rw [if_pos (by decide), hparent]
            dsimp only
            rw [insertEvt]
            split_ifs with hfull
            · exact Or.inr ⟨rfl, rfl, p, parent, rfl, hparent, hfull⟩
            · exact Or.inl ⟨_, rfl, Round.enqueue hdone hp hq hparent (Nat.not_le.1 hfull)⟩
        | true =>
            rw [if_neg (by simp)]
            cases hready : t.ready with
            | true =>
                rw [if_neg (by simp)]
                exact Or.inl (hexec hdone (fun _ => hq) hready)
            | false =>
                rw [if_pos (by decide), hparent]
                dsimp only
                cases hpready : parent.ready with
                | true => exact Or.inl ⟨_, by simp, Round.climb hdone hp hq hready hparent hpready⟩
                | false => exact Or.inl ⟨_, by simp, Round.wait hdone hp hq hready⟩

/-- A round does not fail if no queue can get too long. -/
theorem Ok.progressStep (h : T.Ok arrived s) (hsmall : ∀ p, (T.children p).card ≤ 2 ^ 31)
    (hx : s.tx x = some t) : ∃ r, T.progressStep ⟨s, some x⟩ = .ok r ∧ T.Round s x t r := by
  rcases h.round_or_full hx with hround | ⟨-, hq, p, parent, hp, hparent, hfull⟩
  · exact hround
  · have hxtx := h.isTx x t hx
    have hxw : T.waiting arrived s x = false := by
      rw [waiting, if_pos hxtx, hx, Option.any_some]
      exact hq
    have hxf : T.finished s x = false := by
      rw [finished, if_pos hxtx, hx]
      rfl
    have hpok := h.txOk p parent hparent
    have hlength := hpok.length_lt hp hxw hxf
    have hp' := hsmall p
    have hroom := hpok.room.lt_maybeGrow (by omega)
    omega

end

end TxTree

end Cpf.Txio
