import Cpf.Txio.CommitOrder

/-!
# The event queue

Any sequence of calls of `insert_evt`, `removemin_evt` and `remove_from_q` against what a priority queue
is for: the queue holds the events that are inserted and not yet removed, and the one at the front is
the least. `remove_from_q` fills the place of the event with the last one and lets it sink, but never
rise. It can come to lie below a later event, which is then found before it.
-/

namespace Cpf.Txio

/-- A call of the queue of a transaction. -/
inductive QueueOp (N : Type)
  | insertEvt (x : N)
  | removeminEvt
  | removeFromQ (x : N)
  deriving DecidableEq

variable {N : Type} [DecidableEq N]

def QueueOp.inserts : QueueOp N → Option N
  | .insertEvt x => some x
  | _ => none

/-- The events that are inserted and not yet removed, after a call and what it returned. -/
def held (s : Multiset N) : QueueOp N × Option N → Multiset N
  | (.insertEvt x, _) => x ::ₘ s
  | (.removeminEvt, some x) => s.erase x
  | (.removeminEvt, none) => s
  | (.removeFromQ x, _) => s.erase x

/-- `findmin_evt`. In an empty queue there is no event to read. -/
def findminEvt (t : TX N) : Option N := t.queue.head?

namespace TxTree

variable (T : TxTree N)

def queueStep (t : TX N) : QueueOp N → Except Failure (TX N × Option N)
  | .insertEvt x => do
      let t ← T.insertEvt x t
      pure (t, none)
  | .removeminEvt =>
      match findminEvt t with
      | none => .error .badPointer
      | some x => .ok ({ t with queue := T.removeminEvt t.queue }, some x)
  | .removeFromQ x => .ok ({ t with queue := T.removeFromQ x t.queue }, none)

def queueRun : List (QueueOp N) → TX N → Except Failure (TX N × List (QueueOp N × Option N))
  | [], t => .ok (t, [])
  | op :: ops, t => do
      let (t, out) ← T.queueStep t op
      let (t, calls) ← queueRun ops t
      pure (t, (op, out) :: calls)

/-- The queue is a priority queue of the events in `s`. -/
structure IsPrioQueue (t : TX N) (s : Multiset N) : Prop where
  elements : (t.queue : Multiset N) = s
  once : s.Nodup
  mem_of_findmin : ∀ x ∈ findminEvt t, x ∈ s
  findmin_isSome : s ≠ 0 → (findminEvt t).isSome
  findmin_least : ∀ x ∈ findminEvt t, ∀ y ∈ s, y ≠ x → T.lte x y = true ∧ T.lte y x = false

/-- The event that takes the place of `x` does not come before the one above that place. -/
def replacementFits (queue : List N) (x : N) : Bool :=
  match queue[(queue.idxOf x - 1) / 2]?, queue.getLast? with
  | some above, some last =>
      decide (queue.idxOf x = 0 ∨ queue.length ≤ queue.idxOf x + 1) || T.lte above last
  | _, _ => true

/-- The queue has not reached `2 ^ 31` events when one is inserted, is not empty when the least is
removed, and gets a replacement that fits when another is removed. -/
def queueFits (t : TX N) : QueueOp N → Bool
  | .insertEvt _ => decide (t.queue.length < 2 ^ 31)
  | .removeminEvt => decide (t.queue ≠ [])
  | .removeFromQ x => T.replacementFits t.queue x

/-- Every call of the run meets a queue for which it is fit. -/
def allFit : List (QueueOp N) → TX N → Bool
  | [], _ => true
  | op :: ops, t =>
      T.queueFits t op &&
        match T.queueStep t op with
        | .ok (t, _) => allFit ops t
        | .error _ => true

/-! ### One call -/

structure QueueOk (t : TX N) (s : Multiset N) : Prop where
  elements : (t.queue : Multiset N) = s
  heap : BinaryHeap.Heap T.lte t.queue
  room : RoomOk t

variable {T} {t : TX N} {s : Multiset N} {x : N}

/-- A removal takes one event away. -/
theorem QueueOk.remove (h : T.QueueOk t s) {queue : List N} (hperm : (x :: queue).Perm t.queue)
    (hheap : BinaryHeap.Heap T.lte queue) : T.QueueOk { t with queue := queue } (s.erase x) where
  elements := by
    have hcons : x ::ₘ (queue : Multiset N) = s := by
      rw [← h.elements]
      exact Multiset.coe_eq_coe.2 hperm
    rw [← hcons, Multiset.erase_cons_head]
  heap := hheap
  room := by
    have hlength := hperm.length_eq
    rw [List.length_cons] at hlength
    have hle := h.room.length_le
    exact ⟨by dsimp only; omega, h.room.capacity⟩

omit [DecidableEq N] in
theorem QueueOk.insertEvt (h : T.QueueOk t s) (x : N) (hlength : t.queue.length < 2 ^ 31) :
    T.insertEvt x t = .ok (T.inserted x t) ∧ T.QueueOk (T.inserted x t) (x ::ₘ s) := by
  have hroom := h.room.lt_maybeGrow hlength
  refine ⟨by rw [TxTree.insertEvt, if_neg (Nat.not_le.2 hroom)], ?_, inserted_heap h.heap,
    h.room.inserted hroom⟩
  rw [← h.elements]
  exact Multiset.coe_eq_coe.2 inserted_queue_perm

theorem QueueOk.removeminEvt (h : T.QueueOk t s) (hx : findminEvt t = some x) :
    T.QueueOk { t with queue := T.removeminEvt t.queue } (s.erase x) := by
  obtain ⟨rest, hqueue⟩ := List.head?_eq_some_iff.1 hx
  apply h.remove _ (removePos_heap h.heap)
  rw [hqueue]
  exact removeminEvt_perm

/-- A removal keeps the order exactly when the replacement fits. -/
theorem removeFromQ_heap_iff {queue : List N} (hheap : BinaryHeap.Heap T.lte queue) :
    BinaryHeap.Heap T.lte (T.removeFromQ x queue) ↔ T.replacementFits queue x = true := by
  rw [removeFromQ]
  by_cases hx : x ∈ queue
  · rw [if_pos hx]
    have hlt := List.idxOf_lt_length_of_mem hx
    obtain ⟨above, habove⟩ : ∃ a, queue[(queue.idxOf x - 1) / 2]? = some a :=
      ⟨_, List.getElem?_eq_getElem (by omega)⟩
    obtain ⟨last, hlast⟩ : ∃ a, queue.getLast? = some a :=
      ⟨_, List.getLast?_eq_getLast_of_ne_nil (List.ne_nil_of_mem hx)⟩
    rw [replacementFits, habove, hlast, Bool.or_eq_true, decide_eq_true_eq]
    constructor
    · intro hremoved
      by_cases hend : queue.idxOf x = 0 ∨ queue.length ≤ queue.idxOf x + 1
      · exact Or.inl hend
      · exact Or.inr (BinaryHeap.le_of_removePos_heap lte_trans lte_total hheap (by omega) (by omega)
          habove hlast hremoved)
    · intro hfits
      apply BinaryHeap.removePos_heap lte_trans lte_total hheap
      intro a f hpos hlen ha hf
      rw [habove] at ha
      rw [hlast] at hf
      cases ha
      cases hf
      exact hfits.resolve_left (by omega)
  · rw [if_neg hx]
    refine iff_of_true hheap ?_
    rw [replacementFits]
    split
    · next above last _ _ =>
      rw [Bool.or_eq_true, decide_eq_true_eq, List.idxOf_of_notMem hx]
      exact Or.inl (Or.inr (Nat.le_succ _))
    · rfl

theorem QueueOk.removeFromQ (h : T.QueueOk t s) (hfits : T.replacementFits t.queue x = true) :
    T.QueueOk { t with queue := T.removeFromQ x t.queue } (s.erase x) := by
  have hheap := (removeFromQ_heap_iff h.heap).2 hfits
  by_cases hx : x ∈ t.queue
  · exact h.remove (removeFromQ_perm hx) hheap
  · have hs : x ∉ s := by
      rwa [← h.elements, Multiset.mem_coe]
    rw [Multiset.erase_of_notMem hs]
    have hsame : T.removeFromQ x t.queue = t.queue := by rw [TxTree.removeFromQ, if_neg hx]
    rw [hsame]
    exact h

/-- A call that is fit succeeds and keeps the invariant. -/
theorem QueueOk.step (h : T.QueueOk t s) {op : QueueOp N} (hfits : T.queueFits t op = true) :
    ∃ t' out, T.queueStep t op = .ok (t', out) ∧ T.QueueOk t' (held s (op, out)) := by
  cases op with
  | insertEvt x =>
      obtain ⟨hcall, hok⟩ := h.insertEvt x (of_decide_eq_true hfits)
      exact ⟨_, none, by rw [queueStep, hcall]; rfl, hok⟩
  | removeminEvt =>
      cases hx : findminEvt t with
      | none => exact absurd (List.head?_eq_none_iff.1 hx) (of_decide_eq_true hfits)
      | some x => exact ⟨_, some x, by rw [queueStep, hx], h.removeminEvt hx⟩
  | removeFromQ x => exact ⟨_, none, rfl, h.removeFromQ hfits⟩

/-! ### A run -/

theorem QueueOk.run (ops : List (QueueOp N)) (h : T.QueueOk t s) (hfits : T.allFit ops t = true) :
    ∃ t' calls, T.queueRun ops t = .ok (t', calls) ∧ calls.map Prod.fst = ops ∧
      T.QueueOk t' (calls.foldl held s) := by
  induction ops generalizing t s with
  | nil => exact ⟨t, [], rfl, rfl, h⟩
  | cons op ops ih =>
      rw [allFit, Bool.and_eq_true] at hfits
      obtain ⟨t₁, out, hcall, hok⟩ := h.step hfits.1
      have hrest := hfits.2
      rw [hcall] at hrest
      obtain ⟨t', calls, hrun, hops, hok'⟩ := ih hok hrest
      refine ⟨t', (op, out) :: calls, ?_, ?_, hok'⟩
      · rw [queueRun, hcall]
        change (T.queueRun ops t₁ >>= _) = _
        rw [hrun]
        rfl
      · rw [List.map_cons, hops]

theorem foldl_held_le (calls : List (QueueOp N × Option N)) (s : Multiset N) :
    calls.foldl held s ≤ s + ((calls.map Prod.fst).filterMap QueueOp.inserts : List N) := by
  induction calls generalizing s with
  | nil => simp
  | cons call calls ih =>
      obtain ⟨op, out⟩ := call
      refine (ih _).trans ?_
      rw [List.map_cons]
      generalize calls.map Prod.fst = ops
      cases op with
      | insertEvt x =>
          have hops : (QueueOp.insertEvt x :: ops).filterMap QueueOp.inserts =
              x :: ops.filterMap QueueOp.inserts := rfl
          rw [hops, ← Multiset.cons_coe, Multiset.add_cons]
          exact (Multiset.cons_add x s _).le
      | removeminEvt =>
          cases out with
          | none => exact le_rfl
          | some x => exact add_le_add_left (Multiset.erase_le x s) _
      | removeFromQ x => exact add_le_add_left (Multiset.erase_le x s) _

omit [DecidableEq N] in
/-- An ordered queue of events with distinct times is a priority queue. -/
theorem QueueOk.isPrioQueue (h : T.QueueOk t s) (hnodup : s.Nodup)
    (hdistinct : ∀ x ∈ s, ∀ y ∈ s, T.time x = T.time y → x = y) : T.IsPrioQueue t s where
  elements := h.elements
  once := hnodup
  mem_of_findmin x hx := by
    rw [← h.elements]
    exact List.mem_of_mem_head? hx
  findmin_isSome hs := by
    cases hqueue : t.queue with
    | nil =>
        rw [← h.elements, hqueue] at hs
        exact absurd rfl hs
    | cons x rest =>
        rw [findminEvt, hqueue]
        rfl
  findmin_least x hx y hy hne := by
    have hxs : x ∈ s := by
      rw [← h.elements]
      exact List.mem_of_mem_head? hx
    have hfirst : t.queue[0]? = some x := by
      rw [← List.head?_eq_getElem?]
      exact hx
    have hyq : y ∈ t.queue := by
      rwa [← Multiset.mem_coe, h.elements]
    have hle : T.lte x y = true := h.heap.head_le lte_refl lte_trans hfirst hyq
    refine ⟨hle, Bool.eq_false_iff.2 fun hge => hne ?_⟩
    exact hdistinct y hy x hxs (compareTvLte_antisymm hge hle)

theorem opened_queueOk (x : N) : T.QueueOk (T.opened x) 0 where
  elements := rfl
  heap i _ a b ha _ := by cases ha
  room := ⟨Nat.le_refl 0, Or.inl rfl⟩

/-- A run of calls, each of which meets a queue for which it is fit, leaves a priority queue. -/
theorem queueRun_isPrioQueue (T : TxTree N) (x : N) (ops : List (QueueOp N))
    (hdistinct : ((ops.filterMap QueueOp.inserts).map T.time).Nodup)
    (hfits : T.allFit ops (T.opened x) = true) :
    ∃ t calls, T.queueRun ops (T.opened x) = .ok (t, calls) ∧ calls.map Prod.fst = ops ∧
      T.IsPrioQueue t (calls.foldl held 0) := by
  obtain ⟨t, calls, hrun, hops, hok⟩ := (opened_queueOk x).run ops hfits
  have hle := foldl_held_le calls (0 : Multiset N)
  rw [zero_add, hops] at hle
  refine ⟨t, calls, hrun, hops, hok.isPrioQueue ?_ ?_⟩
  · exact Multiset.nodup_of_le hle (Multiset.coe_nodup.2 hdistinct.of_map)
  · intro y hy z hz htime
    exact List.inj_on_of_nodup_map hdistinct (Multiset.mem_coe.1 (Multiset.mem_of_le hle hy))
      (Multiset.mem_coe.1 (Multiset.mem_of_le hle hz)) htime

theorem queueRun_isPrioQueue_crowd :
    ∃ t calls, (crowd 4).queueRun
        [.insertEvt 3, .insertEvt 1, .insertEvt 4, .insertEvt 2, .removeFromQ 4, .removeminEvt]
        ((crowd 4).opened 0) = .ok (t, calls) ∧
      calls.map Prod.fst =
        [.insertEvt 3, .insertEvt 1, .insertEvt 4, .insertEvt 2, .removeFromQ 4, .removeminEvt] ∧
      (crowd 4).IsPrioQueue t (calls.foldl held 0) :=
  queueRun_isPrioQueue (crowd 4) 0 _ (by decide) (by decide)

/-- The calls after which a queue gives a wrong least event. -/
def strayCalls : List (QueueOp (Fin 8)) :=
  [.insertEvt 1, .insertEvt 4, .insertEvt 2, .insertEvt 5, .insertEvt 6, .insertEvt 7, .insertEvt 3,
    .removeFromQ 5, .removeminEvt, .removeminEvt]

/-- Event 3 takes the place of event 5, below event 4, which is then found before it. -/
theorem later_event_found : ∃ t calls,
    (crowd 7).queueRun strayCalls ((crowd 7).opened 0) = .ok (t, calls) ∧
      ((strayCalls.filterMap QueueOp.inserts).map (crowd 7).time).Nodup ∧
      findminEvt t = some 4 ∧ 3 ∈ calls.foldl held 0 ∧ (crowd 7).lte 4 3 = false :=
  ⟨_, _, rfl, by decide, by decide, by decide, by decide⟩

end TxTree

end Cpf.Txio
