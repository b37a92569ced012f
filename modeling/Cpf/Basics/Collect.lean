import Cpf.Basics.Trans

/-!
# Collecting values in rounds

Workers run items in order and add their amounts to accumulators of their own. At the end of a
round a worker merges its accumulator into the batch of the round; two neighbouring batches with
all their members can be combined, and the oldest batch with all its members is adopted. The
accumulator of a worker is either moved, in which case the amounts of a combination are added up,
or kept, in which case a later batch holds what an earlier one held.
-/

namespace Cpf.Collect

variable {V : Type*} {n : ℕ}

/-- Who runs an item, in which round, and what it adds. -/
structure Plan (V : Type*) (n : ℕ) where
  owner : ℕ → Fin n
  round : ℕ → ℕ
  round_mono : Monotone round
  amount : ℕ → V

/-- A worker; `carried` records what its accumulator has held since the last merge. -/
structure Worker (V : Type*) where
  acc : V
  carried : V
  merges : ℕ
  next : ℕ

structure Batch (V : Type*) where
  round : ℕ
  members : ℕ
  acc : V

/-- The record: the items that have been run, the first round that is not adopted, and what has been
merged although it was carried over. -/
structure Team (V : Type*) (n : ℕ) where
  main : V
  workers : Fin n → Worker V
  used : List (Batch V)
  done : Finset ℕ
  adopted : ℕ
  recounted : V

inductive Action (V : Type*) (n : ℕ)
  | run (i : ℕ)
  | merge (w : Fin n) (rest : V)
  | combine (k : ℕ)
  | adopt

section Steps

variable [Add V]

/-- One more member of the batch of round `r`, which is new if there is none. -/
def mergeInto (r : ℕ) (a : V) : List (Batch V) → List (Batch V)
  | [] => [⟨r, 1, a⟩]
  | c :: cs =>
      if c.round = r then { c with members := c.members + 1, acc := c.acc + a } :: cs
      else c :: mergeInto r a cs

def combineAt (kept : Bool) (n : ℕ) : ℕ → List (Batch V) → Option (List (Batch V))
  | 0, a :: b :: cs =>
      if a.members = n ∧ b.members = n then
        some ({ b with acc := if kept then b.acc else b.acc + a.acc } :: cs)
      else none
  | k + 1, c :: cs => (combineAt kept n k cs).map (c :: ·)
  | _, _ => none

namespace Team

def setWorker (t : Team V n) (w : Fin n) (p : Worker V) : Team V n :=
  { t with workers := Function.update t.workers w p }

def run (plan : Plan V n) (t : Team V n) (i : ℕ) : Team V n :=
  let p := t.workers (plan.owner i)
  { t.setWorker (plan.owner i) { p with acc := p.acc + plan.amount i, next := i + 1 } with
    done := insert i t.done }

def merge (t : Team V n) (w : Fin n) (rest : V) : Team V n :=
  let p := t.workers w
  { t.setWorker w { p with acc := rest, carried := rest, merges := p.merges + 1 } with
    used := mergeInto p.merges p.acc t.used
    recounted := t.recounted + p.carried }

def step (plan : Plan V n) (kept : Bool) (t : Team V n) : Action V n → Option (Team V n)
  | .run i =>
      let p := t.workers (plan.owner i)
      if p.next ≤ i ∧ plan.round i = p.merges then some (t.run plan i) else none
  | .merge w rest => some (t.merge w (if kept then (t.workers w).acc else rest))
  | .combine k => (combineAt kept n k t.used).map (fun used => { t with used := used })
  | .adopt =>
      match t.used with
      | c :: cs =>
          if c.members = n then
            some { t with main := t.main + c.acc, used := cs, adopted := c.round + 1 }
          else none
      | [] => none

def Finished (plan : Plan V n) (t : Team V n) : Prop :=
  t.used = [] ∧ ∀ i ∈ t.done, plan.round i < (t.workers (plan.owner i)).merges

variable {plan : Plan V n} {t t' : Team V n}

theorem run_next (i : ℕ) (w : Fin n) : ((t.run plan i).workers w).next =
    if w = plan.owner i then i + 1 else (t.workers w).next := by
  by_cases hw : w = plan.owner i
  · subst w
    simp [run, setWorker]
  · simp [run, setWorker, hw]

theorem run_acc (i : ℕ) (w : Fin n) : ((t.run plan i).workers w).acc =
    if w = plan.owner i then (t.workers w).acc + plan.amount i else (t.workers w).acc := by
  by_cases hw : w = plan.owner i
  · subst w
    simp [run, setWorker]
  · simp [run, setWorker, hw]

@[simp] theorem run_merges (i : ℕ) (w : Fin n) :
    ((t.run plan i).workers w).merges = (t.workers w).merges := by
  by_cases hw : w = plan.owner i
  · subst w
    simp [run, setWorker]
  · simp [run, setWorker, hw]

@[simp] theorem run_carried (i : ℕ) (w : Fin n) :
    ((t.run plan i).workers w).carried = (t.workers w).carried := by
  by_cases hw : w = plan.owner i
  · subst w
    simp [run, setWorker]
  · simp [run, setWorker, hw]

@[simp] theorem run_done (i : ℕ) : (t.run plan i).done = insert i t.done := rfl

theorem merge_merges (w v : Fin n) (rest : V) : ((t.merge w rest).workers v).merges =
    if v = w then (t.workers w).merges + 1 else (t.workers v).merges := by
  by_cases hv : v = w
  · subst v
    simp [merge, setWorker]
  · simp [merge, setWorker, hv]

theorem merge_acc (w v : Fin n) (rest : V) : ((t.merge w rest).workers v).acc =
    if v = w then rest else (t.workers v).acc := by
  by_cases hv : v = w
  · subst v
    simp [merge, setWorker]
  · simp [merge, setWorker, hv]

theorem merge_carried (w v : Fin n) (rest : V) : ((t.merge w rest).workers v).carried =
    if v = w then rest else (t.workers v).carried := by
  by_cases hv : v = w
  · subst v
    simp [merge, setWorker]
  · simp [merge, setWorker, hv]

@[simp] theorem merge_next (w v : Fin n) (rest : V) :
    ((t.merge w rest).workers v).next = (t.workers v).next := by
  by_cases hv : v = w
  · subst v
    simp [merge, setWorker]
  · simp [merge, setWorker, hv]

@[simp] theorem merge_done (w : Fin n) (rest : V) : (t.merge w rest).done = t.done := rfl

end Team
end Steps

theorem combineAt_cases [Add V] {kept : Bool} {k : ℕ} {cs cs' : List (Batch V)}
    (h : combineAt kept n k cs = some cs') :
    ∃ as a b bs, cs = as ++ a :: b :: bs ∧ a.members = n ∧ b.members = n ∧
      cs' = as ++ { b with acc := if kept then b.acc else b.acc + a.acc } :: bs := by
  induction k generalizing cs cs' with
  | zero =>
      match cs, h with
      | a :: b :: cs, h =>
          rw [combineAt] at h
          by_cases hab : a.members = n ∧ b.members = n
          · rw [if_pos hab] at h
            exact ⟨[], a, b, cs, rfl, hab.1, hab.2, (Option.some.inj h).symm⟩
          · rw [if_neg hab] at h
            cases h
  | succ k ih =>
      match cs, h with
      | c :: cs, h =>
          rw [combineAt] at h
          obtain ⟨cs₁, hcs₁, rfl⟩ := Option.map_eq_some_iff.1 h
          obtain ⟨as, a, b, bs, rfl, ha, hb, rfl⟩ := ih hcs₁
          exact ⟨c :: as, a, b, bs, rfl, ha, hb, rfl⟩

theorem combineAt_append [Add V] {kept : Bool} {as bs : List (Batch V)} {a b : Batch V}
    (ha : a.members = n) (hb : b.members = n) :
    combineAt kept n as.length (as ++ a :: b :: bs) =
      some (as ++ { b with acc := if kept then b.acc else b.acc + a.acc } :: bs) := by
  induction as with
  | nil =>
      rw [List.nil_append, List.length_nil, combineAt, if_pos ⟨ha, hb⟩]
      rfl
  | cons c as ih =>
      rw [List.cons_append, List.length_cons, combineAt, ih]
      rfl

theorem mergeInto_cases [Add V] (r : ℕ) (a : V) (cs : List (Batch V)) :
    (∃ as c bs, cs = as ++ c :: bs ∧ c.round = r ∧
      mergeInto r a cs = as ++ { c with members := c.members + 1, acc := c.acc + a } :: bs) ∨
    (∀ c ∈ cs, c.round ≠ r) ∧ mergeInto r a cs = cs ++ [⟨r, 1, a⟩] := by
  induction cs with
  | nil => exact .inr ⟨by simp, rfl⟩
  | cons c cs ih =>
      rw [mergeInto]
      split_ifs with hc
      · exact .inl ⟨[], c, cs, rfl, hc, rfl⟩
      · rcases ih with ⟨as, d, bs, rfl, hd, he⟩ | ⟨hno, he⟩
        · exact .inl ⟨c :: as, d, bs, rfl, hd, by rw [he]; rfl⟩
        · refine .inr ⟨fun d hd => ?_, by rw [he]; rfl⟩
          rcases List.mem_cons.1 hd with rfl | hd
          · exact hc
          · exact hno d hd

theorem sum_mergeInto [AddCommMonoid V] (r : ℕ) (a : V) (cs : List (Batch V)) :
    ((mergeInto r a cs).map Batch.acc).sum = (cs.map Batch.acc).sum + a := by
  induction cs with
  | nil => simp [mergeInto]
  | cons c cs ih =>
      rw [mergeInto]
      split_ifs
      · simp only [List.map_cons, List.sum_cons]
        rw [add_right_comm]
      · rw [List.map_cons, List.sum_cons, ih, List.map_cons, List.sum_cons, add_assoc]

/-- The order of the items and rounds, whatever the amounts are. -/
structure Ordered (plan : Plan V n) (t : Team V n) : Prop where
  next : ∀ i ∈ t.done, i < (t.workers (plan.owner i)).next
  round_le : ∀ i ∈ t.done, plan.round i ≤ (t.workers (plan.owner i)).merges

namespace Ordered

variable {plan : Plan V n} {t : Team V n}

theorem not_mem (h : Ordered plan t) {i : ℕ} (hnext : (t.workers (plan.owner i)).next ≤ i) :
    i ∉ t.done :=
  fun hi => absurd (h.next i hi) (not_lt.2 hnext)

variable [Add V]

theorem run (h : Ordered plan t) {i : ℕ} (hnext : (t.workers (plan.owner i)).next ≤ i)
    (hround : plan.round i = (t.workers (plan.owner i)).merges) : Ordered plan (t.run plan i) := by
  refine ⟨fun j hj => ?_, fun j hj => ?_⟩
  · rw [Team.run_next]
    rcases Finset.mem_insert.1 hj with rfl | hj
    · rw [if_pos rfl]
      exact Nat.lt_succ_self _
    · have hlt := h.next j hj
      split_ifs with ho
      · rw [ho] at hlt
        omega
      · exact hlt
  · rw [Team.run_merges]
    rcases Finset.mem_insert.1 hj with rfl | hj
    · exact hround.le
    · exact h.round_le j hj

theorem merge (h : Ordered plan t) (w : Fin n) (rest : V) : Ordered plan (t.merge w rest) := by
  refine ⟨fun j hj => ?_, fun j hj => ?_⟩
  · rw [Team.merge_next]
    exact h.next j hj
  · rw [Team.merge_merges]
    have hle := h.round_le j hj
    split_ifs with ho
    · rw [ho] at hle
      omega
    · exact hle

end Ordered

variable {plan : Plan V n} {t t' : Team V n}

def pending (plan : Plan V n) (t : Team V n) : Finset ℕ :=
  t.done.filter (fun i => (t.workers (plan.owner i)).merges ≤ plan.round i)

theorem mem_pending {i : ℕ} : i ∈ pending plan t ↔
    i ∈ t.done ∧ (t.workers (plan.owner i)).merges ≤ plan.round i := Finset.mem_filter

section Moved

variable [AddCommMonoid V] {total : V}

/-- Every amount is in one place: with the main accumulator, in a batch, or pending. -/
structure Conserved (plan : Plan V n) (total : V) (t : Team V n) : Prop where
  ordered : Ordered plan t
  acc : ∀ w, (t.workers w).acc = (t.workers w).carried +
    ∑ i ∈ pending plan t with plan.owner i = w, plan.amount i
  total : t.main + (t.used.map Batch.acc).sum + ∑ i ∈ pending plan t, plan.amount i =
    total + ∑ i ∈ t.done, plan.amount i + t.recounted

namespace Conserved

theorem run (h : Conserved plan total t) {i : ℕ}
    (hnext : (t.workers (plan.owner i)).next ≤ i)
    (hround : plan.round i = (t.workers (plan.owner i)).merges) :
    Conserved plan total (t.run plan i) := by
  have hnew := h.ordered.not_mem hnext
  have hpend : pending plan (t.run plan i) = insert i (pending plan t) := by
    ext j
    rw [mem_pending, Finset.mem_insert, mem_pending, Team.run_merges, Team.run_done,
      Finset.mem_insert]
    constructor
    · rintro ⟨rfl | hd, hle⟩
      · exact .inl rfl
      · exact .inr ⟨hd, hle⟩
    · rintro (rfl | ⟨hd, hle⟩)
      · exact ⟨.inl rfl, hround.ge⟩
      · exact ⟨.inr hd, hle⟩
  have hnotin : i ∉ pending plan t := fun hi => hnew (mem_pending.1 hi).1
  refine ⟨h.ordered.run hnext hround, fun w => ?_, ?_⟩
  · rw [Team.run_acc, Team.run_carried, hpend, Finset.filter_insert]
    by_cases hw : w = plan.owner i
    · subst w
      rw [if_pos rfl, if_pos rfl, Finset.sum_insert (fun hi => hnotin (Finset.mem_filter.1 hi).1),
        h.acc (plan.owner i), add_assoc, add_comm (plan.amount i)]
    · rw [if_neg hw, if_neg (fun he => hw he.symm)]
      exact h.acc w
  · rw [hpend, Finset.sum_insert hnotin, Team.run_done, Finset.sum_insert hnew]
    change t.main + (t.used.map Batch.acc).sum + _ = total + _ + t.recounted
    rw [add_left_comm, h.total]
    abel

theorem merge (h : Conserved plan total t) (w : Fin n) (rest : V) :
    Conserved plan total (t.merge w rest) := by
  have hpend : pending plan (t.merge w rest) =
      (pending plan t).filter (fun i => ¬ plan.owner i = w) := by
    ext j
    rw [mem_pending, Finset.mem_filter, mem_pending, Team.merge_merges, Team.merge_done]
    by_cases hj : plan.owner j = w
    · rw [if_pos hj]
      constructor
      · rintro ⟨hd, hle⟩
        have hround := h.ordered.round_le j hd
        rw [hj] at hround
        omega
      · rintro ⟨_, hne⟩
        exact absurd hj hne
    · rw [if_neg hj]
      exact ⟨fun hd => ⟨hd, hj⟩, fun hd => hd.1⟩
  refine ⟨h.ordered.merge w rest, fun v => ?_, ?_⟩
  · rw [Team.merge_acc, Team.merge_carried, hpend, Finset.filter_filter]
    by_cases hv : v = w
    · subst v
      rw [if_pos rfl, if_pos rfl, Finset.filter_false_of_mem, Finset.sum_empty, add_zero]
      exact fun i _ hi => hi.1 hi.2
    · rw [if_neg hv, if_neg hv, h.acc v]
      congr 2
      refine Finset.filter_congr (fun i _ => ⟨fun hi => ⟨fun he => hv (hi ▸ he), hi⟩, And.right⟩)
  · have hsplit := Finset.sum_filter_add_sum_filter_not (pending plan t)
      (fun i => plan.owner i = w) plan.amount
    have htotal := h.total
    rw [← hsplit] at htotal
    rw [hpend, Team.merge_done]
    change t.main + ((mergeInto _ _ t.used).map Batch.acc).sum + _ =
      total + _ + (t.recounted + (t.workers w).carried)
    rw [sum_mergeInto, h.acc w, ← add_assoc (total + _), ← htotal]
    abel

theorem step (h : Conserved plan total t) {a : Action V n}
    (hstep : t.step plan false a = some t') : Conserved plan total t' := by
  cases a with
  | run i =>
      simp only [Team.step] at hstep
      split_ifs at hstep with hi
      cases hstep
      exact h.run hi.1 hi.2
  | merge w rest =>
      cases hstep
      exact h.merge w rest
  | combine k =>
      obtain ⟨used, hused, rfl⟩ := Option.map_eq_some_iff.1 hstep
      obtain ⟨as, a, b, bs, hcs, _, _, rfl⟩ := combineAt_cases hused
      refine ⟨⟨h.ordered.next, h.ordered.round_le⟩, h.acc, ?_⟩
      have hsum : ((as ++ { b with acc := if false = true then b.acc else b.acc + a.acc } ::
          bs).map Batch.acc).sum = (t.used.map Batch.acc).sum := by
        simp only [hcs, List.map_append, List.map_cons, List.sum_append, List.sum_cons]
        rw [if_neg Bool.false_ne_true, ← add_assoc a.acc, add_comm a.acc]
      have htotal := h.total
      rw [← hsum] at htotal
      exact htotal
  | adopt =>
      simp only [Team.step] at hstep
      cases hused : t.used with
      | nil =>
          rw [hused] at hstep
          cases hstep
      | cons c cs =>
          rw [hused] at hstep
          dsimp only at hstep
          split_ifs at hstep
          cases hstep
          refine ⟨⟨h.ordered.next, h.ordered.round_le⟩, h.acc, ?_⟩
          have htotal := h.total
          rw [hused, List.map_cons, List.sum_cons, ← add_assoc] at htotal
          exact htotal

end Conserved

def Team.start (main : V) (acc : Fin n → V) : Team V n where
  main := main
  workers := fun w => ⟨acc w, acc w, 0, 0⟩
  used := []
  done := ∅
  adopted := 0
  recounted := 0

theorem Conserved.start (main : V) (acc : Fin n → V) :
    Conserved plan main (Team.start main acc) := by
  refine ⟨⟨fun i hi => ?_, fun i hi => ?_⟩, fun w => ?_, ?_⟩
  · exact absurd hi (Finset.notMem_empty i)
  · exact absurd hi (Finset.notMem_empty i)
  · simp [Team.start, pending]
  · simp [Team.start, pending]

/-- The account of a finished collection: what is collected are the amounts, once each, and what was
merged although it was carried over. -/
theorem Conserved.main_eq {start : V} (h : Conserved plan start t) (hfin : t.Finished plan) :
    t.main = start + ∑ i ∈ t.done, plan.amount i + t.recounted := by
  have hnone : pending plan t = ∅ :=
    Finset.filter_false_of_mem (fun i hi => not_le.2 (hfin.2 i hi))
  have htotal := h.total
  rwa [hfin.1, hnone, List.map_nil, List.sum_nil, Finset.sum_empty, add_zero, add_zero] at htotal

end Moved

structure Greatest (α : Type*) where
  val : α
  deriving DecidableEq

namespace Greatest

variable {α : Type*} [LinearOrder α]

instance : Add (Greatest α) := ⟨fun a b => ⟨max a.val b.val⟩⟩

@[simp] theorem val_add (a b : Greatest α) : (a + b).val = max a.val b.val := rfl

theorem add_self (a : Greatest α) : a + a = a := congrArg mk (max_self a.val)

variable [OrderBot α]

instance : Zero (Greatest α) := ⟨⟨⊥⟩⟩

instance : AddCommMonoid (Greatest α) where
  add_assoc a b c := congrArg mk (max_assoc a.val b.val c.val)
  zero_add a := congrArg mk (max_bot_left a.val)
  add_zero a := congrArg mk (max_bot_right a.val)
  add_comm a b := congrArg mk (max_comm a.val b.val)
  nsmul := nsmulRec

@[simp] theorem val_zero : (0 : Greatest α).val = ⊥ := rfl

theorem val_sum {ι : Type*} (s : Finset ι) (f : ι → Greatest α) :
    (∑ i ∈ s, f i).val = s.sup (fun i => (f i).val) := by
  classical
  induction s using Finset.induction_on with
  | empty => rfl
  | insert i s hi ih => rw [Finset.sum_insert hi, Finset.sup_insert, val_add, ih]

end Greatest
end Cpf.Collect
