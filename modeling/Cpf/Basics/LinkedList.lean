import Mathlib.Data.List.Nodup
import Mathlib.Tactic

/-!
# Doubly linked lists

Nodes carry a `next` and a `prev` pointer, a list is given by its first and its last node.
`Holds k e l` says that the nodes of `l`, in this order, are what the list `e` consists of; removing
the first node and appending a node act on `l` as expected and leave the other nodes alone.
-/

namespace Cpf

structure Links (α : Type*) where
  next : α → Option α
  prev : α → Option α

structure Ends (α : Type*) where
  first : Option α
  last : Option α
  deriving DecidableEq

namespace Links

variable {α : Type*}

/-- The nodes met on following the `next` pointers, at most `fuel` of them. -/
def walk (k : Links α) : ℕ → Option α → List α
  | 0, _ => []
  | _ + 1, none => []
  | fuel + 1, some a => a :: walk k fuel (k.next a)

/-- The pointers of the nodes of `l`, the first of which has the predecessor `p`. -/
def Chain (k : Links α) : Option α → List α → Prop
  | _, [] => True
  | p, a :: l => k.prev a = p ∧ k.next a = l.head? ∧ Chain k (some a) l

/-- The list with the ends `e` consists of the nodes `l`. -/
structure Holds (k : Links α) (e : Ends α) (l : List α) : Prop where
  first : e.first = l.head?
  last : e.last = l.getLast?
  chain : Chain k none l

/-- The two agree on the pointers of the node `a`. -/
def SameAt (k k' : Links α) (a : α) : Prop := k'.next a = k.next a ∧ k'.prev a = k.prev a

variable {k k' : Links α} {e : Ends α} {l : List α} {a : α} {p : Option α}

theorem Chain.frame (h : Chain k p l) (hsame : ∀ b ∈ l, SameAt k k' b) : Chain k' p l := by
  induction l generalizing p with
  | nil => trivial
  | cons b l ih =>
      obtain ⟨hprev, hnext, hl⟩ := h
      obtain ⟨hn, hp⟩ := hsame b List.mem_cons_self
      exact ⟨hp.trans hprev, hn.trans hnext, ih hl (fun c hc => hsame c (List.mem_cons_of_mem b hc))⟩

theorem Chain.walk (h : Chain k p l) {fuel : ℕ} (hfuel : l.length ≤ fuel) :
    k.walk fuel l.head? = l := by
  induction l generalizing p fuel with
  | nil => cases fuel <;> rfl
  | cons b l ih =>
      obtain ⟨_, hnext, hl⟩ := h
      cases fuel with
      | zero => simp at hfuel
      | succ fuel =>
          rw [List.head?_cons, Links.walk, hnext, ih hl (Nat.le_of_succ_le_succ hfuel)]

theorem Holds.frame (h : Holds k e l) (hsame : ∀ b ∈ l, SameAt k k' b) : Holds k' e l :=
  ⟨h.first, h.last, h.chain.frame hsame⟩

theorem Holds.walk (h : Holds k e l) {fuel : ℕ} (hfuel : l.length ≤ fuel) :
    k.walk fuel e.first = l := by
  rw [h.first]
  exact h.chain.walk hfuel

theorem Holds.next_first (h : Holds k e (a :: l)) : k.next a = l.head? := h.chain.2.1

variable [DecidableEq α]

def setNext (k : Links α) (a : α) (b : Option α) : Links α :=
  { k with next := Function.update k.next a b }

def setPrev (k : Links α) (a : α) (b : Option α) : Links α :=
  { k with prev := Function.update k.prev a b }

def popFront (k : Links α) (e : Ends α) (a : α) : Links α × Ends α :=
  let e' : Ends α := ⟨k.next a, if (k.next a).isSome then e.last else none⟩
  let k' := match k.next a with
    | some b => k.setPrev b none
    | none => k
  ((k'.setNext a none).setPrev a none, e')

def pushBack (k : Links α) (e : Ends α) (a : α) : Links α × Ends α :=
  let k' := (k.setNext a none).setPrev a e.last
  (match e.last with
    | some b => k'.setNext b (some a)
    | none => k',
    ⟨if e.first.isSome then e.first else some a, some a⟩)

theorem popFront_sameAt {b : α} (hb : b ≠ a) (hnext : k.next a ≠ some b) :
    SameAt k (k.popFront e a).1 b := by
  unfold popFront
  cases hn : k.next a with
  | none => simp [SameAt, setNext, setPrev, hb]
  | some c =>
      have hc : b ≠ c := fun he => hnext (hn.trans (congrArg some he.symm))
      simp [SameAt, setNext, setPrev, hb, hc]

theorem Holds.popFront (h : Holds k e (a :: l)) (hnodup : (a :: l).Nodup) :
    Holds (k.popFront e a).1 (k.popFront e a).2 l := by
  have hnext := h.next_first
  obtain ⟨ha, hl⟩ := List.nodup_cons.1 hnodup
  cases l with
  | nil =>
      rw [List.head?_nil] at hnext
      refine ⟨?_, ?_, trivial⟩ <;> simp [Links.popFront, hnext]
  | cons b l =>
      obtain ⟨_, hbn, hbl⟩ := h.chain.2.2
      have hba : b ≠ a := fun he => ha (he ▸ List.mem_cons_self)
      rw [List.head?_cons] at hnext
      refine ⟨?_, ?_, ?_, ?_, hbl.frame (fun c hc => ?_)⟩
      · simp [Links.popFront, hnext]
      · simp [Links.popFront, hnext, h.last]
      · simp [Links.popFront, hnext, setNext, setPrev, hba]
      · simp [Links.popFront, hnext, setNext, setPrev, hba, hbn]
      · have hca : c ≠ a := fun he => ha (he ▸ List.mem_cons_of_mem b hc)
        have hcb : c ≠ b := fun he => (List.nodup_cons.1 hl).1 (he ▸ hc)
        refine popFront_sameAt hca (fun he => ?_)
        rw [hnext] at he
        exact hcb (Option.some.inj he).symm

/-- The nodes of other lists are left alone. -/
theorem Holds.popFront_frame (h : Holds k e (a :: l)) {b : α} (hb : b ∉ a :: l) :
    SameAt k (k.popFront e a).1 b := by
  obtain ⟨hba, hbl⟩ := not_or.1 (fun hor => hb (List.mem_cons.2 hor))
  refine popFront_sameAt hba (fun he => ?_)
  rw [h.next_first] at he
  exact hbl (List.mem_of_mem_head? (he ▸ rfl))

theorem pushBack_sameAt {b : α} (hb : b ≠ a) (hlast : e.last ≠ some b) :
    SameAt k (k.pushBack e a).1 b := by
  unfold pushBack
  cases hl : e.last with
  | none => simp [SameAt, setNext, setPrev, hb]
  | some c =>
      have hc : b ≠ c := fun he => hlast (hl.trans (congrArg some he.symm))
      simp [SameAt, setNext, setPrev, hb, hc]

theorem Holds.pushBack_frame (h : Holds k e l) {b : α} (hb : b ∉ l) (hba : b ≠ a) :
    SameAt k (k.pushBack e a).1 b := by
  apply pushBack_sameAt hba
  rw [h.last]
  exact fun he => hb (List.mem_of_getLast? he)

/-- The pointers after a node was appended. -/
theorem pushBack_chain (hchain : Chain k p l) (hp : p = none ∨ l ≠ []) (hnodup : l.Nodup)
    (ha : a ∉ l) {e : Ends α} (hlast : e.last = l.getLast?) :
    Chain (k.pushBack e a).1 p (l ++ [a]) := by
  induction l generalizing p with
  | nil =>
      obtain rfl : p = none := hp.resolve_right (fun h => h rfl)
      rw [List.getLast?_nil] at hlast
      simp [Chain, Links.pushBack, hlast, setNext, setPrev]
  | cons b l ih =>
      obtain ⟨hprev, hnext, hl⟩ := hchain
      obtain ⟨hb, hnd⟩ := List.nodup_cons.1 hnodup
      obtain ⟨hab, hal⟩ := not_or.1 (fun hor => ha (List.mem_cons.2 hor))
      cases l with
      | nil =>
          rw [List.getLast?_singleton] at hlast
          simp [Chain, Links.pushBack, hlast, setNext, setPrev, hprev, hab, Ne.symm hab]
      | cons c l =>
          rw [List.getLast?_cons_cons] at hlast
          have hlb : e.last ≠ some b := by
            rw [hlast]
            exact fun he => hb (List.mem_of_getLast? he)
          obtain ⟨hsn, hsp⟩ := pushBack_sameAt (k := k) (Ne.symm hab) hlb
          refine ⟨hsp.trans hprev, hsn.trans hnext, ?_⟩
          exact ih hl (Or.inr (List.cons_ne_nil c l)) hnd hal hlast

theorem Holds.pushBack (h : Holds k e l) (hnodup : l.Nodup) (ha : a ∉ l) :
    Holds (k.pushBack e a).1 (k.pushBack e a).2 (l ++ [a]) := by
  refine ⟨?_, ?_, pushBack_chain h.chain (Or.inl rfl) hnodup ha h.last⟩
  · cases l with
    | nil => simp [Links.pushBack, h.first]
    | cons b l => simp [Links.pushBack, h.first]
  · simp [Links.pushBack]

end Links
end Cpf
