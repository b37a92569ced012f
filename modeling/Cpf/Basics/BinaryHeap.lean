import Mathlib.Data.List.Perm.Basic
import Mathlib.Tactic

/-!
# Binary heaps

A heap is an array in which the element at `i` has its children at `2 * i + 1` and `2 * i + 2`. `insert`
lets the new element rise, and `removePos` lets the last element sink from the position that becomes
free. Both keep the elements, for any comparison. They keep the order if the comparison is a total
preorder and the last element does not belong above the position, as it may unless that is the top.
-/

namespace Cpf.BinaryHeap

open scoped List

variable {α : Type*} (le : α → α → Bool)

def siftUp : ℕ → ℕ → List α → List α
  | 0, _, heap => heap
  | fuel + 1, pos, heap =>
      match heap[(pos - 1) / 2]?, heap[pos]? with
      | some parent, some child =>
          if pos = 0 ∨ le parent child then heap
          else siftUp fuel ((pos - 1) / 2) ((heap.set ((pos - 1) / 2) child).set pos parent)
      | _, _ => heap

def insert (x : α) (heap : List α) : List α := siftUp le (heap.length + 1) heap.length (heap ++ [x])

def siftDown (floater : α) : ℕ → ℕ → List α → List α
  | 0, pos, heap => heap.set pos floater
  | fuel + 1, pos, heap =>
      match heap[2 * pos + 1]?, heap[2 * pos + 2]? with
      | some left, some right =>
          if le floater left then
            if le floater right then heap.set pos floater
            else siftDown floater fuel (2 * pos + 2) (heap.set pos right)
          else
            if le left right then siftDown floater fuel (2 * pos + 1) (heap.set pos left)
            else siftDown floater fuel (2 * pos + 2) (heap.set pos right)
      | some left, none =>
          if le floater left then heap.set pos floater
          else siftDown floater fuel (2 * pos + 1) (heap.set pos left)
      | none, _ => heap.set pos floater

def removePos (pos : ℕ) (heap : List α) : List α :=
  match heap.getLast? with
  | none => []
  | some floater =>
      if pos < heap.length - 1 then siftDown le floater heap.length pos heap.dropLast else heap.dropLast

/-! ### The elements -/

theorem set_set_perm_of_getElem? {heap : List α} {i j : ℕ} {a b : α} (hi : heap[i]? = some a)
    (hj : heap[j]? = some b) : ((heap.set i b).set j a).Perm heap := by
  obtain ⟨hi', rfl⟩ := List.getElem?_eq_some_iff.1 hi
  obtain ⟨hj', rfl⟩ := List.getElem?_eq_some_iff.1 hj
  exact List.set_set_perm hi' hj'

theorem siftUp_perm (fuel pos : ℕ) (heap : List α) : (siftUp le fuel pos heap).Perm heap := by
  induction fuel generalizing pos heap with
  | zero => exact List.Perm.refl _
  | succ fuel ih =>
      rw [siftUp]
      split
      · next parent child hparent hchild =>
        split_ifs
        · exact List.Perm.refl _
        · exact (ih _ _).trans (set_set_perm_of_getElem? hparent hchild)
      · exact List.Perm.refl _

theorem insert_perm (x : α) (heap : List α) : (insert le x heap).Perm (x :: heap) :=
  (siftUp_perm le _ _ _).trans (List.perm_append_singleton x heap)

/-- The child that rises into the free position leaves its own free. -/
theorem set_child_perm {heap : List α} {pos child : ℕ} {floater c : α} (hpos : pos < heap.length)
    (hne : pos ≠ child) (hc : heap[child]? = some c) :
    ((heap.set pos c).set child floater).Perm (heap.set pos floater) := by
  have hf : (heap.set pos floater)[pos]? = some floater := by
    rw [List.getElem?_set_self hpos]
  have hc' : (heap.set pos floater)[child]? = some c := by
    rw [List.getElem?_set_ne hne]
    exact hc
  have h := set_set_perm_of_getElem? hf hc'
  rwa [List.set_set] at h

theorem siftDown_perm (floater : α) (fuel pos : ℕ) (heap : List α) (hpos : pos < heap.length) :
    (siftDown le floater fuel pos heap).Perm (heap.set pos floater) := by
  induction fuel generalizing pos heap with
  | zero => exact List.Perm.refl _
  | succ fuel ih =>
      have hstep : ∀ (child : ℕ) (c : α), heap[child]? = some c → pos < child →
          (siftDown le floater fuel child (heap.set pos c)).Perm (heap.set pos floater) := by
        intro child c hc hlt
        have hchild : child < (heap.set pos c).length := by
          rw [List.length_set]
          exact (List.getElem?_eq_some_iff.1 hc).1
        exact (ih child _ hchild).trans (set_child_perm hpos hlt.ne hc)
      rw [siftDown]
      split
      · next left right hleft hright =>
        split_ifs
        · exact List.Perm.refl _
        · exact hstep _ _ hright (by omega)
        · exact hstep _ _ hleft (by omega)
        · exact hstep _ _ hright (by omega)
      · next left hleft _ =>
        split_ifs
        · exact List.Perm.refl _
        · exact hstep _ _ hleft (by omega)
      · exact List.Perm.refl _

theorem removePos_perm {heap : List α} {pos : ℕ} {x : α} (hx : heap[pos]? = some x) :
    (x :: removePos le pos heap).Perm heap := by
  obtain ⟨hpos, rfl⟩ := List.getElem?_eq_some_iff.1 hx
  rw [removePos]
  cases hlast : heap.getLast? with
  | none =>
      rw [List.getLast?_eq_none_iff] at hlast
      subst hlast
      exact absurd hpos (Nat.not_lt_zero _)
  | some floater =>
      have hsplit : heap.dropLast ++ [floater] = heap := List.dropLast_append_getLast? floater hlast
      have hlen : heap.dropLast.length = heap.length - 1 := List.length_dropLast
      dsimp only
      split_ifs with hlt
      · have hpos' : pos < heap.dropLast.length := by omega
        have hget : heap.dropLast[pos] = heap[pos] := List.getElem_dropLast hpos'
        calc heap[pos] :: siftDown le floater heap.length pos heap.dropLast
            ~ heap[pos] :: heap.dropLast.set pos floater :=
              (siftDown_perm le floater _ pos _ hpos').cons _
          _ ~ heap[pos] :: floater :: heap.dropLast.eraseIdx pos :=
              (List.set_perm_cons_eraseIdx hpos' floater).cons _
          _ ~ floater :: heap[pos] :: heap.dropLast.eraseIdx pos := List.Perm.swap _ _ _
          _ ~ floater :: heap.dropLast := by
              rw [← hget]
              exact (List.getElem_cons_eraseIdx_perm hpos').cons _
          _ ~ heap.dropLast ++ [floater] := (List.perm_append_singleton _ _).symm
          _ ~ heap := List.Perm.of_eq hsplit
      · have hend : heap[pos] = floater := by
          have hpos' : pos = heap.length - 1 := by omega
          subst hpos'
          have hget := List.getLast?_eq_getElem? (l := heap)
          rw [hlast, List.getElem?_eq_getElem hpos] at hget
          exact (Option.some.inj hget).symm
        rw [hend]
        exact (List.perm_append_singleton _ _).symm.trans (List.Perm.of_eq hsplit)

/-! ### The order -/

/-- No element comes before its parent. -/
def Heap (heap : List α) : Prop :=
  ∀ i > 0, ∀ a b, heap[(i - 1) / 2]? = some a → heap[i]? = some b → le a b

section Order

variable {le} (hrefl : ∀ a, le a a) (htrans : ∀ a b c, le a b → le b c → le a c)
  (htotal : ∀ a b, le a b ∨ le b a)

include hrefl htrans in
/-- The element at the top comes first. -/
theorem Heap.head_le {heap : List α} (h : Heap le heap) {a : α} (ha : heap[0]? = some a) {b : α}
    (hb : b ∈ heap) : le a b := by
  have hall : ∀ (i : ℕ) (b : α), heap[i]? = some b → le a b := by
    intro i
    induction i using Nat.strongRecOn with
    | ind i ih =>
        intro b hb
        by_cases hi : i = 0
        · subst hi
          rw [ha] at hb
          cases hb
          exact hrefl a
        · have hlt : (i - 1) / 2 < heap.length := by
            have := (List.getElem?_eq_some_iff.1 hb).1
            omega
          exact htrans a _ b (ih _ (by omega) _ (List.getElem?_eq_getElem hlt))
            (h i (by omega) _ b (List.getElem?_eq_getElem hlt) hb)
  obtain ⟨i, hi⟩ := List.mem_iff_getElem?.1 hb
  exact hall i b hi

/-- Only the element at `pos` may come before its parent. -/
structure UpReady (le : α → α → Bool) (heap : List α) (pos : ℕ) : Prop where
  others : ∀ i > 0, i ≠ pos → ∀ a b, heap[(i - 1) / 2]? = some a → heap[i]? = some b → le a b
  grand : ∀ i > 0, pos > 0 → (i - 1) / 2 = pos → ∀ a b, heap[(pos - 1) / 2]? = some a →
    heap[i]? = some b → le a b

include htrans htotal in
theorem siftUp_heap (fuel pos : ℕ) (heap : List α) (h : UpReady le heap pos) (hfuel : pos < fuel) :
    Heap le (siftUp le fuel pos heap) := by
  induction fuel generalizing pos heap with
  | zero => exact absurd hfuel (Nat.not_lt_zero _)
  | succ fuel ih =>
      rw [siftUp]
      split
      · next parent child hparent hchild =>
        split_ifs with hstop
        · intro i hi a b ha hb
          by_cases hip : i = pos
          · subst hip
            rcases hstop with h0 | hle
            · omega
            · rw [hparent] at ha
              rw [hchild] at hb
              cases ha
              cases hb
              exact hle
          · exact h.others i hi hip a b ha hb
        · obtain ⟨hne, hnle⟩ := not_or.1 hstop
          have hle : le child parent := (htotal child parent).resolve_right hnle
          have hplen := (List.getElem?_eq_some_iff.1 hparent).1
          have hclen := (List.getElem?_eq_some_iff.1 hchild).1
          -- the array with the two elements exchanged
          have hget : ∀ j, ((heap.set ((pos - 1) / 2) child).set pos parent)[j]? =
              if j = pos then some parent else if j = (pos - 1) / 2 then some child else heap[j]? := by
            intro j
            by_cases hj : j = pos
            · subst hj
              rw [if_pos rfl, List.getElem?_set_self (by simpa using hclen)]
            · rw [if_neg hj, List.getElem?_set_ne (Ne.symm hj)]
              by_cases hj' : j = (pos - 1) / 2
              · subst hj'
                rw [if_pos rfl, List.getElem?_set_self hplen]
              · rw [if_neg hj', List.getElem?_set_ne (Ne.symm hj')]
          apply ih _ _ _ (by omega)
          constructor
          · intro i hi hi' a b ha hb
            rw [hget] at ha hb
            by_cases hip : i = pos
            · subst hip
              rw [if_neg (by omega), if_pos rfl] at ha
              rw [if_pos rfl] at hb
              cases ha
              cases hb
              exact hle
            · rw [if_neg hip, if_neg hi'] at hb
              by_cases hpp : (i - 1) / 2 = pos
              · rw [if_pos hpp] at ha
                cases ha
                exact h.grand i hi (by omega) hpp _ b hparent hb
              · rw [if_neg hpp] at ha
                by_cases hpq : (i - 1) / 2 = (pos - 1) / 2
                · rw [if_pos hpq] at ha
                  cases ha
                  rw [← hpq] at hparent
                  exact htrans _ _ _ hle (h.others i hi hip _ b hparent hb)
                · rw [if_neg hpq] at ha
                  exact h.others i hi hip a b ha hb
          · intro i hi hpos hpi a b ha hb
            rw [hget] at ha hb
            rw [if_neg (by omega), if_neg (by omega)] at ha
            have hup : le a parent := h.others _ hpos (by omega) a parent ha hparent
            by_cases hip : i = pos
            · rw [if_pos hip] at hb
              cases hb
              exact hup
            · rw [if_neg hip, if_neg (by omega)] at hb
              rw [← hpi] at hparent
              exact htrans _ _ _ hup (h.others i hi hip parent b hparent hb)
      · next hnone =>
        intro i hi a b ha hb
        by_cases hip : i = pos
        · subst hip
          exact absurd hb (hnone a b ha)
        · exact h.others i hi hip a b ha hb

include htrans htotal in
theorem insert_heap {heap : List α} (h : Heap le heap) (x : α) : Heap le (insert le x heap) := by
  apply siftUp_heap htrans htotal _ _ _ _ (Nat.lt_succ_self _)
  constructor
  · intro i hi hne a b ha hb
    have hlt : i < heap.length := by
      have := (List.getElem?_eq_some_iff.1 hb).1
      rw [List.length_append, List.length_singleton] at this
      omega
    rw [List.getElem?_append_left (by omega)] at ha
    rw [List.getElem?_append_left hlt] at hb
    exact h i hi a b ha hb
  · intro i hi hpos hpi a b ha hb
    have := (List.getElem?_eq_some_iff.1 hb).1
    rw [List.length_append, List.length_singleton] at this
    omega

/-- The heap is in order around the free position, and `floater` may sink from there. -/
structure DownReady (le : α → α → Bool) (heap : List α) (pos : ℕ) (floater : α) : Prop where
  lt : pos < heap.length
  others : ∀ i > 0, i ≠ pos → (i - 1) / 2 ≠ pos → ∀ a b, heap[(i - 1) / 2]? = some a →
    heap[i]? = some b → le a b
  grand : ∀ i > 0, pos > 0 → (i - 1) / 2 = pos → ∀ a b, heap[(pos - 1) / 2]? = some a →
    heap[i]? = some b → le a b
  above : pos > 0 → ∀ a, heap[(pos - 1) / 2]? = some a → le a floater

/-- `floater` stops where it comes before the children. -/
theorem DownReady.stop {heap : List α} {pos : ℕ} {floater : α} (h : DownReady le heap pos floater)
    (hleft : ∀ b, heap[2 * pos + 1]? = some b → le floater b)
    (hright : ∀ b, heap[2 * pos + 2]? = some b → le floater b) : Heap le (heap.set pos floater) := by
  intro i hi a b ha hb
  by_cases hip : i = pos
  · subst hip
    rw [List.getElem?_set_ne (by omega)] at ha
    rw [List.getElem?_set_self h.lt] at hb
    cases hb
    exact h.above hi a ha
  · rw [List.getElem?_set_ne (Ne.symm hip)] at hb
    by_cases hpp : (i - 1) / 2 = pos
    · rw [hpp, List.getElem?_set_self h.lt] at ha
      cases ha
      obtain rfl | rfl : i = 2 * pos + 1 ∨ i = 2 * pos + 2 := by omega
      · exact hleft b hb
      · exact hright b hb
    · rw [List.getElem?_set_ne (Ne.symm hpp)] at ha
      exact h.others i hi hip hpp a b ha hb

/-- The smaller child rises into the free position. -/
theorem DownReady.sink {heap : List α} {pos child : ℕ} {floater c : α}
    (h : DownReady le heap pos floater) (hchild : child > 0) (hpc : (child - 1) / 2 = pos)
    (hc : heap[child]? = some c) (hle : le c floater)
    (hmin : ∀ i > 0, i ≠ child → (i - 1) / 2 = pos → ∀ b, heap[i]? = some b → le c b) :
    DownReady le (heap.set pos c) child floater where
  lt := by
    rw [List.length_set]
    exact (List.getElem?_eq_some_iff.1 hc).1
  others := by
    intro i hi hic hpi a b ha hb
    by_cases hip : i = pos
    · subst hip
      rw [List.getElem?_set_ne (by omega)] at ha
      rw [List.getElem?_set_self h.lt] at hb
      cases hb
      exact h.grand child hchild hi hpc a c ha hc
    · rw [List.getElem?_set_ne (Ne.symm hip)] at hb
      by_cases hpp : (i - 1) / 2 = pos
      · rw [hpp, List.getElem?_set_self h.lt] at ha
        cases ha
        exact hmin i hi hic hpp b hb
      · rw [List.getElem?_set_ne (Ne.symm hpp)] at ha
        exact h.others i hi hip hpp a b ha hb
  grand := by
    intro i hi _ hpi a b ha hb
    rw [hpc, List.getElem?_set_self h.lt] at ha
    rw [List.getElem?_set_ne (by omega)] at hb
    cases ha
    rw [← hpi] at hc
    exact h.others i hi (by omega) (by omega) c b hc hb
  above := by
    intro _ a ha
    rw [hpc, List.getElem?_set_self h.lt] at ha
    cases ha
    exact hle

include htrans htotal in
theorem siftDown_heap (floater : α) (fuel pos : ℕ) (heap : List α)
    (h : DownReady le heap pos floater) (hfuel : heap.length ≤ fuel + pos) :
    Heap le (siftDown le floater fuel pos heap) := by
  induction fuel generalizing pos heap with
  | zero =>
      have := h.lt
      omega
  | succ fuel ih =>
      rw [siftDown]
      split
      · next left right hleft hright =>
        have hl : ∀ b, heap[2 * pos + 1]? = some b → b = left := by
          intro b hb
          exact (Option.some.inj (hleft.symm.trans hb)).symm
        have hr : ∀ b, heap[2 * pos + 2]? = some b → b = right := by
          intro b hb
          exact (Option.some.inj (hright.symm.trans hb)).symm
        have sinkLeft : le left floater → le left right →
            Heap le (siftDown le floater fuel (2 * pos + 1) (heap.set pos left)) := by
          intro hle hlr
          apply ih _ _ (h.sink (by omega) (by omega) hleft hle _) (by rw [List.length_set]; omega)
          intro i hi hne hpi b hb
          obtain rfl : i = 2 * pos + 2 := by omega
          rw [hr b hb]
          exact hlr
        have sinkRight : le right floater → le right left →
            Heap le (siftDown le floater fuel (2 * pos + 2) (heap.set pos right)) := by
          intro hle hrl
          apply ih _ _ (h.sink (by omega) (by omega) hright hle _) (by rw [List.length_set]; omega)
          intro i hi hne hpi b hb
          obtain rfl : i = 2 * pos + 1 := by omega
          rw [hl b hb]
          exact hrl
        split_ifs with hfl hfr hlr
        · exact h.stop (fun b hb => hl b hb ▸ hfl) (fun b hb => hr b hb ▸ hfr)
        · have hrf : le right floater := (htotal right floater).resolve_right hfr
          exact sinkRight hrf (htrans _ _ _ hrf hfl)
        · exact sinkLeft ((htotal left floater).resolve_right hfl) hlr
        · have hrl : le right left := (htotal right left).resolve_right hlr
          exact sinkRight (htrans _ _ _ hrl ((htotal left floater).resolve_right hfl)) hrl
      · next left hleft hright =>
        have hr : ∀ b, heap[2 * pos + 2]? = some b → False := by
          intro b hb
          rw [hright] at hb
          cases hb
        split_ifs with hfl
        · apply h.stop
          · intro b hb
            rw [hleft] at hb
            cases hb
            exact hfl
          · exact fun b hb => (hr b hb).elim
        · apply ih _ _ (h.sink (by omega) (by omega) hleft
            ((htotal left floater).resolve_right hfl) _) (by rw [List.length_set]; omega)
          intro i hi hne hpi b hb
          obtain rfl : i = 2 * pos + 2 := by omega
          exact (hr b hb).elim
      · next hleft =>
        have hlen : heap.length ≤ 2 * pos + 1 := List.getElem?_eq_none_iff.1 hleft
        apply h.stop
        · intro b hb
          rw [hleft] at hb
          cases hb
        · intro b hb
          have := (List.getElem?_eq_some_iff.1 hb).1
          omega

include htrans htotal in
/-- The removal keeps the order if the last element does not belong above the free position. -/
theorem removePos_heap {heap : List α} (h : Heap le heap) {pos : ℕ}
    (habove : ∀ parent floater, 0 < pos → pos + 1 < heap.length →
      heap[(pos - 1) / 2]? = some parent → heap.getLast? = some floater → le parent floater) :
    Heap le (removePos le pos heap) := by
  have hdrop : ∀ (i : ℕ) (b : α), heap.dropLast[i]? = some b → heap[i]? = some b := by
    intro i b hb
    rw [List.getElem?_dropLast] at hb
    split_ifs at hb
    exact hb
  rw [removePos]
  split
  · intro i hi a b ha hb
    cases hb
  · next floater hlast =>
    split_ifs with hlt
    · apply siftDown_heap htrans htotal
      · constructor
        · rw [List.length_dropLast]
          exact hlt
        · intro i hi _ _ a b ha hb
          exact h i hi a b (hdrop _ a ha) (hdrop _ b hb)
        · intro i hi hpos hpi a b ha hb
          obtain ⟨x, hx⟩ : ∃ x, heap[pos]? = some x := ⟨_, List.getElem?_eq_getElem (by omega)⟩
          have hup : le a x := h pos hpos a x (hdrop _ a ha) hx
          rw [← hpi] at hx
          exact htrans a x b hup (h i hi x b hx (hdrop _ b hb))
        · intro hpos a ha
          exact habove a floater hpos (by omega) (hdrop _ a ha) hlast
      · rw [List.length_dropLast]
        omega
    · intro i hi a b ha hb
      exact h i hi a b (hdrop _ a ha) (hdrop _ b hb)

include htrans htotal in
/-- A last element that belongs above the free position stays there, out of order. -/
theorem le_of_removePos_heap {heap : List α} (h : Heap le heap) {pos : ℕ} {parent floater : α}
    (hpos : 0 < pos) (hlast : pos + 1 < heap.length) (hparent : heap[(pos - 1) / 2]? = some parent)
    (hfloater : heap.getLast? = some floater) (hremoved : Heap le (removePos le pos heap)) :
    le parent floater := by
  by_contra hnle
  have hle : le floater parent := (htotal floater parent).resolve_right hnle
  have hdrop : ∀ i, i + 1 < heap.length → heap.dropLast[i]? = heap[i]? := by
    intro i hi
    rw [List.getElem?_dropLast, if_pos (by omega)]
  obtain ⟨x, hx⟩ : ∃ x, heap[pos]? = some x := ⟨_, List.getElem?_eq_getElem (by omega)⟩
  have hbelow : ∀ i b, heap.dropLast[i]? = some b → i = 2 * pos + 1 ∨ i = 2 * pos + 2 →
      le floater b := by
    intro i b hb hi
    have hlt := (List.getElem?_eq_some_iff.1 hb).1
    rw [List.length_dropLast] at hlt
    rw [hdrop i (by omega)] at hb
    have hpi : (i - 1) / 2 = pos := by omega
    have hxb : le x b := h i (by omega) x b (by rw [hpi]; exact hx) hb
    exact htrans _ _ _ hle (htrans _ _ _ (h pos hpos parent x hparent hx) hxb)
  have hstay : removePos le pos heap = heap.dropLast.set pos floater := by
    rw [removePos, hfloater]
    dsimp only
    rw [if_pos (by omega)]
    obtain ⟨fuel, hfuel⟩ : ∃ fuel, heap.length = fuel + 1 := ⟨heap.length - 1, by omega⟩
    rw [hfuel, siftDown]
    split
    · next left right hleft hright =>
      rw [if_pos (hbelow _ left hleft (Or.inl rfl)), if_pos (hbelow _ right hright (Or.inr rfl))]
    · next left hleft _ =>
      rw [if_pos (hbelow _ left hleft (Or.inl rfl))]
    · rfl
  rw [hstay] at hremoved
  apply hnle
  apply hremoved pos hpos
  · rw [List.getElem?_set_ne (by omega), hdrop _ (by omega)]
    exact hparent
  · rw [List.getElem?_set_self (by rw [List.length_dropLast]; omega)]

include htrans htotal in
/-- The removal of the top keeps the order. -/
theorem removePos_zero_heap {heap : List α} (h : Heap le heap) : Heap le (removePos le 0 heap) :=
  removePos_heap htrans htotal h fun _ _ hpos => absurd hpos (Nat.lt_irrefl 0)

end Order

end Cpf.BinaryHeap
