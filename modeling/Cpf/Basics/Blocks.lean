import Mathlib.Tactic

/-!
# Consecutive blocks

A list of sizes cuts an initial part of the natural numbers into consecutive blocks. `InBlock ns i w`
says that `w` is in block `i`, and `labels` lists the block of each number.
-/

namespace Cpf

variable {n i j w : ℕ} {ns : List ℕ}

def blockStart (ns : List ℕ) (i : ℕ) : ℕ := (ns.take i).sum

def InBlock (ns : List ℕ) (i w : ℕ) : Prop :=
  i < ns.length ∧ blockStart ns i ≤ w ∧ w < blockStart ns (i + 1)

@[simp] theorem blockStart_zero (ns : List ℕ) : blockStart ns 0 = 0 := by
  rw [blockStart, List.take_zero, List.sum_nil]

@[simp] theorem blockStart_cons_succ (n : ℕ) (ns : List ℕ) (i : ℕ) :
    blockStart (n :: ns) (i + 1) = n + blockStart ns i := by
  rw [blockStart, List.take_succ_cons, List.sum_cons, blockStart]

theorem blockStart_le_sum (ns : List ℕ) (i : ℕ) : blockStart ns i ≤ ns.sum := by
  induction ns generalizing i with
  | nil => rw [blockStart, List.take_nil]
  | cons n ns ih =>
      cases i with
      | zero =>
          rw [blockStart_zero]
          exact Nat.zero_le _
      | succ i =>
          rw [blockStart_cons_succ, List.sum_cons]
          exact Nat.add_le_add_left (ih i) n

theorem blockStart_succ (h : ns[i]? = some n) : blockStart ns (i + 1) = blockStart ns i + n := by
  rw [blockStart, blockStart, List.take_add_one, h, List.sum_append]
  rfl

theorem blockStart_mono (ns : List ℕ) (h : i ≤ j) : blockStart ns i ≤ blockStart ns j := by
  have hle := blockStart_le_sum (ns.take j) i
  rw [blockStart, List.take_take, min_eq_left h] at hle
  exact hle

theorem InBlock.unique (h : InBlock ns i w) (h' : InBlock ns j w) : i = j := by
  obtain ⟨_, hle, hlt⟩ := h
  obtain ⟨_, hle', hlt'⟩ := h'
  rcases Nat.lt_trichotomy i j with hij | rfl | hij
  · have hmono : blockStart ns (i + 1) ≤ blockStart ns j := blockStart_mono ns hij
    omega
  · rfl
  · have hmono : blockStart ns (j + 1) ≤ blockStart ns i := blockStart_mono ns hij
    omega

theorem inBlock_cons_zero (h : w < n) : InBlock (n :: ns) 0 w := by
  refine ⟨Nat.succ_pos _, ?_, ?_⟩
  · rw [blockStart_zero]
    exact Nat.zero_le w
  · rw [blockStart_cons_succ, blockStart_zero]
    exact h

theorem InBlock.cons (h : InBlock ns i w) (n : ℕ) : InBlock (n :: ns) (i + 1) (n + w) := by
  obtain ⟨hi, hle, hlt⟩ := h
  refine ⟨Nat.succ_lt_succ hi, ?_, ?_⟩
  · rw [blockStart_cons_succ]
    exact Nat.add_le_add_left hle n
  · rw [blockStart_cons_succ]
    exact Nat.add_lt_add_left hlt n

def labels {α : Type*} (f : ℕ → α) : ℕ → List ℕ → List α
  | _, [] => []
  | k, n :: ns => List.replicate n (f k) ++ labels f (k + 1) ns

theorem getElem_labels {α : Type*} {f : ℕ → α} (k : ℕ) (h : InBlock ns i w) :
    (labels f k ns)[w]? = some (f (k + i)) := by
  induction ns generalizing k i w with
  | nil => cases h.1
  | cons n ns ih =>
      rw [labels]
      cases i with
      | zero =>
          have hlt : w < n := by
            have := h.2.2
            rw [blockStart_cons_succ, blockStart_zero] at this
            exact this
          rw [List.getElem?_append_left (by rw [List.length_replicate]; exact hlt),
            List.getElem?_replicate_of_lt hlt]
          rfl
      | succ i =>
          obtain ⟨hi, hle, hlt⟩ := h
          rw [blockStart_cons_succ] at hle hlt
          have hin : InBlock ns i (w - n) := ⟨Nat.lt_of_succ_lt_succ hi, by omega, by omega⟩
          rw [List.getElem?_append_right (by rw [List.length_replicate]; omega),
            List.length_replicate, ih (k + 1) hin]
          rw [Nat.add_right_comm]
          rfl

end Cpf
