import Mathlib.Data.List.Perm.Basic
import Mathlib.Tactic

/-!
# Removing an element of a vector

The last element takes the place of the one that is removed, so the others keep their places.
-/

namespace Cpf

variable {α : Type} {l : List α} {i j : ℕ} {a : α}

def swapRemove (l : List α) (i : ℕ) : List α :=
  match l.getLast? with
  | none => []
  | some last => (l.set i last).dropLast

theorem swapRemove_perm (h : l[i]? = some a) : (a :: swapRemove l i).Perm l := by
  obtain ⟨hi, rfl⟩ := List.getElem?_eq_some_iff.1 h
  rcases List.eq_nil_or_concat' l with rfl | ⟨front, last, rfl⟩
  · cases hi
  · unfold swapRemove
    rw [List.getLast?_concat]
    dsimp only
    by_cases hlt : i < front.length
    · have hget : (front ++ [last])[i] = front[i] := List.getElem_append_left hlt
      rw [hget, List.set_append_left _ _ hlt, List.dropLast_concat]
      calc (front[i] :: front.set i last).Perm (front[i] :: last :: front.eraseIdx i) :=
            (List.set_perm_cons_eraseIdx hlt last).cons _
        _ |>.Perm (last :: front[i] :: front.eraseIdx i) := List.Perm.swap _ _ _
        _ |>.Perm (last :: front) := (List.getElem_cons_eraseIdx_perm hlt).cons _
        _ |>.Perm (front ++ [last]) := (List.perm_append_singleton last front).symm
    · have hi' : i = front.length := by
        rw [List.length_append, List.length_singleton] at hi
        omega
      subst hi'
      simpa using (List.perm_append_singleton last front).symm

/-- What stands at `i` or behind it stood behind it before. -/
theorem getElem?_swapRemove (h : (swapRemove l i)[j]? = some a) (hij : i ≤ j) :
    ∃ k, i < k ∧ l[k]? = some a := by
  rcases List.eq_nil_or_concat' l with rfl | ⟨front, last, rfl⟩
  · cases h
  · unfold swapRemove at h
    rw [List.getLast?_concat] at h
    dsimp only at h
    rw [List.getElem?_dropLast] at h
    split_ifs at h with hj
    rw [List.length_set, List.length_append, List.length_singleton] at hj
    by_cases hji : j = i
    · subst hji
      rw [List.getElem?_set_self (by rw [List.length_append, List.length_singleton]; omega)] at h
      cases h
      exact ⟨front.length, by omega, by simp⟩
    · rw [List.getElem?_set_ne (Ne.symm hji)] at h
      exact ⟨j, by omega, h⟩

end Cpf
