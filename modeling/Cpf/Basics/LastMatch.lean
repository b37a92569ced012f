import Mathlib.Data.List.Induction
import Mathlib.Tactic

/-!
# The last entry of a log that matches

`lastMatch p l` is the last entry of `l` with `p`. In a log that is sorted by a key, the last match
among some of the entries is the last match of the whole log as soon as no other entry that
matches has a key as great.
-/

namespace Cpf

variable {α : Type*} {p q : α → Bool} {l : List α} {a b : α}

def lastMatch (p : α → Bool) (l : List α) : Option α := l.reverse.find? p

@[simp] theorem lastMatch_nil : lastMatch p [] = none := rfl

theorem lastMatch_append_singleton :
    lastMatch p (l ++ [a]) = if p a then some a else lastMatch p l := by
  rw [lastMatch, List.reverse_append, List.reverse_singleton, List.singleton_append,
    List.find?_cons]
  cases p a <;> rfl

theorem lastMatch_append_of_none {r : List α} (h : ∀ x ∈ r, p x = false) :
    lastMatch p (l ++ r) = lastMatch p l := by
  have hr : r.reverse.find? p = none := by simpa using h
  rw [lastMatch, List.reverse_append, List.find?_append, hr]
  rfl

theorem lastMatch_eq_none : lastMatch p l = none ↔ ∀ x ∈ l, p x = false := by
  simp [lastMatch]

theorem mem_of_lastMatch (h : lastMatch p l = some a) : a ∈ l ∧ p a = true :=
  ⟨List.mem_reverse.1 (List.mem_of_find?_eq_some h), List.find?_some h⟩

theorem exists_lastMatch (ha : a ∈ l) (hp : p a = true) : ∃ b, lastMatch p l = some b := by
  cases h : lastMatch p l with
  | none =>
      rw [lastMatch_eq_none.1 h a ha] at hp
      cases hp
  | some b => exact ⟨b, rfl⟩

theorem le_of_lastMatch {key : α → ℕ} (hs : l.Pairwise (fun x y => key x ≤ key y))
    (h : lastMatch p l = some b) (ha : a ∈ l) (hp : p a = true) : key a ≤ key b := by
  induction l using List.reverseRecOn with
  | nil => cases ha
  | append_singleton l x ih =>
      rw [List.pairwise_append] at hs
      obtain ⟨hl, _, hlast⟩ := hs
      rw [lastMatch_append_singleton] at h
      split_ifs at h with hx
      · obtain rfl := Option.some.inj h
        rcases List.mem_append.1 ha with ha | ha
        · exact hlast a ha x (List.mem_singleton_self x)
        · rw [List.mem_singleton.1 ha]
      · rcases List.mem_append.1 ha with ha | ha
        · exact ih hl h ha
        · rw [List.mem_singleton.1 ha] at hp
          exact absurd hp hx

theorem lastMatch_of_filter {key : α → ℕ} (hs : l.Pairwise (fun x y => key x ≤ key y))
    (h : lastMatch p (l.filter q) = some b)
    (hno : ∀ x ∈ l, p x = true → q x = false → key x < key b) : lastMatch p l = some b := by
  induction l using List.reverseRecOn with
  | nil => exact h
  | append_singleton l x ih =>
      rw [List.pairwise_append] at hs
      obtain ⟨hl, _, hlast⟩ := hs
      have hrest : ∀ y ∈ l, p y = true → q y = false → key y < key b :=
        fun y hy => hno y (List.mem_append_left [x] hy)
      rw [List.filter_append] at h
      rw [lastMatch_append_singleton]
      cases hq : q x with
      | true =>
          rw [List.filter_cons_of_pos hq, List.filter_nil, lastMatch_append_singleton] at h
          split_ifs at h ⊢ with hp
          · exact h
          · exact ih hl h hrest
      | false =>
          rw [List.filter_cons_of_neg (by simp [hq]), List.filter_nil, List.append_nil] at h
          have hmem := (List.mem_filter.1 (mem_of_lastMatch h).1).1
          rw [if_neg (fun hp => ?_)]
          · exact ih hl h hrest
          · have hlt := hno x (by simp) hp hq
            have hle := hlast b hmem x (List.mem_singleton_self x)
            omega

end Cpf
