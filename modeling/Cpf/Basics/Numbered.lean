import Mathlib.Tactic

/-!
# Lists whose entries are numbered

`Numbered P m l` says that the entries of `l`, numbered from `m` on, have the property `P`.
-/

namespace Cpf

variable {α : Type*} {P Q : ℕ → α → Prop} {m : ℕ} {l : List α}

def Numbered (P : ℕ → α → Prop) : ℕ → List α → Prop
  | _, [] => True
  | m, a :: as => P m a ∧ Numbered P (m + 1) as

namespace Numbered

theorem mono (h : Numbered P m l)
    (hPQ : ∀ i, m ≤ i → i < m + l.length → ∀ a, P i a → Q i a) : Numbered Q m l := by
  induction l generalizing m with
  | nil => trivial
  | cons a l ih =>
      obtain ⟨ha, hl⟩ := h
      rw [List.length_cons] at hPQ
      exact ⟨hPQ m le_rfl (by omega) a ha,
        ih hl (fun i hi hi' => hPQ i (by omega) (by omega))⟩

theorem and (h : Numbered P m l) (h' : Numbered Q m l) : Numbered (fun i a => P i a ∧ Q i a) m l := by
  induction l generalizing m with
  | nil => trivial
  | cons a l ih => exact ⟨⟨h.1, h'.1⟩, ih h.2 h'.2⟩

/-- Every number of the list has an entry. -/
theorem exists_of_lt (h : Numbered P m l) {i : ℕ} (hi : m ≤ i) (hi' : i < m + l.length) :
    ∃ a ∈ l, P i a := by
  induction l generalizing m with
  | nil =>
      rw [List.length_nil] at hi'
      omega
  | cons b l ih =>
      obtain ⟨hb, hl⟩ := h
      rw [List.length_cons] at hi'
      rcases Nat.eq_or_lt_of_le hi with rfl | hlt
      · exact ⟨b, List.mem_cons_self, hb⟩
      · obtain ⟨a, ha, hp⟩ := ih hl hlt (by omega)
        exact ⟨a, List.mem_cons_of_mem _ ha, hp⟩

theorem exists_of_mem (h : Numbered P m l) {a : α} (ha : a ∈ l) :
    ∃ i, m ≤ i ∧ i < m + l.length ∧ P i a := by
  induction l generalizing m with
  | nil => cases ha
  | cons b l ih =>
      obtain ⟨hb, hl⟩ := h
      rw [List.length_cons]
      rcases List.mem_cons.1 ha with rfl | ha
      · exact ⟨m, le_rfl, by omega, hb⟩
      · obtain ⟨i, hi, hi', hp⟩ := ih hl ha
        exact ⟨i, by omega, by omega, hp⟩

theorem takeWhile (h : Numbered P m l) (q : α → Bool) : Numbered P m (l.takeWhile q) := by
  induction l generalizing m with
  | nil => trivial
  | cons a l ih =>
      obtain ⟨ha, hl⟩ := h
      rw [List.takeWhile_cons]
      split_ifs
      · exact ⟨ha, ih hl⟩
      · trivial

theorem getLast (h : Numbered P m l) {a : α} (ha : l.getLast? = some a) :
    ∃ i, i + 1 = m + l.length ∧ P i a := by
  induction l generalizing m with
  | nil => cases ha
  | cons b l ih =>
      obtain ⟨hb, hl⟩ := h
      cases l with
      | nil =>
          cases ha
          exact ⟨m, rfl, hb⟩
      | cons c l =>
          rw [List.getLast?_cons_cons] at ha
          obtain ⟨i, hi, hp⟩ := ih hl ha
          rw [Nat.add_assoc, Nat.add_comm 1] at hi
          exact ⟨i, hi, hp⟩

/-- Entries whose numbers are related in order are related in order. -/
theorem pairwise {R : α → α → Prop} (h : Numbered P m l)
    (hR : ∀ i j a b, m ≤ i → i < j → j < m + l.length → P i a → P j b → R a b) : l.Pairwise R := by
  induction l generalizing m with
  | nil => exact List.Pairwise.nil
  | cons a l ih =>
      obtain ⟨ha, hl⟩ := h
      rw [List.length_cons] at hR
      refine List.Pairwise.cons (fun b hb => ?_)
        (ih hl (fun i j c d hi hij hj => hR i j c d (by omega) hij (by omega)))
      obtain ⟨j, hj, hj', hp⟩ := hl.exists_of_mem hb
      exact hR m j a b le_rfl (by omega) (by omega) ha hp

end Numbered
end Cpf
