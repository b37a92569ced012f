import Cpf.Basics.Loop
import Mathlib.Data.Fintype.Card
import Mathlib.Logic.Relation

/-!
# Searches that share a set

`visit` adds to a set everything that can be reached from a vertex, and passes over what is in the
set already. Several searches may share one set.
-/

namespace Cpf

variable {α : Type*} [DecidableEq α] (succ : α → List α)

/-- Adds the successors of `x`, and behind each new one what can be reached from it. -/
def visit : ℕ → α → Finset α → Except Unit (Finset α)
  | 0, _, _ => .error ()
  | fuel + 1, x, set =>
      (succ x).foldlM (fun set y => if y ∈ set then .ok set else visit fuel y (insert y set)) set

/-- What searches from the vertices `ys` make of the set `s`. -/
structure Visited (ys : List α) (s t : Finset α) : Prop where
  subset : s ⊆ t
  all : ∀ y ∈ ys, y ∈ t
  closed : ∀ y ∈ t, y ∉ s → ∀ z ∈ succ y, z ∈ t
  reached : ∀ y ∈ t, y ∉ s → ∃ x ∈ ys, Relation.ReflTransGen (fun a b => b ∈ succ a) x y

namespace Visited

variable {succ} {ys : List α} {s t u : Finset α} {y : α}

omit [DecidableEq α] in
theorem nil : Visited succ [] s s :=
  ⟨Finset.Subset.refl s, fun _ hy => absurd hy List.not_mem_nil, fun _ hy hn => absurd hy hn,
    fun _ hy hn => absurd hy hn⟩

omit [DecidableEq α] in
theorem of_mem (h : y ∈ s) : Visited succ [y] s s where
  subset := Finset.Subset.refl s
  all := by
    intro z hz
    rw [List.mem_singleton.1 hz]
    exact h
  closed z hz hn := absurd hz hn
  reached z hz hn := absurd hz hn

/-- A vertex is added before its successors are searched. -/
theorem of_insert (h : Visited succ (succ y) (insert y s) t) : Visited succ [y] s t where
  subset := (Finset.subset_insert y s).trans h.subset
  all := by
    intro z hz
    rw [List.mem_singleton.1 hz]
    exact h.subset (Finset.mem_insert_self y s)
  closed := by
    intro z hz hn
    by_cases hzy : z = y
    · subst hzy
      exact h.all
    · exact h.closed z hz (by simp [hzy, hn])
  reached := by
    intro z hz hn
    by_cases hzy : z = y
    · exact ⟨y, List.mem_singleton_self y, hzy ▸ Relation.ReflTransGen.refl⟩
    · obtain ⟨x, hx, hreach⟩ := h.reached z hz (by simp [hzy, hn])
      exact ⟨y, List.mem_singleton_self y, Relation.ReflTransGen.head hx hreach⟩

omit [DecidableEq α] in
theorem cons (h : Visited succ [y] s t) (h' : Visited succ ys t u) : Visited succ (y :: ys) s u where
  subset := h.subset.trans h'.subset
  all := by
    intro z hz
    rcases List.mem_cons.1 hz with rfl | hz
    · exact h'.subset (h.all z (List.mem_singleton_self z))
    · exact h'.all z hz
  closed := by
    intro z hz hn w hw
    by_cases hzt : z ∈ t
    · exact h'.subset (h.closed z hzt hn w hw)
    · exact h'.closed z hz hzt w hw
  reached := by
    intro z hz hn
    by_cases hzt : z ∈ t
    · obtain ⟨x, hx, hreach⟩ := h.reached z hzt hn
      exact ⟨x, List.mem_cons.2 (Or.inl (List.mem_singleton.1 hx)), hreach⟩
    · obtain ⟨x, hx, hreach⟩ := h'.reached z hz hzt
      exact ⟨x, List.mem_cons_of_mem y hx, hreach⟩

omit [DecidableEq α] in
/-- From the empty set the searches find exactly what can be reached. -/
theorem mem_iff (h : Visited succ ys ∅ t) (z : α) :
    z ∈ t ↔ ∃ x ∈ ys, Relation.ReflTransGen (fun a b => b ∈ succ a) x z := by
  constructor
  · intro hz
    exact h.reached z hz (Finset.notMem_empty z)
  · rintro ⟨x, hx, hreach⟩
    induction hreach with
    | refl => exact h.all x hx
    | tail _ hstep ih => exact h.closed _ ih (Finset.notMem_empty _) _ hstep

end Visited

/-- The search ends, as there are only finitely many vertices to add. -/
theorem visit_spec [Fintype α] {fuel : ℕ} (x : α) (s : Finset α) (hfuel : sᶜ.card < fuel) :
    ∃ t, visit succ fuel x s = .ok t ∧ Visited succ (succ x) s t := by
  induction fuel generalizing x s with
  | zero => exact absurd hfuel (Nat.not_lt_zero _)
  | succ fuel ih =>
      have hlist : ∀ (ys : List α) (s : Finset α), sᶜ.card < fuel + 1 →
          ∃ t, ys.foldlM (fun set y => if y ∈ set then Except.ok set
            else visit succ fuel y (insert y set)) s = .ok t ∧ Visited succ ys s t := by
        intro ys
        induction ys with
        | nil => exact fun s _ => ⟨s, rfl, Visited.nil⟩
        | cons y ys ihys =>
            intro s hs
            have hy : ∃ t, (if y ∈ s then Except.ok s else visit succ fuel y (insert y s)) = .ok t ∧
                Visited succ [y] s t := by
              by_cases hmem : y ∈ s
              · exact ⟨s, if_pos hmem, Visited.of_mem hmem⟩
              · have hcard : (insert y s)ᶜ.card < fuel := by
                  have hlt : (insert y s)ᶜ.card < sᶜ.card :=
                    Finset.card_lt_card (Finset.compl_ssubset_compl.2 (Finset.ssubset_insert hmem))
                  omega
                obtain ⟨t, ht, hvis⟩ := ih y (insert y s) hcard
                exact ⟨t, by rw [if_neg hmem, ht], Visited.of_insert hvis⟩
            obtain ⟨t, ht, hvis⟩ := hy
            have htcard : tᶜ.card ≤ sᶜ.card :=
              Finset.card_le_card (Finset.compl_subset_compl.2 hvis.subset)
            obtain ⟨u, hu, hvis'⟩ := ihys t (by omega)
            exact ⟨u, foldlM_cons_eq_ok.2 ⟨t, ht, hu⟩, hvis.cons hvis'⟩
      exact hlist (succ x) s hfuel

end Cpf
