import Mathlib.Tactic

/-!
# Loops without a counter

`iterate` runs a loop body until it reports that there is nothing left to do. The fuel bounds the
number of rounds; a loop that uses it up ends in the given error. A loop with a measure that every
round lowers ends before a fuel above the measure is used up.
-/

namespace Cpf

variable {σ ε : Type*} {out : ε} {step : σ → Except ε (Option σ)}

def iterate (out : ε) (step : σ → Except ε (Option σ)) : ℕ → σ → Except ε σ
  | 0, _ => .error out
  | fuel + 1, s =>
      match step s with
      | .error e => .error e
      | .ok none => .ok s
      | .ok (some s') => iterate out step fuel s'

/-- The invariant rule: the loop ends in a state with the invariant in which nothing is left to
do. -/
theorem iterate_invariant (I : σ → Prop)
    (hstep : ∀ s s', I s → step s = .ok (some s') → I s') {fuel : ℕ} {s t : σ} (hs : I s)
    (h : iterate out step fuel s = .ok t) : I t ∧ step t = .ok none := by
  induction fuel generalizing s with
  | zero => cases h
  | succ fuel ih =>
      rw [iterate] at h
      split at h
      · cases h
      · next hnone =>
        cases h
        exact ⟨hs, hnone⟩
      · next s' hs' => exact ih (hstep s s' hs hs') h

/-- The rule for a bound that is not read off the state: from a state with `k` rounds to go, a round
leads to a state with fewer. -/
theorem iterate_variant (I : ℕ → σ → Prop)
    (hstep : ∀ k s, I k s → ∃ r, step s = .ok r ∧ ∀ s', r = some s' → ∃ k' < k, I k' s') {fuel k : ℕ}
    {s : σ} (hs : I k s) (hfuel : k < fuel) :
    ∃ t k', iterate out step fuel s = .ok t ∧ I k' t ∧ step t = .ok none := by
  induction fuel generalizing k s with
  | zero => exact absurd hfuel (Nat.not_lt_zero _)
  | succ fuel ih =>
      obtain ⟨r, hr, hnext⟩ := hstep k s hs
      cases r with
      | none =>
          refine ⟨s, k, ?_, hs, hr⟩
          rw [iterate, hr]
      | some s' =>
          obtain ⟨k', hlt, hs'⟩ := hnext s' rfl
          obtain ⟨t, kt, ht, hend⟩ := ih hs' (by omega)
          refine ⟨t, kt, ?_, hend⟩
          rw [iterate, hr]
          exact ht

/-- The rule for total correctness: if every round from a state with the invariant succeeds and,
unless it is the last one, keeps the invariant and lowers the measure, the loop ends. -/
theorem iterate_total (I : σ → Prop) (μ : σ → ℕ)
    (hstep : ∀ s, I s → ∃ r, step s = .ok r ∧ ∀ s', r = some s' → I s' ∧ μ s' < μ s) {fuel : ℕ}
    {s : σ} (hs : I s) (hfuel : μ s < fuel) :
    ∃ t, iterate out step fuel s = .ok t ∧ I t ∧ step t = .ok none := by
  obtain ⟨t, k, ht, ⟨hI, _⟩, hend⟩ := iterate_variant (fun k s => I s ∧ μ s = k) (fun k s hk => by
    obtain ⟨r, hr, hnext⟩ := hstep s hk.1
    refine ⟨r, hr, fun s' hs' => ⟨μ s', ?_, (hnext s' hs').1, rfl⟩⟩
    rw [← hk.2]
    exact (hnext s' hs').2) ⟨hs, rfl⟩ hfuel
  exact ⟨t, ht, hI, hend⟩

end Cpf
