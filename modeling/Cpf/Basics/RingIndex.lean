import Mathlib.Data.Nat.ModEq
import Mathlib.Tactic

/-!
# Positions in a ring

A ring of `n` cells is addressed by counters modulo `n`. As long as two counters are less than `n` apart
their positions differ if they do, and the distance can be computed from the positions. A literal of
`Fin n` needs an instance for `n`: here it is a constant for the smallest rings, and not a term that is made
up anew for each literal.
-/

namespace Cpf

instance neZeroOne : NeZero 1 := ⟨Nat.succ_ne_zero 0⟩

instance neZeroTwo : NeZero 2 := ⟨Nat.succ_ne_zero 1⟩

instance neZeroThree : NeZero 3 := ⟨Nat.succ_ne_zero 2⟩

instance neZeroFour : NeZero 4 := ⟨Nat.succ_ne_zero 3⟩

end Cpf

namespace Cpf.RingIndex

variable {a b c n m w i : ℕ}

theorem mod_eq_mod_iff (hab : a ≤ b) (hb : b < a + n) : a % n = b % n ↔ a = b := by
  refine ⟨fun h => ?_, fun h => h ▸ rfl⟩
  have hdvd : n ∣ b - a := (Nat.modEq_iff_dvd' hab).1 h
  have hzero := Nat.eq_zero_of_dvd_of_lt hdvd (by omega)
  omega

/-- The distance in machine words, of which `m` exist. -/
theorem mod_sub_mod (hn : 0 < n) (hnm : n ∣ m) (hm : 0 < m) (hba : b ≤ a) (ha : a < b + n) :
    (a % n + m - b % n) % m % n = a - b := by
  have hbn : b % n ≤ m := (Nat.mod_lt b hn).le.trans (Nat.le_of_dvd hm hnm)
  have hsum : a % n + m - b % n + b % n = a % n + m := by omega
  have hcongr : (a % n + m - b % n) + b ≡ (a - b) + b [MOD n] := by
    calc (a % n + m - b % n) + b ≡ (a % n + m - b % n) + b % n [MOD n] :=
          (Nat.ModEq.refl _).add (Nat.mod_modEq b n).symm
      _ = a % n + m := hsum
      _ ≡ a + 0 [MOD n] := (Nat.mod_modEq a n).add ((Nat.modEq_zero_iff_dvd).2 hnm)
      _ = (a - b) + b := by omega
  rw [Nat.mod_mod_of_dvd _ hnm]
  calc (a % n + m - b % n) % n = (a - b) % n := hcongr.add_right_cancel' b
    _ = a - b := Nat.mod_eq_of_lt (by omega)

/-- Cells that are written together do not wrap around. -/
theorem mod_add_of_lt (hwn : w ∣ n) (hn : 0 < n) (hwa : w ∣ a) (hi : i < w) :
    a % n + i = (a + i) % n := by
  have hlt : a % n + i < n := by
    obtain ⟨k, hk⟩ := (Nat.dvd_mod_iff hwn).2 hwa
    obtain ⟨l, hl⟩ := hwn
    have hkl : w * k < w * l := by
      rw [← hk, ← hl]
      exact Nat.mod_lt a hn
    have hle : k + 1 ≤ l := Nat.lt_of_mul_lt_mul_left hkl
    calc a % n + i < w * k + w := by omega
      _ = w * (k + 1) := (Nat.mul_succ w k).symm
      _ ≤ w * l := Nat.mul_le_mul_left w hle
      _ = n := hl.symm
  rw [← Nat.mod_add_mod, Nat.mod_eq_of_lt hlt]

/-- The offset in a block grows until the next block begins. -/
theorem add_mod_of_ne_zero (hwc : w ∣ c) (hc : 0 < c) (hwa : w ∣ a) (hne : (a + w) % c ≠ 0) :
    (a + w) % c = a % c + w := by
  obtain ⟨k, hk⟩ := (Nat.dvd_mod_iff hwc).2 hwa
  obtain ⟨l, hl⟩ := hwc
  have hkl : w * k < w * l := by
    rw [← hk, ← hl]
    exact Nat.mod_lt a hc
  have hle : a % c + w ≤ c := by
    calc a % c + w = w * (k + 1) := by rw [hk, Nat.mul_succ]
      _ ≤ w * l := Nat.mul_le_mul_left w (Nat.lt_of_mul_lt_mul_left hkl)
      _ = c := hl.symm
  rw [← Nat.mod_add_mod] at hne ⊢
  rcases hle.lt_or_eq with hlt | heq
  · exact Nat.mod_eq_of_lt hlt
  · rw [heq, Nat.mod_self] at hne
    exact absurd rfl hne

end Cpf.RingIndex
