import Cpf.Txio.Commit

/-!
# The order of time vectors

`compare_tv_lte` is a total order, and on vectors of one length the lexicographic one. A vector comes
before those that it continues. A vector that is adjacent to another one follows it immediately, unless
it continues it with zeros: `tv_are_adjacent` takes that one for the next, `compare_tv_lte` puts it
before.
-/

namespace Cpf.Txio

theorem uint32_trichotomy (i j : UInt32) :
    (i < j ∧ ¬ j < i ∧ i ≠ j) ∨ i = j ∨ (j < i ∧ ¬ i < j ∧ i ≠ j) := by
  simp only [UInt32.lt_iff_toNat_lt, ne_eq, ← UInt32.toNat_inj]
  omega

theorem compareTvLte_refl (a : Time) : compareTvLte a a = true := by
  induction a with
  | nil => rfl
  | cons i a ih => simp [compareTvLte, ih]

theorem compareTvLte_total (a b : Time) : compareTvLte a b = true ∨ compareTvLte b a = true := by
  induction a generalizing b with
  | nil =>
      cases b with
      | nil => exact Or.inl rfl
      | cons j b => exact Or.inr rfl
  | cons i a ih =>
      cases b with
      | nil => exact Or.inl rfl
      | cons j b =>
          unfold compareTvLte
          rcases uint32_trichotomy i j with ⟨hlt, hnot, -⟩ | rfl | ⟨hlt, hnot, -⟩
          · exact Or.inl (by rw [if_neg hnot, if_pos hlt])
          · simpa using ih b
          · exact Or.inr (by rw [if_neg hnot, if_pos hlt])

theorem compareTvLte_cons {i j : UInt32} {a b : Time} :
    compareTvLte (i :: a) (j :: b) = true ↔ i < j ∨ i = j ∧ compareTvLte a b = true := by
  rw [compareTvLte]
  rcases uint32_trichotomy i j with ⟨hlt, hnot, -⟩ | rfl | ⟨hlt, hnot, hne⟩
  · simp [hlt, hnot]
  · simp
  · simp [hlt, hnot, hne]

theorem compareTvLte_trans (a b c : Time) (hab : compareTvLte a b = true)
    (hbc : compareTvLte b c = true) : compareTvLte a c = true := by
  induction a generalizing b c with
  | nil =>
      cases b with
      | nil => exact hbc
      | cons j b => cases hab
  | cons i a ih =>
      cases c with
      | nil => rfl
      | cons k c =>
          cases b with
          | nil => cases hbc
          | cons j b =>
              rw [compareTvLte_cons] at hab hbc ⊢
              rcases hab with hij | ⟨rfl, hab⟩
              · rcases hbc with hjk | ⟨rfl, -⟩
                · exact Or.inl (UInt32.lt_trans hij hjk)
                · exact Or.inl hij
              · rcases hbc with hjk | ⟨rfl, hbc⟩
                · exact Or.inl hjk
                · exact Or.inr ⟨rfl, ih b c hab hbc⟩

theorem compareTvLte_antisymm {a b : Time} (hab : compareTvLte a b = true)
    (hba : compareTvLte b a = true) : a = b := by
  induction a generalizing b with
  | nil =>
      cases b with
      | nil => rfl
      | cons j b => cases hab
  | cons i a ih =>
      cases b with
      | nil => cases hba
      | cons j b =>
          rw [compareTvLte_cons] at hab hba
          rcases hab with hij | ⟨rfl, hab⟩
          · rcases hba with hji | ⟨rfl, -⟩
            · exact absurd hji (UInt32.lt_asymm hij)
            · exact absurd hij (UInt32.lt_irrefl _)
          · rcases hba with hii | ⟨-, hba⟩
            · exact absurd hii (UInt32.lt_irrefl _)
            · rw [ih hab hba]

/-- On vectors of one length, the order is lexicographic. -/
theorem compareTvLte_iff {a b : Time} (hlength : a.length = b.length) :
    compareTvLte a b = true ↔ ¬ b < a := by
  induction a generalizing b with
  | nil =>
      cases b with
      | nil => simp [compareTvLte]
      | cons j b => cases hlength
  | cons i a ih =>
      cases b with
      | nil => cases hlength
      | cons j b =>
          rw [compareTvLte_cons, ih (Nat.succ.inj hlength), List.cons_lt_cons_iff]
          rcases uint32_trichotomy i j with ⟨hlt, hnot, hne⟩ | rfl | ⟨hlt, hnot, hne⟩
          · simp [hlt, hnot, hne.symm]
          · simp
          · simp [hlt, hnot, hne]

theorem eq_or_lt_of_compareTvLte {a b : Time} (hlength : a.length = b.length)
    (h : compareTvLte a b = true) : a = b ∨ a < b := by
  induction a generalizing b with
  | nil =>
      cases b with
      | nil => exact Or.inl rfl
      | cons j b => cases hlength
  | cons i a ih =>
      cases b with
      | nil => cases hlength
      | cons j b =>
          rw [List.cons_lt_cons_iff]
          rcases compareTvLte_cons.1 h with hij | ⟨rfl, hab⟩
          · exact Or.inr (Or.inl hij)
          · rcases ih (Nat.succ.inj hlength) hab with rfl | hlt
            · exact Or.inl rfl
            · exact Or.inr (Or.inr ⟨rfl, hlt⟩)

theorem not_lt_of_isAllZero {b c : Time} (hlength : c.length = b.length) (hzero : isAllZero b = true) :
    ¬ c < b := by
  induction b generalizing c with
  | nil => exact List.not_lt_nil c
  | cons j b ih =>
      cases c with
      | nil => cases hlength
      | cons k c =>
          have hj : j = 0 ∧ isAllZero b = true := by simpa [isAllZero] using hzero
          rw [List.cons_lt_cons_iff]
          rintro (hkj | ⟨-, hcb⟩)
          · rw [hj.1] at hkj
            exact absurd hkj UInt32.not_lt_zero
          · exact ih (Nat.succ.inj hlength) hj.2 hcb

/-- Nothing is between two adjacent vectors. -/
theorem not_lt_of_areAdjacentFrom {a b c : Time} (hab : a.length = b.length)
    (hac : a.length = c.length) (hsmall : ∀ i ∈ a, i.toNat < 2 ^ 32 - 1)
    (hadj : areAdjacentFrom a b = true) (hlt : a < c) : ¬ c < b := by
  induction a generalizing b c with
  | nil =>
      cases c with
      | nil => exact absurd hlt (List.not_lt_nil _)
      | cons k c => cases hac
  | cons i a ih =>
      cases b with
      | nil => cases hab
      | cons j b =>
          cases c with
          | nil => cases hac
          | cons k c =>
              have hi := hsmall i List.mem_cons_self
              rw [List.cons_lt_cons_iff] at hlt ⊢
              rw [areAdjacentFrom] at hadj
              split_ifs at hadj with hlast hne
              · obtain ⟨rfl, hij, -⟩ := hlast
                have hc : c = [] := List.length_eq_zero_iff.1 (Nat.succ.inj hac).symm
                have hb : b = [] := List.length_eq_zero_iff.1 (Nat.succ.inj hab).symm
                rw [hc] at hlt ⊢
                rw [hb]
                have hjn : j.toNat = i.toNat + 1 := by
                  rw [← hij, UInt32.toNat_add, UInt32.toNat_one, Nat.mod_eq_of_lt (by omega)]
                rcases hlt with hlt | ⟨-, hlt⟩
                · rintro (hkj | ⟨-, hnil⟩)
                  · rw [UInt32.lt_iff_toNat_lt] at hlt hkj
                    omega
                  · exact List.not_lt_nil _ hnil
                · exact absurd hlt (List.not_lt_nil _)
              · have hij : i = j := not_not.1 hne
                rw [← hij]
                rcases hlt with hlt | ⟨rfl, hlt⟩
                · rintro (hki | ⟨rfl, -⟩)
                  · exact absurd hki (UInt32.lt_asymm hlt)
                  · exact absurd hlt (UInt32.lt_irrefl _)
                · rintro (hki | ⟨-, hcb⟩)
                  · exact absurd hki (UInt32.lt_irrefl _)
                  · exact ih (Nat.succ.inj hab) (Nat.succ.inj hac)
                      (fun i hi => hsmall i (List.mem_cons_of_mem _ hi)) hadj hlt hcb

/-! ### Adjacency against the order -/

def ZeroContinued (a b : Time) : Prop := ∃ n, b = a ++ List.replicate (n + 1) 0

def StrictlyBetween (a c b : Time) : Prop :=
  compareTvLte a c = true ∧ a ≠ c ∧ compareTvLte c b = true ∧ c ≠ b

/-- What follows another vector, if that is adjacent to it: it comes later, and nothing is between. -/
def FollowsIfAdjacent (a b : Time) : Prop :=
  tvAreAdjacent (some a) b = true → a ≠ b →
    compareTvLte a b = true ∧ ∀ c, c.length = b.length → ¬ StrictlyBetween a c b

theorem eq_replicate_of_isAllZero {b : Time} (hzero : isAllZero b = true) :
    b = List.replicate b.length 0 := by
  rw [List.eq_replicate_iff]
  exact ⟨rfl, by simpa [isAllZero] using hzero⟩

theorem isAllZero_replicate (n : ℕ) : isAllZero (List.replicate n 0) = true := by
  simp [isAllZero]

theorem areAdjacentFrom_append_zeros (a : Time) (n : ℕ) :
    areAdjacentFrom a (a ++ List.replicate n 0) = true := by
  induction a with
  | nil => exact isAllZero_replicate n
  | cons i a ih =>
      rw [List.cons_append, areAdjacentFrom]
      split_ifs with hlast hne
      · rfl
      · exact absurd rfl hne
      · exact ih

/-- A vector does not come before those that continue it. -/
theorem compareTvLte_append (a : Time) {b : Time} (hb : b ≠ []) : compareTvLte a (a ++ b) = false := by
  induction a with
  | nil =>
      cases b with
      | nil => exact absurd rfl hb
      | cons j b => rfl
  | cons i a ih =>
      rw [Bool.eq_false_iff, List.cons_append, Ne, compareTvLte_cons]
      rintro (hii | ⟨-, hle⟩)
      · exact UInt32.lt_irrefl _ hii
      · exact Bool.eq_false_iff.1 ih hle

theorem ZeroContinued.not_followsIfAdjacent {a b : Time} (h : ZeroContinued a b) :
    ¬ FollowsIfAdjacent a b := by
  obtain ⟨n, rfl⟩ := h
  intro hfollows
  have hne : a ≠ a ++ List.replicate (n + 1) 0 := by
    intro heq
    have hlength := congrArg List.length heq
    rw [List.length_append, List.length_replicate] at hlength
    omega
  have hle := (hfollows (areAdjacentFrom_append_zeros a (n + 1)) hne).1
  rw [compareTvLte_append a (by simp)] at hle
  cases hle

/-- Nothing of the length of `j :: b` is between `[i]` and `j :: b`, if `j` follows `i` and `b` is zero. -/
theorem not_strictlyBetween_last {i j : UInt32} {b c : Time} (hi : i.toNat < 2 ^ 32 - 1)
    (hij : i + 1 = j) (hzero : isAllZero b = true) (hlength : c.length = (j :: b).length) :
    ¬ StrictlyBetween [i] c (j :: b) := by
  rintro ⟨hac, hne, hcb, hne'⟩
  have hjn : j.toNat = i.toNat + 1 := by
    rw [← hij, UInt32.toNat_add, UInt32.toNat_one, Nat.mod_eq_of_lt (by omega)]
  cases c with
  | nil => cases hlength
  | cons k c =>
      have hcb' : c.length = b.length := Nat.succ.inj hlength
      have hik : i < k := by
        rcases compareTvLte_cons.1 hac with hik | ⟨rfl, hnil⟩
        · exact hik
        · cases c with
          | nil => exact absurd rfl hne
          | cons l c => cases hnil
      rw [UInt32.lt_iff_toNat_lt] at hik
      rcases compareTvLte_cons.1 hcb with hkj | ⟨rfl, hle⟩
      · rw [UInt32.lt_iff_toNat_lt] at hkj
        omega
      · rcases eq_or_lt_of_compareTvLte hcb' hle with rfl | hlt
        · exact hne' rfl
        · exact not_lt_of_isAllZero hcb' hzero hlt

theorem followsIfAdjacent_of_not_zeroContinued {a b : Time} (ha : ∀ i ∈ a, i.toNat < 2 ^ 32 - 1)
    (h : ¬ ZeroContinued a b) : FollowsIfAdjacent a b := by
  induction a generalizing b with
  | nil =>
      intro hadj hne
      cases b with
      | nil => exact absurd rfl hne
      | cons j b => exact absurd ⟨b.length, eq_replicate_of_isAllZero hadj⟩ h
  | cons i a ih =>
      intro hadj hne
      have hi := ha i List.mem_cons_self
      cases b with
      | nil => cases hadj
      | cons j b =>
          rw [tvAreAdjacent, areAdjacentFrom] at hadj
          split_ifs at hadj with hlast hdiff
          · obtain ⟨rfl, hij, hzero⟩ := hlast
            have hlt : i < j := by
              rw [← hij, UInt32.lt_iff_toNat_lt, UInt32.toNat_add, UInt32.toNat_one,
                Nat.mod_eq_of_lt (by omega)]
              exact Nat.lt_succ_self _
            exact ⟨compareTvLte_cons.2 (Or.inl hlt),
              fun c hlength => not_strictlyBetween_last hi hij hzero hlength⟩
          · obtain rfl : i = j := not_not.1 hdiff
            have hrest : FollowsIfAdjacent a b := by
              apply ih fun k hk => ha k (List.mem_cons_of_mem _ hk)
              rintro ⟨n, rfl⟩
              exact h ⟨n, rfl⟩
            obtain ⟨hle, hbetween⟩ := hrest hadj fun hab => hne (by rw [hab])
            refine ⟨compareTvLte_cons.2 (Or.inr ⟨rfl, hle⟩), fun c hlength => ?_⟩
            rintro ⟨hac, hneac, hcb, hnecb⟩
            cases c with
            | nil => cases hlength
            | cons k c =>
                have hik : i = k ∧ compareTvLte a c = true ∧ compareTvLte c b = true := by
                  rcases compareTvLte_cons.1 hac with hik | ⟨rfl, hle⟩
                  · rcases compareTvLte_cons.1 hcb with hki | ⟨rfl, -⟩
                    · exact absurd hki (UInt32.lt_asymm hik)
                    · exact absurd hik (UInt32.lt_irrefl _)
                  · rcases compareTvLte_cons.1 hcb with hii | ⟨-, hle'⟩
                    · exact absurd hii (UInt32.lt_irrefl _)
                    · exact ⟨rfl, hle, hle'⟩
                obtain ⟨rfl, hac', hcb'⟩ := hik
                exact hbetween c (Nat.succ.inj hlength)
                  ⟨hac', fun h => hneac (by rw [h]), hcb', fun h => hnecb (by rw [h])⟩

/-- `compare_tv_lte` is a total order, and `tv_are_adjacent` agrees with it unless the second vector
continues the first with zeros. -/
theorem timeOrder_iff (a b c : Time) (ha : ∀ i ∈ a, i.toNat < 2 ^ 32 - 1) :
    compareTvLte a a = true ∧
    (compareTvLte a b = true → compareTvLte b a = true → a = b) ∧
    (compareTvLte a b = true → compareTvLte b c = true → compareTvLte a c = true) ∧
    (compareTvLte a b = true ∨ compareTvLte b a = true) ∧
    (FollowsIfAdjacent a b ↔ ¬ ZeroContinued a b) :=
  ⟨compareTvLte_refl a, compareTvLte_antisymm, compareTvLte_trans a b c, compareTvLte_total a b,
    fun h hzero => hzero.not_followsIfAdjacent h, followsIfAdjacent_of_not_zeroContinued ha⟩

theorem timeOrder_iff_sibling :
    compareTvLte [1, 2] [1, 2] = true ∧
    (compareTvLte [1, 2] [1, 3] = true → compareTvLte [1, 3] [1, 2] = true →
      ([1, 2] : Time) = [1, 3]) ∧
    (compareTvLte [1, 2] [1, 3] = true → compareTvLte [1, 3] [2] = true →
      compareTvLte [1, 2] [2] = true) ∧
    (compareTvLte [1, 2] [1, 3] = true ∨ compareTvLte [1, 3] [1, 2] = true) ∧
    (FollowsIfAdjacent [1, 2] [1, 3] ↔ ¬ ZeroContinued [1, 2] [1, 3]) :=
  timeOrder_iff [1, 2] [1, 3] [2] (by simp)

/-- `[1, 0]` is adjacent to `[1]`, but comes before it. -/
theorem adjacent_before : tvAreAdjacent (some [1]) [1, 0] = true ∧ ([1] : Time) ≠ [1, 0] ∧
    compareTvLte [1] [1, 0] = false :=
  ⟨by decide, by decide, by decide⟩

end Cpf.Txio
