import Cpf.Pipeline.Orchestrate

/-!
# The critic with the greatest savings

The loop of `findBestStrategy` over any list of critics. Savings are a difference of two
`unsigned long`, and zero stands for no strategy yet, so that remedies that cost more than the
speedup look like huge savings.
-/

namespace Cpf.Pipeline

/-- What a critic offers: the speedup it expects, the cost of the remedies selected for its
criticisms, and what is handed out if it is chosen: strategy, remedies and critic. -/
structure Offer (S : Type) where
  expSpeedup : UInt64
  selectedRemediesCost : UInt64
  choice : S
  deriving DecidableEq

variable {S : Type} (ignoreCost : Bool)

def Offer.savings (o : Offer S) : UInt64 :=
  o.expSpeedup - if ignoreCost then 0 else 1000 * o.selectedRemediesCost

/-- One round of the loop over the critics, on `maxSavings` and the offer that is kept. -/
def keepBest (best : UInt64 × Option (Offer S)) (o : Offer S) : UInt64 × Option (Offer S) :=
  if o.expSpeedup = 0 then best
  else if best.1 = 0 ∨ best.1 < o.savings ignoreCost then (o.savings ignoreCost, some o)
  else best

/-- The offer whose strategy is returned, or `none` if the code returns false. -/
def bestOffer (os : List (Offer S)) : Option (Offer S) :=
  let best := os.foldl (keepBest ignoreCost) (0, none)
  if best.1 = 0 then none else best.2

def Offer.difference (o : Offer S) : ℤ :=
  o.expSpeedup.toNat - if ignoreCost then 0 else 1000 * o.selectedRemediesCost.toNat

/-- A strategy is returned if and only if some critic saves something, and then it is one of the
greatest savings. -/
structure ReturnsBest (os : List (Offer S)) : Prop where
  found : (bestOffer ignoreCost os).isSome ↔
    ∃ o ∈ os, o.expSpeedup ≠ 0 ∧ 0 < o.difference ignoreCost
  greatest : ∀ o, bestOffer ignoreCost os = some o →
    o ∈ os ∧ o.expSpeedup ≠ 0 ∧ ∀ o' ∈ os, o'.difference ignoreCost ≤ o.difference ignoreCost

variable {ignoreCost} {os : List (Offer S)} {o : Offer S} {best : UInt64 × Option (Offer S)}

theorem savings_emod (ignoreCost : Bool) (o : Offer S) :
    ((o.savings ignoreCost).toNat : ℤ) = o.difference ignoreCost % 2 ^ 64 := by
  have hspeedup := o.expSpeedup.toNat_lt
  have hcost := o.selectedRemediesCost.toNat_lt
  unfold Offer.savings Offer.difference
  cases ignoreCost with
  | true =>
    rw [if_pos rfl, if_pos rfl, UInt64.sub_zero]
    omega
  | false =>
    rw [if_neg Bool.false_ne_true, if_neg Bool.false_ne_true, UInt64.toNat_sub, UInt64.toNat_mul]
    change (((2 ^ 64 - 1000 * o.selectedRemediesCost.toNat % 2 ^ 64 + o.expSpeedup.toNat) % 2 ^ 64 :
      ℕ) : ℤ) = _
    omega

theorem difference_nonpos (h : o.expSpeedup = 0) : o.difference ignoreCost ≤ 0 := by
  unfold Offer.difference
  rw [h, UInt64.toNat_zero]
  split_ifs <;> omega

theorem difference_lt (o : Offer S) : o.difference ignoreCost < 2 ^ 64 := by
  have hspeedup := o.expSpeedup.toNat_lt
  unfold Offer.difference
  split_ifs <;> omega

/-- What the loop makes of `best`: the greatest savings of all applicable offers, with one that has
them. -/
structure Kept (ignoreCost : Bool) (os : List (Offer S))
    (best best' : UInt64 × Option (Offer S)) : Prop where
  mono : best.1 ≤ best'.1
  ge : ∀ o ∈ os, o.expSpeedup ≠ 0 → o.savings ignoreCost ≤ best'.1
  mem : best' = best ∨ ∃ o ∈ os, o.expSpeedup ≠ 0 ∧ best' = (o.savings ignoreCost, some o)

theorem keepBest_kept (ignoreCost : Bool) (best : UInt64 × Option (Offer S)) (o : Offer S) :
    Kept ignoreCost [o] best (keepBest ignoreCost best o) := by
  unfold keepBest
  split_ifs with hzero hless
  · exact ⟨UInt64.le_refl _, fun o' ho' hne => absurd hzero (List.mem_singleton.1 ho' ▸ hne), .inl rfl⟩
  · refine ⟨?_, fun o' ho' _ => ?_, .inr ⟨o, List.mem_singleton_self o, hzero, rfl⟩⟩
    · rcases hless with heq | hlt
      · rw [heq]
        exact UInt64.zero_le
      · exact UInt64.le_of_lt hlt
    · rw [List.mem_singleton.1 ho']
      exact UInt64.le_refl _
  · refine ⟨UInt64.le_refl _, fun o' ho' _ => ?_, .inl rfl⟩
    rw [List.mem_singleton.1 ho']
    exact UInt64.not_lt.1 (fun hlt => hless (.inr hlt))

theorem foldl_kept (ignoreCost : Bool) (os : List (Offer S)) (best : UInt64 × Option (Offer S)) :
    Kept ignoreCost os best (os.foldl (keepBest ignoreCost) best) := by
  induction os generalizing best with
  | nil => exact ⟨UInt64.le_refl _, by simp, .inl rfl⟩
  | cons o os ih =>
    have hfirst := keepBest_kept ignoreCost best o
    have hrest := ih (keepBest ignoreCost best o)
    refine ⟨UInt64.le_trans hfirst.mono hrest.mono, fun o' ho' hne => ?_, ?_⟩
    · rcases List.mem_cons.1 ho' with rfl | ho'
      · exact UInt64.le_trans (hfirst.ge _ (List.mem_singleton_self _) hne) hrest.mono
      · exact hrest.ge o' ho' hne
    · rcases hrest.mem with heq | ⟨o', ho', hne, heq⟩
      · rw [List.foldl_cons, heq]
        exact hfirst.mem.imp_right (fun ⟨o', ho', h⟩ =>
          ⟨o', List.mem_cons.2 (.inl (List.mem_singleton.1 ho')), h⟩)
      · exact .inr ⟨o', List.mem_cons_of_mem o ho', hne, heq⟩

/-- An offer stays when none behind it has greater savings. -/
theorem foldl_keepBest_of_le (hpos : o.savings ignoreCost ≠ 0)
    (hle : ∀ o' ∈ os, o'.expSpeedup ≠ 0 → o'.savings ignoreCost ≤ o.savings ignoreCost) :
    os.foldl (keepBest ignoreCost) (o.savings ignoreCost, some o) =
      (o.savings ignoreCost, some o) := by
  induction os with
  | nil => rfl
  | cons o' os ih =>
    have hkeep : keepBest ignoreCost (o.savings ignoreCost, some o) o' =
        (o.savings ignoreCost, some o) := by
      unfold keepBest
      split_ifs with hzero hless
      · rfl
      · exact absurd (hless.resolve_left hpos)
          (UInt64.not_lt.2 (hle o' List.mem_cons_self hzero))
      · rfl
    rw [List.foldl_cons, hkeep, ih (fun x hx => hle x (List.mem_cons_of_mem o' hx))]

/-- The offer that is returned has the greatest savings, and none is returned if all are zero. -/
theorem bestOffer_spec (ignoreCost : Bool) (os : List (Offer S)) :
    (bestOffer ignoreCost os = none ∧
      ∀ o ∈ os, o.expSpeedup ≠ 0 → o.savings ignoreCost = 0) ∨
    ∃ o ∈ os, o.expSpeedup ≠ 0 ∧ bestOffer ignoreCost os = some o ∧ o.savings ignoreCost ≠ 0 ∧
      ∀ o' ∈ os, o'.expSpeedup ≠ 0 → o'.savings ignoreCost ≤ o.savings ignoreCost := by
  have hkept := foldl_kept ignoreCost os (0, none)
  unfold bestOffer
  dsimp only
  split_ifs with hzero
  · refine .inl ⟨rfl, fun o ho hne => ?_⟩
    have hle := hkept.ge o ho hne
    rw [hzero] at hle
    exact UInt64.le_zero_iff.1 hle
  · rcases hkept.mem with heq | ⟨o, ho, hne, heq⟩
    · exact absurd (congrArg Prod.fst heq) hzero
    · rw [heq] at hzero
      refine .inr ⟨o, ho, hne, by rw [heq], hzero, fun o' ho' hne' => ?_⟩
      have hle := hkept.ge o' ho' hne'
      rwa [heq] at hle

/-- Where the remedies cost more than the speedup, the wrapped difference is zero or below the
savings of another critic. -/
def WrapsBelow (ignoreCost : Bool) (os : List (Offer S)) : Prop :=
  ∀ o ∈ os, o.expSpeedup ≠ 0 → o.difference ignoreCost < 0 →
    o.difference ignoreCost % 2 ^ 64 = 0 ∨ ∃ o' ∈ os, o'.expSpeedup ≠ 0 ∧
      o.difference ignoreCost % 2 ^ 64 < o'.difference ignoreCost

theorem savings_of_pos (h : 0 ≤ o.difference ignoreCost) :
    ((o.savings ignoreCost).toNat : ℤ) = o.difference ignoreCost := by
  rw [savings_emod, Int.emod_eq_of_lt h (difference_lt o)]

theorem savings_eq_zero_iff (o : Offer S) :
    o.savings ignoreCost = 0 ↔ o.difference ignoreCost % 2 ^ 64 = 0 := by
  rw [← savings_emod, ← UInt64.toNat_inj, UInt64.toNat_zero, Int.natCast_eq_zero]

theorem returnsBest_of_wrapsBelow (h : WrapsBelow ignoreCost os) : ReturnsBest ignoreCost os := by
  rcases bestOffer_spec ignoreCost os with ⟨hnone, hzero⟩ | ⟨o, ho, hne, hsome, hpos, hmax⟩
  · refine ⟨?_, fun o hsome => absurd hsome (by rw [hnone]; exact Option.some_ne_none o ∘ Eq.symm)⟩
    rw [hnone]
    refine iff_of_false Bool.false_ne_true (fun ⟨o, ho, hne, hdiff⟩ => ?_)
    have hsavings := savings_of_pos hdiff.le
    rw [hzero o ho hne, UInt64.toNat_zero] at hsavings
    omega
  · have hdiff : 0 < o.difference ignoreCost := by
      by_contra hle
      rw [not_lt] at hle
      rw [Ne, savings_eq_zero_iff] at hpos
      rcases hle.lt_or_eq with hneg | heq
      · rcases h o ho hne hneg with hzero | ⟨o', ho', hne', hlt⟩
        · exact hpos hzero
        · have hle' := UInt64.le_iff_toNat_le.1 (hmax o' ho' hne')
          have hsavings := savings_emod ignoreCost o
          have hnonneg : 0 ≤ o'.difference ignoreCost := by omega
          have hsavings' := savings_of_pos hnonneg
          omega
      · exact hpos (by rw [heq]; rfl)
    refine ⟨iff_of_true (by rw [hsome]; rfl) ⟨o, ho, hne, hdiff⟩, fun x hx => ?_⟩
    obtain rfl : o = x := Option.some.inj (hsome.symm.trans hx)
    refine ⟨ho, hne, fun o' ho' => ?_⟩
    by_cases hne' : o'.expSpeedup = 0
    · exact (difference_nonpos hne').trans hdiff.le
    · rcases le_or_gt (o'.difference ignoreCost) 0 with hle | hdiff'
      · exact hle.trans hdiff.le
      · have hle' := UInt64.le_iff_toNat_le.1 (hmax o' ho' hne')
        have hsavings := savings_of_pos hdiff.le
        have hsavings' := savings_of_pos hdiff'.le
        omega

/-- Tried first, a critic that wraps above all true savings is the one that is kept. -/
theorem wrapsBelow_of_returnsBest
    (h : ∀ os' : List (Offer S), os'.Perm os → ReturnsBest ignoreCost os') :
    WrapsBelow ignoreCost os := by
  intro o ho hne hneg
  by_contra hnot
  rw [not_or, ← savings_eq_zero_iff, ← savings_emod] at hnot
  obtain ⟨hpos, hno⟩ := hnot
  obtain ⟨before, behind, rfl⟩ := List.append_of_mem ho
  have hperm : (o :: (before ++ behind)).Perm (before ++ o :: behind) := List.perm_middle.symm
  have hbest := h _ hperm
  rcases bestOffer_spec ignoreCost (o :: (before ++ behind)) with
    ⟨-, hzero⟩ | ⟨x, hx, hxne, hsome, -, hmax⟩
  · exact hpos (hzero o List.mem_cons_self hne)
  · obtain ⟨y, hy, -, hydiff⟩ := hbest.found.1 (by rw [hsome]; rfl)
    have hxdiff := hydiff.trans_le ((hbest.greatest x hsome).2.2 y hy)
    have hle : x.savings ignoreCost ≤ o.savings ignoreCost := by
      have hnolt : ¬ ((o.savings ignoreCost).toNat : ℤ) < x.difference ignoreCost :=
        fun hlt => hno ⟨x, hperm.mem_iff.1 hx, hxne, hlt⟩
      rw [← savings_of_pos hxdiff.le] at hnolt
      rw [UInt64.le_iff_toNat_le]
      omega
    have hkeep : (before ++ behind).foldl (keepBest ignoreCost) (o.savings ignoreCost, some o) = _ :=
      foldl_keepBest_of_le hpos (fun o' ho' hne' =>
        UInt64.le_trans (hmax o' (List.mem_cons_of_mem o ho') hne') hle)
    have hfirst : keepBest ignoreCost (0, none) o = (o.savings ignoreCost, some o) := by
      rw [keepBest, if_neg hne, if_pos (.inl rfl)]
    have hself : bestOffer ignoreCost (o :: (before ++ behind)) = some o := by
      rw [bestOffer, List.foldl_cons, hfirst, hkeep]
      exact if_neg hpos
    obtain rfl : x = o := Option.some.inj (hsome.symm.trans hself)
    omega

/-- In every order of the critics the one with the greatest savings is chosen, if and only if no
difference wraps above the savings of another critic. -/
theorem best_savings_iff (ignoreCost : Bool) (os : List (Offer S)) :
    (∀ os' : List (Offer S), os'.Perm os → ReturnsBest ignoreCost os') ↔
      WrapsBelow ignoreCost os := by
  refine ⟨wrapsBelow_of_returnsBest, fun h os' hperm => returnsBest_of_wrapsBelow ?_⟩
  intro o ho hne hneg
  rcases h o (hperm.mem_iff.1 ho) hne hneg with hzero | ⟨o', ho', hne', hlt⟩
  · exact .inl hzero
  · exact .inr ⟨o', hperm.mem_iff.2 ho', hne', hlt⟩

/-- A critic whose remedies cost more than the speedup is chosen before one that saves something. -/
theorem costly_critic_chosen : ¬ ReturnsBest false [Offer.mk 5000 2 false, Offer.mk 1000 2 true] := by
  intro h
  have hbest : bestOffer false [Offer.mk 5000 2 false, Offer.mk 1000 2 true] =
      some (Offer.mk 1000 2 true) := by decide
  have hle := (h.greatest _ hbest).2.2 (Offer.mk 5000 2 false) List.mem_cons_self
  exact absurd hle (by decide)

end Cpf.Pipeline
