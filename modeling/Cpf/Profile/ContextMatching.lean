import Mathlib.Data.List.Forall2
import Mathlib.Tactic

/-!
# Calling contexts that match

A context of the points-to profile is a chain of function and loop steps up to TOP. `matches` looks for
the steps of one chain in another one: from every step of the other one that could be the first, it walks
outwards and takes the next step whenever it sees it. It finds the chain if and only if it is a subsequence.
-/

namespace Cpf.Profile.Pieces

inductive CtxType
  | top
  | fcn
  | loop
  deriving DecidableEq

structure Step (Function BasicBlock : Type) where
  type : CtxType
  fcn : Option Function
  header : Option BasicBlock
  depth : ℕ
  deriving DecidableEq

variable {Function BasicBlock : Type} [DecidableEq Function] [DecidableEq BasicBlock]

def Step.stepEqual (s other : Step Function BasicBlock) : Bool :=
  if s.type ≠ other.type then false
  else if s.type = .fcn ∧ s.fcn ≠ other.fcn then false
  else if s.type = .loop ∧ (s.header ≠ other.header ∨ s.depth ≠ other.depth) then false
  else true

/-- A context and its parents, from the inside out; the null pointer is the empty chain. -/
abbrev Chain (Function BasicBlock : Type) := List (Step Function BasicBlock)

/-- The inner loop of `matches`: the part of `k` that is not found. -/
def walk : Chain Function BasicBlock → Chain Function BasicBlock → Chain Function BasicBlock
  | [], k => k
  | _, [] => []
  | j :: js, k :: ks => if j.stepEqual k then walk js ks else walk js (k :: ks)

def searchFrom (step : Step Function BasicBlock) (cc : Chain Function BasicBlock) :
    Chain Function BasicBlock → Bool
  | [] => false
  | i :: parents =>
      if ¬ i.stepEqual step then searchFrom step cc parents
      else if walk (i :: parents) cc = [] then true
      else searchFrom step cc parents

def matchesCtx (c cc : Chain Function BasicBlock) : Bool :=
  match cc with
  | [] => true
  | step :: _ => if c = [] then false else searchFrom step cc c

/-! ### Subsequences -/

/-- The steps of `cc` stand in `c` in the same order, with others between them. -/
def Subsequence (cc c : Chain Function BasicBlock) : Prop :=
  List.SublistForall₂ (fun k j => Step.stepEqual j k = true) cc c

variable {c cc : Chain Function BasicBlock} {j k : Step Function BasicBlock}

theorem stepEqual_iff : j.stepEqual k = true ↔ j.type = k.type ∧ (j.type = .fcn → j.fcn = k.fcn) ∧
    (j.type = .loop → j.header = k.header ∧ j.depth = k.depth) := by
  unfold Step.stepEqual
  split_ifs with htype hfcn hloop
  · simp [htype]
  · simp [hfcn]
  · constructor
    · intro h
      cases h
    · rintro ⟨-, -, h⟩
      obtain ⟨hheader, hdepth⟩ := h hloop.1
      rcases hloop.2 with hne | hne
      · exact absurd hheader hne
      · exact absurd hdepth hne
  · simp only [true_iff]
    refine ⟨not_not.1 htype, fun h => ?_, fun h => ?_⟩
    · by_contra hne
      exact hfcn ⟨h, hne⟩
    · by_contra hne
      exact hloop ⟨h, not_and_or.1 hne⟩

@[simp] theorem stepEqual_refl : j.stepEqual j = true := by
  simp [stepEqual_iff]

theorem stepEqual_trans {i : Step Function BasicBlock} (h : i.stepEqual j = true)
    (h' : j.stepEqual k = true) : i.stepEqual k = true := by
  rw [stepEqual_iff] at *
  obtain ⟨htype, hfcn, hloop⟩ := h
  obtain ⟨htype', hfcn', hloop'⟩ := h'
  refine ⟨htype.trans htype', fun h => ?_, fun h => ?_⟩
  · exact (hfcn h).trans (hfcn' (htype ▸ h))
  · obtain ⟨hheader, hdepth⟩ := hloop h
    obtain ⟨hheader', hdepth'⟩ := hloop' (htype ▸ h)
    exact ⟨hheader.trans hheader', hdepth.trans hdepth'⟩

/-! ### The search -/

theorem Subsequence.of_cons (h : Subsequence (k :: cc) c) : Subsequence cc c := by
  generalize hsteps : k :: cc = steps at h
  induction h with
  | nil => cases hsteps
  | cons _ hrest =>
      cases hsteps
      exact .cons_right hrest
  | cons_right _ ih => exact .cons_right (ih hsteps)

theorem subsequence_cons_iff_of_stepEqual (h : j.stepEqual k = true) :
    Subsequence (k :: cc) (j :: c) ↔ Subsequence cc c := by
  constructor
  · intro hsub
    cases hsub with
    | cons _ hrest => exact hrest
    | cons_right hrest => exact Subsequence.of_cons hrest
  · exact fun hrest => .cons h hrest

theorem subsequence_cons_iff_of_not_stepEqual (h : ¬ j.stepEqual k = true) :
    Subsequence (k :: cc) (j :: c) ↔ Subsequence (k :: cc) c := by
  constructor
  · intro hsub
    cases hsub with
    | cons heq _ => exact absurd heq h
    | cons_right hrest => exact hrest
  · exact fun hrest => .cons_right hrest

/-- Taking a step at the first opportunity loses nothing. -/
theorem walk_eq_nil_iff : walk c cc = [] ↔ Subsequence cc c := by
  induction c, cc using walk.induct with
  | case1 k =>
      rw [walk]
      constructor
      · rintro rfl
        exact .nil
      · intro h
        cases h
        rfl
  | case2 c hne =>
      rw [walk]
      · exact iff_of_true rfl .nil
      · exact hne
  | case3 j js k ks h ih => rw [walk, if_pos h, ih, subsequence_cons_iff_of_stepEqual h]
  | case4 j js k ks h ih => rw [walk, if_neg h, ih, subsequence_cons_iff_of_not_stepEqual h]

theorem searchFrom_iff : searchFrom k (k :: cc) c = true ↔ Subsequence (k :: cc) c := by
  induction c with
  | nil =>
      refine iff_of_false (by simp [searchFrom]) fun h => ?_
      cases h
  | cons i parents ih =>
      rw [searchFrom]
      by_cases hstep : i.stepEqual k = true
      · rw [if_neg (not_not.2 hstep)]
        by_cases hwalk : walk (i :: parents) (k :: cc) = []
        · rw [if_pos hwalk]
          exact iff_of_true rfl (walk_eq_nil_iff.1 hwalk)
        · -- a later start cannot succeed either
          have hnone : ¬ Subsequence (k :: cc) (i :: parents) := fun h => hwalk (walk_eq_nil_iff.2 h)
          rw [if_neg hwalk, ih]
          exact iff_of_false (fun h => hnone (.cons_right h)) hnone
      · rw [if_pos hstep, ih, subsequence_cons_iff_of_not_stepEqual hstep]

theorem matchesCtx_iff : matchesCtx c cc = true ↔ Subsequence cc c := by
  cases cc with
  | nil => exact iff_of_true rfl .nil
  | cons k cc =>
      rw [matchesCtx]
      split_ifs with hc
      · refine iff_of_false id fun h => ?_
        rw [hc] at h
        cases h
      · exact searchFrom_iff

instance : Std.Refl fun k j : Step Function BasicBlock => j.stepEqual k = true := ⟨fun _ => stepEqual_refl⟩

instance : IsTrans (Step Function BasicBlock) fun k j => j.stepEqual k = true :=
  ⟨fun _ _ _ h h' => stepEqual_trans h' h⟩

/-- `matches` is the order of subsequences. -/
theorem matches_subsequence_order :
    (∀ c cc : Chain Function BasicBlock, matchesCtx c cc = true ↔ Subsequence cc c) ∧
    (∀ c : Chain Function BasicBlock, matchesCtx c c = true) ∧
    ∀ a b c : Chain Function BasicBlock, matchesCtx a b = true → matchesCtx b c = true →
      matchesCtx a c = true := by
  refine ⟨fun c cc => matchesCtx_iff, fun c => ?_, fun a b c hab hbc => ?_⟩
  · exact matchesCtx_iff.2 (List.SublistForall₂.is_refl.refl c)
  · rw [matchesCtx_iff] at *
    exact List.SublistForall₂.is_trans.trans c b a hbc hab

end Cpf.Profile.Pieces
