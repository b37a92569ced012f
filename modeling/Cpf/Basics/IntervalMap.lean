import Mathlib.Data.List.Pairwise
import Mathlib.Data.List.TakeWhile
import Mathlib.Tactic

/-!
# Ordered maps with intervals as keys

An ordered map whose keys are intervals, compared by "lies before", treats keys that overlap as equal.
As long as its keys are disjoint and not empty, the entries that overlap a key are neighbours, and `find`
gives the lowest of them.
-/

namespace Cpf

/-- A range with its lower end and without its upper end. -/
structure Interval where
  low : ℕ
  high : ℕ
  deriving DecidableEq

namespace Interval

def Before (e f : Interval) : Prop := e.high ≤ f.low

instance (e f : Interval) : Decidable (e.Before f) := inferInstanceAs (Decidable (_ ≤ _))

def Includes (e : Interval) (a : ℕ) : Prop := e.low ≤ a ∧ a < e.high

instance (e : Interval) (a : ℕ) : Decidable (e.Includes a) := inferInstanceAs (Decidable (_ ∧ _))

def point (a : ℕ) : Interval := ⟨a, a + 1⟩

def Disjoint (e f : Interval) : Prop := e.Before f ∨ f.Before e

instance (e f : Interval) : Decidable (e.Disjoint f) := inferInstanceAs (Decidable (_ ∨ _))

theorem disjoint_point {e : Interval} {a : ℕ} : e.Disjoint (point a) ↔ ¬ e.Includes a := by
  unfold Disjoint Before point Includes
  dsimp only
  omega

theorem Disjoint.not_includes {e f : Interval} (h : e.Disjoint f) {a : ℕ} (he : e.Includes a) :
    ¬ f.Includes a := by
  unfold Disjoint Before Includes at *
  omega

end Interval

variable {α : Type*}

abbrev IntervalMap (α : Type*) := List (Interval × α)

namespace IntervalMap

def below (m : IntervalMap α) (k : Interval) : IntervalMap α := m.takeWhile fun e => e.1.Before k

def lowerBound (m : IntervalMap α) (k : Interval) : IntervalMap α := m.dropWhile fun e => e.1.Before k

def find (m : IntervalMap α) (k : Interval) : Option (Interval × α) :=
  match m.lowerBound k with
  | [] => none
  | e :: _ => if k.Before e.1 then none else some e

/-- Removes the entry that `find` gives. -/
def eraseFound (m : IntervalMap α) (k : Interval) : IntervalMap α := m.below k ++ (m.lowerBound k).tail

/-- Assigns the value to the key that counts as equal, or to a new one. -/
def assign (m : IntervalMap α) (k : Interval) (v : α) : IntervalMap α :=
  m.below k ++
    match m.lowerBound k with
    | [] => [(k, v)]
    | e :: rest => if k.Before e.1 then (k, v) :: e :: rest else (e.1, v) :: rest

structure WF (m : IntervalMap α) : Prop where
  sorted : m.Pairwise fun e f => e.1.Before f.1
  nonempty : ∀ e ∈ m, e.1.low < e.1.high

variable {m : IntervalMap α} {k : Interval} {v : α} {e f : Interval × α}

theorem below_append_lowerBound : m.below k ++ m.lowerBound k = m := List.takeWhile_append_dropWhile

theorem before_of_mem_below (h : e ∈ m.below k) : e.1.Before k := by
  simpa using List.mem_takeWhile_imp h

theorem WF.not_before_of_mem_lowerBound (h : WF m) (he : e ∈ m.lowerBound k) : ¬ e.1.Before k := by
  cases hl : m.lowerBound k with
  | nil =>
      rw [hl] at he
      cases he
  | cons f rest =>
      have hf : ¬ f.1.Before k := by
        have hhead := List.head?_dropWhile_not (fun e : Interval × α => decide (e.1.Before k)) m
        rw [show List.dropWhile _ m = f :: rest from hl] at hhead
        simpa using hhead
      have hm := h.sorted
      have hne := h.nonempty e (by
        rw [← @below_append_lowerBound _ m k]
        exact List.mem_append_right _ he)
      rw [← @below_append_lowerBound _ m k, List.pairwise_append, hl, List.pairwise_cons] at hm
      rw [hl] at he
      rcases List.mem_cons.1 he with rfl | he
      · exact hf
      · have hfe := hm.2.1.1 e he
        unfold Interval.Before at *
        omega

instance : Std.Symm fun e f : Interval × α => e.1.Disjoint f.1 := ⟨fun _ _ h => h.symm⟩

theorem WF.eq_of_overlap (h : WF m) (he : e ∈ m) (hf : f ∈ m) (hef : ¬ e.1.Disjoint f.1) : e = f := by
  by_contra hne
  have hdisjoint : m.Pairwise fun e f => e.1.Disjoint f.1 := h.sorted.imp fun hb => Or.inl hb
  exact hef (hdisjoint.forall he hf hne)

theorem mem_iff_below_or_lowerBound (m : IntervalMap α) (k : Interval) :
    e ∈ m ↔ e ∈ m.below k ∨ e ∈ m.lowerBound k := by
  rw [← List.mem_append, below_append_lowerBound]

theorem WF.mem_of_find (h : WF m) (hfind : m.find k = some e) : e ∈ m ∧ ¬ e.1.Disjoint k := by
  unfold find at hfind
  split at hfind
  · cases hfind
  · next f rest hl =>
    split_ifs at hfind with hk
    cases hfind
    have hmem : e ∈ m.lowerBound k := by
      rw [hl]
      exact List.mem_cons_self
    refine ⟨?_, ?_⟩
    · exact (mem_iff_below_or_lowerBound m k).2 (Or.inr hmem)
    · rintro (hb | hb)
      · exact h.not_before_of_mem_lowerBound hmem hb
      · exact hk hb

/-- The other entries that overlap the key come after the one that is found. -/
theorem WF.before_of_find (h : WF m) (hfind : m.find k = some e) (hf : f ∈ m)
    (hover : ¬ f.1.Disjoint k) (hne : f ≠ e) : e.1.Before f.1 := by
  unfold find at hfind
  split at hfind
  · cases hfind
  · next g rest hl =>
    split_ifs at hfind
    cases hfind
    rcases (mem_iff_below_or_lowerBound m k).1 hf with hb | hr
    · exact absurd (Or.inl (before_of_mem_below hb)) hover
    · have hsorted := h.sorted
      rw [← @below_append_lowerBound _ m k, List.pairwise_append, hl, List.pairwise_cons] at hsorted
      rw [hl] at hr
      rcases List.mem_cons.1 hr with rfl | hr
      · exact absurd rfl hne
      · exact hsorted.2.1.1 f hr

/-- A key is not found if and only if nothing overlaps it. -/
theorem WF.find_eq_none_iff (h : WF m) : m.find k = none ↔ ∀ e ∈ m, e.1.Disjoint k := by
  constructor
  · intro hfind e he
    rcases (mem_iff_below_or_lowerBound m k).1 he with hb | hl
    · exact Or.inl (before_of_mem_below hb)
    · unfold find at hfind
      split at hfind
      · next hnil =>
        rw [hnil] at hl
        cases hl
      · next f rest hcons =>
        split_ifs at hfind with hk
        refine Or.inr ?_
        rw [hcons] at hl
        rcases List.mem_cons.1 hl with rfl | hrest
        · exact hk
        · have hsorted := h.sorted
          rw [← @below_append_lowerBound _ m k, List.pairwise_append, hcons, List.pairwise_cons] at hsorted
          have hfe := hsorted.2.1.1 e hrest
          have hf : f ∈ m := by
            rw [← @below_append_lowerBound _ m k, hcons]
            exact List.mem_append_right _ List.mem_cons_self
          have hne := h.nonempty f hf
          unfold Interval.Before at *
          omega
  · intro hall
    cases hfind : m.find k with
    | none => rfl
    | some e =>
        obtain ⟨he, hover⟩ := h.mem_of_find hfind
        exact absurd (hall e he) hover

/-- The only entry that overlaps the key is found. -/
theorem WF.find_eq_some (h : WF m) (he : e ∈ m) (hover : ¬ e.1.Disjoint k)
    (hunique : ∀ f ∈ m, ¬ f.1.Disjoint k → f = e) : m.find k = some e := by
  cases hfind : m.find k with
  | none => exact absurd (h.find_eq_none_iff.1 hfind e he) hover
  | some f =>
      obtain ⟨hf, hfover⟩ := h.mem_of_find hfind
      rw [hunique f hf hfover]

theorem WF.find_key (h : WF m) (he : e ∈ m) : m.find e.1 = some e := by
  have hne := h.nonempty e he
  have hover : ¬ e.1.Disjoint e.1 := by
    unfold Interval.Disjoint Interval.Before
    omega
  exact h.find_eq_some he hover fun f hf hfe => h.eq_of_overlap hf he hfe

theorem WF.find_point (h : WF m) {a : ℕ} (he : e ∈ m) (ha : e.1.Includes a) :
    m.find (.point a) = some e := by
  apply h.find_eq_some he
  · rw [Interval.disjoint_point]
    exact not_not.2 ha
  · intro f hf hfa
    rw [Interval.disjoint_point, not_not] at hfa
    apply h.eq_of_overlap hf he
    exact fun hdisjoint => hdisjoint.not_includes hfa ha

theorem WF.eraseFound (h : WF m) (hfind : m.find k = some e) :
    WF (m.eraseFound k) ∧ ∀ f, f ∈ m.eraseFound k ↔ f ∈ m ∧ f ≠ e := by
  have hl : ∃ rest, m.lowerBound k = e :: rest := by
    unfold find at hfind
    split at hfind
    · cases hfind
    · next f rest hl =>
      split_ifs at hfind
      cases hfind
      exact ⟨rest, hl⟩
  obtain ⟨rest, hl⟩ := hl
  have hm : m = m.below k ++ e :: rest := by
    rw [← hl]
    exact below_append_lowerBound.symm
  have herase : m.eraseFound k = m.below k ++ rest := by
    rw [IntervalMap.eraseFound, hl, List.tail_cons]
  have hnotself : ∀ f ∈ m.eraseFound k, f ≠ e := by
    rintro f hf rfl
    have hsorted := h.sorted
    have hne := h.nonempty f (h.mem_of_find hfind).1
    rw [hm, List.pairwise_append, List.pairwise_cons] at hsorted
    rw [herase] at hf
    rcases List.mem_append.1 hf with hb | hr
    · have := hsorted.2.2 f hb f List.mem_cons_self
      unfold Interval.Before at this
      omega
    · have := hsorted.2.1.1 f hr
      unfold Interval.Before at this
      omega
  have hsub : (m.eraseFound k).Sublist m := by
    rw [herase]
    calc (m.below k ++ rest).Sublist (m.below k ++ e :: rest) :=
          (List.Sublist.refl _).append (List.sublist_cons_self e rest)
      _ = m := hm.symm
  refine ⟨⟨h.sorted.sublist hsub, fun f hf => h.nonempty f (hsub.subset hf)⟩, fun f => ?_⟩
  constructor
  · exact fun hf => ⟨hsub.subset hf, hnotself f hf⟩
  · rintro ⟨hf, hne⟩
    rw [hm] at hf
    rw [herase]
    rcases List.mem_append.1 hf with hb | hr
    · exact List.mem_append_left _ hb
    · rcases List.mem_cons.1 hr with rfl | hr
      · exact absurd rfl hne
      · exact List.mem_append_right _ hr

/-- A key that overlaps nothing gets an entry of its own. -/
theorem WF.assign (h : WF m) (hk : k.low < k.high) (hall : ∀ e ∈ m, e.1.Disjoint k) :
    WF (m.assign k v) ∧ ∀ f, f ∈ m.assign k v ↔ f = (k, v) ∨ f ∈ m := by
  have hassign : m.assign k v = m.below k ++ (k, v) :: m.lowerBound k := by
    have hnone := h.find_eq_none_iff.2 hall
    unfold find at hnone
    unfold IntervalMap.assign
    split at hnone
    · next hl => rw [hl]
    · next f rest hl =>
      split_ifs at hnone with hb
      simp only [hl, if_pos hb]
  have hmem : ∀ f, f ∈ m.assign k v ↔ f = (k, v) ∨ f ∈ m := by
    intro f
    rw [hassign, List.mem_append, List.mem_cons]
    constructor
    · rintro (hf | rfl | hf)
      · exact Or.inr ((mem_iff_below_or_lowerBound m k).2 (Or.inl hf))
      · exact Or.inl rfl
      · exact Or.inr ((mem_iff_below_or_lowerBound m k).2 (Or.inr hf))
    · rintro (rfl | hf)
      · exact Or.inr (Or.inl rfl)
      · rcases (mem_iff_below_or_lowerBound m k).1 hf with hb | hl
        · exact Or.inl hb
        · exact Or.inr (Or.inr hl)
  refine ⟨⟨?_, ?_⟩, hmem⟩
  · have hsorted := h.sorted
    rw [← @below_append_lowerBound _ m k, List.pairwise_append] at hsorted
    rw [hassign, List.pairwise_append, List.pairwise_cons]
    refine ⟨hsorted.1, ⟨fun f hf => ?_, hsorted.2.1⟩, fun f hf g hg => ?_⟩
    · rcases hall f ((mem_iff_below_or_lowerBound m k).2 (Or.inr hf)) with hb | hb
      · exact absurd hb (h.not_before_of_mem_lowerBound hf)
      · exact hb
    · rcases List.mem_cons.1 hg with rfl | hg
      · exact before_of_mem_below hf
      · exact hsorted.2.2 f hf g hg
  · intro f hf
    rcases (hmem f).1 hf with rfl | hf
    · exact hk
    · exact h.nonempty f hf

end IntervalMap

end Cpf
