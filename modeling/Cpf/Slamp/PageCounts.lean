import Cpf.Slamp.BoundMalloc

/-!
# What the loops over pages do

The loops of `bound_malloc` and `bound_free` touch the counter of each page of a range once. What
is unmapped lies between the first and the last page of the object, so that it is consecutive when
every inner page is unmapped.
-/

namespace Cpf.Slamp

section Pages

variable {x y page : ℕ}

theorem pageOf_dvd (a : ℕ) : pagesize ∣ pageOf a := ⟨a / pagesize, Nat.mul_comm _ _⟩

theorem mem_pagesFrom : page ∈ pagesFrom (pageOf x) (pageOf y) ↔
    pagesize ∣ page ∧ pageOf x ≤ page ∧ page ≤ pageOf y := by
  rw [pagesFrom, List.mem_range']
  unfold pageOf pagesize
  constructor
  · rintro ⟨i, hi, rfl⟩
    refine ⟨?_, ?_, ?_⟩ <;> omega
  · rintro ⟨hdvd, hle, hge⟩
    exact ⟨(page - x / 4096 * 4096) / 4096, by omega, by omega⟩

theorem nodup_pagesFrom : (pagesFrom x y).Nodup := by
  rw [pagesFrom]
  exact List.nodup_range' pagesize

theorem overlaps_iff {o : Obj} (hlow : 8 ≤ o.ptr) (hpage : pagesize ∣ page) :
    o.Overlaps page ↔ pageOf (o.ptr - 8) ≤ page ∧ page ≤ pageOf (o.ptr + o.size - 1) := by
  unfold Obj.Overlaps pageOf pagesize at *
  omega

end Pages

section Loops

variable {alive : ℕ → Option ℕ} {pages : List ℕ} {heapNext page : ℕ}

theorem foldl_countPage (hnodup : pages.Nodup) :
    pages.foldl countPage alive page =
      if page ∈ pages then some (((alive page).map increment).getD 1)
      else alive page := by
  induction pages generalizing alive with
  | nil => rfl
  | cons p pages ih =>
      obtain ⟨hp, hnodup⟩ := List.nodup_cons.1 hnodup
      rw [List.foldl_cons, ih hnodup]
      by_cases hpage : page = p
      · subst page
        rw [if_neg hp, if_pos List.mem_cons_self, countPage, Function.update_self]
        cases alive p <;> rfl
      · rw [countPage, Function.update_of_ne hpage]
        simp only [List.mem_cons, hpage, false_or]

/-- The counter of the page drops to zero and the heap has passed it. -/
def Dead (alive : ℕ → Option ℕ) (heapNext page : ℕ) : Prop :=
  (alive page).map decrement = some 0 ∧ page + pagesize ≤ heapNext

instance : Decidable (Dead alive heapNext page) :=
  inferInstanceAs (Decidable ((alive page).map decrement = some 0 ∧
    page + pagesize ≤ heapNext))

/-- What is reported is the list of unmapped pages. -/
structure FreeResult.Consistent (f : FreeResult) : Prop where
  purge : f.purge = !f.unmapped.isEmpty
  startingPage : f.startingPage = f.unmapped.head?
  purgeCnt : f.purgeCnt = f.unmapped.length

theorem freePage_alive (f : FreeResult) (p : ℕ) : (freePage heapNext f p).alive =
    Function.update f.alive p ((f.alive p).map decrement) := by
  unfold freePage
  cases hp : f.alive p with
  | none => exact (Function.update_eq_self_iff.2 hp.symm).symm
  | some c =>
      dsimp only
      split_ifs <;> rfl

theorem freePage_unmapped (f : FreeResult) (p : ℕ) : (freePage heapNext f p).unmapped =
    f.unmapped ++ if Dead f.alive heapNext p then [p] else [] := by
  cases hp : f.alive p with
  | none =>
      have hdead : ¬ Dead f.alive heapNext p := by simp [Dead, hp]
      rw [if_neg hdead, List.append_nil, freePage, hp]
  | some c =>
      have hdead : Dead f.alive heapNext p ↔
          decrement c = 0 ∧ p + pagesize ≤ heapNext := by simp [Dead, hp]
      simp only [freePage, hp, hdead]
      split_ifs <;> simp

theorem FreeResult.Consistent.freePage {f : FreeResult} (hf : f.Consistent) (p : ℕ) :
    (freePage heapNext f p).Consistent := by
  unfold Slamp.freePage
  cases hp : f.alive p with
  | none => exact hf
  | some c =>
      dsimp only
      by_cases hdead : decrement c = 0 ∧ p + pagesize ≤ heapNext
      · rw [if_pos hdead]
        refine ⟨by simp, ?_, by simp [hf.purgeCnt]⟩
        have hpurge := hf.purge
        have hstart := hf.startingPage
        cases hu : f.unmapped with
        | nil =>
            rw [hu] at hpurge
            simp [hpurge]
        | cons q rest =>
            rw [hu] at hpurge hstart
            simp [hpurge, hstart]
      · rw [if_neg hdead]
        exact ⟨hf.purge, hf.startingPage, hf.purgeCnt⟩

theorem foldl_freePage_consistent {f : FreeResult} (hf : f.Consistent) :
    (pages.foldl (freePage heapNext) f).Consistent := by
  induction pages generalizing f with
  | nil => exact hf
  | cons p pages ih => exact ih (hf.freePage p)

theorem foldl_freePage_alive (hnodup : pages.Nodup) (f : FreeResult) :
    (pages.foldl (freePage heapNext) f).alive page =
      if page ∈ pages then (f.alive page).map decrement
      else f.alive page := by
  induction pages generalizing f with
  | nil => rfl
  | cons p pages ih =>
      obtain ⟨hp, hnodup⟩ := List.nodup_cons.1 hnodup
      rw [List.foldl_cons, ih hnodup, freePage_alive]
      by_cases hpage : page = p
      · subst page
        rw [if_neg hp, if_pos List.mem_cons_self, Function.update_self]
      · rw [Function.update_of_ne hpage]
        simp only [List.mem_cons, hpage, false_or]

theorem foldl_freePage_unmapped (hnodup : pages.Nodup) (f : FreeResult) :
    (pages.foldl (freePage heapNext) f).unmapped =
      f.unmapped ++ pages.filter (fun p => Dead f.alive heapNext p) := by
  induction pages generalizing f with
  | nil => simp
  | cons p pages ih =>
      obtain ⟨hp, hnodup⟩ := List.nodup_cons.1 hnodup
      have hsame : pages.filter (fun q => Dead (freePage heapNext f p).alive heapNext q) =
          pages.filter (fun q => Dead f.alive heapNext q) := by
        refine List.filter_congr (fun q hq => ?_)
        have hne : q ≠ p := fun he => hp (he ▸ hq)
        have hiff : Dead (freePage heapNext f p).alive heapNext q ↔ Dead f.alive heapNext q := by
          rw [Dead, Dead, freePage_alive, Function.update_of_ne hne]
        exact decide_eq_decide.2 hiff
      rw [List.foldl_cons, ih hnodup, freePage_unmapped, hsame, List.append_assoc]
      by_cases hdead : Dead f.alive heapNext p
      · rw [if_pos hdead, List.filter_cons_of_pos (by simpa using hdead)]
        rfl
      · rw [if_neg hdead, List.filter_cons_of_neg (by simpa using hdead)]
        rfl

/-- When all inner members of a progression are kept, those kept are a progression. -/
theorem filter_range' {q : ℕ → Prop} [DecidablePred q] {b n w : ℕ}
    (hinner : ∀ i, 0 < i → i + 1 < n → q (b + w * i)) :
    ∃ start m, (List.range' b n w).filter (fun p => q p) = List.range' start m w := by
  have hfront : ∀ (b n : ℕ), (∀ i, i + 1 < n → q (b + w * i)) →
      ∃ m, (List.range' b n w).filter (fun p => q p) = List.range' b m w := by
    intro b n hall
    induction n generalizing b with
    | zero => exact ⟨0, rfl⟩
    | succ n ih =>
        rw [List.range'_succ]
        by_cases hb : q b
        · obtain ⟨m, hm⟩ := ih (b + w) (fun i hi => by
            have hnext := hall (i + 1) (by omega)
            rwa [show b + w * (i + 1) = b + w + w * i by ring] at hnext)
          refine ⟨m + 1, ?_⟩
          rw [List.filter_cons_of_pos (by simpa using hb), hm, List.range'_succ]
        · have hn : n = 0 := by
            by_contra hn
            exact hb (hall 0 (by omega))
          subst hn
          exact ⟨0, List.filter_cons_of_neg (by simpa using hb)⟩
  cases n with
  | zero => exact ⟨0, 0, rfl⟩
  | succ n =>
      obtain ⟨m, hm⟩ := hfront (b + w) n (fun i hi => by
        have hnext := hinner (i + 1) (by omega) (by omega)
        rwa [show b + w * (i + 1) = b + w + w * i by ring] at hnext)
      rw [List.range'_succ]
      by_cases hb : q b
      · exact ⟨b, m + 1, by
          rw [List.filter_cons_of_pos (by simpa using hb), hm, List.range'_succ]⟩
      · exact ⟨b + w, m, by rw [List.filter_cons_of_neg (by simpa using hb), hm]⟩

theorem mem_deallocatePages {cnt start : ℕ} {ps : Finset ℕ} :
    page ∈ deallocatePages cnt start ps ↔ page ∈ ps ∧ page ∉ List.range' start cnt pagesize := by
  induction cnt generalizing start ps with
  | zero => simp [deallocatePages]
  | succ cnt ih =>
      rw [deallocatePages, ih, List.range'_succ, Finset.mem_erase, List.mem_cons, not_or]
      constructor
      · rintro ⟨⟨hne, hp⟩, hrest⟩
        exact ⟨hp, hne, hrest⟩
      · rintro ⟨hp, hne, hrest⟩
        exact ⟨⟨hne, hp⟩, hrest⟩

theorem range'_self {l : List ℕ} {start m w : ℕ} (hl : l = List.range' start m w) :
    l = List.range' (l.head?.getD 0) l.length w := by
  subst hl
  cases m with
  | zero => rfl
  | succ m =>
      rw [List.length_range']
      rfl

theorem FreeResult.Consistent.reports {f : FreeResult} (hf : f.Consistent) {start m : ℕ}
    (hrange : f.unmapped = List.range' start m pagesize) : f.Reports := by
  have hpages : f.unmapped = List.range' (f.startingPage.getD 0) f.purgeCnt pagesize := by
    rw [hf.startingPage, hf.purgeCnt]
    exact range'_self hrange
  refine ⟨?_, hpages, fun ps => ?_⟩
  · rw [hf.purge]
    cases f.unmapped <;> simp
  · ext page
    rw [mem_deallocatePages, Finset.mem_filter, ← hpages]

end Loops

end Cpf.Slamp
