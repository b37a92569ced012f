import Mathlib.Data.List.Nodup
import Mathlib.Tactic

/-!
# Counted loops with an early exit

`forRange` lists the indices of a counted loop, and a loop body that may leave the loop is run by
`List.foldlM` in `Except`. A body is local when it only looks at and changes the cell of its own
index; such a loop acts on every cell separately, and it leaves early exactly when some cell makes
it leave.
-/

namespace Cpf

universe u v

variable {σ α ε : Type*}

/-- The indices of `for (i = lo; i < hi; i += step)`. -/
def forRange (lo hi step : ℕ) : List ℕ :=
  List.range' lo ((hi - lo + step - 1) / step) step

theorem mem_forRange {lo hi step k : ℕ} (hs : 0 < step) :
    k ∈ forRange lo hi step ↔ ∃ i, k = lo + step * i ∧ k < hi := by
  rw [forRange, List.mem_range']
  constructor
  · rintro ⟨i, hi', rfl⟩
    refine ⟨i, rfl, ?_⟩
    have hdiv : i + 1 ≤ (hi - lo + step - 1) / step := hi'
    rw [Nat.le_div_iff_mul_le hs] at hdiv
    have hm : (i + 1) * step = step * i + step := by ring
    omega
  · rintro ⟨i, rfl, hlt⟩
    refine ⟨i, ?_, rfl⟩
    change i + 1 ≤ _
    rw [Nat.le_div_iff_mul_le hs]
    have hm : (i + 1) * step = step * i + step := by ring
    omega

@[simp] theorem mem_forRange_one {lo hi k : ℕ} : k ∈ forRange lo hi 1 ↔ lo ≤ k ∧ k < hi := by
  rw [mem_forRange Nat.one_pos]
  constructor
  · rintro ⟨i, rfl, hlt⟩
    exact ⟨by omega, hlt⟩
  · rintro ⟨hle, hlt⟩
    exact ⟨k - lo, by omega, hlt⟩

theorem nodup_forRange {lo hi step : ℕ} (hs : 0 < step) : (forRange lo hi step).Nodup :=
  List.nodup_range' step hs

theorem pairwise_forRange (lo hi : ℕ) : (forRange lo hi 1).Pairwise (· < ·) :=
  List.pairwise_lt_range' 1 Nat.one_pos

theorem forRange_succ {lo j : ℕ} (h : lo ≤ j) :
    forRange lo (j + 1) 1 = forRange lo j 1 ++ [j] := by
  have hlen : (j + 1 - lo + 1 - 1) / 1 = (j - lo + 1 - 1) / 1 + 1 := by omega
  rw [forRange, forRange, hlen, List.range'_1_concat]
  congr 2
  omega

theorem forRange_append {lo mid hi : ℕ} (h : lo ≤ mid) (h' : mid ≤ hi) :
    forRange lo hi 1 = forRange lo mid 1 ++ forRange mid hi 1 := by
  induction hi, h' using Nat.le_induction with
  | base => simp [forRange]
  | succ hi h' ih =>
      rw [forRange_succ (h.trans h'), forRange_succ h', ih, List.append_assoc]

@[simp] theorem forRange_self (lo : ℕ) : forRange lo lo 1 = [] := by simp [forRange]

theorem forRange_of_le {lo hi : ℕ} (h : hi ≤ lo) : forRange lo hi 1 = [] := by
  rw [forRange, Nat.sub_eq_zero_of_le h]
  rfl

theorem forRange_max (lo hi : ℕ) : forRange lo (max hi lo) 1 = forRange lo hi 1 := by
  rcases le_total hi lo with h | h
  · rw [max_eq_right h, forRange_self, forRange_of_le h]
  · rw [max_eq_left h]

/-- Two ranges that meet, both cut off at `cap`. -/
theorem forRange_min_append {lo mid hi cap : ℕ} (h : lo ≤ mid) (h' : mid ≤ hi) :
    forRange lo (min mid cap) 1 ++ forRange mid (min hi cap) 1 = forRange lo (min hi cap) 1 := by
  rcases le_total mid cap with hc | hc
  · rw [min_eq_left hc, ← forRange_append h (le_min h' hc)]
  · rw [forRange_of_le (le_trans (min_le_right _ _) hc), List.append_nil, min_eq_right hc,
      min_eq_right (hc.trans h')]

theorem bind_eq_ok {ε : Type v} {α β : Type u} {x : Except ε α} {f : α → Except ε β} {b : β} :
    x >>= f = .ok b ↔ ∃ a, x = .ok a ∧ f a = .ok b := by
  cases x with
  | error e => simp [bind, Except.bind]
  | ok a => simp [bind, Except.bind]

theorem foldlM_cons_eq_ok {f : σ → α → Except ε σ} {a : α} {as : List α} {s s' : σ} :
    (a :: as).foldlM f s = .ok s' ↔ ∃ t, f s a = .ok t ∧ as.foldlM f t = .ok s' := by
  rw [List.foldlM_cons]
  exact bind_eq_ok

theorem foldlM_append_eq_ok {f : σ → α → Except ε σ} {as bs : List α} {s s' : σ} :
    (as ++ bs).foldlM f s = .ok s' ↔ ∃ t, as.foldlM f s = .ok t ∧ bs.foldlM f t = .ok s' := by
  rw [List.foldlM_append]
  exact bind_eq_ok

/-- The invariant rule of a loop that runs to its end. -/
theorem foldlM_invariant {f : σ → α → Except ε σ} {as : List α} (I : σ → Prop)
    (hstep : ∀ a ∈ as, ∀ s s', I s → f s a = .ok s' → I s') {s s' : σ}
    (hs : I s) (h : as.foldlM f s = .ok s') : I s' := by
  induction as generalizing s with
  | nil =>
      cases h
      exact hs
  | cons a as ih =>
      obtain ⟨t, ht, hrest⟩ := foldlM_cons_eq_ok.1 h
      exact ih (fun b hb => hstep b (List.mem_cons_of_mem a hb))
        (hstep a List.mem_cons_self s t hs ht) hrest

/-- Two nested loops, the outer one skipping some of its indices, are one loop over the indices
that the inner loop visits. -/
theorem foldlM_skip_flatMap {β : Type*} (skip : β → Prop) [DecidablePred skip] (inner : β → List α)
    (f : σ → α → Except ε σ) (is : List β) (s : σ) :
    is.foldlM (fun s i => if skip i then .ok s else (inner i).foldlM f s) s =
      ((is.filter (fun i => ¬ skip i)).flatMap inner).foldlM f s := by
  induction is generalizing s with
  | nil => rfl
  | cons i is ih =>
      by_cases hi : skip i
      · simpa [List.foldlM_cons, hi, bind, Except.bind] using ih s
      · have hf : ((i :: is).filter (fun i => ¬ skip i)) = i :: is.filter (fun i => ¬ skip i) := by
          simp [hi]
        rw [hf, List.flatMap_cons, List.foldlM_append, List.foldlM_cons, if_neg hi]
        congr 1
        funext t
        exact ih t

/-- The body reads and changes the cell of its own index only, as `f` says; where `f` has no
result, the body leaves the loop. -/
structure LocalBody (view : σ → ℕ → α) (f : ℕ → α → Option α) (body : σ → ℕ → Except ε σ) :
    Prop where
  ok : ∀ s k a, f k (view s k) = some a →
    ∃ s', body s k = .ok s' ∧ view s' = Function.update (view s) k a
  error : ∀ s k, f k (view s k) = none → ∃ e, body s k = .error e

namespace LocalBody

variable {view : σ → ℕ → α} {f : ℕ → α → Option α} {body : σ → ℕ → Except ε σ}

theorem step_ok (h : LocalBody view f body) {s t : σ} {k : ℕ} (ht : body s k = .ok t) :
    ∃ a, f k (view s k) = some a ∧ view t = Function.update (view s) k a := by
  cases hf : f k (view s k) with
  | none =>
      obtain ⟨e, he⟩ := h.error s k hf
      rw [he] at ht
      cases ht
  | some a =>
      obtain ⟨t', ht', hv⟩ := h.ok s k a hf
      rw [ht'] at ht
      cases ht
      exact ⟨a, rfl, hv⟩

/-- A local loop that runs to its end has applied `f` once to every cell it visits. -/
theorem foldlM_ok (h : LocalBody view f body) {ks : List ℕ} (hnd : ks.Nodup) {s s' : σ}
    (hs : ks.foldlM body s = .ok s') :
    (∀ k ∈ ks, f k (view s k) = some (view s' k)) ∧ ∀ k ∉ ks, view s' k = view s k := by
  induction ks generalizing s with
  | nil =>
      cases hs
      simp
  | cons k ks ih =>
      obtain ⟨t, ht, hrest⟩ := foldlM_cons_eq_ok.1 hs
      obtain ⟨a, hfa, hv⟩ := h.step_ok ht
      obtain ⟨hk, hnd'⟩ := List.nodup_cons.1 hnd
      obtain ⟨hin, hout⟩ := ih hnd' hrest
      refine ⟨?_, ?_⟩
      · intro j hj
        rcases List.mem_cons.1 hj with rfl | hj'
        · rw [hfa, hout j hk, hv, Function.update_self]
        · have hjk : j ≠ k := fun he => hk (he ▸ hj')
          have hcell := hin j hj'
          rwa [hv, Function.update_of_ne hjk] at hcell
      · intro j hj
        obtain ⟨hjk, hj'⟩ := not_or.1 (fun hc => hj (List.mem_cons.2 hc))
        rw [hout j hj', hv, Function.update_of_ne hjk]

/-- A local loop runs to its end exactly when `f` has a result at every cell it visits. -/
theorem exists_foldlM_ok (h : LocalBody view f body) {ks : List ℕ} (hnd : ks.Nodup) (s : σ) :
    (∃ s', ks.foldlM body s = .ok s') ↔ ∀ k ∈ ks, f k (view s k) ≠ none := by
  constructor
  · rintro ⟨s', hs'⟩ k hk hnone
    have hcell := (h.foldlM_ok hnd hs').1 k hk
    rw [hnone] at hcell
    cases hcell
  · intro hall
    induction ks generalizing s with
    | nil => exact ⟨s, rfl⟩
    | cons k ks ih =>
        obtain ⟨hk, hnd'⟩ := List.nodup_cons.1 hnd
        obtain ⟨a, ha⟩ := Option.ne_none_iff_exists'.1 (hall k List.mem_cons_self)
        obtain ⟨t, ht, hv⟩ := h.ok s k a ha
        obtain ⟨s', hs'⟩ := ih hnd' t (fun j hj => by
          have hjk : j ≠ k := fun he => hk (he ▸ hj)
          rw [hv, Function.update_of_ne hjk]
          exact hall j (List.mem_cons_of_mem k hj))
        exact ⟨s', foldlM_cons_eq_ok.2 ⟨t, ht, hs'⟩⟩

end LocalBody
end Cpf
