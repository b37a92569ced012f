import Mathlib.Algebra.BigOperators.Ring.Finset
import Mathlib.Algebra.Order.BigOperators.Group.Finset
import Mathlib.Data.ENat.Basic
import Mathlib.Tactic

/-!
# Flows in a finite network

A flow assigns a number to every edge of a finite graph, within the capacity of the edge, such that
nothing is lost or made at a vertex other than the source and the sink. Pushing more along a path
of the residual graph keeps a flow a flow; what flows over a cut is the same for every cut.
-/

namespace Cpf

open Finset

variable {V : Type*} [DecidableEq V] {E : Finset (V × V)} {cap : V × V → ℕ∞} {s t : V}
  {f : V × V → ℕ}

/-- How much an edge counts in the balance of a vertex: out of it or into it. -/
def incidence (e : V × V) (x : V) : ℤ := (if e.1 = x then 1 else 0) - (if e.2 = x then 1 else 0)

/-- What flows out of a vertex, less what flows into it. -/
def excess (E : Finset (V × V)) (f : V × V → ℕ) (x : V) : ℤ := ∑ e ∈ E, (f e : ℤ) * incidence e x

structure IsFlow (E : Finset (V × V)) (cap : V × V → ℕ∞) (s t : V) (f : V × V → ℕ) : Prop where
  le_cap : ∀ e ∈ E, (f e : ℕ∞) ≤ cap e
  conserved : ∀ x, x ≠ s → x ≠ t → excess E f x = 0

theorem isFlow_zero : IsFlow E cap s t 0 where
  le_cap _ _ := by simp
  conserved _ _ _ := by simp [excess]

theorem excess_update {e₀ : V × V} (he : e₀ ∈ E) (n : ℕ) (x : V) :
    excess E (Function.update f e₀ n) x =
      excess E f x + ((n : ℤ) - f e₀) * incidence e₀ x := by
  rw [excess, excess, ← Finset.add_sum_erase E _ he, ← Finset.add_sum_erase E (fun e => _) he]
  have hrest : ∑ e ∈ E.erase e₀, (Function.update f e₀ n e : ℤ) * incidence e x =
      ∑ e ∈ E.erase e₀, (f e : ℤ) * incidence e x := by
    apply Finset.sum_congr rfl
    intro e hmem
    rw [Function.update_of_ne (Finset.ne_of_mem_erase hmem)]
  rw [hrest, Function.update_self]
  ring

theorem IsFlow.exists_out (h : IsFlow E cap s t f) {e : V × V} (he : e ∈ E) (hpos : 0 < f e)
    (hs : e.2 ≠ s) (ht : e.2 ≠ t) : ∃ e' ∈ E, e'.1 = e.2 ∧ 0 < f e' := by
  by_contra hnone
  push Not at hnone
  have hzero : ∀ e' ∈ E, e'.1 = e.2 → f e' = 0 := fun e' he' h1 => Nat.le_zero.1 (hnone e' he' h1)
  have hterm : ∀ e' ∈ E, (f e' : ℤ) * incidence e' e.2 ≤ 0 := by
    intro e' he'
    by_cases h1 : e'.1 = e.2
    · simp [hzero e' he' h1]
    · rw [incidence, if_neg h1]
      split_ifs
      · simp
      · simp
  have hneg : (f e : ℤ) * incidence e e.2 < 0 := by
    have h1 : e.1 ≠ e.2 := fun h1 => hpos.ne' (hzero e he h1)
    rw [incidence, if_neg h1, if_pos rfl]
    simpa using hpos
  have hsum : excess E f e.2 < 0 := Finset.sum_neg' hterm ⟨e, he, hneg⟩
  exact hsum.ne (h.conserved e.2 hs ht)

theorem IsFlow.exists_in (h : IsFlow E cap s t f) {e : V × V} (he : e ∈ E) (hpos : 0 < f e)
    (hs : e.1 ≠ s) (ht : e.1 ≠ t) : ∃ e' ∈ E, e'.2 = e.1 ∧ 0 < f e' := by
  by_contra hnone
  push Not at hnone
  have hzero : ∀ e' ∈ E, e'.2 = e.1 → f e' = 0 := fun e' he' h2 => Nat.le_zero.1 (hnone e' he' h2)
  have hterm : ∀ e' ∈ E, 0 ≤ (f e' : ℤ) * incidence e' e.1 := by
    intro e' he'
    by_cases h2 : e'.2 = e.1
    · simp [hzero e' he' h2]
    · rw [incidence, if_neg h2]
      split_ifs
      · simp
      · simp
  have hposterm : 0 < (f e : ℤ) * incidence e e.1 := by
    have h2 : e.2 ≠ e.1 := fun h2 => hpos.ne' (hzero e he h2)
    rw [incidence, if_neg h2, if_pos rfl]
    simpa using hpos
  have hsum : 0 < excess E f e.1 := Finset.sum_pos' hterm ⟨e, he, hposterm⟩
  exact hsum.ne' (h.conserved e.1 hs ht)

/-- A vertex with one edge into it gives on at most what that edge brings. -/
theorem IsFlow.le_of_single_in (h : IsFlow E cap s t f) {e e₀ : V × V} (he : e ∈ E) (he₀ : e₀ ∈ E)
    (hne : e ≠ e₀) (hs : e.1 ≠ s) (ht : e.1 ≠ t) (honly : ∀ e' ∈ E, e'.2 = e.1 → e' = e₀) :
    f e ≤ f e₀ := by
  have hrest : 0 ≤ ∑ e' ∈ (E.erase e₀).erase e, (f e' : ℤ) * incidence e' e.1 := by
    apply Finset.sum_nonneg
    intro e' he'
    have hmem := Finset.mem_of_mem_erase he'
    have h2 : e'.2 ≠ e.1 := fun h2 =>
      Finset.ne_of_mem_erase hmem (honly e' (Finset.mem_of_mem_erase hmem) h2)
    rw [incidence, if_neg h2]
    split_ifs
    · simp
    · simp
  have hsum := h.conserved e.1 hs ht
  rw [excess, ← Finset.add_sum_erase E _ he₀,
    ← Finset.add_sum_erase (E.erase e₀) _ (Finset.mem_erase.2 ⟨hne, he⟩)] at hsum
  have hout : (f e : ℤ) * incidence e e.1 = f e := by
    have h2 : e.2 ≠ e.1 := fun h2 => hne (honly e he h2)
    rw [incidence, if_neg h2, if_pos rfl]
    ring
  have hin : -(f e₀ : ℤ) ≤ f e₀ * incidence e₀ e.1 := by
    rw [incidence]
    split_ifs
    · simp
    · simp
    · simp
    · simp
  omega

/-- `a` more can be pushed from `u` to `w`: along an edge with room, or by taking back what flows
along an edge from `w` to `u`. -/
def Fits (E : Finset (V × V)) (cap : V × V → ℕ∞) (f : V × V → ℕ) (a : ℕ) (u w : V) : Prop :=
  ((u, w) ∈ E ∧ ((f (u, w) + a : ℕ) : ℕ∞) ≤ cap (u, w)) ∨
    ((u, w) ∉ E ∧ (w, u) ∈ E ∧ a ≤ f (w, u))

omit [DecidableEq V] in
theorem Fits.mono {m n : ℕ} {u w : V} (h : Fits E cap f n u w) (hle : m ≤ n) :
    Fits E cap f m u w := by
  obtain ⟨hmem, hroom⟩ | ⟨hnot, hmem, hback⟩ := h
  · refine Or.inl ⟨hmem, le_trans ?_ hroom⟩
    exact_mod_cast Nat.add_le_add_left hle _
  · exact Or.inr ⟨hnot, hmem, hle.trans hback⟩

def pushEdge (E : Finset (V × V)) (a : ℕ) (f : V × V → ℕ) (u w : V) : V × V → ℕ :=
  if (u, w) ∈ E then Function.update f (u, w) (f (u, w) + a)
  else Function.update f (w, u) (f (w, u) - a)

theorem excess_pushEdge {a : ℕ} {u w : V} (h : Fits E cap f a u w) (x : V) :
    excess E (pushEdge E a f u w) x = excess E f x + a * incidence (u, w) x := by
  rw [pushEdge]
  obtain ⟨hmem, -⟩ | ⟨hnot, hmem, hle⟩ := h
  · rw [if_pos hmem, excess_update hmem]
    push_cast
    ring
  · rw [if_neg hnot, excess_update hmem]
    push_cast [hle]
    simp only [incidence]
    ring

theorem pushEdge_of_ne {a : ℕ} {u w : V} {e : V × V} (h1 : e ≠ (u, w)) (h2 : e ≠ (w, u)) :
    pushEdge E a f u w e = f e := by
  rw [pushEdge]
  split_ifs
  · exact Function.update_of_ne h1 _ _
  · exact Function.update_of_ne h2 _ _

theorem pushEdge_le_cap {a : ℕ} {u w : V} (h : Fits E cap f a u w)
    (hf : ∀ e ∈ E, (f e : ℕ∞) ≤ cap e) : ∀ e ∈ E, (pushEdge E a f u w e : ℕ∞) ≤ cap e := by
  intro e he
  rw [pushEdge]
  obtain ⟨hmem, hroom⟩ | ⟨hnot, -, -⟩ := h
  · rw [if_pos hmem]
    by_cases heq : e = (u, w)
    · subst heq
      rw [Function.update_self]
      exact hroom
    · rw [Function.update_of_ne heq]
      exact hf e he
  · rw [if_neg hnot]
    by_cases heq : e = (w, u)
    · subst heq
      rw [Function.update_self]
      have hle : ((f (w, u) - a : ℕ) : ℕ∞) ≤ (f (w, u) : ℕ∞) := by
        exact_mod_cast Nat.sub_le _ _
      exact hle.trans (hf _ he)
    · rw [Function.update_of_ne heq]
      exact hf e he

/-- Pushes along a path, given by its vertices from its end back to its start. -/
def pushPath (E : Finset (V × V)) (a : ℕ) : (V × V → ℕ) → List V → V × V → ℕ
  | f, w :: u :: path => pushPath E a (pushEdge E a f u w) (u :: path)
  | f, _ => f

/-- The steps of a path in which `a` fits, from its end back to its start. -/
def PathFits (E : Finset (V × V)) (cap : V × V → ℕ∞) (f : V × V → ℕ) (a : ℕ) (path : List V) : Prop :=
  path.IsChain (fun w u => Fits E cap f a u w)

theorem Fits.pushEdge {a : ℕ} {u w u' w' : V} (h : Fits E cap f a u' w')
    (hu : w ≠ u') (hw : w ≠ w') : Fits E cap (pushEdge E a f u w) a u' w' := by
  have hfwd : Cpf.pushEdge E a f u w (u', w') = f (u', w') := by
    apply pushEdge_of_ne
    · intro heq
      exact hw (Prod.mk.inj heq).2.symm
    · intro heq
      exact hu (Prod.mk.inj heq).1.symm
  have hbwd : Cpf.pushEdge E a f u w (w', u') = f (w', u') := by
    apply pushEdge_of_ne
    · intro heq
      exact hu (Prod.mk.inj heq).2.symm
    · intro heq
      exact hw (Prod.mk.inj heq).1.symm
  rw [Fits, hfwd, hbwd]
  exact h

/-- Pushing along a path without repetitions: capacities are respected, and only the two ends of the
path change their balance. -/
theorem pushPath_spec {a : ℕ} {w : V} {path : List V} (hnd : (w :: path).Nodup)
    (hfits : PathFits E cap f a (w :: path)) (hf : ∀ e ∈ E, (f e : ℕ∞) ≤ cap e) :
    (∀ e ∈ E, (pushPath E a f (w :: path) e : ℕ∞) ≤ cap e) ∧
    ∀ x, excess E (pushPath E a f (w :: path)) x =
      excess E f x + a * incidence ((w :: path).getLast (List.cons_ne_nil w path), w) x := by
  induction path generalizing w f with
  | nil =>
      refine ⟨hf, fun x => ?_⟩
      have hself : incidence (w, w) x = 0 := sub_self _
      simp [pushPath, hself]
  | cons u path ih =>
      obtain ⟨hfirst, hrest⟩ := List.isChain_cons_cons.1 hfits
      obtain ⟨hw, hnd'⟩ := List.nodup_cons.1 hnd
      have hkeep : PathFits E cap (Cpf.pushEdge E a f u w) a (u :: path) := by
        apply hrest.imp_of_mem_imp
        intro w' u' hw' hu' hstep
        exact hstep.pushEdge (fun h => hw (h ▸ hu')) (fun h => hw (h ▸ hw'))
      obtain ⟨hcap, hex⟩ := ih hnd' hkeep (pushEdge_le_cap hfirst hf)
      refine ⟨hcap, fun x => ?_⟩
      rw [pushPath, hex, excess_pushEdge hfirst, List.getLast_cons (List.cons_ne_nil u path)]
      simp only [incidence]
      ring

/-- Pushing along a path from the source to the sink. -/
theorem IsFlow.pushPath (h : IsFlow E cap s t f) {a : ℕ} {path : List V}
    (hnd : (t :: path).Nodup) (hfits : PathFits E cap f a (t :: path))
    (hlast : (t :: path).getLast (List.cons_ne_nil t path) = s) :
    IsFlow E cap s t (pushPath E a f (t :: path)) := by
  obtain ⟨hcap, hex⟩ := pushPath_spec hnd hfits h.le_cap
  refine ⟨hcap, fun x hs ht => ?_⟩
  rw [hex, h.conserved x hs ht, hlast, incidence, if_neg hs.symm, if_neg ht.symm]
  simp

/-- What flows out of the source flows over every cut between the source and the sink. -/
theorem IsFlow.excess_source (h : IsFlow E cap s t f) {S : Set V} [DecidablePred (· ∈ S)]
    (hs : s ∈ S) (ht : t ∉ S) :
    excess E f s =
      ∑ e ∈ E, (f e : ℤ) * ((if e.1 ∈ S then 1 else 0) - (if e.2 ∈ S then 1 else 0)) := by
  let T : Finset V := (insert s (E.image Prod.fst ∪ E.image Prod.snd)).filter (· ∈ S)
  have hT : ∀ e ∈ E, (e.1 ∈ T ↔ e.1 ∈ S) ∧ (e.2 ∈ T ↔ e.2 ∈ S) := by
    intro e he
    have h1 : e.1 ∈ E.image Prod.fst := Finset.mem_image_of_mem _ he
    have h2 : e.2 ∈ E.image Prod.snd := Finset.mem_image_of_mem _ he
    constructor
    · simp only [T, Finset.mem_filter, Finset.mem_insert, Finset.mem_union, h1, true_or, or_true,
        true_and]
    · simp only [T, Finset.mem_filter, Finset.mem_insert, Finset.mem_union, h2, or_true, true_and]
  have hzero : ∑ x ∈ T, excess E f x = excess E f s := by
    apply Finset.sum_eq_single_of_mem s (Finset.mem_filter.2 ⟨Finset.mem_insert_self _ _, hs⟩)
    intro x hx hne
    exact h.conserved x hne (fun heq => ht (heq ▸ (Finset.mem_filter.1 hx).2))
  rw [← hzero]
  simp only [excess]
  rw [Finset.sum_comm]
  apply Finset.sum_congr rfl
  intro e he
  rw [← Finset.mul_sum]
  congr 1
  simp only [incidence, Finset.sum_sub_distrib, Finset.sum_ite_eq, (hT e he).1, (hT e he).2]

end Cpf
