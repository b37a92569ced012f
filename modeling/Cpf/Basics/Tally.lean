import Mathlib.Data.List.Basic
import Mathlib.Tactic

/-!
# Accumulators in a map

A map has an accumulator for every key that has been seen; a report changes the one of its key, which begins
with a default. After any reports the map has the keys in the order of their first reports, each with what its
own reports have made of the default.
-/

namespace Cpf.Tally

variable {κ σ α τ ρ : Type*} [DecidableEq κ]

/-- Changes the accumulator of a key, as `operator[]` of a map gives it. -/
def update (m : List (κ × σ)) (k : κ) (init : σ) (f : σ → σ) : List (κ × σ) :=
  if k ∈ m.map Prod.fst then m.map fun e => if e.1 = k then (e.1, f e.2) else e else m ++ [(k, f init)]

def reportsOf (l : List (κ × α)) (k : κ) : List α := l.filterMap fun r => if r.1 = k then some r.2 else none

theorem reportsOf_append (l : List (κ × α)) (r : κ × α) (k : κ) :
    reportsOf (l ++ [r]) k = if r.1 = k then reportsOf l k ++ [r.2] else reportsOf l k := by
  rw [reportsOf, List.filterMap_append]
  split_ifs with hk <;> simp [reportsOf, hk]

theorem reportsOf_eq_nil {l : List (κ × α)} {k : κ} (h : k ∉ l.map Prod.fst) : reportsOf l k = [] := by
  rw [reportsOf, List.filterMap_eq_nil_iff]
  intro r hr
  rw [if_neg]
  rintro rfl
  exact h (List.mem_map_of_mem hr)

/-! ### First occurrences -/

def firsts : List κ → List κ
  | [] => []
  | v :: l => v :: (firsts l).filter (· ≠ v)

def times (l : List κ) (v : κ) : ℕ := l.countP fun w => w = v

def counted (l : List κ) : List (κ × ℕ) := (firsts l).map fun v => (v, times l v)

theorem mem_firsts {l : List κ} {v : κ} : v ∈ firsts l ↔ v ∈ l := by
  induction l with
  | nil => rfl
  | cons w l ih =>
      rw [firsts, List.mem_cons, List.mem_filter, ih, List.mem_cons, decide_eq_true_iff]
      by_cases hv : v = w <;> simp [hv]

theorem nodup_firsts (l : List κ) : (firsts l).Nodup := by
  induction l with
  | nil => exact List.nodup_nil
  | cons v l ih => exact List.nodup_cons.2 ⟨by simp, ih.filter _⟩

theorem firsts_append_singleton (l : List κ) (v : κ) :
    firsts (l ++ [v]) = if v ∈ l then firsts l else firsts l ++ [v] := by
  induction l with
  | nil => rfl
  | cons w l ih =>
      rw [List.cons_append, firsts, ih, firsts]
      by_cases hw : v = w
      · subst hw
        rw [if_pos List.mem_cons_self]
        split_ifs <;> simp
      · by_cases hv : v ∈ l
        · rw [if_pos hv, if_pos (List.mem_cons_of_mem _ hv)]
        · rw [if_neg hv, if_neg fun h => (List.mem_cons.1 h).elim hw hv, List.filter_append]
          simp [hw]

theorem firsts_eq_nil {l : List κ} : firsts l = [] ↔ l = [] := by
  cases l with
  | nil => exact iff_of_true rfl rfl
  | cons v l => exact iff_of_false (List.cons_ne_nil _ _) (List.cons_ne_nil _ _)

theorem length_firsts_append_singleton (l : List κ) (v : κ) :
    (firsts (l ++ [v])).length = if v ∈ l then (firsts l).length else (firsts l).length + 1 := by
  rw [firsts_append_singleton]
  split_ifs
  · rfl
  · rw [List.length_append, List.length_singleton]

/-- A list of different values that takes each value when it is met first. -/
theorem foldl_insert (l : List κ) :
    l.foldl (fun seen v => if v ∈ seen then seen else seen ++ [v]) [] = firsts l := by
  induction l using List.reverseRecOn with
  | nil => rfl
  | append_singleton l v ih =>
      rw [List.foldl_append, List.foldl_cons, List.foldl_nil, ih, firsts_append_singleton]
      simp only [mem_firsts]

theorem times_append_singleton (l : List κ) (v w : κ) :
    times (l ++ [w]) v = if w = v then times l v + 1 else times l v := by
  rw [times, List.countP_append, List.countP_singleton]
  by_cases hw : w = v <;> simp [hw, times]

/-- Reports that say nothing more are as many as the times that their key is met. -/
theorem length_reportsOf_map {β : Type*} (l : List κ) (b : β) (k : κ) :
    (reportsOf (l.map fun k => (k, b)) k).length = times l k := by
  rw [reportsOf, List.filterMap_map, times]
  induction l with
  | nil => rfl
  | cons j l ih =>
      rw [List.filterMap_cons, List.countP_cons]
      by_cases hj : j = k <;> simp [hj, ← ih]

theorem times_pos {l : List κ} {v : κ} : 0 < times l v ↔ v ∈ l := by simp [times, List.countP_pos_iff]

theorem times_eq_zero {l : List κ} {v : κ} : times l v = 0 ↔ v ∉ l := by
  rw [← times_pos, Nat.pos_iff_ne_zero, not_ne_iff]

theorem times_le_length (l : List κ) (v : κ) : times l v ≤ l.length := List.countP_le_length

/-! ### The map -/

theorem foldl_update (recv : σ → α → σ) (init : σ) (l : List (κ × α)) :
    l.foldl (fun m r => update m r.1 init fun s => recv s r.2) [] =
      (firsts (l.map Prod.fst)).map fun k => (k, (reportsOf l k).foldl recv init) := by
  induction l using List.reverseRecOn with
  | nil => rfl
  | append_singleton l r ih =>
      have hkeys : ((firsts (l.map Prod.fst)).map fun k => (k, (reportsOf l k).foldl recv init)).map Prod.fst =
          firsts (l.map Prod.fst) := by
        rw [List.map_map]
        exact List.map_id _
      rw [List.foldl_append, List.foldl_cons, List.foldl_nil, ih, update, hkeys, List.map_append,
        List.map_singleton,
        firsts_append_singleton]
      by_cases hr : r.1 ∈ l.map Prod.fst
      · rw [if_pos (mem_firsts.2 hr), if_pos hr, List.map_map]
        refine List.map_congr_left fun k _ => ?_
        rw [reportsOf_append, Function.comp_apply]
        by_cases hk : r.1 = k
        · subst hk
          rw [if_pos rfl, if_pos rfl, List.foldl_append]
          rfl
        · rw [if_neg hk, if_neg fun heq => hk heq.symm]
      · rw [if_neg fun hmem => hr (mem_firsts.1 hmem), if_neg hr, List.map_append, List.map_singleton]
        congr 1
        · refine List.map_congr_left fun k hk => ?_
          rw [reportsOf_append, if_neg]
          rintro rfl
          exact hr (mem_firsts.1 hk)
        · rw [reportsOf_append, if_pos rfl, reportsOf_eq_nil hr]
          rfl

/-- A field of a state that is changed by a part of every report. -/
theorem foldl_field (step : σ → ρ → σ) (field : σ → τ) (part : ρ → List α) (g : τ → α → τ)
    (h : ∀ s r, field (step s r) = (part r).foldl g (field s)) (l : List ρ) (s : σ) :
    field (l.foldl step s) = (l.flatMap part).foldl g (field s) := by
  induction l generalizing s with
  | nil => rfl
  | cons r l ih => rw [List.foldl_cons, ih, h, List.flatMap_cons, List.foldl_append]

end Cpf.Tally
