import Cpf.Executive.AccessSpec
import Cpf.Executive.Merge

/-!
# One checkpoint group

The iterations of a checkpoint group are assigned to the workers, and each worker runs its
iterations in increasing order, starting from a shadow that is all `liveIn`. `Tracked` relates the
marks of a worker to the accesses it has made so far.
-/

namespace Cpf.Executive
open Heap

/-- The iterations `[base, stop)` of a checkpoint group, their accesses and the workers that run
them. -/
structure Group (size : ℕ) where
  numWorkers : ℕ
  workers_pos : 1 ≤ numWorkers
  workers_le : numWorkers ≤ maxWorkers
  firstIteration : ℕ
  base : ℕ
  stop : ℕ
  first_le : firstIteration ≤ base
  base_aligned : (base - firstIteration) % checkpointGranularity numWorkers = 0
  stop_le : stop ≤ base + checkpointGranularity numWorkers
  owner : ℕ → Fin numWorkers
  body : ℕ → List Op
  inHeap : ∀ i, ∀ o ∈ body i, o.access.InHeap size
  start : Heap
  initial : Fin numWorkers → Worker
  initial_priv : ∀ w, (initial w).priv = start
  initial_shadow : ∀ w k, (initial w).shadow k = liveIn
  initial_range : ∀ w, (initial w).range.Within size
  initial_first : ∀ w, (initial w).firstIteration = firstIteration
  initial_granularity : ∀ w,
    (initial w).checkpointGranularity = checkpointGranularity numWorkers

/-! A group of two iterations on two workers starts at iteration 0. -/

theorem zero_le_zero : 0 ≤ 0 := Nat.le_refl 0

theorem zero_aligned : (0 - 0) % checkpointGranularity 2 = 0 := rfl

theorem two_le_granularity : 2 ≤ 0 + checkpointGranularity 2 := by decide

namespace Group

variable {size : ℕ} (g : Group size)

def code (i : ℕ) : UInt8 := iterCode g.firstIteration (checkpointGranularity g.numWorkers) i

def itersBefore (w : Fin g.numWorkers) (j : ℕ) : List ℕ :=
  (forRange g.base j 1).filter (fun i => g.owner i = w)

def runIter (w : Worker) (i : ℕ) : Except String Worker :=
  (g.body i).foldlM Op.exec (w.advanceIter i 1)

def runBefore (w : Fin g.numWorkers) (j : ℕ) : Except String Worker :=
  (g.itersBefore w j).foldlM g.runIter (g.initial w)

def run (w : Fin g.numWorkers) : Except String Worker := g.runBefore w g.stop

def stateBefore (j : ℕ) (pre : List Op) : Except String Worker := do
  let w ← g.runBefore (g.owner j) j
  pre.foldlM Op.exec (w.advanceIter j 1)

def history (w : Fin g.numWorkers) (j : ℕ) : List (ℕ × Op) :=
  (g.itersBefore w j).flatMap (fun i => (g.body i).map (fun o => (i, o)))

/-- No four- or eight-byte write skips its check over a byte that is marked as read. -/
def WritesChecked : Prop :=
  ∀ j, g.base ≤ j → j < g.stop → ∀ pre o post, g.body j = pre ++ o :: post →
    ∀ v, g.stateBefore j pre = .ok v → o.access.skipsCheck v = true →
      Fresh o.access.Touches v.shadow

/-- No read of 16-byte strides, which misplaces its marks. -/
def NoStride16 : Prop := ∀ i, ∀ o ∈ g.body i, o.access.isStride16 = false

theorem code_toNat {i : ℕ} (hi : g.base ≤ i) (hs : i < g.stop) :
    (g.code i).toNat = i - g.base + 3 := by
  have hpos := checkpointGranularity_pos g.workers_pos g.workers_le
  have hle := checkpointGranularity_le g.numWorkers
  have hstop := g.stop_le
  have hmod : (i - g.firstIteration) % checkpointGranularity g.numWorkers = i - g.base := by
    have hsplit : i - g.firstIteration = (g.base - g.firstIteration) + (i - g.base) := by
      have := g.first_le
      omega
    rw [hsplit, Nat.add_mod, g.base_aligned, Nat.zero_add, Nat.mod_mod, Nat.mod_eq_of_lt (by omega)]
  rw [code, iterCode, hmod, UInt8.toNat_ofNat']
  simp only [numReservedShadowValues]
  omega

theorem code_inj {i j : ℕ} (hi : g.base ≤ i) (hi' : i < g.stop) (hj : g.base ≤ j)
    (hj' : j < g.stop) (h : g.code i = g.code j) : i = j := by
  have hn := congrArg UInt8.toNat h
  rw [g.code_toNat hi hi', g.code_toNat hj hj'] at hn
  omega

theorem code_ne {i : ℕ} (hi : g.base ≤ i) (hs : i < g.stop) :
    g.code i ≠ liveIn ∧ g.code i ≠ readLiveIn := by
  have hn := g.code_toNat hi hs
  refine ⟨fun he => ?_, fun he => ?_⟩
  · rw [he] at hn
    simp only [liveIn, UInt8.toNat_ofNat] at hn
    omega
  · rw [he] at hn
    simp only [readLiveIn, UInt8.toNat_ofNat] at hn
    omega

theorem itersBefore_succ {j : ℕ} (h : g.base ≤ j) (w : Fin g.numWorkers) :
    g.itersBefore w (j + 1) = g.itersBefore w j ++ if g.owner j = w then [j] else [] := by
  rw [itersBefore, forRange_succ h, List.filter_append, itersBefore]
  by_cases hw : g.owner j = w <;> simp [hw]

theorem mem_history {w : Fin g.numWorkers} {j : ℕ} {e : ℕ × Op} :
    e ∈ g.history w j ↔ (g.base ≤ e.1 ∧ e.1 < j) ∧ g.owner e.1 = w ∧ e.2 ∈ g.body e.1 := by
  simp only [history, itersBefore, List.mem_flatMap, List.mem_filter, mem_forRange_one,
    List.mem_map, decide_eq_true_eq]
  constructor
  · rintro ⟨i, ⟨hi, hw⟩, o, ho, rfl⟩
    exact ⟨hi, hw, ho⟩
  · rintro ⟨hi, hw, ho⟩
    exact ⟨e.1, ⟨hi, hw⟩, e.2, ho, rfl⟩

end Group

/-- Some access of `H` reads byte `k` before its own iteration has written it. -/
def Exposed (H : List (ℕ × Op)) (k : ℕ) : Prop :=
  ∃ H₁ j o H₂, H = H₁ ++ (j, o) :: H₂ ∧ o.access.Reads k ∧
    ∀ e ∈ H₁, e.1 = j → ¬ e.2.access.Writes k

theorem exposed_append_singleton {H : List (ℕ × Op)} {j k : ℕ} {o : Op}
    (h : Exposed (H ++ [(j, o)]) k) :
    Exposed H k ∨ o.access.Reads k ∧ ∀ e ∈ H, e.1 = j → ¬ e.2.access.Writes k := by
  obtain ⟨H₁, i, r, H₂, he, hreads, hno⟩ := h
  rcases List.eq_nil_or_concat H₂ with rfl | ⟨H₃, e, rfl⟩
  · obtain ⟨rfl, hlast⟩ := List.append_inj' he rfl
    cases hlast
    exact Or.inr ⟨hreads, hno⟩
  · rw [List.concat_eq_append, ← List.cons_append, ← List.append_assoc] at he
    obtain ⟨rfl, _⟩ := List.append_inj' he rfl
    exact Or.inl ⟨H₁, i, r, H₃, rfl, hreads, hno⟩

/-- The marks of a worker and the accesses `H` it has made in the group. -/
structure Tracked {size : ℕ} (g : Group size) (H : List (ℕ × Op)) (w : Worker) : Prop where
  first : w.firstIteration = g.firstIteration
  granularity : w.checkpointGranularity = checkpointGranularity g.numWorkers
  untouched : ∀ k, w.shadow k = liveIn ∨ w.shadow k = readLiveIn →
    (∀ e ∈ H, ¬ e.2.access.Writes k) ∧ w.priv k = g.start k
  written : ∀ k, w.shadow k ≠ liveIn → w.shadow k ≠ readLiveIn →
    ∃ e ∈ H, e.2.access.Writes k ∧ w.shadow k = g.code e.1
  exposed : ∀ k, Exposed H k → w.shadow k = readLiveIn
  covered : ∀ k, w.shadow k ≠ liveIn → w.range.CoversWord k
  within : w.range.Within size

end Cpf.Executive
