import Cpf.Executive.Private

/-!
# Iteration codes and the decision about checkpoints

A worker decides about a checkpoint in `__specpriv_advance_iter`, and foretells the decision in
`__specpriv_ckpt_check`, with a granularity of its own. When the workers run every iteration, all of
them make their checkpoints in the same iterations, those that start a group, and the code of an
iteration is not used again in its group. Iterations have 32 bits here: this ends behind the last of
them, where the signs of the remainders change and `i > 0` fails.
-/

namespace Cpf.Executive

abbrev Iteration := Int32

/-- What a worker knows of the iterations: the variables of `private.c`, and those of `api.c`. The
iterations in which it has made a checkpoint are recorded. -/
structure IterProc where
  firstIteration : Iteration
  granularity : Iteration
  code8 : UInt8
  numWorkers : ℕ
  myWorkerId : ℕ
  runOnEveryIter : Bool
  checkpointGranularity : Iteration
  currentIter : Iteration
  ckptCheck : Bool
  checkpoints : List Iteration

namespace IterProc

def iterMark (first granularity i : Iteration) : UInt8 :=
  UInt8.ofInt ((i - first) % granularity + Int32.ofNat numReservedShadowValues).toInt

variable (p : IterProc)

def setIter (i : Iteration) : IterProc :=
  { p with code8 := iterMark p.firstIteration p.granularity i }

/-- `__specpriv_init_private` in the main process, then `__specpriv_worker_setup` and
`__specpriv_worker_starts` in the worker. -/
def workerStarts (numWorkers myWorkerId : ℕ) (first : Iteration) : IterProc :=
  setIter
    { firstIteration := first
      granularity := Int32.ofNat (Executive.checkpointGranularity numWorkers)
      code8 := 0
      numWorkers := numWorkers
      myWorkerId := myWorkerId
      runOnEveryIter := true
      checkpointGranularity := Int32.ofNat (Executive.checkpointGranularity numWorkers)
      currentIter := first
      ckptCheck := false
      checkpoints := [] } first

/-- The condition for a checkpoint in iteration `i`, which two functions evaluate. -/
def startsGroup (granularity : Iteration) (code8 : UInt8) (i : Iteration) : Bool :=
  if p.runOnEveryIter then decide (code8.toNat = numReservedShadowValues ∧ 0 < i)
  else
    let prevI := i - Int32.ofNat p.numWorkers
    let prevR := (prevI - p.firstIteration) / granularity
    let curR := (i - p.firstIteration) / granularity
    decide (p.firstIteration ≤ prevI ∧ prevR + 1 = curR)

def advanceIter (i : Iteration) (ckptUsed : ℕ) : IterProc :=
  if ckptUsed = 0 then p
  else if (p.setIter i).startsGroup p.granularity (p.setIter i).code8 i then
    { p.setIter i with checkpoints := p.checkpoints ++ [i] }
  else p.setIter i

/-- The part of `__specpriv_end_iter` behind its checks for a misspeculation. -/
def endIter (ckptUsed : ℕ) : IterProc :=
  let currentIter := p.currentIter + 1
  let globalCurIter :=
    if p.runOnEveryIter then currentIter
    else Int32.ofNat p.myWorkerId + currentIter * Int32.ofNat p.numWorkers
  { p with currentIter := currentIter }.advanceIter globalCurIter ckptUsed

def ckptCheckResult : Bool :=
  let i :=
    if p.runOnEveryIter then p.currentIter + 1
    else Int32.ofNat p.myWorkerId + p.currentIter * Int32.ofNat p.numWorkers
  p.startsGroup p.checkpointGranularity (iterMark p.firstIteration p.checkpointGranularity i) i

inductive Call
  | endIter (ckptUsed : ℕ)
  | ckptCheck

/-- Calls of `__specpriv_end_iter` make use of checkpoints. -/
def Call.Used : Call → Prop
  | .endIter ckptUsed => ckptUsed ≠ 0
  | .ckptCheck => True

instance : DecidablePred Call.Used
  | .endIter ckptUsed => inferInstanceAs (Decidable (ckptUsed ≠ 0))
  | .ckptCheck => inferInstanceAs (Decidable True)

def Call.ends : Call → Bool
  | .endIter _ => true
  | .ckptCheck => false

def call (p : IterProc) : Call → IterProc
  | .endIter ckptUsed => p.endIter ckptUsed
  | .ckptCheck => { p with ckptCheck := p.ckptCheckResult }

def run (p : IterProc) (calls : List Call) : IterProc := calls.foldl call p

/-- The iterations ended by the calls have numbers that fit in `Iteration`. -/
def InRange (first : Iteration) (calls : List Call) : Prop :=
  0 ≤ first ∧ first.toInt + calls.countP Call.ends < 2 ^ 31

/-! ### The two decisions agree -/

structure EveryIter (numWorkers : ℕ) (p : IterProc) : Prop where
  everyIter : p.runOnEveryIter = true
  granularity : p.granularity = Int32.ofNat (Executive.checkpointGranularity numWorkers)
  apiGranularity :
    p.checkpointGranularity = Int32.ofNat (Executive.checkpointGranularity numWorkers)

variable {numWorkers : ℕ} {p}

theorem workerStarts_everyIter (numWorkers wid : ℕ) (first : Iteration) :
    EveryIter numWorkers (workerStarts numWorkers wid first) := ⟨rfl, rfl, rfl⟩

theorem EveryIter.startsGroup_eq (h : EveryIter numWorkers p) (g : Iteration) (code8 : UInt8)
    (i : Iteration) :
    p.startsGroup g code8 i = decide (code8.toNat = numReservedShadowValues ∧ 0 < i) :=
  if_pos h.everyIter

theorem EveryIter.ckptCheckResult_eq (h : EveryIter numWorkers p) :
    p.ckptCheckResult =
      decide ((iterMark p.firstIteration p.granularity (p.currentIter + 1)).toNat =
        numReservedShadowValues ∧ 0 < p.currentIter + 1) := by
  rw [ckptCheckResult, h.startsGroup_eq, if_pos h.everyIter, h.granularity, h.apiGranularity]

/-- What the end of an iteration does: its checkpoint is the one that was foretold. -/
theorem EveryIter.endIter_eq (h : EveryIter numWorkers p) {ckptUsed : ℕ} (hused : ckptUsed ≠ 0) :
    p.endIter ckptUsed =
      { p with
        currentIter := p.currentIter + 1
        code8 := iterMark p.firstIteration p.granularity (p.currentIter + 1)
        checkpoints :=
          p.checkpoints ++ if p.ckptCheckResult = true then [p.currentIter + 1] else [] } := by
  let q := { p with currentIter := p.currentIter + 1 }.setIter (p.currentIter + 1)
  have hq : EveryIter numWorkers q := ⟨h.everyIter, h.granularity, h.apiGranularity⟩
  have hstarts : q.startsGroup p.granularity q.code8 (p.currentIter + 1) = p.ckptCheckResult := by
    rw [hq.startsGroup_eq, h.ckptCheckResult_eq]
    rfl
  rw [endIter, if_pos h.everyIter, advanceIter, if_neg hused]
  change (if q.startsGroup p.granularity q.code8 (p.currentIter + 1) = true then
    { q with checkpoints := p.checkpoints ++ [p.currentIter + 1] } else q) = _
  rw [hstarts]
  split_ifs
  · rfl
  · rw [List.append_nil]
    rfl

theorem EveryIter.endIter (h : EveryIter numWorkers p) {ckptUsed : ℕ} (hused : ckptUsed ≠ 0) :
    EveryIter numWorkers (p.endIter ckptUsed) := by
  rw [h.endIter_eq hused]
  exact ⟨h.everyIter, h.granularity, h.apiGranularity⟩

theorem EveryIter.run (h : EveryIter numWorkers p) (calls : List Call)
    (hused : ∀ c ∈ calls, c.Used) : EveryIter numWorkers (p.run calls) := by
  induction calls generalizing p with
  | nil => exact h
  | cons c calls ih =>
      refine ih (p := p.call c) ?_ fun d hd => hused d (List.mem_cons_of_mem _ hd)
      cases c with
      | endIter ckptUsed => exact h.endIter (hused _ List.mem_cons_self)
      | ckptCheck => exact ⟨h.everyIter, h.granularity, h.apiGranularity⟩

/-- A checkpoint is made at the end of an iteration exactly when it is foretold. -/
theorem EveryIter.endIter_performs_iff (h : EveryIter numWorkers p) {ckptUsed : ℕ}
    (hused : ckptUsed ≠ 0) :
    (p.endIter ckptUsed).checkpoints = p.checkpoints ++ [p.currentIter + 1] ↔
      p.ckptCheckResult = true := by
  rw [h.endIter_eq hused]
  dsimp only
  split_ifs with hforetold
  · exact iff_of_true rfl hforetold
  · refine iff_of_false (fun heq => ?_) hforetold
    cases List.append_cancel_left heq

/-! ### Groups of iterations -/

theorem toNat_iterCode {first granularity i : ℕ} (hpos : 0 < granularity) (hle : granularity ≤ 253) :
    (iterCode first granularity i).toNat = (i - first) % granularity + 3 := by
  have hlt := Nat.mod_lt (i - first) hpos
  rw [iterCode, UInt8.toNat_ofNat', numReservedShadowValues, Nat.mod_eq_of_lt (by omega)]

/-- On iterations that fit, the signed arithmetic gives the code of the natural numbers. -/
theorem iterMark_ofNat {f granularity n : ℕ} (hpos : 0 < granularity) (hle : granularity ≤ 253)
    (hfn : f ≤ n) (hn : n < 2 ^ 31) :
    iterMark (Int32.ofNat f) (Int32.ofNat granularity) (Int32.ofNat n) =
      iterCode f granularity n := by
  have hmod : (n - f) % granularity + numReservedShadowValues < 256 :=
    Nat.add_lt_add_of_lt_of_le ((Nat.mod_lt (n - f) hpos).trans_le hle) le_rfl
  rw [iterMark, ← Int32.ofNat_sub _ _ hfn, ← Int32.ofNat_mod (by omega) (by omega),
    ← Int32.ofNat_add, Int32.toInt_ofNat_of_lt (by omega), iterCode, UInt8.ofInt]
  congr 1
  omega

/-- As long as no group starts, the place in the group grows. -/
theorem mod_lt_mod {granularity m n : ℕ} (hpos : 0 < granularity) (hmn : m < n)
    (hnone : ∀ k, m < k → k ≤ n → k % granularity ≠ 0) : m % granularity < n % granularity := by
  by_contra hge
  have hm := Nat.div_add_mod m granularity
  have hn := Nat.div_add_mod n granularity
  have hdiv : m / granularity < n / granularity := by
    rcases Nat.lt_or_ge (m / granularity) (n / granularity) with h | h
    · exact h
    · have hmul := Nat.mul_le_mul_left granularity h
      omega
  -- the group of `n` starts behind `m`
  apply hnone (granularity * (n / granularity))
  · have hmul : granularity * (m / granularity + 1) ≤ granularity * (n / granularity) :=
      Nat.mul_le_mul_left granularity hdiv
    have hlt := Nat.mod_lt m hpos
    rw [Nat.mul_succ] at hmul
    omega
  · omega
  · exact Nat.mul_mod_right granularity _

structure IterOk (numWorkers f n : ℕ) (p : IterProc) : Prop extends EveryIter numWorkers p where
  firstIteration : p.firstIteration = Int32.ofNat f
  currentIter : p.currentIter = Int32.ofNat n
  first_le : f ≤ n
  fits : n < 2 ^ 31
  code8 : p.code8 = iterCode f (Executive.checkpointGranularity numWorkers) n
  checkpoints : ∀ i, i ∈ p.checkpoints ↔ ∃ k, Int32.ofNat k = i ∧ f < k ∧ k ≤ n ∧
    (k - f) % Executive.checkpointGranularity numWorkers = 0

variable {q : IterProc} {f m n : ℕ}

theorem exists_ofNat {i : Iteration} (h : 0 ≤ i) : ∃ k < 2 ^ 31, Int32.ofNat k = i := by
  have hnonneg : 0 ≤ i.toInt := Int32.le_iff_toInt_le.1 h
  have hlt := i.toInt_lt
  refine ⟨i.toInt.toNat, by omega, ?_⟩
  rw [← Int32.ofInt_eq_ofNat, Int.toNat_of_nonneg hnonneg, Int32.ofInt_toInt]

theorem workerStarts_ok (hpos : 1 ≤ numWorkers) (hle : numWorkers ≤ maxWorkers) (wid : ℕ)
    (hf : f < 2 ^ 31) :
    IterOk numWorkers f f (workerStarts numWorkers wid (Int32.ofNat f)) where
  toEveryIter := workerStarts_everyIter _ wid _
  firstIteration := rfl
  currentIter := rfl
  first_le := le_rfl
  fits := hf
  code8 := iterMark_ofNat (checkpointGranularity_pos hpos hle) (checkpointGranularity_le numWorkers)
    le_rfl hf
  checkpoints i := by
    constructor
    · intro h
      cases h
    · rintro ⟨k, -, hlt, hle, -⟩
      exact absurd hle (Nat.not_le.2 hlt)

/-- Up to the current iteration, the checkpoints are the starts of groups. -/
theorem IterOk.mem_checkpoints_iff (h : IterOk numWorkers f n p) {i : Iteration}
    (hi : i ≤ p.currentIter) : i ∈ p.checkpoints ↔ ∃ k, Int32.ofNat k = i ∧ f < k ∧ k < 2 ^ 31 ∧
      (k - f) % Executive.checkpointGranularity numWorkers = 0 := by
  have hfits := h.fits
  rw [h.checkpoints]
  constructor
  · rintro ⟨k, hk, hlt, hle, hzero⟩
    exact ⟨k, hk, hlt, hle.trans_lt hfits, hzero⟩
  · rintro ⟨k, rfl, hlt, hk, hzero⟩
    rw [h.currentIter, Int32.ofNat_le_iff_le hk hfits] at hi
    exact ⟨k, rfl, hlt, hi, hzero⟩

section Groups

variable (hpos : 1 ≤ numWorkers) (hle : numWorkers ≤ maxWorkers)
include hpos hle

/-- The code is the first one exactly at the start of a group. -/
theorem iterCode_eq_iff (i : ℕ) :
    (iterCode f (Executive.checkpointGranularity numWorkers) i).toNat = numReservedShadowValues ↔
      (i - f) % Executive.checkpointGranularity numWorkers = 0 := by
  rw [toNat_iterCode (checkpointGranularity_pos hpos hle) (checkpointGranularity_le numWorkers),
    numReservedShadowValues]
  omega

theorem IterOk.ckptCheckResult_iff (h : IterOk numWorkers f n p) (hfits : n + 1 < 2 ^ 31) :
    p.ckptCheckResult = true ↔
      (n + 1 - f) % Executive.checkpointGranularity numWorkers = 0 := by
  have hnext : p.currentIter + 1 = Int32.ofNat (n + 1) := by rw [h.currentIter, Int32.ofNat_add]; rfl
  have hfn := h.first_le
  rw [h.ckptCheckResult_eq, decide_eq_true_eq, hnext, h.firstIteration, h.granularity,
    iterMark_ofNat (checkpointGranularity_pos hpos hle) (checkpointGranularity_le numWorkers)
      (by omega) hfits, iterCode_eq_iff hpos hle, and_iff_left]
  exact (Int32.ofNat_lt_iff_lt (by decide) hfits).2 (Nat.succ_pos n)

theorem IterOk.endIter (h : IterOk numWorkers f n p) (hfits : n + 1 < 2 ^ 31) {ckptUsed : ℕ}
    (hused : ckptUsed ≠ 0) : IterOk numWorkers f (n + 1) (p.endIter ckptUsed) := by
  have hnext : p.currentIter + 1 = Int32.ofNat (n + 1) := by rw [h.currentIter, Int32.ofNat_add]; rfl
  have hfn := h.first_le
  have heq := h.endIter_eq hused
  rw [hnext, h.firstIteration, h.granularity,
    iterMark_ofNat (checkpointGranularity_pos hpos hle) (checkpointGranularity_le numWorkers)
      (by omega) hfits] at heq
  have hforetold := h.ckptCheckResult_iff hpos hle hfits
  rw [heq]
  refine ⟨⟨h.everyIter, rfl, h.apiGranularity⟩, rfl, rfl, by omega, hfits, rfl, fun i => ?_⟩
  rw [List.mem_append, h.checkpoints i]
  constructor
  · rintro (⟨k, rfl, hlt, hi, hzero⟩ | hi)
    · exact ⟨k, rfl, hlt, Nat.le_succ_of_le hi, hzero⟩
    · split_ifs at hi with hstarts
      · exact ⟨n + 1, (List.mem_singleton.1 hi).symm, Nat.lt_succ_of_le hfn, le_rfl,
          hforetold.1 hstarts⟩
      · cases hi
  · rintro ⟨k, rfl, hlt, hi, hzero⟩
    rcases Nat.lt_or_eq_of_le hi with hi | rfl
    · exact Or.inl ⟨k, rfl, hlt, Nat.le_of_lt_succ hi, hzero⟩
    · rw [if_pos (hforetold.2 hzero)]
      exact Or.inr (List.mem_singleton.2 rfl)

theorem IterOk.run (h : IterOk numWorkers f n p) (calls : List Call) (hused : ∀ c ∈ calls, c.Used)
    (hfits : n + calls.countP Call.ends < 2 ^ 31) :
    IterOk numWorkers f (n + calls.countP Call.ends) (p.run calls) := by
  induction calls generalizing n p with
  | nil => exact h
  | cons c calls ih =>
      have hrest := fun d hd => hused d (List.mem_cons_of_mem _ hd)
      cases c with
      | endIter ckptUsed =>
          have hcount : (Call.endIter ckptUsed :: calls).countP Call.ends =
              calls.countP Call.ends + 1 := List.countP_cons_of_pos rfl
          rw [hcount, ← Nat.add_assoc, Nat.add_right_comm] at hfits ⊢
          have hended := h.endIter hpos hle (by omega) (hused _ List.mem_cons_self)
          exact ih hended hrest hfits
      | ckptCheck =>
          have hcount : (Call.ckptCheck :: calls).countP Call.ends = calls.countP Call.ends :=
            List.countP_cons_of_neg (by decide)
          rw [hcount] at hfits ⊢
          refine ih (p := p.call .ckptCheck) ?_ hrest hfits
          exact ⟨⟨h.everyIter, h.granularity, h.apiGranularity⟩, h.firstIteration, h.currentIter,
            h.first_le, h.fits, h.code8, h.checkpoints⟩

theorem IterOk.code8_bounds (h : IterOk numWorkers f n p) :
    3 ≤ p.code8.toNat ∧ p.code8.toNat ≤ 255 := by
  have hgranularity := checkpointGranularity_pos hpos hle
  have hlt := Nat.mod_lt (n - f) hgranularity
  have hmax := checkpointGranularity_le numWorkers
  rw [h.code8, toNat_iterCode hgranularity hmax]
  omega

/-- Between two checkpoints, later iterations have larger codes. -/
theorem IterOk.code8_lt (hp : IterOk numWorkers f m p) (hq : IterOk numWorkers f n q)
    (hlt : m < n) (hnone : ∀ k, m < k → k ≤ n → Int32.ofNat k ∉ q.checkpoints) :
    p.code8.toNat < q.code8.toNat := by
  have hgranularity := checkpointGranularity_pos hpos hle
  have hmax := checkpointGranularity_le numWorkers
  have hfirst := hp.first_le
  rw [hp.code8, hq.code8, toNat_iterCode hgranularity hmax, toNat_iterCode hgranularity hmax]
  refine Nat.add_lt_add_right (mod_lt_mod hgranularity (by omega) fun k hk hkn hzero => ?_) 3
  refine hnone (f + k) (by omega) (by omega)
    ((hq.checkpoints _).2 ⟨f + k, rfl, by omega, by omega, ?_⟩)
  rw [Nat.add_sub_cancel_left]
  exact hzero

theorem InRange.run_ok (wid : ℕ) (hf : f < 2 ^ 31) {calls : List Call}
    (hused : ∀ c ∈ calls, c.Used) (hrange : InRange (Int32.ofNat f) calls) :
    IterOk numWorkers f (f + calls.countP Call.ends)
      ((workerStarts numWorkers wid (Int32.ofNat f)).run calls) := by
  have hfits := hrange.2
  rw [Int32.toInt_ofNat_of_lt hf] at hfits
  exact (workerStarts_ok hpos hle wid hf).run hpos hle calls hused (by exact_mod_cast hfits)

/-- Two workers of one loop, started at the same iteration: a checkpoint is foretold exactly when it
is made. As long as the iterations fit, moreover, the codes are those of iterations, and grow between
two checkpoints, and both workers make their checkpoints in the same iterations. -/
theorem iterCodes (first : Iteration) (wid wid' : ℕ) (calls calls' : List Call)
    (hused : ∀ c ∈ calls, c.Used) (hused' : ∀ c ∈ calls', c.Used) :
    let p := (workerStarts numWorkers wid first).run calls
    let q := (workerStarts numWorkers wid' first).run calls'
    (∀ ckptUsed ≠ 0, (p.endIter ckptUsed).checkpoints = p.checkpoints ++ [p.currentIter + 1] ↔
      p.ckptCheckResult = true) ∧
    (InRange first calls → InRange first calls' →
      (3 ≤ p.code8.toNat ∧ p.code8.toNat ≤ 255) ∧
      (p.currentIter < q.currentIter →
        (∀ i, p.currentIter < i → i ≤ q.currentIter → i ∉ q.checkpoints) →
        p.code8.toNat < q.code8.toNat) ∧
      ∀ i ≤ p.currentIter, i ≤ q.currentIter → (i ∈ p.checkpoints ↔ i ∈ q.checkpoints)) := by
  intro p q
  have hevery := (workerStarts_everyIter numWorkers wid first).run calls hused
  refine ⟨fun ckptUsed hne => hevery.endIter_performs_iff hne, fun hrange hrange' => ?_⟩
  obtain ⟨f, hf, rfl⟩ := exists_ofNat hrange.1
  have hp := hrange.run_ok hpos hle wid hf hused
  have hq := hrange'.run_ok hpos hle wid' hf hused'
  change IterOk numWorkers f _ p at hp
  change IterOk numWorkers f _ q at hq
  refine ⟨hp.code8_bounds hpos hle, fun hlt hnone => ?_, fun i hip hiq => ?_⟩
  · rw [hp.currentIter, hq.currentIter, Int32.ofNat_lt_iff_lt hp.fits hq.fits] at hlt
    refine hp.code8_lt hpos hle hq hlt fun k hk hkn => hnone _ ?_ ?_
    · rw [hp.currentIter]
      exact (Int32.ofNat_lt_iff_lt hp.fits (hkn.trans_lt hq.fits)).2 hk
    · rw [hq.currentIter]
      exact (Int32.ofNat_le_iff_le (hkn.trans_lt hq.fits) hq.fits).2 hkn
  · rw [hp.mem_checkpoints_iff hip, hq.mem_checkpoints_iff hiq]

end Groups

theorem iterCodes_twoWorkers :
    let p := (workerStarts 2 0 5).run [.endIter 1, .ckptCheck]
    let q := (workerStarts 2 1 5).run [.endIter 1, .endIter 1]
    (∀ ckptUsed ≠ 0, (p.endIter ckptUsed).checkpoints = p.checkpoints ++ [p.currentIter + 1] ↔
      p.ckptCheckResult = true) ∧
    p.code8.toNat < q.code8.toNat ∧
    ∀ i ≤ p.currentIter, i ≤ q.currentIter → (i ∈ p.checkpoints ↔ i ∈ q.checkpoints) := by
  have h := @iterCodes 2 (by decide) (by decide) 5 0 1 [.endIter 1, .ckptCheck]
    [.endIter 1, .endIter 1] (by decide) (by decide)
  have hranges := h.2 ⟨by decide, by decide⟩ ⟨by decide, by decide⟩
  refine ⟨h.1, hranges.2.1 (by decide) fun i _ _ hi => ?_, hranges.2.2⟩
  cases hi

/-- Behind the last number, and before iteration 0, a group starts without a checkpoint: the codes
begin again. -/
theorem codes_begin_again :
    let p := fun first calls => (workerStarts 64 0 first).run (List.replicate calls (.endIter 1))
    ∀ first ∈ [2147483647, -192],
      (p first 191).currentIter < (p first 192).currentIter ∧ (p first 192).checkpoints = [] ∧
      (p first 191).code8 = 194 ∧ (p first 192).code8 = 3 := by
  intro p first hfirst
  rcases List.mem_cons.1 hfirst with rfl | hfirst
  · decide +kernel
  · cases List.mem_singleton.1 hfirst
    decide +kernel

end IterProc

end Cpf.Executive
