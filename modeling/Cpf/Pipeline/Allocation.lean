import Cpf.Basics.Blocks

/-!
# Allocation of workers to pipeline stages

The generated invocation code splits the workers over the stages (`stage2rep`), reports the split to
the runtime (`informStrategy`), and in each worker finds the stage to run by a chain of comparisons
(`invokeChain`). An operation of the generated code that has no defined result gives `none`.
-/

namespace Cpf.Pipeline

inductive StageType
  | sequential
  | replicable
  | parallel
  deriving DecidableEq

def addNsw (a b : UInt32) : Option UInt32 :=
  let sum := a.toInt32.toInt + b.toInt32.toInt
  if -2 ^ 31 ≤ sum ∧ sum < 2 ^ 31 then some (a + b) else none

def udiv (a b : UInt32) : Option UInt32 := if b = 0 then none else some (a / b)

def urem (a b : UInt32) : Option UInt32 := if b = 0 then none else some (a % b)

structure ThreadsPerParallelStage where
  roundDown : UInt32
  roundUp : UInt32

def numSequential (stages : List StageType) : UInt32 :=
  stages.foldl (fun n t => if t = .sequential then n + 1 else n) 0

def threadsPerParallelStage (numThreads : UInt32) (stages : List StageType) :
    Option ThreadsPerParallelStage := do
  let numParallelThreads ← addNsw numThreads (-numSequential stages)
  let numParallelStages := UInt32.ofNat stages.length - numSequential stages
  let roundDown ← udiv numParallelThreads numParallelStages
  let remainder ← urem numParallelThreads numParallelStages
  return ⟨roundDown, roundDown + remainder⟩

/-- The number of replicas of a stage; `first` if no parallel stage is before it. -/
def ThreadsPerParallelStage.rep (r : ThreadsPerParallelStage) (first : Bool) : StageType → UInt32
  | .parallel => if first then r.roundUp else r.roundDown
  | _ => 1

def stage2rep (r : ThreadsPerParallelStage) : Bool → List StageType → List UInt32
  | _, [] => []
  | first, t :: ts => r.rep first t :: stage2rep r (first && decide (t ≠ .parallel)) ts

/-- What a worker runs: its stage, the worker id from which replica ids are counted, and the
replication factor. -/
structure Invoke where
  stageno : ℕ
  start : UInt32
  repFactor : UInt32
  deriving DecidableEq

/-- The blocks `invoke.chain.`: the last stage is run without a comparison. -/
def invokeChain (r : ThreadsPerParallelStage) (wid : UInt32) :
    ℕ → Bool → UInt32 → List StageType → Option Invoke
  | _, _, _, [] => none
  | i, first, start, [t] => some ⟨i, start, r.rep first t⟩
  | i, first, start, t :: t' :: ts =>
      let stop := start + r.rep first t
      if wid < stop then some ⟨i, start, r.rep first t⟩
      else invokeChain r wid (i + 1) (first && decide (t ≠ .parallel)) stop (t' :: ts)

def dispatch (numThreads : UInt32) (stages : List StageType) (wid : UInt32) : Option Invoke := do
  let r ← threadsPerParallelStage numThreads stages
  invokeChain r wid 0 true 0 stages

/-- The test `on/off` of the stitched loop, in replica `repId`. -/
def onIteration (iter repFactor repId : UInt32) : Option Bool := do
  let phase ← urem iter repFactor
  return phase == repId

/-- The tables of the runtime; an element that was not stored to is `none`. -/
structure Strategy where
  stage2rep : List UInt32
  wid2stage : List (Option UInt32)
  stage2firstwid : List (Option UInt32)

def storeAt (a : List (Option UInt32)) (i v : UInt32) : Option (List (Option UInt32)) :=
  if i.toNat < a.length then some (a.set i.toNat (some v)) else none

/-- The inner loop of `__specpriv_inform_strategy`, `n` times. -/
def assignWorkers (stage : UInt32) : ℕ → UInt32 → List (Option UInt32) →
    Option (UInt32 × List (Option UInt32))
  | 0, wid, wid2stage => some (wid, wid2stage)
  | n + 1, wid, wid2stage => do
      let wid2stage ← storeAt wid2stage wid stage
      assignWorkers stage n (wid + 1) wid2stage

/-- The loop over the stages of `__specpriv_inform_strategy`. -/
def assignStages : UInt32 → List UInt32 → UInt32 → List (Option UInt32) → List (Option UInt32) →
    Option (UInt32 × List (Option UInt32) × List (Option UInt32))
  | _, [], wid, wid2stage, stage2firstwid => some (wid, wid2stage, stage2firstwid)
  | i, n :: ns, wid, wid2stage, stage2firstwid => do
      let stage2firstwid ← storeAt stage2firstwid i wid
      let (wid, wid2stage) ← assignWorkers i n.toNat wid wid2stage
      assignStages (i + 1) ns wid wid2stage stage2firstwid

/-- `__specpriv_inform_strategy`; it ends with an assertion on the number of workers. -/
def informStrategy (numWorkers : UInt32) (stage2rep : List UInt32) : Option Strategy := do
  let allocated := List.replicate numWorkers.toNat none
  let (wid, wid2stage, stage2firstwid) ← assignStages 0 stage2rep 0 allocated allocated
  if wid = numWorkers then some ⟨stage2rep, wid2stage, stage2firstwid⟩ else none

section Split

variable {r : ThreadsPerParallelStage} {stages : List StageType} {numThreads : UInt32}

theorem addNsw_neg {a b : UInt32} (ha : a.toNat < 2 ^ 31) (hb : b.toNat ≤ a.toNat) :
    ∃ c, addNsw a (-b) = some c ∧ c.toNat = a.toNat - b.toNat := by
  have hint : ∀ x : UInt32, x.toInt32.toInt =
      if 2 * x.toNat < 2 ^ 32 then (x.toNat : ℤ) else (x.toNat : ℤ) - (2 ^ 32 : ℕ) := fun x =>
    BitVec.toInt_eq_toNat_cond x.toBitVec
  have hneg : (-b).toNat = (2 ^ 32 - b.toNat) % 2 ^ 32 := UInt32.toNat_neg b
  refine ⟨a + -b, if_pos ?_, ?_⟩
  · rw [hint a, hint (-b), hneg]
    split_ifs <;> omega
  · rw [UInt32.toNat_add, hneg]
    omega

theorem toNat_foldl_numSequential (n : UInt32)
    (h : n.toNat + stages.length < 2 ^ 32) :
    (stages.foldl (fun n t => if t = .sequential then n + 1 else n) n).toNat =
      n.toNat + stages.count .sequential := by
  induction stages generalizing n with
  | nil => rfl
  | cons t ts ih =>
      rw [List.length_cons] at h
      rw [List.foldl_cons, List.count_cons]
      by_cases ht : t = .sequential
      · have hn : (n + 1).toNat = n.toNat + 1 := by
          rw [UInt32.toNat_add, UInt32.toNat_one]
          omega
        rw [if_pos ht, ih _ (by omega), hn, ht]
        simp only [beq_self_eq_true, if_true]
        omega
      · rw [if_neg ht, ih _ (by omega)]
        simp [ht]

theorem toNat_numSequential (h : stages.length < 2 ^ 32) :
    (numSequential stages).toNat = stages.count .sequential := by
  rw [numSequential, toNat_foldl_numSequential 0 (by rw [UInt32.toNat_zero]; omega),
    UInt32.toNat_zero, Nat.zero_add]

theorem count_add_count (hkinds : ∀ t ∈ stages, t ≠ .replicable) :
    stages.count .sequential + stages.count .parallel = stages.length := by
  induction stages with
  | nil => rfl
  | cons t ts ih =>
      have hts := ih (fun u hu => hkinds u (List.mem_cons_of_mem t hu))
      cases t with
      | sequential =>
          rw [List.count_cons_self, List.count_cons_of_ne (by decide), List.length_cons]
          omega
      | replicable => exact absurd rfl (hkinds _ List.mem_cons_self)
      | parallel =>
          rw [List.count_cons_self, List.count_cons_of_ne (by decide), List.length_cons]
          omega

theorem toNat_numParallelStages (hlen : stages.length < 2 ^ 32)
    (hkinds : ∀ t ∈ stages, t ≠ .replicable) :
    (UInt32.ofNat stages.length - numSequential stages).toNat = stages.count .parallel := by
  have hseq := toNat_numSequential hlen
  have hcount := count_add_count hkinds
  have hofNat : (UInt32.ofNat stages.length).toNat = stages.length := UInt32.toNat_ofNat_of_lt hlen
  rw [UInt32.toNat_sub, hofNat, hseq]
  omega

theorem threadsPerParallelStage_eq (hmax : numThreads.toNat < 2 ^ 31)
    (hmin : stages.length ≤ numThreads.toNat) (hkinds : ∀ t ∈ stages, t ≠ .replicable)
    (hpar : .parallel ∈ stages) :
    ∃ r, threadsPerParallelStage numThreads stages = some r ∧ 1 ≤ r.roundDown.toNat ∧
      1 ≤ r.roundUp.toNat ∧
      stages.count .sequential + r.roundUp.toNat +
        (stages.count .parallel - 1) * r.roundDown.toNat = numThreads.toNat := by
  have hlen : stages.length < 2 ^ 32 := by omega
  have hseq := toNat_numSequential hlen
  have hcount := count_add_count hkinds
  obtain ⟨c, hadd, hc⟩ := addNsw_neg hmax (b := numSequential stages) (by omega)
  obtain ⟨p, hp⟩ : ∃ p, p = UInt32.ofNat stages.length - numSequential stages := ⟨_, rfl⟩
  have hpn : p.toNat = stages.count .parallel := by rw [hp, toNat_numParallelStages hlen hkinds]
  have hpos : 0 < stages.count .parallel := List.count_pos_iff.2 hpar
  have hne : p ≠ 0 := by
    rintro rfl
    rw [← hpn] at hpos
    exact absurd hpos (lt_irrefl 0)
  have hdown : (c / p).toNat = c.toNat / stages.count .parallel := by rw [UInt32.toNat_div, hpn]
  have hrem : (c % p).toNat = c.toNat % stages.count .parallel := by rw [UInt32.toNat_mod, hpn]
  have hsplit := Nat.div_add_mod c.toNat (stages.count .parallel)
  have hle : stages.count .parallel ≤ c.toNat := by omega
  have hquot : 1 ≤ c.toNat / stages.count .parallel := Nat.div_pos hle hpos
  obtain ⟨k, hk⟩ : ∃ k, stages.count .parallel = k + 1 := ⟨_, (Nat.succ_pred hpos.ne').symm⟩
  rw [hk] at hdown hrem hsplit hquot ⊢
  rw [Nat.add_mul, Nat.one_mul] at hsplit
  have hup : (c / p + c % p).toNat = c.toNat / (k + 1) + c.toNat % (k + 1) := by
    have hlt := c.toNat_lt
    rw [UInt32.toNat_add, hdown, hrem]
    omega
  refine ⟨⟨c / p, c / p + c % p⟩, ?_, ?_, ?_, ?_⟩
  · unfold threadsPerParallelStage
    rw [hadd, ← hp]
    simp only [Option.bind_eq_bind, Option.bind_some, udiv, urem, if_neg hne]
    rfl
  · rw [hdown]
    exact hquot
  · rw [hup]
    omega
  · rw [hup, hdown, Nat.add_sub_cancel]
    omega

theorem threadsPerParallelStage_eq_none (hlen : stages.length < 2 ^ 32)
    (hkinds : ∀ t ∈ stages, t ≠ .replicable) (hpar : .parallel ∉ stages) :
    threadsPerParallelStage numThreads stages = none := by
  have hzero : UInt32.ofNat stages.length - numSequential stages = 0 := by
    apply UInt32.toNat_inj.1
    rw [toNat_numParallelStages hlen hkinds, List.count_eq_zero_of_not_mem hpar]
    rfl
  unfold threadsPerParallelStage
  cases addNsw numThreads (-numSequential stages) with
  | none => rfl
  | some n =>
      rw [hzero]
      rfl

def reps (r : ThreadsPerParallelStage) (first : Bool) (stages : List StageType) : List ℕ :=
  (stage2rep r first stages).map UInt32.toNat

theorem sum_reps_of_not_first (hkinds : ∀ t ∈ stages, t ≠ .replicable) :
    (reps r false stages).sum =
      stages.count .sequential + stages.count .parallel * r.roundDown.toNat := by
  induction stages with
  | nil => simp [reps, stage2rep]
  | cons t ts ih =>
      have hts := ih (fun u hu => hkinds u (List.mem_cons_of_mem t hu))
      have hcons : (reps r false (t :: ts)).sum = (r.rep false t).toNat + (reps r false ts).sum := by
        rfl
      rw [hcons, hts]
      cases t with
      | sequential =>
          rw [List.count_cons_self, List.count_cons_of_ne (by decide)]
          change 1 + _ = _
          omega
      | replicable => exact absurd rfl (hkinds _ List.mem_cons_self)
      | parallel =>
          rw [List.count_cons_self, List.count_cons_of_ne (by decide), Nat.add_mul, Nat.one_mul]
          change r.roundDown.toNat + _ = _
          omega

theorem sum_reps (hkinds : ∀ t ∈ stages, t ≠ .replicable) (hpar : .parallel ∈ stages) :
    (reps r true stages).sum = stages.count .sequential + r.roundUp.toNat +
      (stages.count .parallel - 1) * r.roundDown.toNat := by
  induction stages with
  | nil => cases hpar
  | cons t ts ih =>
      have hkinds' : ∀ u ∈ ts, u ≠ .replicable := fun u hu => hkinds u (List.mem_cons_of_mem t hu)
      cases t with
      | sequential =>
          have hmem : .parallel ∈ ts := (List.mem_cons.1 hpar).resolve_left (by decide)
          have hcons : (reps r true (.sequential :: ts)).sum = 1 + (reps r true ts).sum := rfl
          rw [hcons, ih hkinds' hmem, List.count_cons_self, List.count_cons_of_ne (by decide)]
          omega
      | replicable => exact absurd rfl (hkinds _ List.mem_cons_self)
      | parallel =>
          have hcons : (reps r true (.parallel :: ts)).sum =
              r.roundUp.toNat + (reps r false ts).sum := rfl
          rw [hcons, sum_reps_of_not_first hkinds', List.count_cons_self,
            List.count_cons_of_ne (by decide), Nat.add_sub_cancel]
          omega

theorem one_le_of_mem_stage2rep {first : Bool} (hdown : 1 ≤ r.roundDown.toNat)
    (hup : 1 ≤ r.roundUp.toNat) {n : UInt32} (hn : n ∈ stage2rep r first stages) :
    1 ≤ n.toNat := by
  induction stages generalizing first with
  | nil => cases hn
  | cons t ts ih =>
      rcases List.mem_cons.1 hn with rfl | hn
      · cases t with
        | sequential => exact le_rfl
        | replicable => exact le_rfl
        | parallel =>
            cases first with
            | false => exact hdown
            | true => exact hup
      · exact ih hn

end Split

section Chain

theorem reps_cons (r : ThreadsPerParallelStage) (first : Bool) (t : StageType)
    (ts : List StageType) : reps r first (t :: ts) =
      (r.rep first t).toNat :: reps r (first && decide (t ≠ .parallel)) ts := rfl

theorem invokeChain_eq (r : ThreadsPerParallelStage) (stages : List StageType) (wid : UInt32)
    (k : ℕ) (first : Bool) (start : UInt32) (hle : start ≤ wid)
    (hlt : wid.toNat < start.toNat + (reps r first stages).sum)
    (hmax : start.toNat + (reps r first stages).sum < 2 ^ 32) :
    ∃ i d, invokeChain r wid k first start stages = some d ∧
      InBlock (reps r first stages) i (wid.toNat - start.toNat) ∧ d.stageno = k + i ∧
      d.start.toNat = start.toNat + blockStart (reps r first stages) i ∧
      (stage2rep r first stages)[i]? = some d.repFactor := by
  rw [UInt32.le_iff_toNat_le] at hle
  induction stages generalizing k first start with
  | nil =>
      change wid.toNat < start.toNat + 0 at hlt
      omega
  | cons t ts ih =>
      rw [reps_cons, List.sum_cons] at hlt hmax
      rw [reps_cons]
      have hstop : (start + r.rep first t).toNat = start.toNat + (r.rep first t).toNat := by
        rw [UInt32.toNat_add]
        omega
      have hfirst (hin : wid.toNat < start.toNat + (r.rep first t).toNat) :
          ∃ i d, some (⟨k, start, r.rep first t⟩ : Invoke) = some d ∧
            InBlock ((r.rep first t).toNat :: reps r (first && decide (t ≠ .parallel)) ts) i
              (wid.toNat - start.toNat) ∧ d.stageno = k + i ∧
            d.start.toNat = start.toNat +
              blockStart ((r.rep first t).toNat :: reps r (first && decide (t ≠ .parallel)) ts) i ∧
            (stage2rep r first (t :: ts))[i]? = some d.repFactor :=
        ⟨0, _, rfl, inBlock_cons_zero (by omega), rfl, by rw [blockStart_zero, Nat.add_zero], rfl⟩
      cases ts with
      | nil =>
          apply hfirst
          change wid.toNat < start.toNat + ((r.rep first t).toNat + 0) at hlt
          omega
      | cons t' ts =>
          rw [invokeChain]
          by_cases hin : wid < start + r.rep first t
          · rw [if_pos hin]
            apply hfirst
            rw [UInt32.lt_iff_toNat_lt, hstop] at hin
            exact hin
          · rw [if_neg hin]
            rw [UInt32.lt_iff_toNat_lt, hstop] at hin
            obtain ⟨i, d, hd, hblock, hstage, hstart, hrep⟩ := ih (k + 1)
              (first && decide (t ≠ .parallel)) (start + r.rep first t) (by omega) (by omega)
              (by omega)
            rw [hstop] at hblock hstart
            refine ⟨i + 1, d, hd, ?_, ?_, ?_, hrep⟩
            · have hshift := hblock.cons (r.rep first t).toNat
              rwa [show (r.rep first t).toNat + (wid.toNat - (start.toNat + (r.rep first t).toNat)) =
                wid.toNat - start.toNat by omega] at hshift
            · omega
            · rw [hstart, blockStart_cons_succ]
              omega

end Chain

section Tables

theorem storeAt_append (done : List (Option UInt32)) (m : ℕ) {i v : UInt32}
    (hi : i.toNat = done.length) : storeAt (done ++ List.replicate (m + 1) none) i v =
      some ((done ++ [some v]) ++ List.replicate m none) := by
  have hlt : i.toNat < (done ++ List.replicate (m + 1) none).length := by
    rw [hi, List.length_append, List.length_replicate]
    omega
  rw [storeAt, if_pos hlt, hi, List.set_append_right _ _ le_rfl, Nat.sub_self,
    List.replicate_succ, List.set_cons_zero, List.append_assoc]
  rfl

theorem assignWorkers_eq (stage : UInt32) (n m : ℕ) (wid : UInt32) (done : List (Option UInt32))
    (hwid : wid.toNat = done.length) (hmax : done.length + n < 2 ^ 32) :
    ∃ wid', assignWorkers stage n wid (done ++ List.replicate (n + m) none) =
        some (wid', (done ++ List.replicate n (some stage)) ++ List.replicate m none) ∧
      wid'.toNat = done.length + n := by
  induction n generalizing wid done with
  | zero => exact ⟨wid, by simp [assignWorkers], hwid⟩
  | succ n ih =>
      have hnext : (wid + 1).toNat = (done ++ [some stage]).length := by
        rw [UInt32.toNat_add, UInt32.toNat_one, List.length_append, List.length_singleton]
        omega
      obtain ⟨wid', heq, hwid'⟩ := ih (wid + 1) (done ++ [some stage]) hnext (by
        rw [List.length_append, List.length_singleton]
        omega)
      refine ⟨wid', ?_, ?_⟩
      · rw [assignWorkers, Nat.add_right_comm, storeAt_append done _ hwid]
        simp only [Option.bind_eq_bind, Option.bind_some]
        rw [heq, List.replicate_succ]
        simp only [List.append_assoc, List.cons_append, List.nil_append]
      · rw [hwid', List.length_append, List.length_singleton]
        omega

/-- The tables after the loop over the stages. -/
theorem assignStages_eq (ns : List UInt32) (k wid : UInt32) (done firsts : List (Option UInt32))
    (m l : ℕ) (hwid : wid.toNat = done.length) (hk : k.toNat = firsts.length)
    (hmax : done.length + (ns.map UInt32.toNat).sum < 2 ^ 32)
    (hlen : firsts.length + ns.length < 2 ^ 32) :
    ∃ wid', assignStages k ns wid (done ++ List.replicate ((ns.map UInt32.toNat).sum + m) none)
        (firsts ++ List.replicate (ns.length + l) none) =
      some (wid', (done ++ labels (fun i => some (UInt32.ofNat i)) k.toNat (ns.map UInt32.toNat)) ++
          List.replicate m none,
        (firsts ++ (List.range ns.length).map (fun i => some (UInt32.ofNat
          (done.length + blockStart (ns.map UInt32.toNat) i)))) ++ List.replicate l none) ∧
      wid'.toNat = done.length + (ns.map UInt32.toNat).sum := by
  induction ns generalizing k wid done firsts with
  | nil => exact ⟨wid, by simp [assignStages, labels], by simpa using hwid⟩
  | cons n ns ih =>
      rw [List.map_cons, List.sum_cons] at hmax
      rw [List.length_cons] at hlen
      obtain ⟨wid', hassign, hwid'⟩ := assignWorkers_eq k n.toNat
        ((ns.map UInt32.toNat).sum + m) wid done hwid (by omega)
      have hk' : (k + 1).toNat = k.toNat + 1 := by
        rw [UInt32.toNat_add, UInt32.toNat_one]
        omega
      have hnext : (k + 1).toNat = (firsts ++ [some wid]).length := by
        rw [hk', List.length_append, List.length_singleton, hk]
      have hdone : wid'.toNat = (done ++ List.replicate n.toNat (some k)).length := by
        rw [List.length_append, List.length_replicate]
        exact hwid'
      obtain ⟨wid'', hrest, hwid''⟩ := ih (k + 1) wid' _ _ hdone hnext (by
        rw [← hdone, hwid']
        omega) (by
        rw [List.length_append, List.length_singleton]
        omega)
      rw [← hdone] at hwid'' hrest
      refine ⟨wid'', ?_, ?_⟩
      · rw [assignStages, List.length_cons, Nat.add_right_comm, storeAt_append firsts _ hk]
        simp only [Option.bind_eq_bind, Option.bind_some]
        rw [List.map_cons, List.sum_cons, Nat.add_assoc, hassign]
        simp only [Option.bind_some]
        have hlabel : some (UInt32.ofNat k.toNat) = some k := congrArg some (UInt32.ofNat_toNat)
        have hfirst : some (UInt32.ofNat done.length) = some wid := by rw [← hwid, UInt32.ofNat_toNat]
        have hstart : ∀ i, some (UInt32.ofNat (wid'.toNat + blockStart (ns.map UInt32.toNat) i)) =
            some (UInt32.ofNat (done.length +
              blockStart (n.toNat :: ns.map UInt32.toNat) (i + 1))) := fun i => by
          rw [hwid', blockStart_cons_succ, Nat.add_assoc]
        rw [hrest, labels, hlabel, ← hk', List.range_succ_eq_map, List.map_cons, List.map_map,
          blockStart_zero, Nat.add_zero, hfirst]
        simp only [List.append_assoc, List.cons_append, List.nil_append, hstart, Function.comp_def]
      · rw [hwid'', hwid', List.map_cons, List.sum_cons]
        omega

/-- The runtime records the blocks of the replication counts. -/
theorem informStrategy_eq {numWorkers : UInt32} {ns : List UInt32}
    (hsum : (ns.map UInt32.toNat).sum = numWorkers.toNat) (hlen : ns.length ≤ numWorkers.toNat) :
    ∃ strategy, informStrategy numWorkers ns = some strategy ∧
      ∀ i w, InBlock (ns.map UInt32.toNat) i w →
        strategy.wid2stage[w]? = some (some (UInt32.ofNat i)) ∧
        strategy.stage2firstwid[i]? =
          some (some (UInt32.ofNat (blockStart (ns.map UInt32.toNat) i))) := by
  have hmax := numWorkers.toNat_lt
  obtain ⟨l, hl⟩ := Nat.exists_eq_add_of_le hlen
  obtain ⟨wid, hassign, hwid⟩ := assignStages_eq ns 0 0 [] [] 0 l rfl rfl
    (by rw [hsum, List.length_nil]; omega) (by rw [List.length_nil]; omega)
  simp only [List.nil_append, List.replicate_zero, List.append_nil, List.length_nil, Nat.add_zero,
    Nat.zero_add, UInt32.toNat_zero, hsum, ← hl, UInt32.toNat_inj] at hassign hwid
  subst hwid
  refine ⟨⟨ns, labels (fun i => some (UInt32.ofNat i)) 0 (ns.map UInt32.toNat),
    (List.range ns.length).map (fun i => some (UInt32.ofNat (blockStart (ns.map UInt32.toNat) i))) ++
      List.replicate l none⟩, ?_, fun i w hblock => ⟨?_, ?_⟩⟩
  · simp only [informStrategy, hassign, Option.bind_eq_bind, Option.bind_some, if_true]
  · dsimp only
    rw [getElem_labels 0 hblock, Nat.zero_add]
  · have hi : i < ns.length := by
      rw [← List.length_map UInt32.toNat]
      exact hblock.1
    dsimp only
    rw [List.getElem?_append_left (by
      rw [List.length_map, List.length_range]
      exact hi), List.getElem?_map, List.getElem?_range hi, Option.map_some]

end Tables

/-- The counts, the tables of the runtime and the chain agree. -/
structure Agrees (numWorkers : UInt32) (stages : List StageType) (counts : List UInt32)
    (strategy : Strategy) : Prop where
  pos : ∀ n ∈ counts, 1 ≤ n.toNat
  sum : (counts.map UInt32.toNat).sum = numWorkers.toNat
  dispatched : ∀ wid < numWorkers, ∃ d, dispatch numWorkers stages wid = some d ∧
    strategy.wid2stage[wid.toNat]? = some (some (UInt32.ofNat d.stageno)) ∧
    strategy.stage2firstwid[d.stageno]? = some (some d.start)
  on : ∀ i, stages[i]? = some .parallel → ∀ iter : UInt32, ∃! wid, wid < numWorkers ∧
    ∃ d, dispatch numWorkers stages wid = some d ∧ d.stageno = i ∧
      onIteration iter d.repFactor (wid - d.start) = some true

/-- Every operation of the generated code and of the runtime has a defined result, and these
agree. -/
def Allocated (numWorkers : UInt32) (stages : List StageType) : Prop :=
  ∃ r strategy, threadsPerParallelStage numWorkers stages = some r ∧
    informStrategy numWorkers (stage2rep r true stages) = some strategy ∧
    Agrees numWorkers stages (stage2rep r true stages) strategy

section Agreement

variable {numWorkers : UInt32} {stages : List StageType} {r : ThreadsPerParallelStage}

theorem length_stage2rep (r : ThreadsPerParallelStage) (first : Bool) (stages : List StageType) :
    (stage2rep r first stages).length = stages.length := by
  induction stages generalizing first with
  | nil => rfl
  | cons t ts ih => rw [stage2rep, List.length_cons, List.length_cons, ih]

theorem dispatch_eq (hr : threadsPerParallelStage numWorkers stages = some r)
    (hsum : (reps r true stages).sum = numWorkers.toNat) {wid : UInt32} (hwid : wid < numWorkers) :
    ∃ i d, dispatch numWorkers stages wid = some d ∧ InBlock (reps r true stages) i wid.toNat ∧
      d.stageno = i ∧ d.start.toNat = blockStart (reps r true stages) i ∧
      (stage2rep r true stages)[i]? = some d.repFactor := by
  rw [UInt32.lt_iff_toNat_lt] at hwid
  have hmax := numWorkers.toNat_lt
  obtain ⟨i, d, hd, hblock, hstage, hstart, hrep⟩ := invokeChain_eq r stages wid 0 true 0
    (UInt32.le_iff_toNat_le.2 (Nat.zero_le _))
    (by rw [UInt32.toNat_zero]; omega) (by rw [UInt32.toNat_zero]; omega)
  rw [UInt32.toNat_zero, Nat.sub_zero] at hblock
  rw [UInt32.toNat_zero, Nat.zero_add] at hstart
  rw [Nat.zero_add] at hstage
  refine ⟨i, d, ?_, hblock, hstage, hstart, hrep⟩
  unfold dispatch
  rw [hr]
  exact hd

theorem onIteration_iff {iter n repId : UInt32} (hn : 1 ≤ n.toNat) :
    onIteration iter n repId = some true ↔ iter.toNat % n.toNat = repId.toNat := by
  have hne : n ≠ 0 := by
    rintro rfl
    exact absurd hn (by decide)
  simp only [onIteration, urem, if_neg hne, Option.bind_eq_bind, Option.bind_some,
    Option.pure_def, Option.some_inj, beq_iff_eq]
  rw [← UInt32.toNat_mod, UInt32.toNat_inj]

theorem toNat_repId {d : Invoke} {i : ℕ} {wid : UInt32}
    (hblock : InBlock (reps r true stages) i wid.toNat)
    (hstart : d.start.toNat = blockStart (reps r true stages) i) :
    (wid - d.start).toNat = wid.toNat - blockStart (reps r true stages) i := by
  have hle : d.start ≤ wid := by
    rw [UInt32.le_iff_toNat_le, hstart]
    exact hblock.2.1
  rw [UInt32.toNat_sub_of_le _ _ hle, hstart]

theorem exists_unique_on (hr : threadsPerParallelStage numWorkers stages = some r)
    (hsum : (reps r true stages).sum = numWorkers.toNat)
    (hpos : ∀ n ∈ stage2rep r true stages, 1 ≤ n.toNat) {i : ℕ} (hi : i < stages.length)
    (iter : UInt32) : ∃! wid, wid < numWorkers ∧
      ∃ d, dispatch numWorkers stages wid = some d ∧ d.stageno = i ∧
        onIteration iter d.repFactor (wid - d.start) = some true := by
  obtain ⟨n, hn⟩ : ∃ n, (stage2rep r true stages)[i]? = some n :=
    ⟨_, List.getElem?_eq_getElem (by rw [length_stage2rep]; exact hi)⟩
  have hnpos := hpos n (List.mem_of_getElem? hn)
  have hsucc : blockStart (reps r true stages) (i + 1) = blockStart (reps r true stages) i + n.toNat :=
    blockStart_succ (by rw [reps, List.getElem?_map, hn, Option.map_some])
  have hmod := Nat.mod_lt iter.toNat hnpos
  have hlast := blockStart_le_sum (reps r true stages) (i + 1)
  have hmax := numWorkers.toNat_lt
  obtain ⟨wid, hwid⟩ : ∃ wid : UInt32,
      wid.toNat = blockStart (reps r true stages) i + iter.toNat % n.toNat :=
    ⟨UInt32.ofNat _, UInt32.toNat_ofNat_of_lt (show _ < 2 ^ 32 by omega)⟩
  have hlt : wid < numWorkers := by
    rw [UInt32.lt_iff_toNat_lt]
    omega
  have hblock : InBlock (reps r true stages) i wid.toNat := by
    refine ⟨?_, by omega, by omega⟩
    rw [reps, List.length_map, length_stage2rep]
    exact hi
  obtain ⟨j, d, hd, hblock', hstage, hstart, hrep⟩ := dispatch_eq hr hsum hlt
  obtain rfl := hblock.unique hblock'
  rw [hn, Option.some_inj] at hrep
  refine ⟨wid, ⟨hlt, d, hd, hstage, ?_⟩, ?_⟩
  · rw [← hrep, onIteration_iff hnpos, toNat_repId hblock hstart]
    omega
  · rintro wid' ⟨hlt', d', hd', hstage', hon⟩
    obtain ⟨j, e, he, hblock'', hstage'', hstart', hrep'⟩ := dispatch_eq hr hsum hlt'
    rw [hd', Option.some_inj] at he
    subst e
    obtain rfl : i = j := hstage'.symm.trans hstage''
    rw [hn, Option.some_inj] at hrep'
    rw [← hrep', onIteration_iff hnpos, toNat_repId hblock'' hstart'] at hon
    apply UInt32.toNat_inj.1
    have hle := hblock''.2.1
    omega

end Agreement

/-- The allocation is defined and agrees if and only if some stage is parallel. -/
theorem allocated_iff {numWorkers : UInt32} {stages : List StageType}
    (hmax : numWorkers.toNat < 2 ^ 31) (hmin : stages.length ≤ numWorkers.toNat)
    (hkinds : ∀ t ∈ stages, t ≠ .replicable) :
    Allocated numWorkers stages ↔ .parallel ∈ stages := by
  constructor
  · rintro ⟨r, strategy, hr, _⟩
    by_contra hpar
    rw [threadsPerParallelStage_eq_none (by omega) hkinds hpar] at hr
    cases hr
  · intro hpar
    obtain ⟨r, hr, hdown, hup, hsplit⟩ := threadsPerParallelStage_eq hmax hmin hkinds hpar
    have hsum : (reps r true stages).sum = numWorkers.toNat := by
      rw [sum_reps hkinds hpar, hsplit]
    have hpos : ∀ n ∈ stage2rep r true stages, 1 ≤ n.toNat := fun n hn =>
      one_le_of_mem_stage2rep hdown hup hn
    obtain ⟨strategy, hinform, htables⟩ := informStrategy_eq hsum
      (by rw [length_stage2rep]; exact hmin)
    refine ⟨r, strategy, hr, hinform, hpos, hsum, fun wid hwid => ?_, fun i hi iter => ?_⟩
    · obtain ⟨i, d, hd, hblock, rfl, hstart, _⟩ := dispatch_eq hr hsum hwid
      obtain ⟨hstage, hfirst⟩ := htables _ _ hblock
      refine ⟨d, hd, hstage, hfirst.trans ?_⟩
      rw [← UInt32.ofNat_toNat (x := d.start), hstart]
      rfl
    · obtain ⟨hlt, _⟩ := List.getElem?_eq_some_iff.1 hi
      exact exists_unique_on hr hsum hpos hlt iter

/-- Six workers for a sequential, two parallel and a sequential stage. -/
theorem allocated_iff_fourStages :
    Allocated 6 [.sequential, .parallel, .parallel, .sequential] :=
  (allocated_iff (by decide) (by decide) (by decide)).2 (by decide)

/-- Two sequential stages. -/
theorem sequential_stages_divide_by_zero : ¬ ∀ (numWorkers : UInt32) (stages : List StageType),
    numWorkers.toNat < 2 ^ 31 → stages.length ≤ numWorkers.toNat →
      (∀ t ∈ stages, t ≠ .replicable) → Allocated numWorkers stages := by
  intro hall
  obtain ⟨r, _, hr, _⟩ := hall 2 [.sequential, .sequential] (by decide) (by decide) (by decide)
  have hnone : threadsPerParallelStage 2 [.sequential, .sequential] = none := by decide
  rw [hnone] at hr
  cases hr

end Cpf.Pipeline
