import Cpf.Graph.Ebk

/-!
# The weights of the loops

`computeWeights` turns what the estimators say about a loop and its pipeline into the time that is
saved, once in the units of the estimators and once scaled to the loop profile. The clique search
adds up the scaled weights. Times are `unsigned long`, weights are `long`.
-/

namespace Cpf.Planner

open Cpf.Graph

/-- The arithmetic on doubles that the code uses; nothing is assumed of it. -/
structure TimeOps (D : Type) where
  ofULong : UInt64 → D
  ofLong : Int64 → D
  mul : D → D → D
  div : D → D → D
  isZero : D → Bool
  toULong : D → UInt64

/-- What comes of a target loop: there is no dependence graph, no strategy is found, or one whose
pipeline has the weight that is given. -/
inductive Outcome (D : Type)
  | noPDG
  | notApplicable
  | pipeline (weight : D)

/-- What `computeWeights` reads about a target loop: its weight by the estimators, its depth, its
time by the loop profile, and the outcome. -/
structure Target (D : Type) where
  loopTime : D
  loopDepth : UInt32
  depth_pos : 0 < loopDepth
  profileTime : UInt64
  outcome : Outcome D

variable {D : Type} (ops : TimeOps D)

namespace Target

variable (t : Target D)

def adjLoopTime : UInt64 :=
  let scaledLoopTime := ops.toULong (ops.mul (ops.ofULong 1000) t.loopTime)
  let depthPenalty := (10000 * (t.loopDepth - 1)).toUInt64
  if depthPenalty < scaledLoopTime then scaledLoopTime - depthPenalty
  else if depthPenalty / 10 < scaledLoopTime then scaledLoopTime - depthPenalty / 10
  else scaledLoopTime

end Target

def estimatePipelineWeight (weight : D) : UInt64 := ops.toULong (ops.mul (ops.ofULong 1000) weight)

namespace Target

variable (t : Target D)

/-- `wt`: the difference of two `unsigned long`, read as a `long`. -/
def wt (weight : D) : Int64 := (t.adjLoopTime ops - estimatePipelineWeight ops weight).toInt64

def scaledwt (weight : D) : UInt64 :=
  if ops.isZero t.loopTime then 0
  else ops.toULong (ops.div (ops.mul (ops.ofLong (t.wt ops weight)) (ops.ofULong t.profileTime))
    t.loopTime)

def weights : Int64 × Int64 :=
  match t.outcome with
  | .pipeline weight =>
    if t.wt ops weight < 0 then (0, 0) else (t.wt ops weight, (t.scaledwt ops weight).toInt64)
  | _ => (0, 0)

def notApplicable : Bool :=
  match t.outcome with
  | .notApplicable => true
  | _ => false

end Target

/-- The loop over `v` that erases the edges of a loop without strategy. -/
def eraseEdges (N i : ℕ) (edges : Finset (ℕ × ℕ)) : Finset (ℕ × ℕ) :=
  edges.filter fun e => ¬ (e.1 = i ∧ e.2 < N ∨ e.2 = i ∧ e.1 < N)

structure Weights where
  edges : Finset (ℕ × ℕ)
  weights : List Int64
  scaledweights : List Int64

/-- `const unsigned N = vertices.size()`. -/
def loopCount (ts : List (Target D)) : ℕ := ts.length % 2 ^ 32

def computeWeights (ts : List (Target D)) (edges : Finset (ℕ × ℕ)) : Weights where
  edges := ((ts.take (loopCount ts)).zipIdx).foldl (fun edges p =>
    if p.1.notApplicable then eraseEdges (loopCount ts) p.2 edges else edges) edges
  weights := (ts.take (loopCount ts)).map fun t => (t.weights ops).1
  scaledweights := (ts.take (loopCount ts)).map fun t => (t.weights ops).2

/-- The scaled weight of a loop as it is computed, an `unsigned long`. -/
def Target.scaledWeight (t : Target D) : ℕ :=
  match t.outcome with
  | .pipeline weight => if t.wt ops weight < 0 then 0 else (t.scaledwt ops weight).toNat
  | _ => 0

/-- The exact sum of the scaled weights of a set of loops. -/
def totalOf (ts : List (Target D)) (K : Finset ℕ) : ℕ :=
  ∑ i ∈ K, ((ts[i]?).map (·.scaledWeight ops)).getD 0

/-- A positive weight is the exact difference of an adjusted loop time and a smaller pipeline
weight. -/
def Target.ExactSavings (t : Target D) : Prop :=
  0 < (t.weights ops).1 → ∃ weight, t.outcome = .pipeline weight ∧
    estimatePipelineWeight ops weight < t.adjLoopTime ops ∧
    (t.weights ops).1.toInt = (t.adjLoopTime ops).toNat - (estimatePipelineWeight ops weight).toNat

/-- Every sum that the clique search takes is exact, and so is the one it returns. -/
def ExactTotals (ts : List (Target D)) (edges : Finset (ℕ × ℕ)) : Prop :=
  let w := computeWeights ops ts edges
  ∀ mwcp, ∃ enough, ∀ fuel ≥ enough, ∃ cliques b,
    leaves w.edges (loopCount ts) fuel [] (List.range (loopCount ts)) [] = .ok cliques ∧
    ebk fuel w.edges w.scaledweights mwcp = .ok b ∧
    (∀ c ∈ cliques, (cliqueWeight w.scaledweights c).toInt = totalOf ops ts c.toFinset) ∧
    b.bestWt.toInt = totalOf ops ts b.best.toFinset

variable {ops} {t : Target D} {ts : List (Target D)} {edges : Finset (ℕ × ℕ)} {K : Finset ℕ}

theorem toInt_toInt64 (a : UInt64) : a.toInt64.toInt = (a.toNat : ℤ).bmod (2 ^ 64) := by
  rw [← Int64.toInt_toBitVec, UInt64.toBitVec_toInt64, BitVec.toInt_eq_toNat_bmod,
    UInt64.toNat_toBitVec]

theorem toInt_sub (a b : UInt64) :
    (a - b).toInt64.toInt = ((a.toNat : ℤ) - b.toNat).bmod (2 ^ 64) := by
  rw [UInt64.toInt64_sub, Int64.toInt_sub, toInt_toInt64, toInt_toInt64, Int.sub_bmod_bmod,
    Int.bmod_sub_bmod]

theorem toInt_wt (ops : TimeOps D) (t : Target D) (weight : D) : (t.wt ops weight).toInt =
    ((t.adjLoopTime ops).toNat - (estimatePipelineWeight ops weight).toNat : ℤ).bmod (2 ^ 64) :=
  toInt_sub _ _

theorem toInt_weight_of_pipeline {weight : D} (h : t.outcome = .pipeline weight) :
    (t.weights ops).1.toInt = max 0 (t.wt ops weight).toInt := by
  unfold Target.weights
  rw [h]
  dsimp only
  split_ifs with hneg
  · exact (max_eq_left (Int64.lt_iff_toInt_lt.1 hneg).le).symm
  · exact (max_eq_right (Int64.le_iff_toInt_le.1 (Int64.not_lt.1 hneg))).symm

theorem weights_of_not_pipeline (h : ∀ weight, t.outcome ≠ .pipeline weight) :
    t.weights ops = (0, 0) := by
  unfold Target.weights
  rcases hout : t.outcome with _ | _ | weight
  · rfl
  · rfl
  · exact absurd hout (h weight)

/-- The difference is read as a positive weight when it wraps below `-2 ^ 63`. -/
theorem exactSavings_iff : t.ExactSavings ops ↔ ∀ weight, t.outcome = .pipeline weight →
    (estimatePipelineWeight ops weight).toNat ≤ (t.adjLoopTime ops).toNat + 2 ^ 63 := by
  unfold Target.ExactSavings
  rw [Int64.lt_iff_toInt_lt, Int64.toInt_zero]
  constructor
  · intro h weight hout
    have hwt := toInt_wt ops t weight
    have he := (estimatePipelineWeight ops weight).toNat_lt
    rw [toInt_weight_of_pipeline hout] at h
    by_contra hgt
    have hpos : 0 < (t.wt ops weight).toInt := by
      rw [hwt, Int.bmod_def]
      split_ifs <;> omega
    obtain ⟨weight', hout', hlt, -⟩ := h (lt_max_of_lt_right hpos)
    rw [hout, Outcome.pipeline.injEq] at hout'
    rw [← hout', UInt64.lt_iff_toNat_lt] at hlt
    omega
  · intro h hpos
    by_cases hout : ∃ weight, t.outcome = .pipeline weight
    · obtain ⟨weight, hout⟩ := hout
      have hle := h weight hout
      have hwt := toInt_wt ops t weight
      have ha := (t.adjLoopTime ops).toNat_lt
      rw [toInt_weight_of_pipeline hout] at hpos ⊢
      rw [Int.bmod_def] at hwt
      refine ⟨weight, hout, ?_, ?_⟩
      · rw [UInt64.lt_iff_toNat_lt]
        split_ifs at hwt <;> omega
      · split_ifs at hwt <;> omega
    · rw [weights_of_not_pipeline (fun weight hw => hout ⟨weight, hw⟩), Int64.toInt_zero] at hpos
      exact absurd hpos (lt_irrefl 0)

theorem toInt_scaledWeight (t : Target D) :
    (t.weights ops).2.toInt = (t.scaledWeight ops : ℤ).bmod (2 ^ 64) := by
  unfold Target.weights Target.scaledWeight
  rcases t.outcome with _ | _ | weight
  · simp
  · simp
  · dsimp only
    split_ifs
    · simp
    · exact toInt_toInt64 _

theorem bmod_emod_word (a : ℤ) : a.bmod (2 ^ 64) % 2 ^ 32 = a % 2 ^ 32 := by
  rw [Int.bmod_def]
  split_ifs <;> omega

variable (ops) in
/-- The sum of what is stored differs from that of what is computed by a multiple of `2 ^ 32`. -/
theorem weightOf_bmod (hK : ∀ i ∈ K, i < loopCount ts) :
    (weightOf (computeWeights ops ts edges).scaledweights K).bmod (2 ^ 32) =
      (totalOf ops ts K : ℤ).bmod (2 ^ 32) := by
  have hterm : ∀ i ∈ K, ((computeWeights ops ts edges).scaledweights.getD i 0).toInt % 2 ^ 32 =
      ((((ts[i]?).map (·.scaledWeight ops)).getD 0 : ℕ) : ℤ) % 2 ^ 32 := by
    intro i hi
    rw [computeWeights, List.getD_eq_getElem?_getD, List.getElem?_map, List.getElem?_take,
      if_pos (hK i hi)]
    rcases ts[i]? with _ | t
    · rfl
    · rw [Option.map_some, Option.getD_some, Option.map_some, Option.getD_some,
        toInt_scaledWeight, bmod_emod_word]
  have hmod : weightOf (computeWeights ops ts edges).scaledweights K % 2 ^ 32 =
      (totalOf ops ts K : ℤ) % 2 ^ 32 := by
    rw [weightOf, totalOf, Nat.cast_sum, Finset.sum_int_mod, Finset.sum_congr rfl hterm,
      ← Finset.sum_int_mod]
  rw [← Int.emod_bmod, ← Int.emod_bmod (totalOf ops ts K : ℤ)]
  exact congrArg (Int.bmod · (2 ^ 32)) hmod

/-! ### The edges -/

theorem edgesOk_eraseEdges {N i : ℕ} (h : EdgesOk edges) : EdgesOk (eraseEdges N i edges) where
  symm u v huv := by
    rw [eraseEdges, Finset.mem_filter] at huv ⊢
    exact ⟨h.symm u v huv.1, fun hor => huv.2 hor.symm⟩
  irrefl v hv := h.irrefl v (Finset.mem_filter.1 hv).1

theorem edgesOk_foldl {N : ℕ} (ps : List (Target D × ℕ)) (h : EdgesOk edges) :
    EdgesOk (ps.foldl (fun edges p =>
      if p.1.notApplicable then eraseEdges N p.2 edges else edges) edges) := by
  induction ps generalizing edges with
  | nil => exact h
  | cons p ps ih =>
    rw [List.foldl_cons]
    split_ifs
    · exact ih (edgesOk_eraseEdges h)
    · exact ih h

theorem vertexCount_scaledweights (ops : TimeOps D) (ts : List (Target D))
    (edges : Finset (ℕ × ℕ)) :
    vertexCount (computeWeights ops ts edges).scaledweights = loopCount ts := by
  have hle : loopCount ts ≤ ts.length := Nat.mod_le _ _
  rw [vertexCount, computeWeights, List.length_map, List.length_take, min_eq_left hle, loopCount,
    Nat.mod_mod]

/-! ### The exact condition -/

variable (ops) in
/-- Every maximal clique of loops saves less than `2 ^ 31`. -/
def SmallTotals (ts : List (Target D)) (edges : Finset (ℕ × ℕ)) : Prop :=
  ∀ K, MaximalBelow (computeWeights ops ts edges).edges (loopCount ts) K →
    totalOf ops ts K < 2 ^ 31

variable (ops) in
theorem toInt_cliqueWeight_iff {c : List ℕ} (hc : c.Nodup) (hlt : ∀ i ∈ c, i < loopCount ts) :
    (cliqueWeight (computeWeights ops ts edges).scaledweights c).toInt =
      totalOf ops ts c.toFinset ↔ totalOf ops ts c.toFinset < 2 ^ 31 := by
  rw [toInt_cliqueWeight _ hc, weightOf_bmod ops (fun i hi => hlt i (List.mem_toFinset.1 hi))]
  constructor
  · intro h
    have hword := Int.bmod_lt (x := (totalOf ops ts c.toFinset : ℤ)) (m := 2 ^ 32) (by norm_num)
    rw [h] at hword
    omega
  · intro h
    exact Int.bmod_eq_of_le (by omega) (by omega)

theorem exactTotals_iff (hE : EdgesOk edges) : ExactTotals ops ts edges ↔
    SmallTotals ops ts edges := by
  have hcount := vertexCount_scaledweights ops ts edges
  have hedges : EdgesOk (computeWeights ops ts edges).edges := edgesOk_foldl _ hE
  constructor
  · intro h K hK
    obtain ⟨enough, h⟩ := h []
    obtain ⟨cliques, b, hcliques, -, hexact, -⟩ :=
      h (max enough (loopCount ts + 1)) (le_max_left _ _)
    have hfuel : loopCount ts < max enough (loopCount ts + 1) :=
      lt_of_lt_of_le (Nat.lt_succ_self _) (le_max_right _ _)
    obtain ⟨l, hl, -, hleaves⟩ := ebk_eq hedges (hcount.symm ▸ hfuel)
    rw [hcount] at hl hleaves
    obtain rfl : cliques = l := Except.ok.inj (hcliques.symm.trans hl)
    obtain ⟨c, hc, rfl⟩ := hleaves.complete K hK trivial
    exact (toInt_cliqueWeight_iff ops (hleaves.sound c hc).1
      (fun i hi => hK.mem i (List.mem_toFinset.2 hi))).1 (hexact c hc)
  · intro h mwcp
    refine ⟨loopCount ts + 1, fun fuel hfuel => ?_⟩
    obtain ⟨l, hl, hebk, hleaves⟩ := ebk_eq (W := (computeWeights ops ts edges).scaledweights)
      hedges (hcount.symm ▸ hfuel)
    rw [hcount] at hl hleaves
    have hexact : ∀ c ∈ l, (cliqueWeight (computeWeights ops ts edges).scaledweights c).toInt =
        totalOf ops ts c.toFinset := by
      intro c hc
      obtain ⟨hnodup, hmax⟩ := hleaves.sound c hc
      exact (toInt_cliqueWeight_iff ops hnodup
        (fun i hi => hmax.mem i (List.mem_toFinset.2 hi))).2 (h _ hmax)
    refine ⟨l, _, hl, hebk mwcp, hexact, ?_⟩
    have hrecorded := foldl_recorded (computeWeights ops ts edges).scaledweights l ⟨mwcp, -1000⟩
    rcases hrecorded.mem with heq | ⟨c, hc, heq⟩
    · obtain ⟨M, -, hM⟩ := IsClique.exists_maximal (K := ∅) hedges.symm ⟨by simp, by simp⟩
        (D := Finset.range (loopCount ts)) (fun v hv => Finset.mem_range.2 hv)
      obtain ⟨c, hc, -⟩ := hleaves.complete M hM trivial
      have hge := Int32.le_iff_toInt_le.1 (hrecorded.ge c hc)
      rw [hexact c hc, heq] at hge
      have hstart : (-1000 : Int32).toInt = -1000 := by decide
      rw [hstart] at hge
      omega
    · rw [heq]
      exact hexact c hc

variable (ops) in
/-- It is enough that all loops together save less. -/
theorem smallTotals_of_total (h : totalOf ops ts (Finset.range (loopCount ts)) < 2 ^ 31) :
    SmallTotals ops ts edges := fun _ hK =>
  (Finset.sum_le_sum_of_subset (fun i hi => Finset.mem_range.2 (hK.mem i hi))).trans_lt h

/-- Positive weights and the sums of the clique search are exact for exactly the loops whose
pipeline weights exceed the loop times by at most `2 ^ 63`, and whose maximal cliques save less than
`2 ^ 31`. -/
theorem weights_exact_iff (ops : TimeOps D) (ts : List (Target D)) (edges : Finset (ℕ × ℕ))
    (hE : EdgesOk edges) :
    (∀ t ∈ ts.take (loopCount ts), t.ExactSavings ops) ∧ ExactTotals ops ts edges ↔
      (∀ t ∈ ts.take (loopCount ts), ∀ weight, t.outcome = .pipeline weight →
        (estimatePipelineWeight ops weight).toNat ≤ (t.adjLoopTime ops).toNat + 2 ^ 63) ∧
      SmallTotals ops ts edges :=
  and_congr (forall₂_congr (fun _ _ => exactSavings_iff)) (exactTotals_iff hE)

def wholeOps : TimeOps ℤ where
  ofULong a := a.toNat
  ofLong := Int64.toInt
  mul := (· * ·)
  div := (· / ·)
  isZero a := a = 0
  toULong := UInt64.ofInt

/-- An outermost loop with a pipeline that takes a quarter of its time. -/
def quartered (time : ℕ) : Target ℤ where
  loopTime := time
  loopDepth := 1
  depth_pos := by decide
  profileTime := UInt64.ofNat time
  outcome := .pipeline (time / 4)

theorem weights_exact_twoLoops :
    (∀ t ∈ [quartered 100, quartered 200], t.ExactSavings wholeOps) ∧
      ExactTotals wholeOps [quartered 100, quartered 200] {(0, 1), (1, 0)} :=
  (weights_exact_iff wholeOps [quartered 100, quartered 200] _ edgesOk_pair).2
    ⟨fun t ht weight hout => by
      rcases List.mem_pair.1 ht with rfl | rfl
      · obtain rfl : 25 = weight := Outcome.pipeline.inj hout
        decide
      · obtain rfl : 50 = weight := Outcome.pipeline.inj hout
        decide, smallTotals_of_total wholeOps (by decide)⟩

/-- The savings of three million units of time, in thousandths, are no `int`. -/
theorem savings_wrap : ¬ ((∀ t ∈ [quartered 3000000], t.ExactSavings wholeOps) ∧
    ExactTotals wholeOps [quartered 3000000] ∅) := by
  rintro ⟨-, h⟩
  have hsmall := (exactTotals_iff ⟨by simp, by simp⟩).1 h
  have hmax : MaximalBelow (computeWeights wholeOps [quartered 3000000] ∅).edges
      (loopCount [quartered 3000000]) {0} := by
    refine ⟨⟨fun v hv => ?_, fun u hu v hv hne => ?_⟩, fun v hv _ => ?_⟩
    · rw [Finset.mem_singleton.1 hv]
      decide
    · rw [Finset.mem_singleton.1 hu, Finset.mem_singleton.1 hv] at hne
      exact absurd rfl hne
    · exact Finset.mem_singleton.2 (Nat.lt_one_iff.1 hv)
  exact absurd (hsmall {0} hmax) (by decide)

end Cpf.Planner
