import Cpf.Pipeline.BalancedStages
import Cpf.Pipeline.Criticisms

/-!
# The choice of a strategy

The orchestrator attaches the remedies that the remediators offer to the dependences, asks the
PS-DSWP and the DSWP critic for a pipeline each, selects the cheapest remedies for the criticisms
of each, and takes the pipeline with the larger savings.
-/

namespace Cpf.Pipeline

variable {I E R : Type} [DecidableEq I] [DecidableEq E] [DecidableEq R]

/-- A remedy with its sub-remedies. A remedy whose set of sub-remedies is there but empty is taken for one
without: the remediators of the code put a remedy into every set they make. -/
inductive Remedy (R : Type)
  | mk (remedy : R) (subRemedies : List (Remedy R))

namespace Remedy

def name : Remedy R → R
  | .mk r _ => r

mutual

def expand : Remedy R → Finset R
  | .mk r [] => {r}
  | .mk _ (subR :: subRs) => expandAll (subR :: subRs)

def expandAll : List (Remedy R) → Finset R
  | [] => ∅
  | subR :: subRs => insert subR.name (expand subR) ∪ expandAll subRs

end

theorem expand_nonempty (r : Remedy R) : r.expand.Nonempty := by
  obtain ⟨r, subs⟩ := r
  cases subs with
  | nil => exact Finset.singleton_nonempty r
  | cons s subs =>
      rw [expand, expandAll]
      exact ⟨s.name, Finset.mem_union_left _ (Finset.mem_insert_self _ _)⟩

end Remedy

/-- The ordered set of remedies of a dependence, the cheapest first. An insertion may leave out what
compares equal to a member. -/
structure RemedySets (R : Type) where
  insert : Finset R → List (Finset R) → List (Finset R)
  insert_ne_nil : ∀ s sets, insert s sets ≠ []
  mem_insert : ∀ s sets t, t ∈ insert s sets → t = s ∨ t ∈ sets

/-- What a remediator offers: remedies, each with the criticisms it resolves. It sees the remedies that
are attached already. -/
abbrev Remediator (E R : Type) := (E → List (Finset R)) → List (Remedy R × List E)

/-- The estimates of times and costs, and the order in which sets of criticisms are traversed. -/
structure Perf (I E R : Type) where
  loopTime : UInt64
  loopDepth : UInt32
  pipelineWeight : List (PipelineStage I) → UInt64
  cost : R → UInt64
  ignoreCost : Bool
  order : Finset E → List E
  mem_order : ∀ s e, e ∈ order s ↔ e ∈ s

namespace RemedySets

variable (sets : RemedySets R)

def addRemedies (remedSet : Finset R) (remedies : E → List (Finset R)) (resolvedC : List E) :
    E → List (Finset R) :=
  resolvedC.foldl (fun remedies c => Function.update remedies c (sets.insert remedSet (remedies c)))
    remedies

def attach (remediators : List (Remediator E R)) : E → List (Finset R) :=
  remediators.foldl (fun remedies satisfy =>
    (satisfy remedies).foldl (fun remedies p => sets.addRemedies p.1.expand remedies p.2) remedies)
    fun _ => []

end RemedySets

def Perf.getExpPipelineSpeedup (perf : Perf I E R) (stages : List (PipelineStage I)) : UInt64 :=
  let scaledLoopTime := 1000 * perf.loopTime
  let depthPenalty := (10000 * (perf.loopDepth - 1)).toUInt64
  let adjLoopTime := if depthPenalty < scaledLoopTime then scaledLoopTime - depthPenalty
    else scaledLoopTime
  if perf.pipelineWeight stages < adjLoopTime then adjLoopTime - perf.pipelineWeight stages else 0

/-- `addressCriticisms`: the selected remedies and their cost. A criticism without remedies has no
cheapest one. -/
def addressCriticisms (perf : Perf I E R) (remedies : E → List (Finset R)) (criticisms : List E) :
    Except Unit (Finset R × UInt64) :=
  criticisms.foldlM (fun selected cr =>
    match remedies cr with
    | [] => .error ()
    | cheapestR :: _ => .ok (selected.1 ∪ cheapestR,
        selected.2 + UInt64.ofNat (∑ r ∈ cheapestR \ selected.1, (perf.cost r).toNat))) (∅, 0)

/-- `CriticRes`; the speedup of a critic that is not applicable is 0. -/
structure CriticRes (I E : Type) where
  stages : List (PipelineStage I)
  criticisms : Finset E
  expSpeedup : UInt64

structure Plan (I R : Type) where
  stages : List (PipelineStage I)
  remedies : Finset R
  savings : UInt64
  deriving DecidableEq

/-- One round of the loop over the critics: `none` if the critic is not applicable. -/
def plan (perf : Perf I E R) (remedies : E → List (Finset R))
    (res : CriticRes I E) : Except Unit (Option (Plan I R)) :=
  if res.expSpeedup = 0 then .ok none
  else do
    let (selectedRemedies, selectedRemediesCost) ←
      addressCriticisms perf remedies (perf.order res.criticisms)
    let adjRemedCosts := if perf.ignoreCost then 0 else 1000 * selectedRemediesCost
    return some ⟨res.stages, selectedRemedies, res.expSpeedup - adjRemedCosts⟩

def better (best : Option (Plan I R)) (new : Option (Plan I R)) : Option (Plan I R) :=
  match best, new with
  | some best, some new => if best.savings = 0 ∨ best.savings < new.savings then some new else some best
  | none, some new => some new
  | best, none => best

/-- What the two critics are given. Each has its own graph without removable dependences, with its
components and their instructions. -/
structure CriticInput (I α β D : Type) where
  info : LoopInfo I
  threadBudget : UInt32
  psdswpSCCDAG : SCCDAG α
  psdswpInsts : α → Finset I
  psdswpWeight : α → UInt64
  dswpSCCDAG : SCCDAG β
  dswpInsts : β → Finset I
  ops : DoubleOps D
  dswpWeight : β → D

variable {α β D : Type} [DecidableEq α] [DecidableEq β]

def psdswpRes (fuel : ℕ) (perf : Perf I E R) (pdg : PDG I E) (inp : CriticInput I α β D) :
    Except Unit (CriticRes I E) := do
  match ← psdswpGetCriticisms fuel inp.info pdg inp.psdswpSCCDAG inp.psdswpInsts inp.psdswpWeight
      inp.threadBudget with
  | none => return ⟨[], ∅, 0⟩
  | some (stages, criticisms) => return ⟨stages, criticisms, perf.getExpPipelineSpeedup stages⟩

def dswpStages (fuel : ℕ) (inp : CriticInput I α β D) : Except Unit (List (PipelineStage I)) := do
  let partitionStages ← inp.dswpSCCDAG.partitionStages inp.ops inp.dswpWeight inp.threadBudget fuel
  let stages := partitionStages.map fun sccs =>
    SCCStage.toStage inp.dswpInsts ⟨.sequential, sccs, 1⟩
  assertConsistentWithIR inp.info.loop stages
  return stages

/-- The result of the DSWP critic; it clears the criticisms. -/
def dswpRes (fuel : ℕ) (perf : Perf I E R) (inp : CriticInput I α β D) :
    Except Unit (CriticRes I E) := do
  let stages ← dswpStages fuel inp
  return ⟨stages, ∅, perf.getExpPipelineSpeedup stages⟩

/-- The dependences with the remedies that are attached to them: one with a remedy is removable. -/
def PDG.withRemedies (pdg : PDG I E) (remedies : E → List (Finset R)) : PDG I E :=
  { pdg with isRemovableDependence := fun e => !(remedies e).isEmpty }

def psdswpPlan (fuel : ℕ) (perf : Perf I E R) (pdg : PDG I E) (remedies : E → List (Finset R))
    (inp : CriticInput I α β D) : Except Unit (Option (Plan I R)) := do
  plan perf remedies (← psdswpRes fuel perf (pdg.withRemedies remedies) inp)

def dswpPlan (fuel : ℕ) (perf : Perf I E R) (remedies : E → List (Finset R))
    (inp : CriticInput I α β D) : Except Unit (Option (Plan I R)) := do
  plan perf remedies (← dswpRes fuel perf inp)

/-- `findBestStrategy`: the pipeline and the remedies, or `none` if the code returns false. -/
def findBestStrategy (fuel : ℕ) (sets : RemedySets R) (perf : Perf I E R) (pdg : PDG I E)
    (remediators : List (Remediator E R)) (inp : CriticInput I α β D) :
    Except Unit (Option (Plan I R)) := do
  let remedies := sets.attach remediators
  let psdswp ← psdswpPlan fuel perf pdg remedies inp
  let dswp ← dswpPlan fuel perf remedies inp
  return match better psdswp dswp with
    | some best => if best.savings = 0 then none else some best
    | none => none

/-! ### What backs the strategy -/

/-- Every dependence that leads back in the pipeline has a remedy set that is selected. -/
def Backed (pdg : PDG I E) (remedies : E → List (Finset R)) (best : Plan I R) : Prop :=
  ∀ e ∈ pdg.edges, pdg.Backward best.stages e → ∃ set ∈ remedies e, set ⊆ best.remedies

/-- The DSWP critic is applicable, and the other one is not or saves nothing or less. -/
def DswpSavesMore (fuel : ℕ) (perf : Perf I E R) (pdg : PDG I E) (remedies : E → List (Finset R))
    (inp : CriticInput I α β D) : Prop :=
  ∃ psdswp dswp, psdswpPlan fuel perf pdg remedies inp = .ok psdswp ∧
    dswpPlan fuel perf remedies inp = .ok (some dswp) ∧
    ∀ p, psdswp = some p → p.savings = 0 ∨ p.savings < dswp.savings

/-- No dependence leads back in the pipeline of the DSWP critic. -/
def DswpForward (fuel : ℕ) (pdg : PDG I E) (inp : CriticInput I α β D) : Prop :=
  ∀ stages, dswpStages fuel inp = .ok stages → ∀ e ∈ pdg.edges, ¬ pdg.Backward stages e

section Attach

variable (sets : RemedySets R)

omit [DecidableEq R] in
theorem nonempty_addRemedies {remedSet : Finset R} (hne : remedSet.Nonempty)
    {remedies : E → List (Finset R)} (h : ∀ e, ∀ s ∈ remedies e, s.Nonempty) (resolvedC : List E) :
    ∀ e, ∀ s ∈ sets.addRemedies remedSet remedies resolvedC e, s.Nonempty := by
  rw [RemedySets.addRemedies]
  induction resolvedC generalizing remedies with
  | nil => exact h
  | cons c resolvedC ih =>
      apply ih
      intro e s hs
      change s ∈ Function.update remedies c (sets.insert remedSet (remedies c)) e at hs
      by_cases hec : e = c
      · subst hec
        rw [Function.update_self] at hs
        rcases sets.mem_insert _ _ _ hs with rfl | hs
        · exact hne
        · exact h e s hs
      · rw [Function.update_of_ne hec] at hs
        exact h e s hs

theorem nonempty_attach (remediators : List (Remediator E R)) :
    ∀ e, ∀ s ∈ sets.attach remediators e, s.Nonempty := by
  have hinner : ∀ (offers : List (Remedy R × List E)) (remedies : E → List (Finset R)),
      (∀ e, ∀ s ∈ remedies e, s.Nonempty) →
      ∀ e, ∀ s ∈ offers.foldl (fun remedies p => sets.addRemedies p.1.expand remedies p.2) remedies e,
        s.Nonempty := by
    intro offers
    induction offers with
    | nil => exact fun remedies h => h
    | cons p offers ih =>
        intro remedies h
        exact ih _ (nonempty_addRemedies sets p.1.expand_nonempty h p.2)
  have houter : ∀ (remediators : List (Remediator E R)) (remedies : E → List (Finset R)),
      (∀ e, ∀ s ∈ remedies e, s.Nonempty) →
      ∀ e, ∀ s ∈ remediators.foldl (fun remedies satisfy => (satisfy remedies).foldl
        (fun remedies p => sets.addRemedies p.1.expand remedies p.2) remedies) remedies e,
        s.Nonempty := by
    intro remediators
    induction remediators with
    | nil => exact fun remedies h => h
    | cons satisfy remediators ih =>
        intro remedies h
        exact ih _ (hinner (satisfy remedies) remedies h)
  exact houter remediators _ fun e s hs => absurd hs List.not_mem_nil

end Attach

omit [DecidableEq I] [DecidableEq E] in
theorem addressCriticisms_spec {perf : Perf I E R} {remedies : E → List (Finset R)} {criticisms : List E}
    {selected : Finset R × UInt64} (h : addressCriticisms perf remedies criticisms = .ok selected) :
    ∀ cr ∈ criticisms, ∃ set ∈ remedies cr, set ⊆ selected.1 := by
  have hfold : ∀ (crs : List E) (s t : Finset R × UInt64),
      crs.foldlM (fun selected cr => match remedies cr with
        | [] => Except.error ()
        | cheapestR :: _ => Except.ok (selected.1 ∪ cheapestR,
          selected.2 + UInt64.ofNat (∑ r ∈ cheapestR \ selected.1, (perf.cost r).toNat))) s = .ok t →
      s.1 ⊆ t.1 ∧ ∀ cr ∈ crs, ∃ set ∈ remedies cr, set ⊆ t.1 := by
    intro crs
    induction crs with
    | nil =>
        intro s t h
        cases h
        exact ⟨Finset.Subset.refl _, fun cr hcr => absurd hcr List.not_mem_nil⟩
    | cons c crs ih =>
        intro s t h
        obtain ⟨u, hu, hrest⟩ := foldlM_cons_eq_ok.1 h
        obtain ⟨hsub, hcrs⟩ := ih u t hrest
        split at hu
        · cases hu
        · next cheapestR others hsets =>
          cases hu
          refine ⟨Finset.union_subset_left hsub, fun cr hcr => ?_⟩
          rcases List.mem_cons.1 hcr with rfl | hcr
          · refine ⟨cheapestR, ?_, Finset.union_subset_right hsub⟩
            rw [hsets]
            exact List.mem_cons_self
          · exact hcrs cr hcr
  exact (hfold criticisms (∅, 0) selected h).2

section Backed

variable {fuel : ℕ} {perf : Perf I E R} {pdg : PDG I E} {remedies : E → List (Finset R)}
  {inp : CriticInput I α β D}

omit [DecidableEq I] [DecidableEq E] in
theorem plan_spec {res : CriticRes I E} {p : Plan I R} (h : plan perf remedies res = .ok (some p)) :
    p.stages = res.stages ∧
      (∀ cr ∈ res.criticisms, ∃ set ∈ remedies cr, set ⊆ p.remedies) ∧
      (res.criticisms = ∅ → p.remedies = ∅) := by
  rw [plan] at h
  by_cases hzero : res.expSpeedup = 0
  · rw [if_pos hzero] at h
    cases h
  · rw [if_neg hzero] at h
    obtain ⟨selected, hsel, h⟩ := bind_eq_ok.1 h
    cases h
    refine ⟨rfl, fun cr hcr => addressCriticisms_spec hsel cr ((perf.mem_order _ _).2 hcr), ?_⟩
    intro hempty
    have hnil : perf.order res.criticisms = [] := by
      apply List.eq_nil_iff_forall_not_mem.2
      intro e he
      rw [perf.mem_order, hempty] at he
      exact Finset.notMem_empty e he
    rw [hnil] at hsel
    cases hsel
    rfl

omit [DecidableEq β] in
/-- The pipeline of the PS-DSWP critic is backed. -/
theorem backed_of_psdswpPlan {p : Plan I R}
    (h : psdswpPlan fuel perf pdg remedies inp = .ok (some p)) : Backed pdg remedies p := by
  obtain ⟨res, hres, hplan⟩ := bind_eq_ok.1 h
  obtain ⟨hstages, hselected, -⟩ := plan_spec hplan
  obtain ⟨r, hr, hret⟩ := bind_eq_ok.1 hres
  cases r with
  | none =>
      cases hret
      rintro e he ⟨early, late, hsub, -⟩
      rw [hstages] at hsub
      cases hsub
  | some r =>
      obtain ⟨stages, criticisms⟩ := r
      cases hret
      have hpop := populateCriticisms_of_result hr
      intro e he hback
      rw [hstages] at hback
      exact hselected e ((PDG.mem_populateCriticisms hpop e).2 ⟨he, Or.inl hback⟩)

omit [DecidableEq α] [DecidableEq E] in
/-- That of the DSWP critic is backed only if nothing leads back. -/
theorem backed_iff_of_dswpPlan (hne : ∀ e, ∀ s ∈ remedies e, s.Nonempty) {p : Plan I R}
    (h : dswpPlan fuel perf remedies inp = .ok (some p)) :
    Backed pdg remedies p ↔ DswpForward fuel pdg inp := by
  obtain ⟨res, hres, hplan⟩ := bind_eq_ok.1 h
  obtain ⟨hstages, -, hnone⟩ := plan_spec hplan
  obtain ⟨stages, hdswp, hret⟩ := bind_eq_ok.1 hres
  cases hret
  have hp : p.stages = stages := hstages
  constructor
  · intro hbacked stages' hstages' e he hback
    rw [hdswp] at hstages'
    cases hstages'
    obtain ⟨set, hset, hsub⟩ := hbacked e he (hp ▸ hback)
    rw [hnone rfl, Finset.subset_empty] at hsub
    exact (hne e set hset).ne_empty hsub
  · intro hforward e he hback
    rw [hp] at hback
    exact absurd hback (hforward stages hdswp e he)

end Backed

/-- The strategy that the orchestrator returns is backed by its remedies if and only if the DSWP critic
does not save more than the PS-DSWP critic, or no dependence leads back in its pipeline. -/
theorem strategy_backed_iff (fuel : ℕ) (sets : RemedySets R) (perf : Perf I E R) (pdg : PDG I E)
    (remediators : List (Remediator E R)) (inp : CriticInput I α β D) (best : Plan I R)
    (h : findBestStrategy fuel sets perf pdg remediators inp = .ok (some best)) :
    Backed pdg (sets.attach remediators) best ↔
      (DswpSavesMore fuel perf pdg (sets.attach remediators) inp → DswpForward fuel pdg inp) := by
  obtain ⟨psdswp, hps, h⟩ := bind_eq_ok.1 h
  obtain ⟨dswp, hd, hret⟩ := bind_eq_ok.1 h
  have hbest : better psdswp dswp = some best := by
    cases hb : better psdswp dswp with
    | none =>
        rw [hb] at hret
        cases hret
    | some b =>
        rw [hb] at hret
        simp only at hret
        split_ifs at hret
        · cases hret
        · cases hret
          rfl
  cases dswp with
  | none =>
      have hnot : ¬ DswpSavesMore fuel perf pdg (sets.attach remediators) inp := by
        rintro ⟨p, d, -, hd', -⟩
        rw [hd] at hd'
        cases hd'
      have heq : psdswp = some best := by
        cases psdswp <;> exact hbest
      rw [heq] at hps
      exact iff_of_true (backed_of_psdswpPlan hps) fun hd' => absurd hd' hnot
  | some d =>
      have hsaves : DswpSavesMore fuel perf pdg (sets.attach remediators) inp ↔
          ∀ p, psdswp = some p → p.savings = 0 ∨ p.savings < d.savings := by
        constructor
        · rintro ⟨p', d', hp', hd', hall⟩
          rw [hps] at hp'
          rw [hd] at hd'
          cases hp'
          cases hd'
          exact hall
        · intro hall
          exact ⟨psdswp, d, hps, hd, hall⟩
      rw [hsaves]
      cases psdswp with
      | none =>
          obtain rfl : d = best := Option.some.inj hbest
          rw [backed_iff_of_dswpPlan (nonempty_attach sets remediators) hd]
          exact ⟨fun hf _ => hf, fun hf => hf fun p hp => (by cases hp)⟩
      | some p =>
          rw [better] at hbest
          split_ifs at hbest with hless
          · obtain rfl : d = best := Option.some.inj hbest
            rw [backed_iff_of_dswpPlan (nonempty_attach sets remediators) hd]
            refine ⟨fun hf _ => hf, fun hf => hf fun p' hp' => ?_⟩
            cases hp'
            exact hless
          · obtain rfl : p = best := Option.some.inj hbest
            exact iff_of_true (backed_of_psdswpPlan hps) fun hall => absurd (hall p rfl) hless

/-- Two sequential components; dependence 2 leads from the second to the first. -/
def sequentialPDG (edges : List (Fin 4)) : PDG (Fin 2) (Fin 4) where
  edges := edges
  src e := if e = 2 ∨ e = 3 then 1 else 0
  dst e := if e = 1 ∨ e = 3 then 1 else 0
  isLoopCarriedDependence e := e ≠ 1
  isControlDependence _ := false
  isMemoryDependence e := e = 2
  isRAWDependence _ := true
  isRemovableDependence _ := false

def sequentialInput : CriticInput (Fin 2) (Fin 2) (Fin 2) ℤ where
  info := listInfo
  threadBudget := 22
  psdswpSCCDAG := SCCDAG.twoInARow false fun _ => true
  psdswpInsts a := {a}
  psdswpWeight _ := 1
  dswpSCCDAG := SCCDAG.twoInARow false fun _ => true
  dswpInsts a := {a}
  ops := SCCDAG.intOps
  dswpWeight _ := 1

def oneRemediator : List (Remediator (Fin 4) (Fin 1)) := [fun _ => [(.mk 0 [], [2])]]

def listSets : RemedySets (Fin 1) where
  insert s sets := s :: sets
  insert_ne_nil _ _ := List.cons_ne_nil _ _
  mem_insert _ _ _ h := List.mem_cons.1 h

def onePerf : Perf (Fin 2) (Fin 4) (Fin 1) where
  loopTime := 1
  loopDepth := 1
  pipelineWeight _ := 0
  cost _ := 1
  ignoreCost := false
  order s := (List.finRange 4).filter (· ∈ s)
  mem_order s e := by simp

/-- The two components in a stage each, and no remedies. -/
def sequentialPlan : Plan (Fin 2) (Fin 1) :=
  ⟨[⟨.sequential, ∅, {0}, 1⟩, ⟨.sequential, ∅, {1}, 1⟩], ∅, 1000⟩

theorem sequentialStages : dswpStages 20 sequentialInput = .ok sequentialPlan.stages := by
  decide +kernel

/-- Without the dependence that leads back, the pipeline needs no remedies. -/
theorem strategy_backed_iff_forward :
    findBestStrategy 20 listSets onePerf (sequentialPDG [0, 1, 3]) oneRemediator sequentialInput =
        .ok (some sequentialPlan) ∧
      Backed (sequentialPDG [0, 1, 3]) (listSets.attach oneRemediator) sequentialPlan := by
  have hresult : findBestStrategy 20 listSets onePerf (sequentialPDG [0, 1, 3]) oneRemediator
      sequentialInput = .ok (some sequentialPlan) := by
    decide +kernel
  refine ⟨hresult, (strategy_backed_iff _ _ _ _ _ _ _ hresult).2 fun _ stages hstages e he => ?_⟩
  rw [sequentialStages] at hstages
  cases hstages
  rintro ⟨early, late, hsub, hsrc, hdst⟩
  obtain ⟨rfl, rfl⟩ : early = ⟨.sequential, ∅, {0}, 1⟩ ∧ late = ⟨.sequential, ∅, {1}, 1⟩ := by
    simpa [sequentialPlan] using hsub.eq_of_length rfl
  revert e
  decide

/-- With it the DSWP critic wins all the same, and its remedy is not selected. -/
theorem strategy_without_remedies :
    findBestStrategy 20 listSets onePerf (sequentialPDG [0, 1, 2, 3]) oneRemediator sequentialInput =
        .ok (some sequentialPlan) ∧
      ¬ Backed (sequentialPDG [0, 1, 2, 3]) (listSets.attach oneRemediator) sequentialPlan := by
  refine ⟨by decide +kernel, fun hbacked => ?_⟩
  obtain ⟨set, hset, hsub⟩ := hbacked 2 (by decide)
    ⟨_, _, List.Sublist.refl _, by decide, by decide⟩
  have honly : listSets.attach oneRemediator 2 = [{0}] := by decide
  rw [honly, List.mem_singleton] at hset
  rw [hset] at hsub
  exact absurd hsub (by decide)

end Cpf.Pipeline
