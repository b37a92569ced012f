import Cpf.Pipeline.Criticisms

/-!
# The threads of a pipeline

The parallel stage gets the threads that its sequential neighbours leave of the budget, and one more
if the first of them becomes its prefix. The subtraction is on an `unsigned`. That a second thread is
left is only asserted when the pipeline is printed, after the number may have wrapped around.
-/

namespace Cpf.Pipeline

variable {I E α : Type} [DecidableEq I] [DecidableEq E] [DecidableEq α]

/-- One parallel stage, with a thread at least, and a thread for each sequential stage, within the
budget. -/
def WithinBudget (threadBudget : UInt32) (stages : List (PipelineStage I)) : Prop :=
  ∃ p, stages.filter (fun s => s.type = .parallel) = [p] ∧ 1 ≤ p.parallelFactor.toNat ∧
    stages.countP (fun s => s.type = .sequential) + p.parallelFactor.toNat ≤ threadBudget.toNat

def becomesPrefix (info : LoopInfo I) (pdg : PDG I E) (stages : List (PipelineStage I)) : Bool :=
  match stages with
  | first :: par :: _ => decide (first.type = .sequential) &&
      info.repLight (info.getParallelStageWeight stages) (info.order (seqInsts pdg first par)) 0
  | _ => false

/-- The number of sequential stages around the parallel one. -/
def neighbours (before after : List α) : ℕ :=
  (if before.isEmpty then 0 else 1) + if after.isEmpty then 0 else 1

section Budget

variable {threadBudget : UInt32} {p : PipelineStage I} {front back : List (PipelineStage I)}

omit [DecidableEq I] in
theorem withinBudget_iff (threadBudget : UInt32) (front : List (PipelineStage I))
    (hpar : p.type = .parallel) (hfront : ∀ s ∈ front, s.type = .sequential)
    (hback : ∀ s ∈ back, s.type = .sequential) :
    WithinBudget threadBudget (front ++ p :: back) ↔ 1 ≤ p.parallelFactor.toNat ∧
      front.length + back.length + p.parallelFactor.toNat ≤ threadBudget.toNat := by
  have hnone : ∀ l : List (PipelineStage I), (∀ s ∈ l, s.type = .sequential) →
      l.filter (fun s => s.type = .parallel) = [] := by
    intro l hl
    rw [List.filter_eq_nil_iff]
    intro s hs
    rw [hl s hs]
    decide
  have hall : ∀ l : List (PipelineStage I), (∀ s ∈ l, s.type = .sequential) →
      l.countP (fun s => s.type = .sequential) = l.length := by
    intro l hl
    rw [List.countP_eq_length]
    intro s hs
    rw [hl s hs]
    decide
  have hfilter : (front ++ p :: back).filter (fun s => s.type = .parallel) = [p] := by
    rw [List.filter_append, hnone front hfront, List.filter_cons, hnone back hback, hpar]
    rfl
  have hcount : (front ++ p :: back).countP (fun s => s.type = .sequential) =
      front.length + back.length := by
    rw [List.countP_append, List.countP_cons, hall front hfront, hall back hback, hpar]
    rfl
  rw [WithinBudget, hfilter, hcount]
  constructor
  · rintro ⟨q, hq, h⟩
    obtain rfl : p = q := List.singleton_inj.1 hq
    exact h
  · exact fun h => ⟨p, rfl, h⟩

end Budget

theorem toNat_sub_one (a : UInt32) : (a - 1).toNat = (a.toNat + (2 ^ 32 - 1)) % 2 ^ 32 := by
  rw [UInt32.toNat_sub, add_comm]
  rfl

/-- The stages around a parallel stage: a thread is taken from the budget for each neighbour, and given
back for one that becomes the prefix. -/
structure Around (threadBudget : UInt32) (neighbours extra : ℕ) (front : List (PipelineStage I))
    (p : PipelineStage I) (back : List (PipelineStage I)) : Prop where
  type : p.type = .parallel
  front_type : ∀ s ∈ front, s.type = .sequential
  back_type : ∀ s ∈ back, s.type = .sequential
  length : front.length + back.length + extra = neighbours
  factor : (p.parallelFactor.toNat + neighbours) % 2 ^ 32 =
    (threadBudget.toNat + extra) % 2 ^ 32

section Shape

variable {info : LoopInfo I} {pdg : PDG I E} {insts : α → Finset I}

def nextTo (insts : α → Finset I) (sccs : List α) : List (PipelineStage I) :=
  if sccs.isEmpty then [] else [SCCStage.toStage insts ⟨.sequential, sccs, 1⟩]

omit [DecidableEq α] in
theorem nextTo_type (insts : α → Finset I) (sccs : List α) : ∀ s ∈ nextTo insts sccs, s.type = .sequential := by
  intro s hs
  rw [nextTo] at hs
  split_ifs at hs
  · cases hs
  · rw [List.mem_singleton.1 hs]
    rfl

omit [DecidableEq α] in
theorem stagesAround_eq (insts : α → Finset I) (threadBudget : UInt32) (before sel after : List α) :
    ∃ threadAvail : UInt32,
      (SCCDAG.stagesAround threadBudget before sel after).map (SCCStage.toStage insts) =
        nextTo insts before ++
          SCCStage.toStage insts ⟨.parallel, sel, threadAvail⟩ :: nextTo insts after ∧
      (threadAvail.toNat + neighbours before after) % 2 ^ 32 = threadBudget.toNat ∧
      (nextTo insts before).length + (nextTo insts after).length = neighbours before after := by
  have hlt := threadBudget.toNat_lt
  have hsub := toNat_sub_one threadBudget
  have hsub' := toNat_sub_one (threadBudget - 1)
  rw [SCCDAG.stagesAround, neighbours, nextTo, nextTo]
  split_ifs
  · exact ⟨threadBudget, rfl, by omega, rfl⟩
  · exact ⟨threadBudget - 1, rfl, by omega, rfl⟩
  · exact ⟨threadBudget - 1, rfl, by omega, rfl⟩
  · exact ⟨threadBudget - 1 - 1, rfl, by omega, rfl⟩

omit [DecidableEq E] [DecidableEq α] in
theorem exists_around (info : LoopInfo I) (pdg : PDG I E) (insts : α → Finset I)
    (threadBudget : UInt32) (before sel after : List α) :
    let stages := (SCCDAG.stagesAround threadBudget before sel after).map (SCCStage.toStage insts)
    ∃ front p back, info.adjustPipeline pdg (info.getParallelStageWeight stages) stages =
        front ++ p :: back ∧
      Around threadBudget (neighbours before after)
        (if becomesPrefix info pdg stages then 1 else 0) front p back := by
  intro stages
  obtain ⟨threadAvail, hstages, havail, hlength⟩ :=
    stagesAround_eq insts threadBudget before sel after
  have hback := nextTo_type insts after
  have hrest : ∀ s ∈ nextTo insts after, s.type ≠ .parallel := by
    intro s hs
    rw [hback s hs]
    decide
  have hlt := threadBudget.toNat_lt
  change stages = _ at hstages
  rw [hstages]
  by_cases hb : before.isEmpty
  · have hnil : nextTo insts before = [] := if_pos hb
    have hprefix : ∀ back, becomesPrefix info pdg
        (SCCStage.toStage insts ⟨.parallel, sel, threadAvail⟩ :: back) = false := by
      intro back
      cases back <;> rfl
    rw [hnil, List.nil_append, hprefix, if_neg Bool.false_ne_true]
    rw [hnil] at hlength
    refine ⟨[], _, _, adjustPipeline_parallel rfl, rfl, by simp, hback, hlength, ?_⟩
    rw [Nat.add_zero, Nat.mod_eq_of_lt hlt]
    exact havail
  · have hone : nextTo insts before = [SCCStage.toStage insts ⟨.sequential, before, 1⟩] := if_neg hb
    rw [hone] at hlength ⊢
    rw [List.singleton_append, adjustPipeline_cons rfl rfl hrest]
    have hprefix : ∀ (first par : PipelineStage I) (back : List (PipelineStage I)),
        first.type = .sequential → becomesPrefix info pdg (first :: par :: back) =
          info.repLight (info.getParallelStageWeight (first :: par :: back))
            (info.order (seqInsts pdg first par)) 0 := by
      intro first par back hfirst
      rw [becomesPrefix, hfirst]
      exact Bool.true_and _
    rw [ hprefix _ _ _ rfl]
    rw [List.length_singleton] at hlength
    split_ifs with hlight
    · refine ⟨[], _, _, rfl, rfl, by simp, hback, by simp; omega, ?_⟩
      have hadd := UInt32.toNat_add threadAvail 1
      rw [UInt32.toNat_one] at hadd
      change ((threadAvail + 1).toNat + _) % _ = _
      omega
    · refine ⟨[_], _, _, rfl, rfl, ?_, hback, hlength, ?_⟩
      · intro s hs
        rw [List.mem_singleton.1 hs]
        rfl
      · rw [Nat.add_zero, Nat.mod_eq_of_lt hlt]
        exact havail

end Shape

theorem stages_of_result {fuel : ℕ} {info : LoopInfo I} {pdg : PDG I E} {sccdag : SCCDAG α}
    {insts : α → Finset I} {weight : α → UInt64} {threadBudget : UInt32} {sel rej : List α}
    {stages : List (PipelineStage I)} {criticisms : Finset E}
    (hsel : sccdag.findMaxParallelStage fuel weight = .ok (some (sel, rej)))
    (h : psdswpGetCriticisms fuel info pdg sccdag insts weight threadBudget =
      .ok (some (stages, criticisms))) :
    threadBudget ≠ 0 ∧ stages = info.adjustPipeline pdg
      (info.getParallelStageWeight ((SCCDAG.stagesAround threadBudget (sccdag.pivot2 rej sel).1 sel
        (sccdag.pivot2 rej sel).2).map (SCCStage.toStage insts)))
      ((SCCDAG.stagesAround threadBudget (sccdag.pivot2 rej sel).1 sel
        (sccdag.pivot2 rej sel).2).map (SCCStage.toStage insts)) ∧
    (info.reportDump = true → ∀ s ∈ stages, s.type = .parallel → 1 < s.parallelFactor) := by
  obtain ⟨r, hr, hrest⟩ := bind_eq_ok.1 h
  cases r with
  | none => cases hrest
  | some sccStages =>
    obtain ⟨hstages, -, -, hdump⟩ := psdswpGetCriticisms_spec hr h
    have haround := (SCCDAG.doallAndPipeline_spec hr).1
    rw [expandReplicatedStages_eq (adjusted_not_replicable haround)] at hstages
    unfold SCCDAG.doallAndPipeline at hr
    split_ifs at hr with hempty hbudget hinclude
    · cases hr
    · cases hr
    · obtain ⟨r, hr', hr⟩ := bind_eq_ok.1 hr
      rw [hsel] at hr'
      cases hr'
      cases hr
      exact ⟨hbudget, hstages, hdump⟩

/-- The stages that are returned are within the budget if and only if the neighbours leave a thread to
the parallel stage. With the report, stages that leave it none, or only one, are not returned. -/
theorem threads_within_budget_iff (fuel : ℕ) (info : LoopInfo I) (pdg : PDG I E)
    (sccdag : SCCDAG α) (insts : α → Finset I) (weight : α → UInt64) (threadBudget : UInt32)
    (sel rej : List α) (stages : List (PipelineStage I)) (criticisms : Finset E)
    (hsel : sccdag.findMaxParallelStage fuel weight = .ok (some (sel, rej)))
    (h : psdswpGetCriticisms fuel info pdg sccdag insts weight threadBudget =
      .ok (some (stages, criticisms))) :
    WithinBudget threadBudget stages ↔
      neighbours (sccdag.pivot2 rej sel).1 (sccdag.pivot2 rej sel).2 <
        threadBudget.toNat +
          (if becomesPrefix info pdg ((SCCDAG.stagesAround threadBudget (sccdag.pivot2 rej sel).1 sel
            (sccdag.pivot2 rej sel).2).map (SCCStage.toStage insts)) then 1 else 0) +
          if info.reportDump then 1 else 0 := by
  obtain ⟨hbudget, hstages, hdump⟩ := stages_of_result hsel h
  generalize (sccdag.pivot2 rej sel).1 = before at hstages ⊢
  generalize (sccdag.pivot2 rej sel).2 = after at hstages ⊢
  have hpos : threadBudget.toNat ≠ 0 := fun hzero => hbudget (UInt32.toNat_inj.1 hzero)
  have hlt := threadBudget.toNat_lt
  obtain ⟨front, p, back, hadjusted, haround⟩ :=
    exists_around info pdg insts threadBudget before sel after
  rw [← hstages] at hadjusted
  subst hadjusted
  rw [withinBudget_iff threadBudget front haround.type haround.front_type haround.back_type]
  have hlength := haround.length
  have hfactor := haround.factor
  have hfactor_lt := p.parallelFactor.toNat_lt
  have hcount : neighbours before after ≤ 2 := by
    rw [neighbours]
    split_ifs <;> omega
  have hreport : info.reportDump = true → 1 < p.parallelFactor.toNat := fun hreport =>
    UInt32.lt_iff_toNat_lt.1 (hdump hreport p (by simp) haround.type)
  by_cases hif : info.reportDump = true
  · have hmore := hreport hif
    rw [if_pos hif]
    split_ifs at hlength hfactor ⊢ <;> omega
  · rw [if_neg hif]
    split_ifs at hlength hfactor ⊢ <;> omega

theorem threads_within_budget_prefix :
    WithinBudget 22 [(⟨.parallel, {0}, {1}, 22⟩ : PipelineStage (Fin 2))] := by
  have hsel : listSCCs.findMaxParallelStage 20 (fun _ => 1) = .ok (some ([1], [0])) := by
    decide +kernel
  have hresult : psdswpGetCriticisms 20 listInfo (listPDG true) listSCCs (fun a => {a})
      (fun _ => 1) 22 = .ok (some ([⟨.parallel, {0}, {1}, 22⟩], {2})) := by
    decide +kernel
  exact (threads_within_budget_iff _ _ _ _ _ _ _ _ _ _ _ hsel hresult).2 (by decide +kernel)

/-- A component that is not parallel on either side of a parallel one. -/
def fedAndDrained : SCCDAG (Fin 3) :=
  { SCCDAG.threeInARow with inner := fun a => [⟨true, true, a ≠ 1⟩] }

def fedAndDrainedPDG : PDG (Fin 3) (Fin 4) where
  edges := [0, 1, 2, 3]
  src := ![0, 0, 1, 2]
  dst := ![0, 1, 2, 2]
  isLoopCarriedDependence e := e = 0 || e = 3
  isControlDependence _ := false
  isMemoryDependence _ := false
  isRAWDependence _ := true
  isRemovableDependence _ := false

/-- None of the instructions can be replicated. -/
def writingInfo : LoopInfo (Fin 3) where
  loop := {0, 1, 2}
  order s := (List.finRange 3).filter (· ∈ s)
  mem_order s i := by simp
  mayWriteToMemory _ := true
  addWeight w _ := w + 1
  getParallelStageWeight _ := 100
  exceeds w p := p < 10 * w
  reportDump := true

/-- With one thread the number of workers of the parallel stage wraps around. -/
theorem no_thread_left :
    psdswpGetCriticisms 20 writingInfo fedAndDrainedPDG fedAndDrained (fun a => {a}) (fun _ => 1) 1 =
        .ok (some ([⟨.sequential, ∅, {0}, 1⟩, ⟨.parallel, ∅, {1}, 4294967295⟩,
          ⟨.sequential, ∅, {2}, 1⟩], ∅)) ∧
      ¬ WithinBudget 1 [(⟨.sequential, ∅, {0}, 1⟩ : PipelineStage (Fin 3)),
        ⟨.parallel, ∅, {1}, 4294967295⟩, ⟨.sequential, ∅, {2}, 1⟩] := by
  refine ⟨by decide +kernel, ?_⟩
  rw [← List.singleton_append, withinBudget_iff 1 _ rfl (by simp) (by simp)]
  decide

end Cpf.Pipeline
