import Cpf.CodeGen.Simulation
import Cpf.CodeGen.StudySound

/-!
# The stages agree on their channels

The plans that the study leaves are closed under the control dependences of the loop, so that every stage
follows the loop. Whatever the loop does, a stage produces for a later one what that stage consumes from it,
value by value and in the same order.
-/

set_option linter.unusedSectionVars false

namespace Cpf.CodeGen

open Pipeline

universe u

variable {β ι : Type u} {E : Type*} [DecidableEq β] [DecidableEq ι]

def produced (d : ℕ) (ops : List (Op ι)) : List (ι × Bool) :=
  ops.filterMap fun op => match op with
    | .produce stage i replicated => if stage = d then some (i, replicated) else none
    | _ => none

def consumed (src : ℕ) (ops : List (Op ι)) : List (ι × Bool) :=
  ops.filterMap fun op => match op with
    | .consume stage i replicated => if stage = src then some (i, replicated) else none
    | _ => none

namespace LoopIR

/-- The loop and its strategy as code generation gets them: no dependence leads backwards, and every
instruction has a recorded dependence on the branches that control its block in an iteration, and on those
that control the back edge. -/
structure Compiled (L : LoopIR β ι) (ipdom : LoopBlock β → LoopBlock β) (isControlDependence : E → Bool)
    (xdeps : List (CrossStageDependence ι E)) (stages : List (PipelineStage ι)) : Prop where
  natural : L.toLoop.Natural
  reachable : ∀ b ∈ L.blocks, Relation.ReflTransGen L.graph.Succ (.block L.header) (.block b)
  ipdom : ∀ b ∈ L.blocks, (∃ w, L.graph.StrictPostDom w (.block b)) →
    L.graph.IsImmediate (ipdom (.block b)) (.block b)
  forward : L.Forward isControlDependence xdeps stages
  code : ∀ b ∈ L.blocks, ∀ i, i ∈ L.code b ↔ i ∈ L.insts ∧ L.parent i = b
  parent_mem : ∀ i ∈ L.insts, L.parent i ∈ L.blocks
  terminator : ∀ b ∈ L.blocks, L.parent (L.terminator b) = b ∧ ¬ L.Used (L.terminator b)
  control : ∀ b ∈ L.blocks, ∀ i ∈ L.insts,
    L.graph.ControlDep (.block (L.parent i)) (.block b) ∨ L.graph.ControlDep .loopContinue (.block b) →
      ∃ dep ∈ xdeps, isControlDependence dep.edge = true ∧ dep.src = L.terminator b ∧ dep.dst = i

/-- The header is relevant to the stage, or an irrelevant header is not in the way. -/
def Runnable (L : LoopIR β ι) (ipdom : LoopBlock β → LoopBlock β) (plan : StagePlan β ι) : Prop :=
  L.header ∈ plan.rel ∨
    (∀ c ∈ L.blocks, c ∉ plan.rel → ¬ StageOf.isHeaderCritEdge ⟨L.toLoop, plan, ipdom⟩ c) ∧
      ∀ b ∈ plan.rel, ¬ StageOf.copiesTerminator ⟨L.toLoop, plan, ipdom⟩ b → ∀ c ∈ L.liveSuccs b, c ≠ L.header →
        ∀ l, ¬ L.graph.Silent (StageOf.Observable ⟨L.toLoop, plan, ipdom⟩) (.block c) l .loopContinue

variable {L : LoopIR β ι} {ipdom : LoopBlock β → LoopBlock β} {isControlDependence : E → Bool}
  {xdeps : List (CrossStageDependence ι E)} {stages : List (PipelineStage ι)} {plans : List (StagePlan β ι)}
  {plan : StagePlan β ι} {b e : β}

/-- A walk to the back edge passes no exit. -/
theorem exists_walk_to_continue {v : LoopBlock β} (h : Relation.ReflTransGen L.graph.Succ v .loopContinue) :
    ∃ p, L.graph.ToEnd v p ∧ ∀ e, .loopExit e ∉ p := by
  induction h using Relation.ReflTransGen.head_induction_on with
  | refl => exact ⟨[.loopContinue], .last rfl, fun e he => by cases List.mem_singleton.1 he⟩
  | head hs _ ih =>
      obtain ⟨p, hp, hnot⟩ := ih
      refine ⟨_, .step hs hp, fun e he => ?_⟩
      rcases List.mem_cons.1 he with rfl | he
      · obtain ⟨_, _, heq, _⟩ := hs
        cases heq
      · exact hnot e he

namespace Compiled

/-- The terminator of a block is copied when an instruction of the stage depends on it. -/
theorem copies (hc : L.Compiled ipdom isControlDependence xdeps stages)
    (hp : L.PlansOk isControlDependence xdeps stages plans) (hplan : plan ∈ plans) (hb : b ∈ L.blocks) {i : ι}
    (hi : i ∈ plan.insts ∨ (plan.cons i).isSome)
    (hdep : L.graph.ControlDep (.block (L.parent i)) (.block b) ∨ L.graph.ControlDep .loopContinue (.block b)) :
    StageOf.Decides ⟨L.toLoop, plan, ipdom⟩ (.block b) := by
  obtain ⟨dep, hmem, hcontrol, hsrc, hdst⟩ := hc.control b hb i (hp.mem plan hplan i hi) hdep
  refine ⟨b, hb, rfl, ?_, ?_⟩
  · by_contra hcons
    exact (hc.terminator b hb).2 (hp.used plan hplan _ (Option.isSome_iff_ne_none.2 hcons))
  · exact hsrc ▸ hp.control plan hplan dep hmem hcontrol (hdst ▸ hi)

/-- A stage has a block, and an iteration can reach it. -/
theorem begins (hc : L.Compiled ipdom isControlDependence xdeps stages)
    (hp : L.PlansOk isControlDependence xdeps stages plans) (hplan : plan ∈ plans) :
    ∃ b ∈ plan.rel, Relation.ReflTransGen L.graph.Succ (.block L.header) (.block b) := by
  obtain ⟨d, hd⟩ := List.mem_iff_getElem?.1 hplan
  have hlt : d < stages.length := hp.length_eq ▸ (List.getElem?_eq_some_iff.1 hd).1
  obtain ⟨i, hi⟩ := hc.forward.nonempty stages[d] (List.getElem_mem hlt)
  have hin := hp.own d stages[d] plan (List.getElem?_eq_getElem hlt) hd (Finset.mem_union_left _ hi)
  exact ⟨L.parent i, (hp.rel plan hplan _).2 ⟨i, .inl hin, rfl⟩,
    hc.reachable _ (hc.parent_mem i (hp.mem plan hplan i (.inl hin)))⟩

/-- The study leaves plans that code generation can rely on. -/
theorem prepared (hc : L.Compiled ipdom isControlDependence xdeps stages)
    (hp : L.PlansOk isControlDependence xdeps stages plans) (hplan : plan ∈ plans)
    (hrun : L.Runnable ipdom plan) :
    StageOf.Prepared ⟨L.toLoop, plan, ipdom⟩ := by
  have hterm : ∀ b ∈ L.blocks, StageOf.copiesTerminator ⟨L.toLoop, plan, ipdom⟩ b → b ∈ plan.rel :=
    fun b hb hcopies =>
    (hp.rel plan hplan b).2 ⟨L.terminator b, .inl hcopies.2, (hc.terminator b hb).1⟩
  have hblock : ∀ c ∈ plan.rel, ∀ v, L.graph.ControlDep (.block c) v →
      StageOf.Decides ⟨L.toLoop, plan, ipdom⟩ v := by
    intro c hcrel v hdep
    obtain ⟨⟨_, ⟨b, _, rfl, hb, _⟩, _⟩, _⟩ := id hdep
    obtain ⟨i, hi, rfl⟩ := (hp.rel plan hplan c).1 hcrel
    exact hc.copies hp hplan hb hi (.inl hdep)
  have hcontinue : ∀ v, L.graph.ControlDep .loopContinue v → StageOf.Decides ⟨L.toLoop, plan, ipdom⟩ v := by
    intro v hdep
    obtain ⟨⟨_, ⟨b, _, rfl, hb, _⟩, _⟩, _⟩ := id hdep
    obtain ⟨c, hcrel, -⟩ := hc.begins hp hplan
    obtain ⟨i, hi, -⟩ := (hp.rel plan hplan c).1 hcrel
    exact hc.copies hp hplan hb hi (.inr hdep)
  refine ⟨hc.natural, hc.ipdom, fun b hb => ?_, hterm, fun n v hobs hdep => ?_, hc.begins hp hplan, hrun⟩
  · obtain ⟨i, hi, rfl⟩ := (hp.rel plan hplan b).1 hb
    exact hc.parent_mem i (hp.mem plan hplan i hi)
  cases n with
  | beforeIteration => exact absurd hobs id
  | block c => exact hblock c hobs v hdep
  | loopContinue => exact hcontinue v hdep
  | loopExit e =>
      obtain ⟨⟨u, hs, hpost⟩, -⟩ := hdep
      have hu : ¬ Relation.ReflTransGen L.graph.Succ u .loopContinue := by
        intro hreach
        obtain ⟨p, hp, hnot⟩ := exists_walk_to_continue hreach
        exact hnot e (hpost p hp)
      obtain ⟨b, c, rfl, hb, _, rfl⟩ := id hs
      refine ControlGraph.decides_of_leaves hcontinue (fun n v hn hdep => ?_) hs (hc.natural.toEnd_edge c) hu
        (hc.natural.reaches b hb) nofun
      obtain ⟨c, hcmem, rfl, hcopies⟩ := hn
      exact hblock c (hterm c hcmem hcopies) v hdep

end Compiled
end LoopIR

/-! ### The messages of a block -/

namespace StageOf

variable (S : StageOf β ι)

theorem produced_append (d : ℕ) (ops ops' : List (Op ι)) :
    produced d (ops ++ ops') = produced d ops ++ produced d ops' :=
  List.filterMap_append

theorem consumed_append (src : ℕ) (ops ops' : List (Op ι)) :
    consumed src (ops ++ ops') = consumed src ops ++ consumed src ops' := List.filterMap_append

def sends (d : ℕ) (i : ι) : List (ι × Bool) :=
  if S.plan.cons i = none ∧ i ∈ S.plan.insts then
    ((S.plan.prods i).filter fun endPoint => endPoint.1 = d).map fun endPoint => (i, endPoint.2)
  else []

def receives (src : ℕ) (i : ι) : List (ι × Bool) :=
  ((S.plan.cons i).bind fun point => if point.1 = src then some point.2 else none).toList.map fun r => (i, r)

theorem produced_endPoints (d : ℕ) (i : ι) (endPoints : List (ℕ × Bool)) :
    produced d (endPoints.map fun endPoint => .produce endPoint.1 i endPoint.2) =
      (endPoints.filter fun endPoint => endPoint.1 = d).map fun endPoint => (i, endPoint.2) := by
  induction endPoints with
  | nil => rfl
  | cons endPoint endPoints ih =>
      rw [List.map_cons, produced, List.filterMap_cons, List.filter_cons]
      rw [produced] at ih
      by_cases hd : endPoint.1 = d <;> simp [hd, ih]

theorem produced_cloneInst (d : ℕ) (body : List (Op ι)) (i : ι) :
    produced d (S.cloneInst body i) = produced d body ++ S.sends d i := by
  rw [cloneInst, sends]
  cases hcons : S.plan.cons i with
  | some point => simp [produced]
  | none =>
      by_cases hmem : i ∈ S.plan.insts
      · simp only [if_pos hmem, true_and]
        rw [produced_append, produced_endPoints]
        congr 1
        split_ifs
        · rfl
        · rw [produced_append]
          exact List.append_nil _
      · simp [hmem]

theorem consumed_cloneInst (src : ℕ) (body : List (Op ι)) (i : ι) :
    consumed src (S.cloneInst body i) = consumed src body ++ S.receives src i := by
  have hproduce : ∀ endPoints : List (ℕ × Bool),
      consumed src (endPoints.map fun endPoint => .produce endPoint.1 i endPoint.2) = [] := fun endPoints => by
    simp [consumed]
  rw [cloneInst, receives]
  cases hcons : S.plan.cons i with
  | some point =>
      dsimp only
      rw [consumed_append]
      by_cases hsrc : point.1 = src <;> simp [consumed, hsrc]
  | none =>
      by_cases hmem : i ∈ S.plan.insts
      · simp only [if_pos hmem]
        rw [consumed_append, hproduce]
        split_ifs
        · simp [consumed]
        · rw [consumed_append]
          simp [consumed]
      · simp [hmem]

end StageOf

namespace LoopIR

variable {L : LoopIR β ι} {ipdom : LoopBlock β → LoopBlock β} {isControlDependence : E → Bool}
  {xdeps : List (CrossStageDependence ι E)} {stages : List (PipelineStage ι)}

/-- The code generation of a pipeline: the study of the stages ends, and in every run of the loop each
sequential stage follows it to the same exit; what such a stage produces for another is what that one
consumes from it, in the same order. A worker of a parallel stage runs another function in the
iterations that are not its own. -/
theorem channels_agree (hc : L.Compiled ipdom isControlDependence xdeps stages) :
    ∃ plans, L.prepare isControlDependence xdeps stages = .ok plans ∧
      ∀ (src d : ℕ) (source plan : StagePlan β ι), plans[src]? = some source → plans[d]? = some plan →
        (∀ k ∈ [src, d], ∀ stage, stages[k]? = some stage → stage.type = .sequential) →
        L.Runnable ipdom source → L.Runnable ipdom plan →
        ∀ (t : List (β × ℕ)) (e : β), LoopExec L.toLoop L.header t e → ∀ fuel ≥ 2 * t.length + 3,
          ∃ bs bs', StageOf.run ⟨L.toLoop, source, ipdom⟩ fuel .preheader
              (StageOf.outcomes ⟨L.toLoop, source, ipdom⟩ t) = some (bs, e) ∧
            StageOf.run ⟨L.toLoop, plan, ipdom⟩ fuel .preheader
              (StageOf.outcomes ⟨L.toLoop, plan, ipdom⟩ t) = some (bs', e) ∧
            produced d (StageOf.opsOf ⟨L.toLoop, source, ipdom⟩ bs) =
              consumed src (StageOf.opsOf ⟨L.toLoop, plan, ipdom⟩ bs') := by
  obtain ⟨plans, hplans, hp⟩ := hc.forward.exists_plansOk
  refine ⟨plans, hplans, fun src d source plan hsrc hd _ hrunS hrunP t e hexec fuel hfuel => ?_⟩
  have hprepS := hc.prepared hp (List.mem_of_getElem? hsrc) hrunS
  have hprepP := hc.prepared hp (List.mem_of_getElem? hd) hrunP
  refine ⟨_, _, hprepS.run_preheader hexec hfuel, hprepP.run_preheader hexec hfuel, ?_⟩
  -- an instruction sends what the other stage receives in its place
  have hsends : ∀ i, StageOf.sends ⟨L.toLoop, source, ipdom⟩ d i = StageOf.receives ⟨L.toLoop, plan, ipdom⟩
      src i := by
    intro i
    have hprods := hp.prods src d source plan i hsrc hd
    rw [StageOf.sends, StageOf.receives]
    dsimp only
    rw [hprods]
    cases hcons : (plan.cons i).bind fun point => if point.1 = src then some point.2 else none with
    | none => simp
    | some r =>
        obtain ⟨point, hpoint, heq⟩ := Option.bind_eq_some_iff.1 hcons
        split_ifs at heq with hpointSrc
        cases heq
        obtain ⟨-, source', hsource', hin, hnone⟩ := hp.source d plan i point.1 point.2 hd hpoint
        rw [hpointSrc] at hsource'
        obtain rfl := Option.some.inj (hsrc.symm.trans hsource')
        rw [if_pos ⟨hnone, hin⟩]
        simp
  have hmem := StageOf.mem_blocks_of_exec hexec
  have hreceives : ∀ edge ∈ t, (L.code edge.1).flatMap (StageOf.receives ⟨L.toLoop, plan, ipdom⟩ src) ≠ [] →
      edge.1 ∈ source.rel ∧ edge.1 ∈ plan.rel := by
    intro edge hedge hne
    obtain ⟨message, hmessage⟩ := List.exists_mem_of_ne_nil _ hne
    obtain ⟨i, hi, hin⟩ := List.mem_flatMap.1 hmessage
    obtain ⟨_, hparent⟩ := (hc.code edge.1 (hmem edge hedge) i).1 hi
    simp only [StageOf.receives, List.mem_map, Option.mem_toList] at hin
    obtain ⟨r, hr, -⟩ := hin
    obtain ⟨point, hpoint, heq⟩ := Option.bind_eq_some_iff.1 hr
    split_ifs at heq with hpointSrc
    obtain ⟨-, source', hsource', hins, -⟩ := hp.source d plan i point.1 point.2 hd hpoint
    rw [hpointSrc] at hsource'
    obtain rfl := Option.some.inj (hsrc.symm.trans hsource')
    exact ⟨(hp.rel source (List.mem_of_getElem? hsrc) _).2 ⟨i, .inl hins, hparent⟩,
      (hp.rel plan (List.mem_of_getElem? hd) _).2 ⟨i, .inr (Option.isSome_iff_exists.2 ⟨_, hpoint⟩), hparent⟩⟩
  rw [StageOf.read_relevant (S := ⟨L.toLoop, source, ipdom⟩) rfl (StageOf.produced_append d)
      (fun b => (L.code b).flatMap (StageOf.receives ⟨L.toLoop, plan, ipdom⟩ src))
      (fun edge _ => ?_) (fun edge hedge hnot => ?_),
    StageOf.read_relevant (S := ⟨L.toLoop, plan, ipdom⟩) rfl (StageOf.consumed_append src)
      (fun b => (L.code b).flatMap (StageOf.receives ⟨L.toLoop, plan, ipdom⟩ src))
      (fun edge _ => StageOf.read_cloneBody rfl (StageOf.consumed_cloneInst _ src) edge.1)
      (fun edge hedge hnot => ?_)]
  · by_contra hne
    exact hnot (hreceives edge hedge hne).2
  · rw [StageOf.read_cloneBody rfl (StageOf.produced_cloneInst _ d)]
    exact congrArg (fun f => (L.code edge.1).flatMap f) (funext hsends)
  · by_contra hne
    exact hnot (hreceives edge hedge hne).1

end LoopIR

/-! ### A loop in two stages -/

namespace DswpLoop

open LoopBlock

def ipdom : LoopBlock ℕ → LoopBlock ℕ := fun _ => loopContinue

theorem succ_iff {v w : LoopBlock ℕ} : dswpLoop.graph.Succ v w ↔
    (v, w) ∈ [(block 0, block 1), (block 0, loopExit 3), (block 1, loopContinue)] := by
  rw [show [(block 0, block 1), (block 0, loopExit 3), (block 1, loopContinue)] =
    dswpLoop.toLoop.edges from rfl]
  exact dswpLoop.toLoop.mem_edges.symm

theorem walk_continue {p : List (LoopBlock ℕ)} (h : dswpLoop.graph.ToEnd loopContinue p) :
    p = [loopContinue] := by
  cases h with
  | last _ => rfl
  | step hs _ =>
      obtain ⟨b, _, heq, _⟩ := hs
      cases heq

theorem walk_one {p : List (LoopBlock ℕ)} (h : dswpLoop.graph.ToEnd (block 1) p) :
    p = [block 1, loopContinue] := by
  cases h with
  | last hend => cases hend
  | step hs hp =>
      simp [succ_iff] at hs
      subst hs
      rw [walk_continue hp]

theorem toEnd_one : dswpLoop.graph.ToEnd (block 1) [block 1, loopContinue] := .step (succ_iff.2 (by simp))
    (.last rfl)

theorem strictPostDom_one {w : LoopBlock ℕ} : dswpLoop.graph.StrictPostDom w (block 1) ↔ w = loopContinue := by
  constructor
  · rintro ⟨hne, hw⟩
    exact List.mem_singleton.1 ((List.mem_cons.1 (hw _ toEnd_one)).resolve_left hne)
  · rintro rfl
    exact ⟨nofun, fun p hp => by simp [walk_one hp]⟩

theorem compiled : dswpLoop.Compiled ipdom id dswpDeps dswpStages where
  natural :=
    { header_mem := by decide
      reaches := by
        intro b hb
        have hb : b ∈ [0, 1] := hb
        simp only [List.mem_cons, List.not_mem_nil, or_false] at hb
        rcases hb with rfl | rfl
        · exact .head (succ_iff.2 (by simp)) (toEnd_one.reaches (by simp))
        · exact toEnd_one.reaches (by simp)
      back_live := by decide }
  reachable b hb := by
    have hb : b ∈ [0, 1] := hb
    simp only [List.mem_cons, List.not_mem_nil, or_false] at hb
    rcases hb with rfl | rfl
    · exact .refl
    · exact .single (succ_iff.2 (by simp [dswpLoop]))
  ipdom b hb hex := by
    have hb : b ∈ [0, 1] := hb
    simp only [List.mem_cons, List.not_mem_nil, or_false] at hb
    rcases hb with rfl | rfl
    · obtain ⟨w, hne, hw⟩ := hex
      have hexit := hw _ (.step (u := loopExit 3) (succ_iff.2 (by simp)) (.last rfl))
      have hbody := hw _ (.step (succ_iff.2 (by simp)) toEnd_one)
      simp only [List.mem_cons, List.not_mem_nil, or_false, hne, false_or] at hexit hbody
      subst hexit
      simp at hbody
    · refine ⟨strictPostDom_one.2 rfl, fun w hw => ?_⟩
      rw [strictPostDom_one.1 hw]
      exact .refl _ _
  forward := dswp_forward
  code b hb i := by
    have hcode : ∀ b ∈ dswpLoop.blocks, ∀ i ∈ dswpLoop.code b, i ∈ dswpLoop.insts ∧
        dswpLoop.parent i = b := by decide
    have hparent : ∀ b ∈ dswpLoop.blocks, ∀ i ∈ dswpLoop.insts, dswpLoop.parent i = b →
        i ∈ dswpLoop.code b := by decide
    exact ⟨hcode b hb i, fun hi => hparent b hb i hi.1 hi.2⟩
  parent_mem := by decide
  terminator b hb := by
    have hb : b ∈ [0, 1] := hb
    have hused : ∀ b ∈ [0, 1], ¬ ∃ i ∈ dswpLoop.insts, dswpLoop.terminator b ∈ dswpLoop.operands i := by decide
    have hparent : ∀ b ∈ [0, 1], dswpLoop.parent (dswpLoop.terminator b) = b := by decide
    exact ⟨hparent b hb, hused b hb⟩
  control b hb i hi hdep := by
    have hb : b ∈ [0, 1] := hb
    simp only [List.mem_cons, List.not_mem_nil, or_false] at hb
    rcases hb with rfl | rfl
    · exact ⟨⟨11, i, true⟩, List.mem_map_of_mem hi, rfl, rfl, rfl⟩
    · -- block 1 only leads to the back edge, which post-dominates it
      exfalso
      have hnot : ∀ n, ¬ dswpLoop.graph.ControlDep n (block 1) := by
        rintro n ⟨⟨u, hs, hpost⟩, hstrict⟩
        have hu : u = loopContinue := by simpa [succ_iff] using hs
        subst hu
        exact hstrict (strictPostDom_one.2 (List.mem_singleton.1 (hpost _ (.last rfl))))
      exact hdep.elim (hnot _) (hnot _)

theorem exec : LoopExec dswpLoop.toLoop 0 [(0, 0), (1, 0), (0, 0), (1, 0), (0, 1)] 3 := by
  refine .step (c := 1) ?_ rfl rfl ?_ (.step (c := 0) ?_ rfl rfl ?_ (.step (c := 1) ?_ rfl rfl ?_
    (.step (c := 0) ?_ rfl rfl ?_ (.exit ?_ rfl rfl ?_))))
  all_goals decide

theorem runnable {plans : List (StagePlan ℕ ℕ)} {plan : StagePlan ℕ ℕ}
    (hplans : dswpLoop.prepare id dswpDeps dswpStages = .ok plans) (hplan : plan ∈ plans) :
    dswpLoop.Runnable ipdom plan := by
  obtain ⟨plans', hplans', hp⟩ := dswp_forward.exists_plansOk
  obtain rfl := Except.ok.inj (hplans.symm.trans hplans')
  obtain ⟨b, hb, -⟩ := compiled.begins hp hplan
  obtain ⟨i, hi, -⟩ := (hp.rel plan hplan b).1 hb
  have hbranch := hp.control plan hplan ⟨11, i, true⟩ (List.mem_map_of_mem (hp.mem plan hplan i hi)) rfl hi
  exact .inl ((hp.rel plan hplan 0).2 ⟨11, .inl hbranch, rfl⟩)

end DswpLoop

theorem channels_agree_dswp : ∃ plans source plan,
    dswpLoop.prepare id dswpDeps dswpStages = .ok plans ∧ plans[0]? = some source ∧ plans[1]? = some plan ∧
      ∃ bs bs', StageOf.run ⟨dswpLoop.toLoop, source, DswpLoop.ipdom⟩ 13 .preheader
          (StageOf.outcomes ⟨dswpLoop.toLoop, source, DswpLoop.ipdom⟩ [(0, 0), (1, 0), (0, 0),
          (1, 0), (0, 1)]) =
            some (bs, 3) ∧
        StageOf.run ⟨dswpLoop.toLoop, plan, DswpLoop.ipdom⟩ 13 .preheader
          (StageOf.outcomes ⟨dswpLoop.toLoop, plan, DswpLoop.ipdom⟩ [(0, 0), (1, 0), (0, 0), (1, 0), (0, 1)]) =
            some (bs', 3) ∧
        produced 1 (StageOf.opsOf ⟨dswpLoop.toLoop, source, DswpLoop.ipdom⟩ bs) =
          consumed 0 (StageOf.opsOf ⟨dswpLoop.toLoop, plan, DswpLoop.ipdom⟩ bs') := by
  obtain ⟨plans, hplans, hall⟩ := LoopIR.channels_agree DswpLoop.compiled
  obtain ⟨plans', hplans', hp⟩ := dswp_forward.exists_plansOk
  obtain rfl := Except.ok.inj (hplans.symm.trans hplans')
  have hlen : plans.length = 2 := hp.length_eq
  obtain ⟨source, plan, rfl⟩ := List.length_eq_two.1 hlen
  have hsequential : ∀ k ∈ [0, 1], ∀ stage, dswpStages[k]? = some stage → stage.type = .sequential := by
    intro k _ stage hstage
    have hall : ∀ stage ∈ dswpStages, stage.type = .sequential := by decide
    exact hall stage (List.mem_of_getElem? hstage)
  exact ⟨_, source, plan, hplans, rfl, rfl, hall 0 1 source plan rfl rfl hsequential
    (DswpLoop.runnable hplans (by simp))
    (DswpLoop.runnable hplans (by simp)) _ _ DswpLoop.exec 13 (by decide)⟩

end Cpf.CodeGen
