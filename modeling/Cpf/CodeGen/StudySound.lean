import Cpf.CodeGen.StageStudy

/-!
# The study ends, and what it leaves

When no dependence leads from a later stage to an earlier one, the study of every stage ends. A value that a
stage needs and does not have comes from an earlier stage, so that the search for a source never fails. What
the study leaves is closed under operands and under the recorded control dependences.
-/

set_option linter.unusedSectionVars false

namespace Cpf.CodeGen

open Pipeline

universe u

variable {β ι : Type u} {E : Type*} [DecidableEq β] [DecidableEq ι]

namespace LoopIR

/-- The instruction is in a stage up to the `d`-th. -/
def Covered (stages : List (PipelineStage ι)) (d : ℕ) (i : ι) : Prop :=
  ∃ k ≤ d, ∃ stage, stages[k]? = some stage ∧ i ∈ stage.allInsts

/-- No operand and no recorded control dependence leads from a later stage to an earlier one, and no
stage is replicable or empty. -/
structure Forward (L : LoopIR β ι) (isControlDependence : E → Bool) (xdeps : List (CrossStageDependence ι E))
    (stages : List (PipelineStage ι)) : Prop where
  mem : ∀ stage ∈ stages, ∀ i ∈ stage.allInsts, i ∈ L.insts
  type : ∀ stage ∈ stages, stage.type ≠ .replicable
  nonempty : ∀ stage ∈ stages, stage.instructions.Nonempty
  operands : ∀ d i, Covered stages d i → ∀ o ∈ L.operands i, o ∈ L.insts → Covered stages d o
  control : ∀ dep ∈ xdeps, isControlDependence dep.edge = true → ∀ d, Covered stages d dep.dst →
    Covered stages d dep.src

/-- What is available before the `d`-th stage is studied. -/
structure Before (stages : List (PipelineStage ι)) (d : ℕ) (stage : PipelineStage ι)
    (available : List (Finset ι)) :
    Prop where
  stage_eq : stages[d]? = some stage
  available : ∀ k < d, ∀ st, stages[k]? = some st → ∃ A, available[k]? = some A ∧ st.allInsts ⊆ A

def Has (s : Study β ι) (i : ι) : Prop := i ∈ s.insts ∨ (s.cons i).isSome

def Used (L : LoopIR β ι) (o : ι) : Prop := ∃ i ∈ L.insts, o ∈ L.operands i

/-- The invariant of the study of the `d`-th stage. -/
structure Inv (L : LoopIR β ι) (stages : List (PipelineStage ι)) (d : ℕ) (stage : PipelineStage ι)
    (available : List (Finset ι)) (s : Study β ι) : Prop where
  avail : ∀ i, i ∈ s.avail ↔ Has s i ∨ i ∈ L.liveIns
  covered : ∀ i, Has s i → Covered stages d i
  own : stage.allInsts ⊆ s.insts
  source : ∀ i src r, s.cons i = some (src, r) → available.findIdx? (i ∈ ·) = some src
  used : ∀ i, (s.cons i).isSome → L.Used i
  rel : ∀ b, b ∈ s.rel ↔ ∃ i, Has s i ∧ L.parent i = b

/-- The instructions that the stage does not have, and those that are not available in it. -/
def missing (L : LoopIR β ι) (s : Study β ι) : ℕ := (L.insts.toFinset \ s.insts).card +
    (L.insts.toFinset \ s.avail).card

structure Le (s t : Study β ι) : Prop where
  insts : s.insts ⊆ t.insts
  avail : s.avail ⊆ t.avail

variable {L : LoopIR β ι} {isControlDependence : E → Bool} {xdeps : List (CrossStageDependence ι E)}
  {stages : List (PipelineStage ι)} {d : ℕ} {stage : PipelineStage ι} {available : List (Finset ι)}
  {s t : Study β ι}
  {i o : ι}

theorem Le.refl (s : Study β ι) : Le s s := ⟨Finset.Subset.refl _, Finset.Subset.refl _⟩

theorem Le.trans {r : Study β ι} (h : Le r s) (h' : Le s t) : Le r t :=
  ⟨h.insts.trans h'.insts, h.avail.trans h'.avail⟩

theorem card_sdiff_le {A B : Finset ι} (h : A ⊆ B) :
    (L.insts.toFinset \ B).card ≤ (L.insts.toFinset \ A).card :=
  Finset.card_le_card (Finset.sdiff_subset_sdiff (Finset.Subset.refl _) h)

theorem card_sdiff_lt {A B : Finset ι} (h : A ⊆ B) (hi : i ∈ L.insts) (hA : i ∉ A) (hB : i ∈ B) :
    (L.insts.toFinset \ B).card < (L.insts.toFinset \ A).card := by
  refine Finset.card_lt_card ((Finset.ssubset_iff_of_subset
    (Finset.sdiff_subset_sdiff (Finset.Subset.refl _) h)).2 ⟨i, by simp [hi, hA], by simp [hB]⟩)

theorem card_sdiff_le_length (A : Finset ι) : (L.insts.toFinset \ A).card ≤ L.insts.length :=
  (Finset.card_le_card Finset.sdiff_subset).trans (List.toFinset_card_le L.insts)

theorem Le.missing (h : Le s t) : L.missing t ≤ L.missing s :=
  Nat.add_le_add (card_sdiff_le h.insts) (card_sdiff_le h.avail)

/-- A new instruction lowers the number of those that are missing. -/
theorem Le.missing_lt (h : Le s t) (hi : i ∈ L.insts)
    (hnew : i ∉ s.insts ∧ i ∈ t.insts ∨ i ∉ s.avail ∧ i ∈ t.avail) :
    L.missing t < L.missing s := by
  rcases hnew with ⟨hA, hB⟩ | ⟨hA, hB⟩
  · exact Nat.add_lt_add_of_lt_of_le (card_sdiff_lt h.insts hi hA hB) (card_sdiff_le h.avail)
  · exact Nat.add_lt_add_of_le_of_lt (card_sdiff_le h.insts) (card_sdiff_lt h.avail hi hA hB)

theorem missing_le (s : Study β ι) : L.missing s ≤ 2 * L.insts.length := by
  have hinsts := card_sdiff_le_length (L := L) s.insts
  have havail := card_sdiff_le_length (L := L) s.avail
  unfold missing
  omega

theorem Covered.mem (hf : L.Forward isControlDependence xdeps stages) (h : Covered stages d i) :
    i ∈ L.insts := by
  obtain ⟨k, _, st, hst, hi⟩ := h
  exact hf.mem st (List.mem_of_getElem? hst) i hi

theorem mem_liveIns (hi : i ∈ L.insts) (ho : o ∈ L.operands i) (hout : o ∉ L.insts) : o ∈ L.liveIns := by
  simp only [liveIns, List.mem_toFinset, List.mem_filter, List.mem_flatMap, decide_eq_true_eq]
  exact ⟨⟨i, hi, ho⟩, hout⟩

theorem not_mem_of_liveIns (ho : o ∈ L.liveIns) : o ∉ L.insts := by
  simp only [liveIns, List.mem_toFinset, List.mem_filter, decide_eq_true_eq] at ho
  exact ho.2

namespace Inv

theorem mem_avail (h : Inv L stages d stage available s) (hi : Has s i) : i ∈ s.avail := (h.avail i).2 (.inl hi)

/-- An operand that is not available is an instruction of the loop, of a stage up to this one. -/
theorem covered_operand (h : Inv L stages d stage available s) (hf : L.Forward isControlDependence xdeps stages)
    (hi : Covered stages d i) (ho : o ∈ L.operands i) (hnot : o ∉ s.avail) :
    o ∈ L.insts ∧ Covered stages d o ∧ L.Used o := by
  have hmem : o ∈ L.insts := by
    by_contra hout
    exact hnot ((h.avail o).2 (.inr (mem_liveIns (hi.mem hf) ho hout)))
  exact ⟨hmem, hf.operands d i hi o ho hmem, i, hi.mem hf, ho⟩

theorem addInsts (h : Inv L stages d stage available s) {is : Finset ι}
    (hcovered : ∀ i ∈ is, Covered stages d i) :
    Inv L stages d stage available (L.addInstsToStage s is) where
  avail i := by
    have hold := h.avail i
    simp only [Has, addInstsToStage, Finset.mem_union] at hold ⊢
    tauto
  covered i hi := by
    simp only [Has, addInstsToStage, Finset.mem_union] at hi
    rcases hi with (hi | hi) | hi
    · exact hcovered i hi
    · exact h.covered i (.inl hi)
    · exact h.covered i (.inr hi)
  own := h.own.trans Finset.subset_union_right
  source := h.source
  used := h.used
  rel b := by
    have hold := h.rel b
    simp only [Has, addInstsToStage, Finset.mem_union, Finset.mem_image] at hold ⊢
    constructor
    · rintro (⟨i, hi, rfl⟩ | hb)
      · exact ⟨i, .inl (.inl hi), rfl⟩
      · obtain ⟨i, hi, rfl⟩ := hold.1 hb
        exact ⟨i, by tauto, rfl⟩
    · rintro ⟨i, (hi | hi) | hi, rfl⟩
      · exact .inl ⟨i, hi, rfl⟩
      · exact .inr (hold.2 ⟨i, .inl hi, rfl⟩)
      · exact .inr (hold.2 ⟨i, .inr hi, rfl⟩)

theorem addInst_eq (s : Study β ι) (i : ι) : L.addInstToStage s i = L.addInstsToStage s {i} := by
  simp only [addInstToStage, addInstsToStage, Finset.image_singleton, Finset.insert_eq]

theorem addInst (h : Inv L stages d stage available s) (hi : Covered stages d i) :
    Inv L stages d stage available (L.addInstToStage s i) := by
  rw [addInst_eq]
  exact h.addInsts fun j hj => by rwa [Finset.mem_singleton.1 hj]

theorem addCommunication (h : Inv L stages d stage available s) {src : ℕ} {r : Bool} (hi : Covered stages d i)
    (hused : L.Used i) (hsrc : available.findIdx? (i ∈ ·) = some src) :
    Inv L stages d stage available (L.addCommunication s src i r) where
  avail j := by
    have hold := h.avail j
    simp only [Has, LoopIR.addCommunication, Finset.mem_insert] at hold ⊢
    by_cases hj : j = i
    · simp [hj]
    · simp [hj, hold]
  covered j hj := by
    by_cases hji : j = i
    · rwa [hji]
    · simp only [Has, LoopIR.addCommunication, Function.update_of_ne hji] at hj
      exact h.covered j hj
  own := h.own
  source j src' r' hj := by
    by_cases hji : j = i
    · subst hji
      simp only [LoopIR.addCommunication, Function.update_self, Option.some.injEq, Prod.mk.injEq] at hj
      rw [hsrc, hj.1]
    · simp only [LoopIR.addCommunication, Function.update_of_ne hji] at hj
      exact h.source j src' r' hj
  used j hj := by
    by_cases hji : j = i
    · rwa [hji]
    · simp only [LoopIR.addCommunication, Function.update_of_ne hji] at hj
      exact h.used j hj
  rel b := by
    have hold := h.rel b
    simp only [Has, LoopIR.addCommunication, Finset.mem_insert] at hold ⊢
    constructor
    · rintro (rfl | hb)
      · exact ⟨i, by simp, rfl⟩
      · obtain ⟨j, hj, rfl⟩ := hold.1 hb
        refine ⟨j, hj.imp_right fun hj => ?_, rfl⟩
        by_cases hji : j = i
        · simp [hji]
        · rwa [Function.update_of_ne hji]
    · rintro ⟨j, hj, rfl⟩
      by_cases hji : j = i
      · exact .inl (by rw [hji])
      · rw [Function.update_of_ne hji] at hj
        exact .inr (hold.2 ⟨j, hj, rfl⟩)

end Inv

theorem le_addInsts (s : Study β ι) (is : Finset ι) : Le s (L.addInstsToStage s is) :=
  ⟨Finset.subset_union_right, Finset.subset_union_right⟩

theorem le_addCommunication (s : Study β ι) (src : ℕ) (i : ι) (r : Bool) :
    Le s (L.addCommunication s src i r) :=
  ⟨Finset.Subset.refl _, Finset.subset_insert _ _⟩

/-! ### Control dependences -/

theorem handleControlDep_changed (acc : Bool × Study β ι) (dep : CrossStageDependence ι E) (h : acc.1 = true) :
    (L.handleControlDep isControlDependence acc dep).1 = true := by
  rw [handleControlDep]
  split_ifs
  · rfl
  · exact h

theorem foldl_handleControlDep_changed {deps : List (CrossStageDependence ι E)} (acc : Bool × Study β ι)
    (h : acc.1 = true) :
    (deps.foldl (L.handleControlDep isControlDependence) acc).1 = true := by
  induction deps generalizing acc with
  | nil => exact h
  | cons dep deps ih => exact ih _ (handleControlDep_changed acc dep h)

/-- When nothing has changed, the stage is closed under the recorded control dependences. -/
theorem closed_of_unchanged (h : (L.handleControlDeps isControlDependence xdeps s).1 = false) :
    ∀ dep ∈ xdeps, isControlDependence dep.edge = true → Has s dep.dst → dep.src ∈ s.insts := by
  rw [handleControlDeps] at h
  induction xdeps with
  | nil => exact fun _ hmem => nomatch hmem
  | cons dep deps ih =>
      rw [List.foldl_cons] at h
      by_cases hdep : isControlDependence dep.edge = true ∧ (dep.dst ∈ s.insts ∨ (s.cons dep.dst).isSome) ∧
          dep.src ∉ s.insts
      · rw [handleControlDep, if_pos hdep, foldl_handleControlDep_changed _ rfl] at h
        cases h
      · rw [handleControlDep, if_neg hdep] at h
        refine List.forall_mem_cons.2 ⟨fun hcontrol hhas => ?_, ih h⟩
        by_contra hsrc
        exact hdep ⟨hcontrol, hhas, hsrc⟩

/-- Branches are added until every recorded control dependence has been looked at once. -/
theorem Inv.handleControlDeps (h : Inv L stages d stage available s)
    (hf : L.Forward isControlDependence xdeps stages) :
    Inv L stages d stage available (L.handleControlDeps isControlDependence xdeps s).2 ∧
      Le s (L.handleControlDeps isControlDependence xdeps s).2 ∧
      ((L.handleControlDeps isControlDependence xdeps s).1 = true →
        L.missing (L.handleControlDeps isControlDependence xdeps s).2 < L.missing s) := by
  have hstep : ∀ deps : List (CrossStageDependence ι E), (∀ dep ∈ deps, dep ∈ xdeps) → ∀ acc : Bool × Study β ι,
      (Inv L stages d stage available acc.2 ∧ Le s acc.2 ∧ (acc.1 = true → L.missing acc.2 < L.missing s)) →
      Inv L stages d stage available (deps.foldl (L.handleControlDep isControlDependence) acc).2 ∧
        Le s (deps.foldl (L.handleControlDep isControlDependence) acc).2 ∧
        ((deps.foldl (L.handleControlDep isControlDependence) acc).1 = true →
          L.missing (deps.foldl (L.handleControlDep isControlDependence) acc).2 < L.missing s) := by
    intro deps hdeps
    induction deps with
    | nil => exact fun acc hacc => hacc
    | cons dep deps ih =>
        intro acc hacc
        refine ih (fun dep hdep => hdeps dep (List.mem_cons_of_mem _ hdep)) _ ?_
        rw [handleControlDep]
        split_ifs with hdep
        · obtain ⟨hcontrol, hdst, hsrc⟩ := hdep
          have hcovered := hf.control dep (hdeps dep List.mem_cons_self) hcontrol d (hacc.1.covered _ hdst)
          have hle : Le acc.2 (L.addInstToStage acc.2 dep.src) := by
            rw [Inv.addInst_eq]
            exact le_addInsts _ _
          refine ⟨hacc.1.addInst hcovered, hacc.2.1.trans hle, fun _ => ?_⟩
          refine lt_of_lt_of_le (hle.missing_lt (hcovered.mem hf) (.inl ⟨hsrc, Finset.mem_insert_self _ _⟩)) ?_
          exact hacc.2.1.missing
        · exact hacc
  exact hstep xdeps (fun _ h => h) (false, s) ⟨h, Le.refl s, nofun⟩

/-! ### Rematerialisation -/

theorem mem_members : i ∈ L.members s ↔ i ∈ L.insts ∧ i ∈ s.insts := by simp [members]

theorem Inv.rematerializeOnce (h : Inv L stages d stage available s)
    (hf : L.Forward isControlDependence xdeps stages)
    (ht : L.rematerializeOnce stage s = some t) :
    Inv L stages d stage available t ∧ Le s t ∧ ∃ o ∈ L.insts, o ∉ s.avail ∧ o ∈ t.avail := by
  rw [LoopIR.rematerializeOnce, Option.map_eq_some_iff] at ht
  obtain ⟨o, hfind, rfl⟩ := ht
  obtain ⟨i, hi, ho⟩ := List.mem_flatMap.1 (List.mem_of_find?_eq_some hfind)
  have hnot : o ∉ s.avail := by
    have hcan := List.find?_some hfind
    simp only [canRematerialize, Bool.and_eq_true, decide_eq_true_eq] at hcan
    exact hcan.1.1.1
  obtain ⟨hmem, hcovered, -⟩ := h.covered_operand hf
    (h.covered i (.inl (mem_members.1 (List.mem_filter.1 hi).1).2)) ho hnot
  refine ⟨h.addInst hcovered, ?_, o, hmem, hnot, Finset.mem_insert_self _ _⟩
  rw [addInst_eq]
  exact le_addInsts _ _

/-- Rematerialisation goes on until no operand can be rematerialised. -/
theorem Inv.rematerialize (h : Inv L stages d stage available s)
    (hf : L.Forward isControlDependence xdeps stages) :
    ∃ t, L.rematerialize stage s = .ok t ∧ Inv L stages d stage available t ∧
      (L.rematerializeOnce stage s = none → t = s) ∧
      ((L.rematerializeOnce stage s).isSome → L.missing t < L.missing s) := by
  obtain ⟨t, ht, ⟨hinv, hle, hnew⟩, hend⟩ : ∃ t, L.rematerialize stage s = .ok t ∧
      (Inv L stages d stage available t ∧ Le s t ∧ (t = s ∨ L.missing t < L.missing s)) ∧
        (Except.ok (L.rematerializeOnce stage t) : Except Failure _) = .ok none := by
    refine iterate_total _ (fun t => (L.insts.toFinset \ t.avail).card) (fun t ht => ⟨_, rfl, fun t' ht' => ?_⟩)
      ⟨h, Le.refl s, .inl rfl⟩ (Nat.lt_succ_of_le (card_sdiff_le_length _))
    obtain ⟨hinv, hle, o, hmem, hnot, hnew⟩ := ht.1.rematerializeOnce hf ht'
    have hlt := hle.missing_lt hmem (.inr ⟨hnot, hnew⟩)
    exact ⟨⟨hinv, ht.2.1.trans hle, .inr (lt_of_lt_of_le hlt ht.2.1.missing)⟩,
      card_sdiff_lt hle.avail hmem hnot hnew⟩
  refine ⟨t, ht, hinv, fun hnone => ?_, fun hsome => hnew.resolve_left ?_⟩
  · rw [LoopIR.rematerialize, iterate, hnone] at ht
    exact (Except.ok.inj ht).symm
  · rintro rfl
    rw [Except.ok.inj hend] at hsome
    cases hsome

/-! ### Back slices -/

/-- A back slice has operands that are not available, of stages up to this one. -/
def SliceInv (L : LoopIR β ι) (stages : List (PipelineStage ι)) (d : ℕ) (avail : Finset ι)
    (slice : BackSlice ι) : Prop :=
  ∀ i ∈ slice.rematInsts ∪ slice.commLoads, i ∉ avail ∧ Covered stages d i ∧ L.Used i

theorem rematerializeBackSliceRec_spec (hf : L.Forward isControlDependence xdeps stages) {avail : Finset ι}
    (limit : ℚ)
    (hlive : L.liveIns ⊆ avail) {fuel : ℕ} (slice : BackSlice ι) (hslice : SliceInv L stages d avail slice)
    (hi : i ∈ avail ∨ Covered stages d i ∧ L.Used i)
    (hfuel : (L.insts.toFinset \ (slice.rematInsts ∪ slice.commLoads)).card < fuel) :
    ∃ r, L.rematerializeBackSliceRec avail limit fuel i slice = .ok r ∧ ∀ slice', r = some slice' →
      SliceInv L stages d avail slice' ∧
        slice.rematInsts ∪ slice.commLoads ⊆ slice'.rematInsts ∪ slice'.commLoads ∧
        (i ∈ avail ∨ i ∈ slice'.rematInsts ∪ slice'.commLoads) := by
  induction fuel generalizing i slice with
  | zero => omega
  | succ fuel ih =>
      rw [rematerializeBackSliceRec]
      split_ifs with hknown
      · refine ⟨_, rfl, fun slice' heq => ?_⟩
        cases heq
        refine ⟨hslice, Finset.Subset.refl _, ?_⟩
        rw [Finset.mem_union]
        exact hknown
      obtain ⟨hcovered, hused⟩ := hi.resolve_left fun hmem => hknown (.inl hmem)
      have hnew : i ∉ slice.rematInsts ∪ slice.commLoads := by
        rw [Finset.mem_union]
        exact fun hmem => hknown (.inr hmem)
      cases hadd : L.addToSlice limit i slice with
      | none => exact ⟨none, rfl, fun _ heq => by cases heq⟩
      | some first =>
          have hunion : first.rematInsts ∪ first.commLoads = insert i (slice.rematInsts ∪ slice.commLoads) := by
            simp only [addToSlice] at hadd
            split_ifs at hadd <;> cases hadd
            · exact Finset.union_insert _ _ _
            · exact Finset.insert_union _ _ _
          have hfirst : SliceInv L stages d avail first := by
            intro j hj
            rw [hunion, Finset.mem_insert] at hj
            rcases hj with rfl | hj
            · exact ⟨fun hmem => hknown (.inl hmem), hcovered, hused⟩
            · exact hslice j hj
          have hlt : (L.insts.toFinset \ (first.rematInsts ∪ first.commLoads)).card < fuel := by
            have hcard := card_sdiff_lt (L := L) (Finset.subset_insert i _) (hcovered.mem hf) hnew
              (Finset.mem_insert_self i _)
            rw [← hunion] at hcard
            omega
          -- the operands one after another, with a slice that only grows
          have hoperands : ∀ (visit : Option (BackSlice ι) → ι → Except Failure (Option (BackSlice ι)))
              (_ : ∀ o, visit none o = .ok none)
              (_ : ∀ o slice, visit (some slice) o = L.rematerializeBackSliceRec avail limit fuel o slice),
              ∀ os ⊆ L.operands i, ∀ acc, SliceInv L stages d avail acc →
              first.rematInsts ∪ first.commLoads ⊆ acc.rematInsts ∪ acc.commLoads →
              ∃ r, os.foldlM visit (some acc) = .ok r ∧
                ∀ slice', r = some slice' → SliceInv L stages d avail slice' ∧
                  first.rematInsts ∪ first.commLoads ⊆ slice'.rematInsts ∪ slice'.commLoads := by
            intro visit hnone hsome os
            induction os with
            | nil =>
                intro _ acc hacc hsub
                refine ⟨some acc, rfl, fun slice' heq => ?_⟩
                cases heq
                exact ⟨hacc, hsub⟩
            | cons o os ihos =>
                intro hos acc hacc hsub
                have ho : o ∈ avail ∨ Covered stages d o ∧ L.Used o := by
                  by_cases hmem : o ∈ L.insts
                  · exact .inr ⟨hf.operands d i hcovered o (hos List.mem_cons_self) hmem, i, hcovered.mem hf,
                      hos List.mem_cons_self⟩
                  · exact .inl (hlive (mem_liveIns (hcovered.mem hf) (hos List.mem_cons_self) hmem))
                obtain ⟨r, hr, hspec⟩ := ih acc hacc ho (lt_of_le_of_lt (card_sdiff_le hsub) hlt)
                rw [List.foldlM_cons, hsome, hr]
                cases r with
                | none =>
                    refine ⟨none, ?_, fun _ heq => by cases heq⟩
                    clear ihos hos
                    induction os with
                    | nil => rfl
                    | cons o os ihnone =>
                        change List.foldlM visit none os = _ at ihnone
                        change List.foldlM visit none (o :: os) = _
                        rw [List.foldlM_cons, hnone]
                        exact ihnone
                | some acc' =>
                    obtain ⟨hacc', hsub', -⟩ := hspec acc' rfl
                    exact ihos (fun x hx => hos (List.mem_cons_of_mem _ hx)) acc' hacc' (hsub.trans hsub')
          obtain ⟨r, hr, hspec⟩ := hoperands
            (fun slice operand => slice.elim (.ok none) (L.rematerializeBackSliceRec avail limit fuel operand))
            (fun _ => rfl) (fun _ _ => rfl) _ (List.Subset.refl _) first hfirst (Finset.Subset.refl _)
          refine ⟨r, ?_, fun slice' heq => ?_⟩
          · dsimp only
            rw [← hr]
            congr 1
            funext slice operand
            cases slice <;> rfl
          obtain ⟨hslice', hsub⟩ := hspec slice' heq
          rw [hunion] at hsub
          exact ⟨hslice', (Finset.subset_insert _ _).trans hsub, .inr (hsub (Finset.mem_insert_self _ _))⟩

theorem Inv.backSlice (h : Inv L stages d stage available s) (hf : L.Forward isControlDependence xdeps stages)
    (hi : Covered stages d i ∧ L.Used i) (hnot : i ∉ s.avail) :
    ∃ r, L.rematerializeBackSliceInsteadOfComm s i = .ok r ∧ ∀ slice, r = some slice →
      SliceInv L stages d s.avail slice ∧ i ∈ slice.rematInsts ∪ slice.commLoads := by
  obtain ⟨r, hr, hspec⟩ := rematerializeBackSliceRec_spec hf (L.estimatedCostOfComm i)
    (fun o ho => (h.avail o).2 (.inr ho)) ⟨0, ∅, ∅⟩ (fun j hj => by simp at hj) (.inr hi)
    (Nat.lt_succ_of_le (card_sdiff_le_length _))
  refine ⟨r.map fun slice => { slice with cost := slice.cost / L.estimatedCostOfComm i }, ?_,
    fun slice heq => ?_⟩
  · rw [rematerializeBackSliceInsteadOfComm, hr]
    rfl
  · obtain ⟨slice₀, rfl, rfl⟩ := Option.map_eq_some_iff.1 heq
    obtain ⟨hslice, -, hmem⟩ := hspec slice₀ rfl
    exact ⟨hslice, hmem.resolve_left hnot⟩

/-! ### Communication -/

theorem Inv.not_own (h : Inv L stages d stage available s) (hnot : i ∉ s.avail) :
    i ∉ stage.allInsts := fun hi =>
  hnot (h.mem_avail (.inl (h.own hi)))

theorem Before.exists_source (hb : Before stages d stage available) (hi : Covered stages d i)
    (hnot : i ∉ stage.allInsts) : ∃ src, available.findIdx? (i ∈ ·) = some src := by
  obtain ⟨k, hk, st, hst, hmem⟩ := hi
  have hne : k ≠ d := by
    rintro rfl
    obtain rfl := Option.some.inj (hst.symm.trans hb.stage_eq)
    exact hnot hmem
  obtain ⟨A, hA, hsub⟩ := hb.available k (by omega) st hst
  rw [← Option.isSome_iff_exists, List.findIdx?_isSome, List.any_eq_true]
  exact ⟨A, List.mem_of_getElem? hA, by simpa using hsub hmem⟩

theorem Inv.communicateValue (h : Inv L stages d stage available s) (hb : Before stages d stage available)
    (hi : Covered stages d i ∧ L.Used i) (hnot : i ∉ stage.allInsts) (r : Bool) :
    ∃ t, L.communicateValue available r s i = .ok t ∧ Inv L stages d stage available t ∧ Le s t ∧
    i ∈ t.avail := by
  obtain ⟨src, hsrc⟩ := hb.exists_source hi.1 hnot
  refine ⟨L.addCommunication s src i r, ?_, h.addCommunication hi.1 hi.2 hsrc, le_addCommunication _ _ _ _,
    Finset.mem_insert_self _ _⟩
  rw [LoopIR.communicateValue, hsrc]

theorem Inv.communicateValues (h : Inv L stages d stage available s) (hb : Before stages d stage available)
    (os : List ι) (hos : ∀ o ∈ os, (Covered stages d o ∧ L.Used o) ∧ o ∉ stage.allInsts) (flag : ι → Bool) :
    ∃ t, os.foldlM (fun s o => L.communicateValue available (flag o) s o) s = .ok t ∧
      Inv L stages d stage available t ∧ Le s t ∧ ∀ o ∈ os, o ∈ t.avail := by
  induction os generalizing s with
  | nil => exact ⟨s, rfl, h, Le.refl s, fun _ ho => nomatch ho⟩
  | cons o os ih =>
      obtain ⟨ho, hos⟩ := List.forall_mem_cons.1 hos
      obtain ⟨t, ht, hinv, hle, hmem⟩ := h.communicateValue hb ho.1 ho.2 (flag o)
      obtain ⟨t', ht', hinv', hle', hmem'⟩ := ih hinv hos
      refine ⟨t', ?_, hinv', hle.trans hle', List.forall_mem_cons.2 ⟨hle'.avail hmem, hmem'⟩⟩
      rw [List.foldlM_cons, ht]
      exact ht'

theorem mem_unavailable {use : ι × Bool} (huse : use ∈ L.unavailable stage s) :
    ∃ i ∈ L.members s, use.1 ∈ L.operands i ∧ use.1 ∉ s.avail := by
  obtain ⟨i, hi, huse⟩ := List.mem_flatMap.1 huse
  obtain ⟨o, ho, rfl⟩ := List.mem_map.1 huse
  obtain ⟨ho, hnot⟩ := List.mem_filter.1 ho
  exact ⟨i, hi, ho, by simpa using hnot⟩

/-- What is used but not available comes from an earlier stage. -/
theorem Inv.unavailable (h : Inv L stages d stage available s) (hf : L.Forward isControlDependence xdeps stages)
    {use : ι × Bool} (huse : use ∈ L.unavailable stage s) :
    (Covered stages d use.1 ∧ L.Used use.1) ∧ use.1 ∉ s.avail := by
  obtain ⟨i, hi, ho, hnot⟩ := mem_unavailable huse
  obtain ⟨-, hcovered⟩ := h.covered_operand hf (h.covered i (.inl (mem_members.1 hi).2)) ho hnot
  exact ⟨hcovered, hnot⟩

theorem Inv.sortOperand (h : Inv L stages d stage available s) (hf : L.Forward isControlDependence xdeps stages)
    {use : ι × Bool} (huse : (Covered stages d use.1 ∧ L.Used use.1) ∧ use.1 ∉ s.avail)
    (acc : List (ℚ × ι) × List (ι × Bool)) :
    (∃ slice, L.rematerializeBackSliceInsteadOfComm s use.1 = .ok (some slice) ∧
      L.sortOperand stage s acc use = .ok (acc.1 ++ [(slice.cost, use.1)], acc.2)) ∨
      L.sortOperand stage s acc use = .ok (acc.1, acc.2 ++ [use]) := by
  rw [LoopIR.sortOperand]
  split_ifs with hsequential
  · obtain ⟨r, hr, -⟩ := h.backSlice hf huse.1 huse.2
    rw [hr]
    cases r with
    | none => exact .inr rfl
    | some slice => exact .inl ⟨slice, rfl, rfl⟩
  · exact .inr rfl

/-- The operands are sorted into those that have a back slice and the others. -/
theorem Inv.sortOperands (h : Inv L stages d stage available s)
    (hf : L.Forward isControlDependence xdeps stages)
    {uses : List (ι × Bool)} (huses : ∀ use ∈ uses, (Covered stages d use.1 ∧ L.Used use.1) ∧ use.1 ∉ s.avail)
    (acc : List (ℚ × ι) × List (ι × Bool)) :
    ∃ acc', uses.foldlM (L.sortOperand stage s) acc = .ok acc' ∧
      (∀ c ∈ acc'.1, c ∈ acc.1 ∨ ∃ slice, L.rematerializeBackSliceInsteadOfComm s c.2 = .ok (some slice) ∧
        ∃ use ∈ uses, use.1 = c.2) ∧
      (∀ use ∈ acc'.2, use ∈ acc.2 ∨ use ∈ uses) ∧
      acc.1.length + acc.2.length + uses.length = acc'.1.length + acc'.2.length := by
  induction uses generalizing acc with
  | nil => exact ⟨acc, rfl, fun c hc => .inl hc, fun use huse => .inl huse, rfl⟩
  | cons use uses ih =>
      obtain ⟨huse, huses⟩ := List.forall_mem_cons.1 huses
      rw [List.foldlM_cons]
      rcases h.sortOperand hf huse acc with ⟨slice, hslice, heq⟩ | heq
      · obtain ⟨acc', hacc', hslices, hothers, hlen⟩ := ih huses (acc.1 ++ [(slice.cost, use.1)], acc.2)
        refine ⟨acc', by rw [heq]; exact hacc', fun c hc => ?_, fun use' huse' => ?_, ?_⟩
        · rcases hslices c hc with hmem | ⟨slice', hslice', use', huse', heq'⟩
          · rcases List.mem_append.1 hmem with hmem | hmem
            · exact .inl hmem
            · obtain rfl := List.mem_singleton.1 hmem
              exact .inr ⟨slice, hslice, use, List.mem_cons_self, rfl⟩
          · exact .inr ⟨slice', hslice', use', List.mem_cons_of_mem _ huse', heq'⟩
        · exact (hothers use' huse').imp_right (List.mem_cons_of_mem _)
        · simp only [List.length_append, List.length_cons, List.length_nil] at hlen ⊢
          omega
      · obtain ⟨acc', hacc', hslices, hothers, hlen⟩ := ih huses (acc.1, acc.2 ++ [use])
        refine ⟨acc', by rw [heq]; exact hacc', fun c hc => (hslices c hc).imp_right ?_,
          fun use' huse' => ?_, ?_⟩
        · rintro ⟨slice, hslice, use', huse', heq'⟩
          exact ⟨slice, hslice, use', List.mem_cons_of_mem _ huse', heq'⟩
        · rcases hothers use' huse' with hmem | hmem
          · rcases List.mem_append.1 hmem with hmem | hmem
            · exact .inl hmem
            · exact .inr (List.mem_singleton.1 hmem ▸ List.mem_cons_self)
          · exact .inr (List.mem_cons_of_mem _ hmem)
        · simp only [List.length_append, List.length_cons, List.length_nil] at hlen ⊢
          omega

/-- Communication succeeds; it has nothing to do only when every operand is available. -/
theorem Inv.communicateOnce (h : Inv L stages d stage available s)
    (hf : L.Forward isControlDependence xdeps stages)
    (hb : Before stages d stage available) :
    ∃ r, L.communicateOnce stage available s = .ok r ∧ (r = none → L.unavailable stage s = []) ∧
      ∀ t, r = some t → Inv L stages d stage available t ∧ L.missing t < L.missing s := by
  have huses : ∀ use ∈ L.unavailable stage s, (Covered stages d use.1 ∧ L.Used use.1) ∧ use.1 ∉ s.avail :=
    fun use huse => h.unavailable hf huse
  rw [LoopIR.communicateOnce]
  dsimp only
  split_ifs with hmem
  · have hkeys : ∀ o ∈ (((L.unavailable stage s).filter fun use => L.mayReadOrWriteMemory use.1).map
      Prod.fst).dedup,
        (Covered stages d o ∧ L.Used o) ∧ o ∉ s.avail := by
      intro o ho
      obtain ⟨use, huse, rfl⟩ := List.mem_map.1 (List.mem_dedup.1 ho)
      exact huses use (List.mem_filter.1 huse).1
    obtain ⟨t, ht, hinv, hle, hall⟩ := h.communicateValues hb _
      (fun o ho => ⟨(hkeys o ho).1, h.not_own (hkeys o ho).2⟩) (flagOf _)
    rw [ht]
    refine ⟨some t, rfl, nofun, fun t' heq => ?_⟩
    cases heq
    obtain ⟨use, huse⟩ := List.exists_mem_of_ne_nil _ hmem
    have hkey := List.mem_dedup.2 (List.mem_map_of_mem (f := Prod.fst) huse)
    exact ⟨hinv, hle.missing_lt ((hkeys _ hkey).1.1.mem hf) (.inr ⟨(hkeys _ hkey).2, hall _ hkey⟩)⟩
  · obtain ⟨acc, hacc, hslices, hothers, hlen⟩ := h.sortOperands hf huses ([], [])
    rw [hacc]
    cases hargmin : acc.1.argmin Prod.fst with
    | some c =>
        obtain ⟨cost, inst⟩ := c
        obtain ⟨slice, hslice, use, huse, heq⟩ :=
          (hslices _ (List.argmin_mem hargmin)).resolve_left List.not_mem_nil
        obtain ⟨r, hr, hspec⟩ := h.backSlice hf (heq ▸ (huses use huse).1) (heq ▸ (huses use huse).2)
        obtain rfl : r = some slice := Except.ok.inj (hr.symm.trans hslice)
        obtain ⟨hsliceInv, hin⟩ := hspec slice rfl
        have hadd : Inv L stages d stage available (L.addInstsToStage s slice.rematInsts) :=
          h.addInsts fun j hj =>
          (hsliceInv j (Finset.mem_union_left _ hj)).2.1
        obtain ⟨t, ht, hinv, hle, hall⟩ := hadd.communicateValues hb (L.insts.filter (· ∈ slice.commLoads))
          (fun o ho => by
            have hmem := of_decide_eq_true (List.mem_filter.1 ho).2
            obtain ⟨hnot, hcovered⟩ := hsliceInv o (Finset.mem_union_right _ hmem)
            exact ⟨hcovered, h.not_own hnot⟩) fun _ => false
        refine ⟨some t, ?_, nofun, fun t' heq' => ?_⟩
        · simp only [bind, Except.bind, hargmin, hslice]
          rw [ht]
          rfl
        · cases heq'
          obtain ⟨hnot, hcovered, -⟩ := hsliceInv inst hin
          refine ⟨hinv, ((le_addInsts s slice.rematInsts).trans hle).missing_lt (hcovered.mem hf)
            (.inr ⟨hnot, ?_⟩)⟩
          rcases Finset.mem_union.1 hin with hremat | hload
          · exact hle.avail (Finset.mem_union_left _ hremat)
          · exact hall _ (List.mem_filter.2 ⟨hcovered.mem hf, by simpa using hload⟩)
    | none =>
        have hnil : acc.1 = [] := List.argmin_eq_none.1 hargmin
        cases hkey : ((acc.2.map Prod.fst).dedup)[L.begin (acc.2.map Prod.fst).dedup %
          (acc.2.map Prod.fst).dedup.length]?
          with
        | none =>
            refine ⟨none, ?_, fun _ => ?_, nofun⟩
            · simp only [bind, Except.bind, hargmin, hkey]
              rfl
            · have hempty : acc.2 = [] := by
                by_contra hne
                have hpos : 0 < (acc.2.map Prod.fst).dedup.length := by
                  rw [List.length_pos_iff]
                  simpa [List.dedup_eq_nil] using hne
                rw [List.getElem?_eq_none_iff] at hkey
                have hlt := Nat.mod_lt (L.begin (acc.2.map Prod.fst).dedup) hpos
                omega
              rw [hnil, hempty] at hlen
              exact List.length_eq_zero_iff.1 (by simpa using hlen)
        | some o =>
            obtain ⟨use, huse, rfl⟩ := List.mem_map.1 (List.mem_dedup.1 (List.mem_of_getElem? hkey))
            obtain ⟨hcovered, hnot⟩ := huses use ((hothers use huse).resolve_left List.not_mem_nil)
            obtain ⟨t, ht, hinv, hle, hin⟩ := h.communicateValue hb hcovered (h.not_own hnot)
                (flagOf acc.2 use.1)
            refine ⟨some t, ?_, nofun, fun t' heq => ?_⟩
            · simp only [bind, Except.bind, hargmin, hkey, ht]
              rfl
            · cases heq
              exact ⟨hinv, hle.missing_lt (hcovered.1.mem hf) (.inr ⟨hnot, hin⟩)⟩

/-! ### A stage -/

structure Filled (L : LoopIR β ι) (isControlDependence : E → Bool) (xdeps : List (CrossStageDependence ι E))
    (s : Study β ι) : Prop where
  control : ∀ dep ∈ xdeps, isControlDependence dep.edge = true → Has s dep.dst → dep.src ∈ s.insts
  operands : ∀ i ∈ s.insts, ∀ o ∈ L.operands i, o ∈ s.avail

/-- One round succeeds; a round that changes nothing finds the stage filled out. -/
theorem Inv.fillOutRound (h : Inv L stages d stage available s)
    (hf : L.Forward isControlDependence xdeps stages)
    (hb : Before stages d stage available) :
    ∃ r, L.fillOutRound isControlDependence xdeps stage available s = .ok r ∧
      (r = none → L.Filled isControlDependence xdeps s) ∧
      ∀ t, r = some t → Inv L stages d stage available t ∧ L.missing t < L.missing s := by
  obtain ⟨hinv, -, hlt⟩ := h.handleControlDeps hf
  obtain ⟨t, ht, hinvT, hsame, hless⟩ := h.rematerialize hf
  rw [LoopIR.fillOutRound]
  by_cases hchanged : (L.handleControlDeps isControlDependence xdeps s).1 = true
  · rw [if_pos hchanged]
    refine ⟨_, rfl, nofun, fun t' heq => ?_⟩
    cases heq
    exact ⟨hinv, hlt hchanged⟩
  rw [if_neg hchanged, ht]
  by_cases hremat : (L.rematerializeOnce stage s).isSome
  · refine ⟨some t, by simp [bind, Except.bind, hremat, pure, Except.pure], nofun, fun t' heq => ?_⟩
    cases heq
    exact ⟨hinvT, hless hremat⟩
  · obtain rfl := hsame (Option.not_isSome_iff_eq_none.1 hremat)
    obtain ⟨r, hr, hnone, hsome⟩ := h.communicateOnce hf hb
    refine ⟨r, ?_, fun heq => ⟨closed_of_unchanged (by simpa using hchanged), fun i hi o ho => ?_⟩, hsome⟩
    · simp only [bind, Except.bind, hremat]
      exact hr
    · by_contra hnot
      have hmem : (o, decide (i ∈ stage.replicated)) ∈ L.unavailable stage t :=
        List.mem_flatMap.2 ⟨i, mem_members.2 ⟨(h.covered i (.inl hi)).mem hf, hi⟩,
          List.mem_map_of_mem (List.mem_filter.2 ⟨ho, by simpa using hnot⟩)⟩
      rw [hnone heq] at hmem
      cases hmem

theorem inv_start (hb : Before stages d stage available) : Inv L stages d stage available (L.start stage) where
  avail i := by simp [Has, start, addInstsToStage, or_assoc]
  covered i hi := by
    refine ⟨d, le_rfl, stage, hb.stage_eq, ?_⟩
    simp only [Has, start, addInstsToStage, Finset.mem_union, Finset.notMem_empty, or_false, Option.isSome_none,
      Bool.false_eq_true] at hi
    exact Finset.mem_union.2 hi.symm
  own i hi := by
    simp only [start, addInstsToStage, Finset.mem_union, Finset.notMem_empty, or_false]
    exact (Finset.mem_union.1 hi).symm
  source i src r hi := nomatch hi
  used i hi := nomatch hi
  rel b := by
    simp only [Has, start, addInstsToStage, Finset.mem_union, Finset.mem_image, Finset.notMem_empty, or_false,
      Option.isSome_none, Bool.false_eq_true]
    constructor
    · rintro (⟨i, hi, rfl⟩ | ⟨i, hi, rfl⟩)
      · exact ⟨i, .inl hi, rfl⟩
      · exact ⟨i, .inr hi, rfl⟩
    · rintro ⟨i, hi | hi, rfl⟩
      · exact .inl ⟨i, hi, rfl⟩
      · exact .inr ⟨i, hi, rfl⟩

theorem study_ok (hf : L.Forward isControlDependence xdeps stages) (hb : Before stages d stage available) :
    ∃ s, L.study isControlDependence xdeps stage available = .ok s ∧ Inv L stages d stage available s ∧
      L.Filled isControlDependence xdeps s := by
  obtain ⟨s, hs, hinv, hend⟩ :
      ∃ s, iterate Failure.fuel (L.fillOutRound isControlDependence xdeps stage available)
      (2 * L.insts.length + 1) (L.start stage) = .ok s ∧ Inv L stages d stage available s ∧
        L.fillOutRound isControlDependence xdeps stage available s = .ok none :=
    iterate_total (Inv L stages d stage available) L.missing (fun s hs => by
      obtain ⟨r, hr, -, hsome⟩ := hs.fillOutRound hf hb
      exact ⟨r, hr, hsome⟩) (inv_start hb) (Nat.lt_succ_of_le (missing_le _))
  obtain ⟨r, hr, hnone, -⟩ := hinv.fillOutRound hf hb
  refine ⟨s, ?_, hinv, hnone (Except.ok.inj (hr.symm.trans hend))⟩
  have hstage := List.mem_of_getElem? hb.stage_eq
  obtain ⟨i, hi⟩ := hf.nonempty stage hstage
  have hmem : i ∈ s.insts := hinv.own (Finset.mem_union_left _ hi)
  have hrel : L.parent i ∈ s.rel := (hinv.rel _).2 ⟨i, .inl hmem, rfl⟩
  rw [study, if_neg (hf.type stage hstage), hs]
  simp only [bind, Except.bind]
  rw [if_neg]
  · rfl
  · rintro (hempty | hempty)
    · rw [hempty] at hmem
      cases hmem
    · rw [hempty] at hrel
      cases hrel

/-! ### All stages -/

/-- The study of the `d`-th stage, after those before it. -/
def Studied (L : LoopIR β ι) (isControlDependence : E → Bool) (xdeps : List (CrossStageDependence ι E))
    (stages : List (PipelineStage ι)) (studies : List (Study β ι)) (d : ℕ) : Prop :=
  ∃ stage s, stages[d]? = some stage ∧ studies[d]? = some s ∧
    Inv L stages d stage ((studies.take d).map Study.avail) s ∧ L.Filled isControlDependence xdeps s

/-- What is available in the stages that were studied has their instructions. -/
theorem before_of_studied {studies : List (Study β ι)} (hstage : stages[d]? = some stage)
    (hstudied : ∀ k < d, L.Studied isControlDependence xdeps stages studies k) :
    Before stages d stage ((studies.take d).map Study.avail) where
  stage_eq := hstage
  available k hk st hst := by
    obtain ⟨st', s, hst', hs, hinv, -⟩ := hstudied k hk
    obtain rfl := Option.some.inj (hst.symm.trans hst')
    refine ⟨s.avail, ?_, fun i hi => hinv.mem_avail (.inl (hinv.own hi))⟩
    rw [List.getElem?_map, List.getElem?_take_of_lt hk, hs]
    rfl

theorem studyAll_ok (hf : L.Forward isControlDependence xdeps stages) {done : List (Study β ι)}
    {rest : List (PipelineStage ι)} (hrest : stages.drop done.length = rest)
    (hlen : done.length ≤ stages.length)
    (hstudied : ∀ k < done.length, L.Studied isControlDependence xdeps stages done k) :
    ∃ studies, L.studyAll isControlDependence xdeps done rest = .ok studies ∧ studies.length = stages.length ∧
      ∀ k < stages.length, L.Studied isControlDependence xdeps stages studies k := by
  induction rest generalizing done with
  | nil =>
      have heq : done.length = stages.length := le_antisymm hlen (List.drop_eq_nil_iff.1 hrest)
      exact ⟨done, rfl, heq, heq ▸ hstudied⟩
  | cons stage rest ih =>
      have hstage : stages[done.length]? = some stage := by
        rw [← List.head?_drop, hrest]
        rfl
      have hlt : done.length < stages.length := (List.getElem?_eq_some_iff.1 hstage).1
      have hb := before_of_studied hstage hstudied
      rw [List.take_length] at hb
      obtain ⟨s, hs, hinv, hfilled⟩ := study_ok hf hb
      rw [studyAll, hs]
      have hnext : stages.drop (done ++ [s]).length = rest := by
        rw [List.length_append, List.length_singleton, ← List.drop_drop, hrest]
        rfl
      refine ih hnext (by simpa using hlt) fun k hk => ?_
      · rw [List.length_append, List.length_singleton] at hk
        rcases Nat.lt_succ_iff_lt_or_eq.1 hk with hk | rfl
        · obtain ⟨st, s', hst, hs', hinv', hfilled'⟩ := hstudied k hk
          refine ⟨st, s', hst, ?_, ?_, hfilled'⟩
          · rw [List.getElem?_append_left hk, hs']
          · rwa [List.take_append_of_le_length hk.le]
        · refine ⟨stage, s, hstage, ?_, ?_, hfilled⟩
          · rw [List.getElem?_append_right le_rfl, Nat.sub_self]
            rfl
          · rwa [List.take_left']
            rfl

/-- Forcing exits keeps the stages, but for exits of stages before them. -/
theorem getElem?_forceExits (exiting : List ι) (seen : Finset ι) (stages : List (PipelineStage ι)) (k : ℕ) :
    (stages[k]? = none → (forceExits exiting seen stages)[k]? = none) ∧
      ∀ stage, stages[k]? = some stage → ∃ forced, (forceExits exiting seen stages)[k]? = some forced ∧
        forced.type = stage.type ∧ forced.instructions = stage.instructions ∧ stage.allInsts ⊆ forced.allInsts ∧
        ∀ i ∈ forced.allInsts, i ∈ stage.allInsts ∨ i ∈ seen ∨
          ∃ j < k, ∃ earlier, stages[j]? = some earlier ∧ i ∈ earlier.allInsts := by
  induction stages generalizing seen k with
  | nil => exact ⟨fun _ => rfl, nofun⟩
  | cons stage stages ih =>
      cases k with
      | zero =>
          refine ⟨nofun, fun st hst => ?_⟩
          cases hst
          refine ⟨_, rfl, ?_⟩
          split_ifs with hparallel
          · refine ⟨rfl, rfl, fun i hi => ?_, fun i hi => ?_⟩
            · simp only [PipelineStage.allInsts, Finset.mem_union] at hi ⊢
              tauto
            · simp only [PipelineStage.allInsts, Finset.mem_union] at hi ⊢
              tauto
          · exact ⟨rfl, rfl, Finset.Subset.refl _, fun i hi => .inl hi⟩
      | succ k =>
          obtain ⟨hnone, hsome⟩ := ih
            (if stage.type = .sequential then seen ∪
              (exiting.filter (· ∈ stage.instructions)).toFinset else seen) k
          refine ⟨hnone, fun st hst => ?_⟩
          obtain ⟨forced, hforced, htype, heq, hsub, hall⟩ := hsome st hst
          refine ⟨forced, hforced, htype, heq, hsub, fun i hi => ?_⟩
          rcases hall i hi with hmem | hmem | ⟨j, hj, earlier, hearlier, hmem⟩
          · exact .inl hmem
          · split_ifs at hmem with hsequential
            · rcases Finset.mem_union.1 hmem with hmem | hmem
              · exact .inr (.inl hmem)
              · refine .inr (.inr ⟨0, Nat.succ_pos k, stage, rfl, Finset.mem_union_left _ ?_⟩)
                exact of_decide_eq_true (List.mem_filter.1 (List.mem_toFinset.1 hmem)).2
            · exact .inr (.inl hmem)
          · exact .inr (.inr ⟨j + 1, Nat.succ_lt_succ hj, earlier, hearlier, hmem⟩)

theorem length_forceExits (exiting : List ι) (seen : Finset ι) (stages : List (PipelineStage ι)) :
    (forceExits exiting seen stages).length = stages.length := by
  induction stages generalizing seen with
  | nil => rfl
  | cons stage stages ih => rw [forceExits, List.length_cons, ih, List.length_cons]

theorem covered_forceExits (exiting : List ι) (stages : List (PipelineStage ι)) (d : ℕ) (i : ι) :
    Covered (forceExits exiting ∅ stages) d i ↔ Covered stages d i := by
  constructor
  · rintro ⟨k, hk, forced, hforced, hi⟩
    obtain ⟨hnone, hsome⟩ := getElem?_forceExits exiting ∅ stages k
    cases hst : stages[k]? with
    | none => cases (hnone hst).symm.trans hforced
    | some stage =>
        obtain ⟨forced', hforced', -, -, -, hall⟩ := hsome stage hst
        obtain rfl := Option.some.inj (hforced.symm.trans hforced')
        rcases hall i hi with hmem | hmem | ⟨j, hj, earlier, hearlier, hmem⟩
        · exact ⟨k, hk, stage, hst, hmem⟩
        · cases Finset.notMem_empty _ hmem
        · exact ⟨j, by omega, earlier, hearlier, hmem⟩
  · rintro ⟨k, hk, stage, hst, hi⟩
    obtain ⟨forced, hforced, -, -, hsub, -⟩ := (getElem?_forceExits exiting ∅ stages k).2 stage hst
    exact ⟨k, hk, forced, hforced, hsub hi⟩

/-- Forcing exits changes neither types nor own instructions. -/
theorem exists_of_mem_forceExits {exiting : List ι} {seen : Finset ι} {forced : PipelineStage ι}
    (h : forced ∈ forceExits exiting seen stages) :
    ∃ stage ∈ stages, forced.type = stage.type ∧ forced.instructions = stage.instructions := by
  obtain ⟨k, hk⟩ := List.mem_iff_getElem?.1 h
  obtain ⟨hnone, hsome⟩ := getElem?_forceExits exiting seen stages k
  cases hst : stages[k]? with
  | none => cases (hnone hst).symm.trans hk
  | some stage =>
      obtain ⟨forced', hforced', htype, heq, -⟩ := hsome stage hst
      obtain rfl := Option.some.inj (hk.symm.trans hforced')
      exact ⟨stage, List.mem_of_getElem? hst, htype, heq⟩

theorem Forward.forceExits (hf : L.Forward isControlDependence xdeps stages) (exiting : List ι) :
    L.Forward isControlDependence xdeps (forceExits exiting ∅ stages) where
  mem forced hforced i hi := by
    obtain ⟨k, hk⟩ := List.mem_iff_getElem?.1 hforced
    exact Covered.mem hf ((covered_forceExits exiting stages k i).1 ⟨k, le_rfl, forced, hk, hi⟩)
  type forced hforced := by
    obtain ⟨stage, hstage, htype, -⟩ := exists_of_mem_forceExits hforced
    rw [htype]
    exact hf.type stage hstage
  nonempty forced hforced := by
    obtain ⟨stage, hstage, -, heq⟩ := exists_of_mem_forceExits hforced
    rw [heq]
    exact hf.nonempty stage hstage
  operands d i hi o ho hmem := by
    rw [covered_forceExits] at hi ⊢
    exact hf.operands d i hi o ho hmem
  control dep hdep hcontrol d hdst := by
    rw [covered_forceExits] at hdst ⊢
    exact hf.control dep hdep hcontrol d hdst

/-- The flag with which a stage consumes a value from the stage `src`. -/
def consumesFrom (s : Study β ι) (src : ℕ) (i : ι) : Option Bool :=
  (s.cons i).bind fun point => if point.1 = src then some point.2 else none

/-- The stages that consume a value from a stage, in order. -/
theorem producesOf_eq (studies : List (Study β ι)) (src : ℕ) (i : ι) :
    producesOf studies src i =
      studies.zipIdx.filterMap fun study => (consumesFrom study.1 src i).map fun r => (study.2, r) := by
  have hfold : ∀ (l : List (Study β ι × ℕ)) (produces : ℕ → ι → List (ℕ × Bool)),
      l.foldl (fun produces study => addProduces produces study.2 study.1) produces src i =
        produces src i ++ l.filterMap fun study => (consumesFrom study.1 src i).map fun r => (study.2, r) := by
    intro l
    induction l with
    | nil => exact fun produces => (List.append_nil _).symm
    | cons study l ih =>
        intro produces
        rw [List.foldl_cons, ih, List.filterMap_cons]
        cases hcons : study.1.cons i with
        | none => simp [addProduces, consumesFrom, hcons]
        | some point => by_cases hsrc : point.1 = src <;> simp [addProduces, consumesFrom, hcons, hsrc]
  exact hfold _ _

/-- What a numbered list has under one number. -/
theorem filter_zipIdx {σ : Type*} (f : σ → Option Bool) (l : List σ) (k e : ℕ) :
    ((l.zipIdx k).filterMap fun x => (f x.1).map fun r => (x.2, r)).filter (fun point => point.1 = k + e) =
      ((l[e]?).bind f).toList.map fun r => (k + e, r) := by
  induction l generalizing k e with
  | nil => rfl
  | cons x l ih =>
      have hlater : ∀ point ∈ (l.zipIdx (k + 1)).filterMap fun x => (f x.1).map fun r => (x.2, r),
          k < point.1 := by
        intro point hpoint
        obtain ⟨y, hy, hmap⟩ := List.mem_filterMap.1 hpoint
        obtain ⟨r, _, rfl⟩ := Option.map_eq_some_iff.1 hmap
        exact (List.mem_zipIdx hy).1
      rw [List.zipIdx_cons, List.filterMap_cons]
      cases e with
      | zero =>
          have hnone : ((l.zipIdx (k + 1)).filterMap fun x => (f x.1).map fun r => (x.2, r)).filter
              (fun point => point.1 = k + 0) = [] := by
            rw [List.filter_eq_nil_iff]
            intro point hpoint
            have := hlater point hpoint
            simp only [Nat.add_zero, decide_eq_true_eq]
            omega
          cases hx : f x with
          | none => simpa [hx] using hnone
          | some r => simpa [hx, List.filter_cons] using hnone
      | succ e =>
          have hrest := ih (k + 1) e
          rw [show k + 1 + e = k + (e + 1) by omega] at hrest
          cases hx : f x with
          | none => simpa [hx] using hrest
          | some r =>
              simp only [Option.map_some, List.getElem?_cons_succ]
              rw [List.filter_cons, if_neg (by simp), hrest]

theorem getElem?_plansOf (studies : List (Study β ι)) (d : ℕ) :
    (plansOf studies)[d]? = (studies[d]?).map fun s => ⟨s.insts, s.cons, producesOf studies d, s.rel⟩ := by
  rw [plansOf, List.getElem?_map, List.getElem?_zipIdx, Option.map_map, Nat.zero_add]
  rfl

/-- The first stage in which a value is available. -/
theorem findIdx?_avail {studies : List (Study β ι)} {src : ℕ}
    (h : ((studies.take d).map Study.avail).findIdx? (i ∈ ·) = some src) :
    src < d ∧ ∃ source, studies[src]? = some source ∧ i ∈ source.avail ∧
      ∀ j < src, ∀ earlier, studies[j]? = some earlier → i ∉ earlier.avail := by
  obtain ⟨hlt, hmem, hfirst⟩ := List.findIdx?_eq_some_iff_getElem.1 h
  have hlen := hlt
  rw [List.length_map, List.length_take] at hlen
  have hlt' : src < studies.length := by omega
  refine ⟨by omega, studies[src], List.getElem?_eq_getElem _, by simpa using hmem,
    fun j hj earlier hearlier => ?_⟩
  have hnot := hfirst j hj
  obtain ⟨_, rfl⟩ := List.getElem?_eq_some_iff.1 hearlier
  simpa using hnot

/-- What the plans of the stages are worth. A value that a stage consumes is computed by the stage that sends
it, which does not consume it itself, and is produced once for the stage that consumes it. -/
structure PlansOk (L : LoopIR β ι) (isControlDependence : E → Bool) (xdeps : List (CrossStageDependence ι E))
    (stages : List (PipelineStage ι)) (plans : List (StagePlan β ι)) : Prop where
  length_eq : plans.length = stages.length
  own : ∀ (d : ℕ) (stage : PipelineStage ι) (plan : StagePlan β ι), stages[d]? = some stage →
    plans[d]? = some plan →
    stage.allInsts ⊆ plan.insts
  mem : ∀ plan ∈ plans, ∀ i, i ∈ plan.insts ∨ (plan.cons i).isSome → i ∈ L.insts
  used : ∀ plan ∈ plans, ∀ i, (plan.cons i).isSome → L.Used i
  operands : ∀ plan ∈ plans, ∀ i ∈ plan.insts, ∀ o ∈ L.operands i, o ∈ L.insts →
    o ∈ plan.insts ∨ (plan.cons o).isSome
  control : ∀ plan ∈ plans, ∀ dep ∈ xdeps, isControlDependence dep.edge = true →
    dep.dst ∈ plan.insts ∨ (plan.cons dep.dst).isSome → dep.src ∈ plan.insts
  source : ∀ (d : ℕ) (plan : StagePlan β ι) (i : ι) (src : ℕ) (r : Bool), plans[d]? = some plan →
    plan.cons i = some (src, r) →
      src < d ∧ ∃ source, plans[src]? = some source ∧ i ∈ source.insts ∧ source.cons i = none
  prods : ∀ (src d : ℕ) (source plan : StagePlan β ι)
    (i : ι), plans[src]? = some source → plans[d]? = some plan →
    (source.prods i).filter (fun endPoint => endPoint.1 = d) =
      ((plan.cons i).bind fun point => if point.1 = src then some point.2 else none).toList.map fun r => (d, r)
  rel : ∀ plan ∈ plans, ∀ b, b ∈ plan.rel ↔ ∃ i, (i ∈ plan.insts ∨ (plan.cons i).isSome) ∧ L.parent i = b

theorem Forward.exists_plansOk (hf : L.Forward isControlDependence xdeps stages) :
    ∃ plans, L.prepare isControlDependence xdeps stages = .ok plans ∧
      L.PlansOk isControlDependence xdeps stages plans := by
  have hforced := hf.forceExits L.exitingTerminators
  obtain ⟨studies, hstudies, hlen, hall⟩ : ∃ studies, L.studyAll isControlDependence xdeps []
      (LoopIR.forceExits L.exitingTerminators ∅ stages) = .ok studies ∧
        studies.length = (LoopIR.forceExits L.exitingTerminators ∅ stages).length ∧
        ∀ k < (LoopIR.forceExits L.exitingTerminators ∅ stages).length,
          L.Studied isControlDependence xdeps (LoopIR.forceExits L.exitingTerminators ∅ stages) studies k :=
    studyAll_ok hforced rfl (Nat.zero_le _) nofun
  have hplan : ∀ (d : ℕ) (plan : StagePlan β ι), (plansOf studies)[d]? = some plan →
      ∃ stage s, (LoopIR.forceExits L.exitingTerminators ∅ stages)[d]? = some stage ∧ studies[d]? = some s ∧
        plan = ⟨s.insts, s.cons, producesOf studies d, s.rel⟩ ∧
        Inv L (LoopIR.forceExits L.exitingTerminators ∅ stages) d stage ((studies.take d).map Study.avail) s ∧
        L.Filled isControlDependence xdeps s := by
    intro d plan hplan
    rw [getElem?_plansOf, Option.map_eq_some_iff] at hplan
    obtain ⟨s, hs, rfl⟩ := hplan
    obtain ⟨stage, s', hstage, hs', hinv, hfilled⟩ := hall d (hlen ▸ (List.getElem?_eq_some_iff.1 hs).1)
    obtain rfl := Option.some.inj (hs.symm.trans hs')
    exact ⟨stage, s, hstage, hs, rfl, hinv, hfilled⟩
  have hmem : ∀ plan ∈ plansOf studies, ∃ (d : ℕ) (stage : PipelineStage ι) (s : Study β ι),
      plan = ⟨s.insts, s.cons, producesOf studies d, s.rel⟩ ∧
        Inv L (LoopIR.forceExits L.exitingTerminators ∅ stages) d stage ((studies.take d).map Study.avail) s ∧
        L.Filled isControlDependence xdeps s := by
    intro plan hplanMem
    obtain ⟨d, hd⟩ := List.mem_iff_getElem?.1 hplanMem
    obtain ⟨stage, s, -, -, heq, hinv, hfilled⟩ := hplan d plan hd
    exact ⟨d, stage, s, heq, hinv, hfilled⟩
  refine ⟨plansOf studies, by rw [prepare, hstudies]; rfl, ?_, fun d stage plan hstage hd i hi => ?_,
    fun plan hp i hi => ?_, fun plan hp => ?_, fun plan hp i hi o ho hmemO => ?_, fun plan hp => ?_,
    fun d plan i src r hd hcons => ?_,
    fun src d source plan i hsrc hd => ?_, fun plan hp b => ?_⟩
  · rw [plansOf, List.length_map, List.length_zipIdx, hlen, length_forceExits]
  · obtain ⟨forced, s, hforcedD, -, rfl, hinv, -⟩ := hplan d plan hd
    obtain ⟨forced', hforced', -, -, hsub, -⟩ :=
      (getElem?_forceExits L.exitingTerminators ∅ stages d).2 stage hstage
    obtain rfl := Option.some.inj (hforcedD.symm.trans hforced')
    exact hinv.own (hsub hi)
  · obtain ⟨d, stage, s, rfl, hinv, -⟩ := hmem plan hp
    exact (hinv.covered i hi).mem hforced
  · obtain ⟨d, stage, s, rfl, hinv, -⟩ := hmem plan hp
    exact hinv.used
  · obtain ⟨d, stage, s, rfl, hinv, hfilled⟩ := hmem plan hp
    refine ((hinv.avail o).1 (hfilled.operands i hi o ho)).resolve_right fun hlive => ?_
    exact not_mem_of_liveIns hlive hmemO
  · obtain ⟨d, stage, s, rfl, -, hfilled⟩ := hmem plan hp
    exact hfilled.control
  · obtain ⟨stage, s, -, -, rfl, hinv, -⟩ := hplan d plan hd
    obtain ⟨hlt, source, hsource, havail, hfirst⟩ := findIdx?_avail (hinv.source i src r hcons)
    have hsrc : (plansOf studies)[src]? = some ⟨source.insts, source.cons, producesOf studies src,
        source.rel⟩ := by
      rw [getElem?_plansOf, hsource, Option.map_some]
    obtain ⟨_, source', -, hsource', -, hinv', -⟩ := hplan src _ hsrc
    obtain rfl := Option.some.inj (hsource.symm.trans hsource')
    have hnone : source.cons i = none := by
      by_contra hsome
      obtain ⟨⟨src', r'⟩, hcons'⟩ := Option.ne_none_iff_exists'.1 hsome
      obtain ⟨hlt', earlier, hearlier, havail', -⟩ := findIdx?_avail (hinv'.source i src' r' hcons')
      exact hfirst src' hlt' earlier hearlier havail'
    refine ⟨hlt, _, hsrc, ?_, hnone⟩
    rcases (hinv'.avail i).1 havail with (hin | hin) | hlive
    · exact hin
    · rw [hnone] at hin
      cases hin
    · exact absurd ((hinv.covered i (.inr (Option.isSome_iff_exists.2 ⟨_, hcons⟩))).mem hforced)
        (not_mem_of_liveIns hlive)
  · obtain ⟨_, source', -, hsource, rfl, -⟩ := hplan src source hsrc
    obtain ⟨_, s, -, hs, rfl, -⟩ := hplan d plan hd
    have hfilter := filter_zipIdx (fun s => consumesFrom s src i) studies 0 d
    rw [Nat.zero_add, hs] at hfilter
    dsimp only
    rw [producesOf_eq]
    exact hfilter
  · obtain ⟨d, stage, s, rfl, hinv, -⟩ := hmem plan hp
    exact hinv.rel b

/-- When no dependence leads from a later to an earlier stage, the study ends, no assertion fails, and the
plans of the stages are closed under operands and under the recorded control dependences. -/
theorem prepare_closed (hf : L.Forward isControlDependence xdeps stages) :
    ∃ plans, L.prepare isControlDependence xdeps stages = .ok plans ∧
      L.PlansOk isControlDependence xdeps stages plans := hf.exists_plansOk

end LoopIR

/-! ### A loop in two stages -/

/-- The first stage walks with the PHI 10 and loads 12; the second one stores 13. The branch 11 of the header
controls the loop. -/
def dswpLoop : LoopIR ℕ ℕ where
  header := 0
  blocks := [0, 1]
  code := fun b => if b = 0 then [10, 11] else [12, 13, 15, 14]
  terminator := fun b => if b = 0 then 11 else 14
  isPhi := fun i => decide (i = 10)
  succs := fun b => if b = 0 then [1, 3] else [0]
  isSpeculativelyDead := fun _ _ => false
  isCritEdge := fun _ => false
  insts := [10, 11, 12, 13, 14, 15]
  parent := fun i => if i ≤ 11 then 0 else 1
  operands := fun i => match i with | 10 => [15] | 11 => [10] | 12 => [10] | 13 => [12] | 15 => [10] | _ => []
  mayReadOrWriteMemory := fun i => decide (i = 12 ∨ i = 13)
  isLoad := fun i => decide (i = 12)
  isCall := fun _ => false
  relativeWeight := fun _ => 1
  instructionTypeWeight := fun _ => 1
  begin := fun _ => 0

def dswpStages : List (PipelineStage ℕ) :=
  [⟨.sequential, ∅, {10, 11, 12, 14, 15}, 1⟩, ⟨.sequential, ∅, {13}, 1⟩]

def dswpDeps : List (CrossStageDependence ℕ Bool) := dswpLoop.insts.map fun i => ⟨11, i, true⟩

theorem dswp_covered {d : ℕ} {i : ℕ} (hi : i ∈ ({10, 11, 12, 14, 15} : Finset ℕ)) :
    LoopIR.Covered dswpStages d i :=
  ⟨0, Nat.zero_le d, _, rfl, Finset.mem_union_left _ hi⟩

theorem dswp_mem : ∀ stage ∈ dswpStages, ∀ i ∈ stage.allInsts, i ∈ dswpLoop.insts := by decide

theorem dswp_forward : dswpLoop.Forward id dswpDeps dswpStages where
  mem := dswp_mem
  type := by decide
  nonempty := by decide
  operands d i hi o ho _ := by
    obtain ⟨k, _, stage, hstage, hmem⟩ := hi
    have hall : ∀ i ∈ dswpLoop.insts, ∀ o ∈ dswpLoop.operands i, o ∈ ({10, 11, 12, 14, 15} :
        Finset ℕ) := by decide
    exact dswp_covered (hall i (dswp_mem stage (List.mem_of_getElem? hstage) i hmem) o ho)
  control dep hdep _ d _ := by
    obtain ⟨i, _, rfl⟩ := List.mem_map.1 hdep
    exact dswp_covered (show 11 ∈ _ by decide)

/-- The second stage computes the PHI itself, has a copy of the branch and consumes what is loaded. -/
example : ((dswpLoop.prepare id dswpDeps dswpStages).toOption.bind fun plans => plans[1]?).map
    (fun plan => (plan.insts, plan.rel, plan.cons 12)) = some ({10, 11, 13, 15}, {0, 1}, some (0, false)) := by
  decide +kernel

theorem prepare_closed_dswp : ∃ plans, dswpLoop.prepare id dswpDeps dswpStages = .ok plans ∧
    dswpLoop.PlansOk id dswpDeps dswpStages plans := LoopIR.prepare_closed dswp_forward

end Cpf.CodeGen
