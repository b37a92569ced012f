import Cpf.Profile.ProfileSections

/-!
# The profile that is read is the one that was recorded

Whatever the profiler has been told, its text is accepted, and the actions that the reader calls are the
records of what was reported: how often each object escaped each context or was local to it, and the values of
every instruction that had few different ones, each with its count.
-/

namespace Cpf.Profile

open Text Parse Tally
open Pieces (Action)

/-! ### What is reported -/

def Report.escapes {Name : Type} : Report Name → List (Escape Name)
  | .escape au ctx => [(au, ctx)]
  | _ => []

def Report.locals {Name : Type} : Report Name → List (Escape Name)
  | .localTo au ctx => (ctx.tails.filter (· ≠ [])).map fun c => (au, c)
  | _ => []

def Report.ints {Name : Type} : Report Name → List (CtxValue Name × ℕ)
  | .predictInt ctx name value => [((name, ctx), value)]
  | _ => []

def Report.ptrs {Name : Type} : Report Name → List (CtxValue Name × (Site Name × ℕ))
  | .predictPtr ctx name au offset => [((name, ctx), (au, offset))]
  | _ => []

def Report.objs {Name : Type} : Report Name → List (CtxValue Name × (Site Name × ℕ))
  | .findUnderlyingObject ctx name au offset => [((name, ctx), (au, offset))]
  | _ => []

def Report.residues {Name : Type} : Report Name → List (CtxValue Name × ℕ)
  | .pointerResidue ctx name ptr => [((name, ctx), ptr)]
  | _ => []

def Report.leaks {Name : Type} : Report Name → List Name
  | .possibleAllocationLeak name => [name]
  | _ => []

section Tables

variable {Name : Type} [DecidableEq Name] (h : List (Report Name))

/-- A counter of 32 bits that goes up by one for every report. -/
theorem foldl_count {α : Type} (l : List α) (n : ℕ) :
    l.foldl (fun n _ => (n + 1) % 2 ^ 32) (n % 2 ^ 32) = (n + l.length) % 2 ^ 32 := by
  induction l generalizing n with
  | nil => rfl
  | cons _ l ih =>
      rw [List.foldl_cons, Nat.mod_add_mod, ih, List.length_cons]
      congr 1
      omega

theorem foldl_countEscape (keys : List (Escape Name)) :
    keys.foldl Tables.countEscape [] = (firsts keys).map fun k => (k, times keys k % 2 ^ 32) := by
  have hfold : keys.foldl Tables.countEscape [] =
      (keys.map fun k => (k, ())).foldl (fun m r => update m r.1 0 fun n => (n + 1) % 2 ^ 32) [] := by
    rw [List.foldl_map]
    rfl
  rw [hfold, foldl_update (fun n (_ : Unit) => (n + 1) % 2 ^ 32), List.map_map,
    show (Prod.fst ∘ fun k : Escape Name => (k, ())) = id from rfl, List.map_id]
  refine List.map_congr_left fun k _ => ?_
  have hrun := foldl_count (reportsOf (keys.map fun k => (k, ())) k) 0
  rw [length_reportsOf_map, Nat.zero_mod, Nat.zero_add] at hrun
  rw [hrun]

theorem tables_eq : h.foldl Tables.receive .initial =
    { escapeFrequencies := (firsts (h.flatMap Report.escapes)).map fun k =>
        (k, times (h.flatMap Report.escapes) k % 2 ^ 32)
      localFrequencies := (firsts (h.flatMap Report.locals)).map fun k =>
        (k, times (h.flatMap Report.locals) k % 2 ^ 32)
      intPredictions := (firsts ((h.flatMap Report.ints).map Prod.fst)).map fun k =>
        (k, (reportsOf (h.flatMap Report.ints) k).foldl
          (SampleSet.receive maxIntPredictionObservations) .initial)
      ptrPredictions := (firsts ((h.flatMap Report.ptrs).map Prod.fst)).map fun k =>
        (k, (reportsOf (h.flatMap Report.ptrs) k).foldl
          (SampleSet.receive maxPointerPredictionObservations) .initial)
      objPredictions := (firsts ((h.flatMap Report.objs).map Prod.fst)).map fun k =>
        (k, (reportsOf (h.flatMap Report.objs) k).foldl
          (SampleSet.receive maxUnderlyingObjectObservations) .initial)
      ptrResidues := (firsts ((h.flatMap Report.residues).map Prod.fst)).map fun k =>
        (k, (reportsOf (h.flatMap Report.residues) k).foldl PtrResidueSet.receive ⟨0, 0⟩)
      possibleAllocationLeaks := firsts (h.flatMap Report.leaks) } := by
  have hescapes := foldl_field Tables.receive Tables.escapeFrequencies Report.escapes Tables.countEscape
    (fun t r => by cases r <;> rfl) h .initial
  have hlocals := foldl_field Tables.receive Tables.localFrequencies Report.locals Tables.countEscape
    (fun t r => by cases r <;> rfl) h .initial
  have hints := foldl_field Tables.receive Tables.intPredictions Report.ints
    (fun m r => update m r.1 .initial fun set => set.receive maxIntPredictionObservations r.2)
    (fun t r => by cases r <;> rfl) h .initial
  have hptrs := foldl_field Tables.receive Tables.ptrPredictions Report.ptrs
    (fun m r => update m r.1 .initial fun set => set.receive maxPointerPredictionObservations r.2)
    (fun t r => by cases r <;> rfl) h .initial
  have hobjs := foldl_field Tables.receive Tables.objPredictions Report.objs
    (fun m r => update m r.1 .initial fun set => set.receive maxUnderlyingObjectObservations r.2)
    (fun t r => by cases r <;> rfl) h .initial
  have hresidues := foldl_field Tables.receive Tables.ptrResidues Report.residues
    (fun m r => update m r.1 ⟨0, 0⟩ fun set => set.receive r.2) (fun t r => by cases r <;> rfl) h .initial
  have hleaks := foldl_field Tables.receive Tables.possibleAllocationLeaks Report.leaks
    (fun leaks name => if name ∈ leaks then leaks else leaks ++ [name])
      (fun t r => by cases r <;> rfl) h .initial
  cases hfold : h.foldl Tables.receive .initial with
  | mk escapes locals ints ptrs objs residues leaks =>
      rw [hfold] at hescapes hlocals hints hptrs hobjs hresidues hleaks
      dsimp only [Tables.initial] at hescapes hlocals hints hptrs hobjs hresidues hleaks
      rw [foldl_countEscape] at hescapes hlocals
      rw [foldl_update (fun (set : SampleSet ℕ) v => set.receive maxIntPredictionObservations v)] at hints
      rw [foldl_update (fun (set : SampleSet (Site Name × ℕ)) v => set.receive
        maxPointerPredictionObservations v)]
        at hptrs
      rw [foldl_update (fun (set : SampleSet (Site Name × ℕ)) v => set.receive
        maxUnderlyingObjectObservations v)]
        at hobjs
      rw [foldl_update PtrResidueSet.receive] at hresidues
      rw [foldl_insert] at hleaks
      rw [hescapes, hlocals, hints, hptrs, hobjs, hresidues, hleaks]

end Tables

/-! ### The profile that is read -/

variable {M : Module} {before : Bool}

/-- What can be reported of a module: contexts and units that are in it, and numbers that fit in 64 bits. -/
def Module.ReportOk (M : Module) : Report Symbol → Prop
  | .escape au ctx => M.AuOk au ∧ M.CtxOk ctx
  | .localTo au ctx => M.AuOk au ∧ M.CtxOk ctx
  | .predictInt ctx name value => (M.ValueOk name ∧ M.CtxOk ctx) ∧ value < 2 ^ 64
  | .predictPtr ctx name au offset => (M.ValueOk name ∧ M.CtxOk ctx) ∧ M.AuOk au ∧ offset < 2 ^ 64
  | .findUnderlyingObject ctx name au offset => (M.ValueOk name ∧ M.CtxOk ctx) ∧ M.AuOk au ∧ offset < 2 ^ 64
  | .pointerResidue ctx name _ => M.ValueOk name ∧ M.CtxOk ctx
  | .possibleAllocationLeak name => M.LeakOk name

/-- What a history says, as calls of the semantic actions. -/
def records (h : List (Report Symbol)) : List Action :=
  let complete := decide (h.flatMap Report.leaks = [])
  escapeRecords complete (h.flatMap Report.escapes) ++
    localRecords complete (h.flatMap Report.escapes) (h.flatMap Report.locals) ++
    predictRecords maxIntPredictionObservations readInt (fun x => .intPredict x.1 x.2.1 x.2.2)
      (h.flatMap Report.ints) ++
    predictRecords maxPointerPredictionObservations (readPtr complete) (fun x => .ptrPredict x.1 x.2.1 x.2.2)
      (h.flatMap Report.ptrs) ++
    predictRecords maxUnderlyingObjectObservations (readPtr complete) (fun x => .objPredict x.1 x.2.1 x.2.2)
      (h.flatMap Report.objs) ++
    residueRecords (h.flatMap Report.residues)

theorem ctxOk_of_mem_tails {ctx c : Ctx Symbol} (h : M.CtxOk ctx) (hc : c ∈ ctx.tails) (hne : c ≠ []) :
    M.CtxOk c := by
  induction ctx with
  | nil => exact h.elim
  | cons frame parents ih =>
      rw [List.tails_cons, List.mem_cons] at hc
      rcases hc with rfl | hc
      · exact h
      · have hparents : parents ≠ [] := by
          rintro rfl
          exact hne (List.mem_singleton.1 hc)
        obtain ⟨type, name⟩ := frame
        match type, name, h with
        | .top, _, h => exact absurd h hparents
        | .function, some (.fcn f), h => exact ih h.2 hc
        | .loop, some (.loop f b depth), h => exact ih h.2.2 hc

/-- A part of each report makes at most one entry. -/
theorem length_flatMap_le {ρ σ : Type} {l : List ρ} {part : ρ → List σ} (h : ∀ r, (part r).length ≤ 1) :
    (l.flatMap part).length ≤ l.length := by
  induction l with
  | nil => exact le_refl _
  | cons r l ih =>
      rw [List.flatMap_cons, List.length_append, List.length_cons]
      have := h r
      omega

/-- The objects and contexts of escapes are those of reports. -/
theorem escape_ok {h : List (Report Symbol)} (hok : ∀ r ∈ h, M.ReportOk r) {k : Escape Symbol}
    (hk : k ∈ h.flatMap Report.escapes ∨ k ∈ h.flatMap Report.locals) : M.AuOk k.1 ∧ M.CtxOk k.2 := by
  rcases hk with hk | hk
  · obtain ⟨r, hr, hmem⟩ := List.mem_flatMap.1 hk
    cases r with
    | escape au ctx =>
        rw [List.mem_singleton.1 hmem]
        exact hok _ hr
    | _ => cases hmem
  · obtain ⟨r, hr, hmem⟩ := List.mem_flatMap.1 hk
    cases r with
    | localTo au ctx =>
        obtain ⟨hau, hctx⟩ := hok _ hr
        obtain ⟨c, hc, rfl⟩ := List.mem_map.1 hmem
        obtain ⟨hc, hne⟩ := List.mem_filter.1 hc
        exact ⟨hau, ctxOk_of_mem_tails hctx hc (of_decide_eq_true hne)⟩
    | _ => cases hmem

theorem forall_mem_flatMap {σ : Type} {part : Report Symbol → List σ} {P : σ → Prop} {h : List (Report Symbol)}
    (hok : ∀ r ∈ h, M.ReportOk r) (hpart : ∀ r, M.ReportOk r → ∀ e ∈ part r, P e) :
    ∀ e ∈ h.flatMap part, P e := by
  intro e he
  obtain ⟨r, hr, hmem⟩ := List.mem_flatMap.1 he
  exact hpart r (hok r hr) e hmem

/-- What stands between the first line and the last one. -/
theorem section_body (hM : M.Named) (order : MapOrders) (evt : EventCounts) (accepts : Action → Bool)
    {h : List (Report Symbol)} (hlen : h.length < 2 ^ 64) (hok : ∀ r ∈ h, M.ReportOk r) :
    ∃ body acts, acts.Perm (records h) ∧ Section M accepts before (decide (h.flatMap Report.leaks = []))
    body acts ∧
      M.print order evt (h.foldl Tables.receive .initial) =
        "BEGIN SPEC PRIV PROFILE\n" ++ body ++ "END SPEC PRIV PROFILE\n" := by
  have htables := tables_eq h
  generalize h.foldl Tables.receive .initial = t at htables ⊢
  have hlenOf : ∀ {σ : Type} {part : Report Symbol → List σ}, (∀ r, (part r).length ≤ 1) →
      (h.flatMap part).length < 2 ^ 64 := fun hone => lt_of_le_of_lt (length_flatMap_le hone) hlen
  generalize hcomplete : decide (h.flatMap Report.leaks = []) = complete
  have hescapes : Unordered M accepts complete (M.printEscapes order t) _ :=
    section_escapes hM order t (by rw [htables]) (by rw [htables]) fun k => escape_ok hok
  have hints : Unordered M accepts complete (M.printSamples order "INT" Module.printIntSample t.intPredictions)
      (predictRecords maxIntPredictionObservations readInt (fun x => .intPredict x.1 x.2.1 x.2.2)
        (h.flatMap Report.ints)) := by
    rw [htables]
    refine section_ints hM order (hlenOf fun r => by cases r <;> exact of_decide_eq_true rfl)
      (forall_mem_flatMap hok fun r hr e he => ?_)
    cases r with
    | predictInt ctx name value => rw [List.mem_singleton.1 he]; exact hr
    | _ => cases he
  have hptrs : Unordered M accepts complete (M.printSamples order "PTR" M.printPtrSample t.ptrPredictions)
      (predictRecords maxPointerPredictionObservations (readPtr complete) (fun x => .ptrPredict x.1 x.2.1 x.2.2)
        (h.flatMap Report.ptrs)) := by
    rw [htables]
    refine section_ptrs hM order (by decide) (by decide) (by decide) parseLine_ptr
      (hlenOf fun r => by cases r <;> exact of_decide_eq_true rfl)
      (forall_mem_flatMap hok fun r hr e he => ?_)
    cases r with
    | predictPtr ctx name au offset => rw [List.mem_singleton.1 he]; exact hr
    | _ => cases he
  have hobjs : Unordered M accepts complete (M.printSamples order "OBJ" M.printPtrSample t.objPredictions)
      (predictRecords maxUnderlyingObjectObservations (readPtr complete) (fun x => .objPredict x.1 x.2.1 x.2.2)
        (h.flatMap Report.objs)) := by
    rw [htables]
    refine section_ptrs hM order (by decide) (by decide) (by decide) parseLine_obj
      (hlenOf fun r => by cases r <;> exact of_decide_eq_true rfl)
      (forall_mem_flatMap hok fun r hr e he => ?_)
    cases r with
    | findUnderlyingObject ctx name au offset => rw [List.mem_singleton.1 he]; exact hr
    | _ => cases he
  have hresidues : Unordered M accepts complete (M.printResidues order t.ptrResidues)
      (residueRecords (h.flatMap Report.residues)) := by
    rw [htables]
    refine section_residues hM order (forall_mem_flatMap hok fun r hr e he => ?_)
    cases r with
    | pointerResidue ctx name ptr => rw [List.mem_singleton.1 he]; exact hr
    | _ => cases he
  have hleaks : Section M accepts before complete (M.printLeaks order t.possibleAllocationLeaks) [] := by
    have hfirsts : decide (firsts (h.flatMap Report.leaks) = []) = complete := by
      rw [← hcomplete, decide_eq_decide]
      exact firsts_eq_nil
    rw [htables, ← hfirsts]
    refine section_leaks hM order fun name hname => forall_mem_flatMap hok (fun r hr e he => ?_) name
      (mem_firsts.1 hname)
    cases r with
    | possibleAllocationLeak name => rw [List.mem_singleton.1 he]; exact hr
    | _ => cases he
  obtain ⟨acts, hacts, hsection⟩ := (((hescapes.append hints).append hptrs).append hobjs).append hresidues
  have hhead := ((section_eventHistogram evt).append hleaks).append (section_liveObjects evt)
  refine ⟨_, acts, ?_, hhead.append hsection, ?_⟩
  · rw [records, hcomplete]
    exact hacts
  · unfold Module.print
    simp only [String.append_assoc]

/-- The profile that is printed is read again: header, end and lines are good, whatever the order of the maps,
and the actions that are called are the records of the history. -/
theorem parse_print (M : Module) (hM : M.Named) (order : MapOrders) (evt : EventCounts)
    (accepts : Action → Bool)
    (coverage : Bool) (h : List (Report Symbol)) (hlen : h.length < 2 ^ 64) (hok : ∀ r ∈ h, M.ReportOk r) :
    ∃ good acts, acts.Perm (records h) ∧
      parse M accepts coverage (M.print order evt (h.foldl Tables.receive .initial)) =
        ⟨true, true, good, (acts.filter fun a => !accepts a).length, decide (h.flatMap Report.leaks = []),
        acts⟩ := by
  obtain ⟨body, acts, hacts, ⟨ls, good, hls, hread⟩, hprint⟩ := section_body hM order evt accepts hlen hok
  refine ⟨good, acts, hacts, ?_⟩
  have hlines : lines (M.print order evt (h.foldl Tables.receive .initial)).toList =
      "BEGIN SPEC PRIV PROFILE\n".toList :: (ls ++ ["END SPEC PRIV PROFILE\n".toList]) := by
    rw [hprint, String.toList_append, String.toList_append, List.append_assoc]
    calc lines ("BEGIN SPEC PRIV PROFILE\n".toList ++ (body.toList ++ "END SPEC PRIV PROFILE\n".toList)) =
          "BEGIN SPEC PRIV PROFILE\n".toList :: lines (body.toList ++ "END SPEC PRIV PROFILE\n".toList) :=
            lines_append (a := "BEGIN SPEC PRIV PROFILE".toList) (by decide) _
      _ = "BEGIN SPEC PRIV PROFILE\n".toList :: (ls ++ lines "END SPEC PRIV PROFILE\n".toList) := by rw [hls]
      _ = "BEGIN SPEC PRIV PROFILE\n".toList :: (ls ++ ["END SPEC PRIV PROFILE\n".toList]) := rfl
  have htail : "END SPEC PRIV PROFILE\n".toList.takeWhile (fun c => decide (c ≠ '#')) =
      "END SPEC PRIV PROFILE\n".toList := rfl
  rw [parse, hlines]
  dsimp only
  rw [if_pos rfl, hread _ rfl, readLines, htail, if_pos rfl]
  simp [Result.after]

def summing : Module where
  functions := [⟨"main", 1, [⟨"entry", [⟨some "cell", true⟩, ⟨none, false⟩]⟩, ⟨"loop", [⟨some "sum", false⟩]⟩]⟩]
  globals := [⟨"table", true⟩]

def inMain : Ctx Symbol := [⟨.function, some (.fcn 0)⟩, ⟨.top, none⟩]

def inLoop : Ctx Symbol := ⟨.loop, some (.loop 0 1 1)⟩ :: inMain

/-- The last value does not fit in 32 bits. -/
def sumHistory : List (Report Symbol) :=
  [.escape ⟨.stack, some (.inst 0 0 0), inMain⟩ inLoop, .localTo ⟨.heap, some (.inst 0 0 1), inMain⟩ inLoop,
    .predictPtr inLoop (.arg 0 0) ⟨.constant, some (.global 0), []⟩ 8, .pointerResidue inLoop (.arg 0 0) 0x1238,
    .predictInt inLoop (.inst 0 1 0) 5, .predictInt inLoop (.inst 0 1 0) (2 ^ 32 + 7),
    .possibleAllocationLeak (.inst 0 0 1)]

def asListed : MapOrders := ⟨⟨id, .refl⟩, ⟨id, .refl⟩, ⟨id, .refl⟩⟩

def noEvents : EventCounts := ⟨0, 0, 0, 0, 0, 0, 0, 0, 0, 0, 0, 0, 0, 0, 0, 0, 0⟩

theorem summing_named : summing.Named where
  fcn fcn h := by
    obtain rfl := List.mem_singleton.1 h
    exact ⟨⟨by decide, by decide⟩, by decide, by decide, by decide⟩
  fcns := by decide
  blocks fcn h := by
    obtain rfl := List.mem_singleton.1 h
    decide
  block fcn h bb hbb := by
    obtain rfl := List.mem_singleton.1 h
    rcases List.mem_cons.1 hbb with rfl | hbb
    · exact ⟨⟨by decide, by decide⟩, by decide⟩
    · obtain rfl := List.mem_singleton.1 hbb
      exact ⟨⟨by decide, by decide⟩, by decide⟩
  insts fcn h bb hbb := by
    obtain rfl := List.mem_singleton.1 h
    rcases List.mem_cons.1 hbb with rfl | hbb
    · decide
    · obtain rfl := List.mem_singleton.1 hbb
      decide
  inst fcn h bb hbb inst hinst n hn := by
    obtain rfl := List.mem_singleton.1 h
    rcases List.mem_cons.1 hbb with rfl | hbb
    · rcases List.mem_cons.1 hinst with rfl | hinst
      · obtain rfl : "cell" = n := Option.some.inj hn
        exact ⟨⟨by decide, by decide⟩, by decide⟩
      · obtain rfl := List.mem_singleton.1 hinst
        cases hn
    · obtain rfl := List.mem_singleton.1 hbb
      obtain rfl := List.mem_singleton.1 hinst
      obtain rfl : "sum" = n := Option.some.inj hn
      exact ⟨⟨by decide, by decide⟩, by decide⟩
  globals := by decide
  global gv h := by
    obtain rfl := List.mem_singleton.1 h
    exact ⟨by decide, by decide⟩

theorem inLoop_ok : summing.CtxOk inMain ∧ summing.CtxOk inLoop :=
  ⟨⟨by decide, rfl⟩, rfl, by decide, by decide, rfl⟩

theorem sumHistory_ok : ∀ r ∈ sumHistory, summing.ReportOk r := by
  obtain ⟨hmain, hloop⟩ := inLoop_ok
  simp only [sumHistory, List.forall_mem_cons]
  refine ⟨⟨⟨rfl, hmain⟩, hloop⟩, ⟨⟨rfl, hmain⟩, hloop⟩, ⟨⟨⟨_, rfl, by decide⟩, hloop⟩, rfl, by decide⟩,
    ⟨⟨_, rfl, by decide⟩, hloop⟩, ⟨⟨rfl, hloop⟩, by decide⟩, ⟨⟨rfl, hloop⟩, by decide⟩, rfl, nofun⟩

theorem parse_print_summing : ∃ good acts, acts.Perm (records sumHistory) ∧
    parse summing (fun _ => true) true (summing.print asListed noEvents
    (sumHistory.foldl Tables.receive .initial)) =
      ⟨true, true, good, (acts.filter fun _ => !true).length, false, acts⟩ :=
  parse_print summing summing_named asListed noEvents (fun _ => true) true sumHistory (by decide) sumHistory_ok

end Cpf.Profile
