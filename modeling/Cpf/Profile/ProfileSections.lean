import Cpf.Profile.ProfileLines

/-!
# The sections of a profile

A part of the text that consists of whole lines is a section; the reader goes through it and calls the actions
of its records. The tables are printed as sections, whose lines come in the order of their maps.
-/

set_option linter.unusedSectionVars false

namespace Cpf.Profile

open Text Parse Tally
open Pieces (Action)

/-! ### Sections of the text -/

def Parse.Result.after (accepts : Action → Bool) (r : Result) (good : ℕ) (acts : List Action)
    (complete : Bool) :
    Result :=
  { r with
    numGoodLines := r.numGoodLines + good
    numBadLines := r.numBadLines + (acts.filter fun a => !accepts a).length
    isAllocationCoverageComplete := complete
    actions := r.actions ++ acts }

/-- The text consists of whole lines, the reader calls these actions for them, and they take it from what it
knew about the coverage to what it knows then. -/
def Section (M : Module) (accepts : Action → Bool) (before complete : Bool) (s : String)
    (acts : List Action) : Prop :=
  ∃ ls good, (∀ rest, lines (s.toList ++ rest) = ls ++ lines rest) ∧
    ∀ r : Result, r.isAllocationCoverageComplete = before → ∀ rest,
      readLines M accepts r (ls ++ rest) = readLines M accepts (r.after accepts good acts complete) rest

variable {M : Module} {accepts : Action → Bool} {before complete after : Bool} {s t : String}
    {acts acts' : List Action}

theorem not_end {body : String} {x : Line} (h : Reads (parseLine M complete) body x) :
    body.toList ++ ['\n'] ≠ "END SPEC PRIV PROFILE\n".toList := by
  obtain ⟨ts, hts, hparse⟩ := h
  intro heq
  have hbody : body.toList = "END SPEC PRIV PROFILE".toList := List.append_inj_left' (heq.trans rfl) rfl
  have hwords : ts = ["END", "SPEC", "PRIV", "PROFILE"] := by
    rw [← hts.words_eq, hbody]
    decide
  subst hwords
  have hnone := hparse []
  rw [List.append_nil, parseLine, get_bind, if_neg (List.cons_ne_nil _ _), ifTest, if_neg (by decide), ifTest,
    if_neg (by decide), ifTest, if_neg (by decide), ifTest, if_neg (by decide), ifTest,
      if_neg (by decide), ifTest,
    if_neg (by decide)] at hnone
  cases hnone

theorem readLines_body {body : String} {x : Line} (h : Reads (parseLine M complete) body x) {r : Result}
    (hr : r.isAllocationCoverageComplete = complete) (rest : List (List Char)) :
    readLines M accepts r ((body.toList ++ ['\n']) :: rest) = readLines M accepts
      (match x with
        | .empty => { r with numGoodLines := r.numGoodLines + 1 }
        | .coverage c => { r with numGoodLines := r.numGoodLines + 1, isAllocationCoverageComplete := c }
        | .action a =>
            if accepts a then { r with numGoodLines := r.numGoodLines + 1, actions := r.actions ++ [a] }
            else { r with numBadLines := r.numBadLines + 1, actions := r.actions ++ [a] }) rest := by
  have hend := not_end h
  obtain ⟨ts, hts, hparse⟩ := h
  have htake : (body.toList ++ ['\n']).takeWhile (fun c => decide (c ≠ '#')) = body.toList ++ ['\n'] := by
    rw [List.takeWhile_eq_self_iff]
    intro c hc
    rw [decide_eq_true_iff]
    rcases List.mem_append.1 hc with hc | hc
    · exact (hts.plain c hc).2
    · rw [List.mem_singleton.1 hc]
      decide
  have hwords : words (body.toList ++ ['\n']) = ts := by
    rw [words_append_of_startsBlank (by decide), hts.words_eq]
    exact List.append_nil _
  have hline := hparse []
  rw [List.append_nil] at hline
  rw [readLines, htake, if_neg hend, readLine, hwords, hr, hline]
  cases x <;> rfl

/-- The text stays within its line. -/
def Plain (s : String) : Prop := '\n' ∉ s.toList

instance (s : String) : Decidable (Plain s) := inferInstanceAs (Decidable ('\n' ∉ s.toList))

namespace Plain

theorem append (hs : Plain s) (ht : Plain t) : Plain (s ++ t) := by
  rw [Plain, String.toList_append]
  exact fun hmem => (List.mem_append.1 hmem).elim hs ht

theorem repr (n : ℕ) : Plain n.repr := fun hmem => absurd (isDigit_of_mem_repr hmem) (by decide)

theorem of_prints {ts : List String} (h : Prints s ts) : Plain s := fun hmem => (h.plain _ hmem).1 rfl

theorem of_reads {α : Type} {p : Parser α} {a : α} (h : Reads p s a) :
    Plain s := h.elim fun _ h => of_prints h.1

theorem commas {items : List String} (h : ∀ s ∈ items, Plain s) : Plain (Module.commas items) := by
  induction items with
  | nil => decide
  | cons s items ih =>
      obtain ⟨hs, hitems⟩ := List.forall_mem_cons.1 h
      cases items with
      | nil => exact hs
      | cons s' items => exact (hs.append (by decide)).append (ih hitems)

end Plain

namespace Section

theorem nil (M : Module) (accepts : Action → Bool) (complete : Bool) :
    Section M accepts complete complete "" [] := by
  refine ⟨[], 0, fun _ => rfl, fun r hr rest => ?_⟩
  subst hr
  simp [Result.after]

theorem append (h : Section M accepts before complete s acts) (h' : Section M accepts complete after t acts') :
    Section M accepts before after (s ++ t) (acts ++ acts') := by
  obtain ⟨ls, good, hls, hread⟩ := h
  obtain ⟨ls', good', hls', hread'⟩ := h'
  refine ⟨ls ++ ls', good + good', fun rest => ?_, fun r hr rest => ?_⟩
  · rw [String.toList_append, List.append_assoc, hls, hls', List.append_assoc]
  · rw [List.append_assoc, hread r hr, hread' (r.after accepts good acts complete) rfl]
    congr 1
    simp only [Result.after, List.filter_append, List.length_append, List.append_assoc, Nat.add_assoc]

theorem join {σ : Type} {l : List σ} {f : σ → String} {g : σ → List Action}
    (h : ∀ e ∈ l, Section M accepts complete complete (f e) (g e)) :
    Section M accepts complete complete (String.join (l.map f)) (l.flatMap g) := by
  induction l with
  | nil => exact nil M accepts complete
  | cons e l ih =>
      obtain ⟨he, hl⟩ := List.forall_mem_cons.1 h
      rw [List.map_cons, String.join_cons, List.flatMap_cons]
      exact he.append (ih hl)

theorem lines_of_plain {body : String} (h : Plain body) (rest : List Char) :
    lines ((body ++ "\n").toList ++ rest) = [body.toList ++ ['\n']] ++ lines rest := by
  rw [String.toList_append, List.append_assoc]
  exact lines_append h rest

theorem action {body : String} {a : Action} (h : Reads (parseLine M complete) body (.action a)) :
    Section M accepts complete complete (body ++ "\n") [a] := by
  refine ⟨_, if accepts a then 1 else 0, lines_of_plain (.of_reads h), fun r hr rest => ?_⟩
  rw [List.singleton_append, readLines_body h hr]
  congr 1
  subst hr
  by_cases ha : accepts a = true <;> simp [Result.after, ha]

theorem coverage {body : String} (h : Reads (parseLine M before) body (.coverage complete)) :
    Section M accepts before complete (body ++ "\n") [] := by
  refine ⟨_, 1, lines_of_plain (.of_reads h), fun r hr rest => ?_⟩
  rw [List.singleton_append, readLines_body h hr]
  simp [Result.after]

theorem comment {body : String} (hhash : body.toList.head? = some '#') (hplain : Plain body) :
    Section M accepts complete complete (body ++ "\n") [] := by
  refine ⟨_, 1, lines_of_plain hplain, fun r hr rest => ?_⟩
  obtain ⟨tail, htail⟩ : ∃ tail, body.toList = '#' :: tail := by
    cases hbody : body.toList with
    | nil => rw [hbody] at hhash; cases hhash
    | cons c tail => rw [hbody] at hhash; exact ⟨tail, by rw [Option.some.inj hhash]⟩
  have htake : (body.toList ++ ['\n']).takeWhile (fun c => decide (c ≠ '#')) = [] := by
    rw [htail]
    rfl
  rw [List.singleton_append, readLines, htake, if_neg (by decide), readLine]
  have hempty : parseLine M r.isAllocationCoverageComplete (words []) = some (.empty, []) := rfl
  rw [hempty]
  subst hr
  simp [Result.after]

theorem literal {c : String} (h : c.toList.head? = some '#' ∧ '\n' ∉ c.toList.dropLast ∧
    c.toList.getLast? = some '\n') :
    Section M accepts complete complete c [] := by
  obtain ⟨hhash, hplain, hlast⟩ := h
  have hc : c = String.ofList c.toList.dropLast ++ "\n" := by
    refine String.toList_inj.1 ?_
    rw [String.toList_append, String.toList_ofList]
    exact (List.dropLast_append_getLast? _ hlast).symm
  rw [hc]
  refine comment ?_ (by rwa [Plain, String.toList_ofList])
  rw [String.toList_ofList]
  cases hlist : c.toList with
  | nil => rw [hlist] at hhash; cases hhash
  | cons d cs =>
      rw [hlist, List.head?_cons] at hhash
      cases cs with
      | nil =>
          rw [hlist, List.getLast?_singleton, hhash] at hlast
          exact absurd hlast (by decide)
      | cons e cs => exact hhash

theorem cons_literal {c : String}
    (h : c.toList.head? = some '#' ∧ '\n' ∉ c.toList.dropLast ∧ c.toList.getLast? = some '\n')
    (hs : Section M accepts before complete s acts) : Section M accepts before complete (c ++ s) acts :=
  (literal h).append hs

theorem count {c : String} (hhash : c.toList.head? = some '#') (hplain : Plain c) (n : ℕ) :
    Section M accepts complete complete (c ++ (n.repr ++ "\n")) [] := by
  have hhead : (c ++ n.repr).toList.head? = some '#' := by
    rw [String.toList_append, List.head?_append, hhash]
    rfl
  rw [← String.append_assoc]
  exact comment hhead (hplain.append (.repr n))

theorem cons_count {c : String} (hhash : c.toList.head? = some '#') (hplain : Plain c) (n : ℕ)
    (h : Section M accepts before complete s acts) :
    Section M accepts before complete (c ++ (n.repr ++ ("\n" ++ s))) acts := by
  have hall := (count hhash hplain n).append h
  rwa [String.append_assoc, String.append_assoc] at hall

end Section

/-! ### Maps in any order -/

theorem MapOrder.iterate_perm {κ σ : Type} [DecidableEq κ] (order : MapOrder κ) {m : List (κ × σ)}
    (h : (m.map Prod.fst).Nodup) : (order.iterate m).Perm m := by
  have hlookup : ∀ e ∈ m, m.lookup e.1 = some e.2 := by
    induction m with
    | nil => exact nofun
    | cons e m ih =>
        obtain ⟨he, hm⟩ := List.nodup_cons.1 h
        refine List.forall_mem_cons.2 ⟨List.lookup_cons_self, fun d hd => ?_⟩
        have hne : d.1 ≠ e.1 := fun heq => he (heq ▸ List.mem_map_of_mem hd)
        rw [List.lookup_cons, beq_eq_false_iff_ne.2 hne]
        exact ih hm d hd
  have hself : (m.map Prod.fst).filterMap (fun k => (m.lookup k).map fun s => (k, s)) = m := by
    rw [List.filterMap_map]
    calc m.filterMap ((fun k => (m.lookup k).map fun s => (k, s)) ∘ Prod.fst) = m.filterMap some :=
          List.filterMap_congr fun e he => by rw [Function.comp_apply, hlookup e he, Option.map_some]
      _ = m := List.filterMap_some
  have hperm := (order.perm (m.map Prod.fst)).filterMap fun k => (m.lookup k).map fun s => (k, s)
  rwa [hself] at hperm

/-- A section whose actions come in some order. -/
def Unordered (M : Module) (accepts : Action → Bool) (complete : Bool) (s : String)
    (acts : List Action) : Prop :=
  ∃ acts', acts'.Perm acts ∧ Section M accepts complete complete s acts'

namespace Unordered

theorem append (h : Unordered M accepts complete s acts) (h' : Unordered M accepts complete t acts') :
    Unordered M accepts complete (s ++ t) (acts ++ acts') := by
  obtain ⟨as, has, hs⟩ := h
  obtain ⟨as', has', hs'⟩ := h'
  exact ⟨as ++ as', has.append has', hs.append hs'⟩

theorem entries {σ : Type} {l m : List σ} (hlm : l.Perm m) {f : σ → String} {g : σ → List Action}
    (h : ∀ e ∈ m, Section M accepts complete complete (f e) (g e)) :
    Unordered M accepts complete (String.join (l.map f)) (m.flatMap g) :=
  ⟨l.flatMap g, hlm.flatMap_right g, .join fun e he => h e (hlm.mem_iff.1 he)⟩

end Unordered

theorem append_semicolon (s : String) : s ++ " ;\n" = s ++ " ;" ++ "\n" := by
  rw [String.append_assoc]
  rfl

/-! ### The records of a history -/

def escapeRecords (complete : Bool) (escapes : List (Escape Symbol)) : List Action :=
  (firsts escapes).map fun k => .escapeObject (readAu complete k.1) (readCtx k.2) (times escapes k % 2 ^ 32)

/-- An object that has escaped a context is not local to it. -/
def localRecords (complete : Bool) (escapes locals : List (Escape Symbol)) : List Action :=
  ((firsts locals).filter fun k => times escapes k = 0).map fun k =>
    .localObject (readAu complete k.1) (readCtx k.2) (times locals k % 2 ^ 32)

/-- The values that have been reported for a value in a context, unless there are more than `n` different
ones. -/
def predictRecords {α γ : Type} [DecidableEq α] (n : ℕ) (read : Sample α → γ)
    (make : Pieces.Value × Pieces.Ctx × List γ → Action) (reports : List (CtxValue Symbol × α)) : List Action :=
  ((firsts (reports.map Prod.fst)).filter fun k => (firsts (reportsOf reports k)).length ≤ n).map fun k =>
    make (readValue k.1, readCtx k.2, (SampleSet.sampled (reportsOf reports k)).map read)

/-- A number wider than 32 bits is cut off. -/
def readInt (s : Sample ℕ) : ℕ × ℕ := (s.value % 2 ^ 32, s.frequency % 2 ^ 32)

def readPtr (complete : Bool) (s : Sample (Site Symbol × ℕ)) : Pieces.AU × ℕ × ℕ :=
  (readAu complete s.value.1, s.value.2 % 2 ^ 32, s.frequency % 2 ^ 32)

theorem map_bind_pure {ρ : Type} (p : Parser ρ) (make : ρ → Action) (rest : List String) :
    (Line.action <$> (p >>= fun r => pure (make r))) rest = (p rest).map
    fun x => (.action (make x.1), x.2) := by
  show ((p rest).bind fun r => some (make r.1, r.2)).bind (fun r => some (Line.action r.1, r.2)) = _
  cases p rest <;> rfl

def residueRecords (reports : List (CtxValue Symbol × ℕ)) : List Action :=
  (firsts (reports.map Prod.fst)).map fun k =>
    .pointerResidual (readValue k.1) (readCtx k.2)
      ((reportsOf reports k).foldl (fun bits ptr => bits ||| 1 <<< (ptr % 16)) 0)

/-! ### The sections of the profile -/

theorem section_eventHistogram (evt : EventCounts) :
    Section M accepts complete complete (Module.printEventHistogram evt) [] := by
  have hlast : Section M accepts complete complete "#\n" [] := .literal (by decide)
  unfold Module.printEventHistogram
  simp only [String.append_assoc]
  refine .cons_literal (by decide) (.cons_literal (by decide) ?_)
  iterate 6 refine .cons_count (by decide) (by decide) _ ?_
  refine .cons_literal (by decide) ?_
  iterate 4 refine .cons_count (by decide) (by decide) _ ?_
  refine .cons_literal (by decide) ?_
  iterate 3 refine .cons_count (by decide) (by decide) _ ?_
  exact .cons_count (by decide) (by decide) _ hlast

theorem section_liveObjects (evt : EventCounts) :
    Section M accepts complete complete (Module.printLiveObjects evt) [] := by
  unfold Module.printLiveObjects
  simp only [String.append_assoc]
  iterate 2 refine .cons_count (by decide) (by decide) _ ?_
  exact .count (by decide) (by decide) _

/-- A possible leak is reported for an instruction. -/
def Module.LeakOk (M : Module) : Symbol → Prop
  | .inst f b i => (M.inst? f b i).isSome = true
  | _ => False

section Sections

variable (hM : M.Named) (order : MapOrders)

include hM

theorem section_leak {name : Symbol} (h : M.LeakOk name) :
    Section M accepts complete false ("INCOMPLETE ALLOCATION INFO " ++ M.text name ++ " ;\n") [] := by
  match name, h with
  | .inst f b i, h =>
      rw [append_semicolon]
      exact .coverage (reads_incomplete hM h)

theorem section_leaks {leaks : List Symbol} (h : ∀ name ∈ leaks, M.LeakOk name) :
    Section M accepts complete (decide (leaks = [])) (M.printLeaks order leaks) [] := by
  have hperm := order.leaks.perm leaks
  have hsorted : ∀ name ∈ order.leaks.sort leaks, M.LeakOk name :=
    fun name hname => h name (hperm.mem_iff.1 hname)
  have hincomplete : ∀ {before : Bool}, ∀ names : List Symbol, names ≠ [] → (∀ name ∈ names, M.LeakOk name) →
      Section M accepts before false
        (String.join (names.map fun name => "INCOMPLETE ALLOCATION INFO " ++ M.text name ++ " ;\n")) [] := by
    intro before names hne hnames
    cases names with
    | nil => exact absurd rfl hne
    | cons name names =>
        obtain ⟨hname, hnames⟩ := List.forall_mem_cons.1 hnames
        have hfirst : Section M accepts before false _ [] := section_leak hM hname
        have hrest : Section M accepts false false _ (names.flatMap fun _ => []) :=
          .join fun name hmem => section_leak hM (hnames name hmem)
        have hall := hfirst.append hrest
        rw [List.map_cons, String.join_cons]
        rwa [List.flatMap_eq_nil_iff.2 fun _ _ => rfl, List.nil_append] at hall
  rw [Module.printLeaks]
  by_cases hleaks : leaks = []
  · subst hleaks
    have hsort : order.leaks.sort [] = [] := hperm.eq_nil
    rw [if_pos rfl, hsort, decide_eq_true rfl]
    exact (Section.coverage reads_complete).append (.nil M accepts true)
  · have hsort : order.leaks.sort leaks ≠ [] := fun hnil => hleaks
      (by rw [hnil] at hperm; exact hperm.symm.eq_nil)
    rw [if_neg hleaks, decide_eq_false hleaks, String.empty_append]
    exact hincomplete _ hsort hsorted

/-! ### Escapes -/

theorem section_escape {k : Escape Symbol} (hk : M.AuOk k.1 ∧ M.CtxOk k.2) {n : ℕ} (hn : n < 2 ^ 32) :
    Section M accepts complete complete
      ("ESCAPE OBJECT " ++ M.printAu k.1 ++ " ESCAPES " ++ M.printCtx k.2 ++ " COUNT " ++ n.repr ++ " ;\n")
      [.escapeObject (readAu complete k.1) (readCtx k.2) n] := by
  rw [append_semicolon]
  exact .action (reads_escape hM hk.1 hk.2 hn)

theorem section_local {k : Escape Symbol} (hk : M.AuOk k.1 ∧ M.CtxOk k.2) {n : ℕ} (hn : n < 2 ^ 32) :
    Section M accepts complete complete
      ("LOCAL OBJECT " ++ M.printAu k.1 ++ " IS LOCAL TO " ++ M.printCtx k.2 ++ " COUNT " ++ n.repr ++ " ;\n")
      [.localObject (readAu complete k.1) (readCtx k.2) n] := by
  rw [append_semicolon]
  exact .action (reads_local hM hk.1 hk.2 hn)

theorem section_escapes {escapes locals : List (Escape Symbol)} (t : Tables Symbol)
    (hescapes : t.escapeFrequencies = (firsts escapes).map fun k => (k, times escapes k % 2 ^ 32))
    (hlocals : t.localFrequencies = (firsts locals).map fun k => (k, times locals k % 2 ^ 32))
    (hok : ∀ k, k ∈ escapes ∨ k ∈ locals → M.AuOk k.1 ∧ M.CtxOk k.2) :
    Unordered M accepts complete (M.printEscapes order t)
      (escapeRecords complete escapes ++ localRecords complete escapes locals) := by
  have hkeys : ∀ keys : List (Escape Symbol),
      ((firsts keys).map fun k => (k, times keys k % 2 ^ 32)).map Prod.fst = firsts keys := by
    intro keys
    rw [List.map_map]
    exact List.map_id _
  have hmod : ∀ n : ℕ, n % 2 ^ 32 < 2 ^ 32 := fun n => Nat.mod_lt _ (by decide)
  have hfirst : Unordered M accepts complete
      (String.join ((order.escapes.iterate t.escapeFrequencies).map fun e =>
        "ESCAPE OBJECT " ++ M.printAu e.1.1 ++ " ESCAPES " ++ M.printCtx e.1.2 ++ " COUNT " ++
          e.2.repr ++ " ;\n"))
      (t.escapeFrequencies.flatMap fun e => [.escapeObject (readAu complete e.1.1) (readCtx e.1.2) e.2]) := by
    rw [hescapes]
    refine .entries (order.escapes.iterate_perm (by rw [hkeys]; exact nodup_firsts _)) fun e he => ?_
    obtain ⟨k, hk, rfl⟩ := List.mem_map.1 he
    exact section_escape hM (hok k (.inl (mem_firsts.1 hk))) (hmod _)
  have hsecond : Unordered M accepts complete
      (String.join (((order.escapes.iterate t.localFrequencies).filter fun e => e.1 ∉ t.escapeFrequencies.map
        Prod.fst).map
        fun e =>
          "LOCAL OBJECT " ++ M.printAu e.1.1 ++ " IS LOCAL TO " ++ M.printCtx e.1.2 ++ " COUNT " ++
            e.2.repr ++ " ;\n"))
      ((t.localFrequencies.filter fun e => e.1 ∉ t.escapeFrequencies.map Prod.fst).flatMap fun e =>
        [.localObject (readAu complete e.1.1) (readCtx e.1.2) e.2]) := by
    rw [hlocals]
    refine .entries ((order.escapes.iterate_perm (by rw [hkeys]; exact nodup_firsts _)).filter _) fun e he => ?_
    obtain ⟨k, hk, rfl⟩ := List.mem_map.1 (List.mem_filter.1 he).1
    exact section_local hM (hok k (.inr (mem_firsts.1 hk))) (hmod _)
  have hall := hfirst.append hsecond
  have hrecords :
      (t.escapeFrequencies.flatMap fun e => [Action.escapeObject (readAu complete e.1.1)
        (readCtx e.1.2) e.2]) ++
      ((t.localFrequencies.filter fun e => e.1 ∉ t.escapeFrequencies.map Prod.fst).flatMap fun e =>
        [.localObject (readAu complete e.1.1) (readCtx e.1.2) e.2]) =
      escapeRecords complete escapes ++ localRecords complete escapes locals := by
    rw [← List.map_eq_flatMap, ← List.map_eq_flatMap, hescapes, hlocals, hkeys, List.filter_map, List.map_map,
      List.map_map]
    simp only [escapeRecords, localRecords, Function.comp_def, mem_firsts, times_eq_zero]
  rw [hrecords] at hall
  exact hall

/-! ### Predictions -/

omit hM in
theorem plain_printSampleSet {α : Type} {printSample : Sample α → String} {set : SampleSet α}
    (h : ∀ s ∈ set.observations, Plain (" ( " ++ printSample s ++ " ) ")) :
    Plain (Module.printSampleSet printSample set) := by
  have hkind : Plain (if set.bottom = true then "UNPREDICTABLE " else "PREDICTABLE ") := by
    split_ifs <;> decide
  have hvalues : Plain (Module.commas
      ((set.observations.filter Sample.isWorthPrinting).map fun s => " ( " ++ printSample s ++ " ) ")) := by
    refine .commas fun text htext => ?_
    obtain ⟨s, hs, rfl⟩ := List.mem_map.1 htext
    exact h s (List.mem_filter.1 hs).1
  rw [Module.printSampleSet]
  exact (((((hkind.append (.repr _)).append (by decide)).append (.repr _)).append (by decide)).append
    hvalues).append (by decide)

theorem section_samples {α γ : Type} [DecidableEq α] {n : ℕ} {key : String} {one : Parser γ}
    {printSample : Sample α → String} {read : Sample α → γ}
    {make : Pieces.Value × Pieces.Ctx × List γ → Action} (hkey : IsWord key ∧ '#' ∉ key.toList)
    (hn : 0 < n) (hn' : n < 2 ^ 32)
    (hparse : ∀ rest, parseLine M complete ("PRED" :: key :: rest) =
      (parsePredictions M one rest).map fun x => (.action (make x.1), x.2))
    {k : CtxValue Symbol} (hk : M.ValueOk k.1 ∧ M.CtxOk k.2) {vs : List α} (hvs : vs ≠ [])
    (hlen : vs.length < 2 ^ 64)
    (hone : ∀ v ∈ vs, ∀ frequency < 2 ^ 64,
      Reads one (" ( " ++ printSample ⟨v, frequency⟩ ++ " ) ") (read ⟨v, frequency⟩))
    {set : SampleSet α} (hset : set = vs.foldl (SampleSet.receive n) .initial) :
    Section M accepts complete complete
      ((if set.bottom = true then "#" else "") ++ "PRED " ++ key ++ " " ++ M.text k.1 ++ " AT " ++
      M.printCtx k.2 ++
        " AS " ++ Module.printSampleSet printSample set ++ " ;\n")
      (if (firsts vs).length ≤ n then [make (readValue k.1, readCtx k.2,
      (SampleSet.sampled vs).map read)] else []) := by
  have hhas : SampleSet.Has n vs set := by
    rw [hset]
    exact SampleSet.has_foldl hlen
  have hobserved : ∀ s ∈ set.observations, Reads one (" ( " ++ printSample s ++ " ) ") (read s) := by
    intro s hs
    rw [hset] at hs
    obtain ⟨hvalue, hfrequency⟩ := SampleSet.observations_foldl vs s hs
    exact hone s.value hvalue s.frequency hfrequency
  have hnum : set.numSamples < 2 ^ 64 := by
    rw [hhas.numSamples]
    omega
  rw [append_semicolon]
  by_cases hle : (firsts vs).length ≤ n
  · -- a few different values
    have hbottom : set.bottom = false := Bool.eq_false_of_not_eq_true fun htrue => absurd
        (hhas.bottom.1 htrue) (by omega)
    have hobservations := hhas.observations hbottom
    have hlength : set.observations.length = (firsts vs).length := by rw [hobservations,
        SampleSet.length_sampled]
    have hne : set.observations ≠ [] := by
      rw [hobservations]
      exact SampleSet.sampled_ne_nil hvs
    have hworth : ∀ s ∈ set.observations, s.isWorthPrinting = true := by
      rw [hobservations]
      exact fun s hs => SampleSet.isWorthPrinting_of_mem_sampled hs
    have hreads := reads_samples hbottom hnum hne hworth (by omega) hobserved hM hk.1 hk.2
    rw [hobservations] at hreads
    have hline := reads_predictions hM hkey hreads rfl hparse
    rw [if_pos hle, hbottom, if_neg Bool.false_ne_true, String.empty_append]
    simp only [String.append_assoc] at hline ⊢
    have hsection : Section M accepts complete complete _ _ := .action hline
    simpa only [String.append_assoc] using hsection
  · -- it has been given up
    have hbottom : set.bottom = true := hhas.bottom.2 (by omega)
    have hset := plain_printSampleSet fun s hs => Plain.of_reads (hobserved s hs)
    have hkey : Plain key := .of_prints (.word hkey.1 hkey.2)
    have hname : Plain (M.text k.1) := .of_reads (reads_value hM hk.1)
    have hctx : Plain (M.printCtx k.2) := .of_reads (reads_ctx hM hk.2)
    have hplace := ((((show Plain "#PRED " by decide).append hkey).append (show Plain " " by decide)).append
        hname).append
      (show Plain " AT " by decide)
    have hplain := (((hplace.append hctx).append (show Plain " AS " by decide)).append hset).append
      (show Plain " ;" by decide)
    rw [if_neg hle, if_pos hbottom]
    refine .comment ?_ hplain
    simp only [String.toList_append, List.append_assoc]
    rfl

omit hM in
theorem keys_map {κ σ : Type} [DecidableEq κ] (keys : List κ) (value : κ → σ) :
    (((firsts keys).map fun k => (k, value k)).map Prod.fst).Nodup := by
  rw [List.map_map]
  exact (List.map_id _).symm ▸ nodup_firsts keys

omit hM in
theorem flatMap_ite {σ τ : Type} (l : List σ) (p : σ → Prop) [DecidablePred p] (f : σ → τ) :
    l.flatMap (fun k => if p k then [f k] else []) = (l.filter fun k => p k).map f := by
  induction l with
  | nil => rfl
  | cons k l ih =>
      rw [List.flatMap_cons, ih, List.filter_cons]
      by_cases hk : p k <;> simp [hk]

omit hM in
/-- A key has been met, so something has been reported for it. -/
theorem reportsOf_ne_nil {κ α : Type} [DecidableEq κ] {l : List (κ × α)} {k : κ}
    (h : k ∈ firsts (l.map Prod.fst)) :
    reportsOf l k ≠ [] := by
  obtain ⟨r, hr, rfl⟩ := List.mem_map.1 (mem_firsts.1 h)
  have hmem : r.2 ∈ reportsOf l r.1 := List.mem_filterMap.2 ⟨r, hr, if_pos rfl⟩
  exact List.ne_nil_of_mem hmem

omit hM in
theorem mem_of_mem_reportsOf {κ α : Type} [DecidableEq κ] {l : List (κ × α)} {k : κ} {a : α}
    (h : a ∈ reportsOf l k) :
    (k, a) ∈ l := by
  obtain ⟨r, hr, hra⟩ := List.mem_filterMap.1 h
  split_ifs at hra with hk
  · obtain rfl := Option.some.inj hra
    exact hk ▸ hr

theorem section_predictions {α γ : Type} [DecidableEq α] {n : ℕ} {key : String} {one : Parser γ}
    {printSample : Sample α → String} {read : Sample α → γ}
    {make : Pieces.Value × Pieces.Ctx × List γ → Action} (hkey : IsWord key ∧ '#' ∉ key.toList)
    (hn : 0 < n) (hn' : n < 2 ^ 32)
    (hparse : ∀ rest, parseLine M complete ("PRED" :: key :: rest) =
      (parsePredictions M one rest).map fun x => (.action (make x.1), x.2))
    {reports : List (CtxValue Symbol × α)} (hlen : reports.length < 2 ^ 64)
    (hreports : ∀ r ∈ reports, (M.ValueOk r.1.1 ∧ M.CtxOk r.1.2) ∧ ∀ frequency < 2 ^ 64,
      Reads one (" ( " ++ printSample ⟨r.2, frequency⟩ ++ " ) ") (read ⟨r.2, frequency⟩)) :
    Unordered M accepts complete
      (M.printSamples order key printSample ((firsts (reports.map Prod.fst)).map fun k =>
        (k, (reportsOf reports k).foldl (SampleSet.receive n) .initial)))
      (predictRecords n read make reports) := by
  have hlenOf : ∀ k, (reportsOf reports k).length < 2 ^ 64 := fun k =>
    lt_of_le_of_lt (List.length_filterMap_le _ _) hlen
  have hworth : ∀ e ∈ (firsts (reports.map Prod.fst)).map fun k =>
      (k, (reportsOf reports k).foldl (SampleSet.receive n) .initial), e.2.isWorthPrinting = true := by
    intro e he
    obtain ⟨k, hk, rfl⟩ := List.mem_map.1 he
    exact (SampleSet.has_foldl (hlenOf k)).worth (reportsOf_ne_nil hk) hn
  have hperm := (order.values.iterate_perm (keys_map (reports.map Prod.fst) fun k =>
    (reportsOf reports k).foldl (SampleSet.receive n) .initial)).filter fun e => e.2.isWorthPrinting
  rw [List.filter_eq_self.2 hworth] at hperm
  have hentries : Unordered M accepts complete _ _ := .entries hperm
    (f := fun e => (if e.2.bottom = true then "#" else "") ++ "PRED " ++ key ++ " " ++ M.text e.1.1 ++ " AT " ++
      M.printCtx e.1.2 ++ " AS " ++ Module.printSampleSet printSample e.2 ++ " ;\n")
    (g := fun e => if (firsts (reportsOf reports e.1)).length ≤ n then
      [make (readValue e.1.1, readCtx e.1.2, (SampleSet.sampled (reportsOf reports e.1)).map read)] else [])
    fun e he => by
      obtain ⟨k, hk, rfl⟩ := List.mem_map.1 he
      obtain ⟨r, hr, rfl⟩ := List.mem_map.1 (mem_firsts.1 hk)
      exact section_samples hM hkey hn hn' hparse (hreports r hr).1 (reportsOf_ne_nil hk) (hlenOf r.1)
        (fun v hv => (hreports _ (mem_of_mem_reportsOf hv)).2) rfl
  rw [List.flatMap_map, flatMap_ite] at hentries
  have hplain : Plain ("# " ++ key ++ " size ") :=
    ((show Plain "# " by decide).append (.of_prints (.word hkey.1 hkey.2))).append (by decide)
  have hhash : ("# " ++ key ++ " size ").toList.head? = some '#' := by
    rw [String.toList_append, String.toList_append]
    rfl
  obtain ⟨acts, hacts, hsection⟩ := hentries
  refine ⟨acts, hacts, ?_⟩
  have hall := Section.cons_count hhash hplain ((firsts (reports.map Prod.fst)).map fun k =>
    (k, (reportsOf reports k).foldl (SampleSet.receive n) .initial)).length hsection
  unfold Module.printSamples
  simpa only [String.append_assoc] using hall

/-! ### Residues -/

omit hM in
theorem residueSet_foldl (ptrs : List ℕ) :
    (ptrs.foldl PtrResidueSet.receive ⟨0, 0⟩).numSamples < 2 ^ 64 ∧
      (ptrs.foldl PtrResidueSet.receive ⟨0, 0⟩).residueSet = ptrs.foldl
      (fun bits ptr => bits ||| 1 <<< (ptr % 16)) 0 ∧
      (ptrs.foldl PtrResidueSet.receive ⟨0, 0⟩).residueSet < 2 ^ 16 ∧
      (ptrs ≠ [] → (ptrs.foldl PtrResidueSet.receive ⟨0, 0⟩).residueSet ≠ 0) := by
  induction ptrs using List.reverseRecOn with
  | nil => exact ⟨by decide, rfl, by decide, fun h => absurd rfl h⟩
  | append_singleton ptrs ptr ih =>
      obtain ⟨-, heq, hlt, -⟩ := ih
      have hbit : 1 <<< (ptr % 16) < 2 ^ 16 := by
        rw [Nat.one_shiftLeft]
        exact Nat.pow_lt_pow_right (by decide) (Nat.mod_lt _ (by decide))
      rw [List.foldl_append, List.foldl_append, List.foldl_cons, List.foldl_nil, List.foldl_cons,
        List.foldl_nil]
      refine ⟨?_, ?_, Nat.or_lt_two_pow hlt hbit, fun _ hzero => ?_⟩
      · exact lt_trans (Nat.mod_lt _ (by decide)) (by decide : 2 ^ 32 < 2 ^ 64)
      · rw [PtrResidueSet.receive, heq]
      · have hright := (Nat.or_eq_zero_iff.1 hzero).2
        rw [Nat.one_shiftLeft] at hright
        exact absurd hright (Nat.two_pow_pos _).ne'

theorem section_residues {reports : List (CtxValue Symbol × ℕ)}
    (hreports : ∀ r ∈ reports, M.ValueOk r.1.1 ∧ M.CtxOk r.1.2) :
    Unordered M accepts complete
      (M.printResidues order ((firsts (reports.map Prod.fst)).map fun k =>
        (k, (reportsOf reports k).foldl PtrResidueSet.receive ⟨0, 0⟩)))
      (residueRecords reports) := by
  have hperm := order.values.iterate_perm (keys_map (reports.map Prod.fst) fun k =>
    (reportsOf reports k).foldl PtrResidueSet.receive ⟨0, 0⟩)
  have hentries : Unordered M accepts complete _ _ := .entries hperm
    (f := fun e =>
      "PTR RESIDUES " ++ M.text e.1.1 ++ " AT " ++ M.printCtx e.1.2 ++ " AS " ++
        Module.printResidueSet e.2 ++ " ;\n")
    (g := fun e => [.pointerResidual (readValue e.1.1) (readCtx e.1.2)
      ((reportsOf reports e.1).foldl (fun bits ptr => bits ||| 1 <<< (ptr % 16)) 0)])
    fun e he => by
      obtain ⟨k, hk, rfl⟩ := List.mem_map.1 he
      obtain ⟨r, hr, rfl⟩ := List.mem_map.1 (mem_firsts.1 hk)
      obtain ⟨hvalue, hctx⟩ := hreports r hr
      obtain ⟨hnum, heq, hlt, hne⟩ := residueSet_foldl (reportsOf reports r.1)
      have hreads : Reads (parseLine M complete) _ _ :=
        reads_residues hM hlt (hne (reportsOf_ne_nil hk)) hnum hvalue hctx
      rw [heq] at hreads
      rw [append_semicolon]
      exact .action hreads
  rw [List.flatMap_map, ← List.map_eq_flatMap] at hentries
  obtain ⟨acts, hacts, hsection⟩ := hentries
  refine ⟨acts, hacts, ?_⟩
  have hall := Section.cons_count (c := "# residue map size ") (by decide) (by decide)
    ((firsts (reports.map Prod.fst)).map fun k => (k, (reportsOf reports k).foldl PtrResidueSet.receive
      ⟨0, 0⟩)).length
    hsection
  unfold Module.printResidues
  simpa only [String.append_assoc] using hall


theorem section_ints {reports : List (CtxValue Symbol × ℕ)} (hlen : reports.length < 2 ^ 64)
    (hreports : ∀ r ∈ reports, (M.ValueOk r.1.1 ∧ M.CtxOk r.1.2) ∧ r.2 < 2 ^ 64) :
    Unordered M accepts complete
      (M.printSamples order "INT" Module.printIntSample ((firsts (reports.map Prod.fst)).map fun k =>
        (k, (reportsOf reports k).foldl (SampleSet.receive maxIntPredictionObservations) .initial)))
      (predictRecords maxIntPredictionObservations readInt (fun x => .intPredict x.1 x.2.1 x.2.2) reports) := by
  refine section_predictions hM order (by decide) (by decide) (by decide) (fun rest => ?_) hlen fun r hr =>
    ⟨(hreports r hr).1, fun frequency hfrequency => reads_intSample (hreports r hr).2 hfrequency⟩
  rw [parseLine, get_bind, if_neg (List.cons_ne_nil _ _), ifTest, if_neg (by decide), ifTest,
    if_neg (by decide), ifTest,
    if_neg (by decide), ifTest, if_neg (by decide), ifTest, if_neg (by decide), ifTest, if_pos rfl, ifTest,
      if_pos rfl,
    parsePredictInt]
  exact map_bind_pure _ _ rest

theorem section_ptrs {n : ℕ} {key : String}
    {make : Pieces.Value × Pieces.Ctx × List (Pieces.AU × ℕ × ℕ) → Action}
    (hkey : IsWord key ∧ '#' ∉ key.toList) (hn : 0 < n) (hn' : n < 2 ^ 32)
    (hparse : ∀ rest, parseLine M complete ("PRED" :: key :: rest) =
      (parsePredictions M (parsePtr M complete) rest).map fun x => (.action (make x.1), x.2))
    {reports : List (CtxValue Symbol × (Site Symbol × ℕ))} (hlen : reports.length < 2 ^ 64)
    (hreports : ∀ r ∈ reports, (M.ValueOk r.1.1 ∧ M.CtxOk r.1.2) ∧ M.AuOk r.2.1 ∧ r.2.2 < 2 ^ 64) :
    Unordered M accepts complete
      (M.printSamples order key M.printPtrSample ((firsts (reports.map Prod.fst)).map fun k =>
        (k, (reportsOf reports k).foldl (SampleSet.receive n) .initial)))
      (predictRecords n (readPtr complete) make reports) := by
  refine section_predictions hM order hkey hn hn' hparse hlen fun r hr => ?_
  obtain ⟨hk, hau, hoffset⟩ := hreports r hr
  exact ⟨hk, fun frequency hfrequency => reads_ptrSample hM hau hoffset hfrequency⟩

omit hM in
theorem parseLine_ptr (rest : List String) : parseLine M complete ("PRED" :: "PTR" :: rest) =
    (parsePredictions M (parsePtr M complete) rest).map
    fun x => (.action (.ptrPredict x.1.1 x.1.2.1 x.1.2.2), x.2) := by
  rw [parseLine, get_bind, if_neg (List.cons_ne_nil _ _), ifTest, if_neg (by decide), ifTest,
    if_neg (by decide), ifTest,
    if_neg (by decide), ifTest, if_neg (by decide), ifTest, if_neg (by decide), ifTest, if_pos rfl, ifTest,
    if_neg (by decide), ifTest, if_pos rfl, parsePredictPtr]
  exact map_bind_pure _ _ rest

omit hM in
theorem parseLine_obj (rest : List String) : parseLine M complete ("PRED" :: "OBJ" :: rest) =
    (parsePredictions M (parsePtr M complete) rest).map
    fun x => (.action (.objPredict x.1.1 x.1.2.1 x.1.2.2), x.2) := by
  rw [parseLine, get_bind, if_neg (List.cons_ne_nil _ _), ifTest, if_neg (by decide), ifTest,
    if_neg (by decide), ifTest,
    if_neg (by decide), ifTest, if_neg (by decide), ifTest, if_neg (by decide), ifTest, if_pos rfl, ifTest,
    if_neg (by decide), ifTest, if_neg (by decide), ifTest, if_pos rfl, parseUnderlyingObj]
  exact map_bind_pure _ _ rest

end Sections

end Cpf.Profile
