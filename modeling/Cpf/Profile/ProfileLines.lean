import Cpf.Profile.ProfileNames

/-!
# The lines of a profile

Every record of the profiler is a line that the parser reads as that record. A part of the text that consists of
whole lines is a section; the reader goes through it and calls the actions of its records.
-/

set_option linter.unusedSectionVars false

namespace Cpf.Profile

open Text Parse
open Pieces (Action)

/-! ### Samples -/

theorem reads_many {α : Type} {one : Parser α} {items : List String} {as : List α}
    (h : List.Forall₂ (fun s a => Reads one s a) items as) (hne : items ≠ []) :
    ∃ ts, Prints (Module.commas items) ts ∧ items.length ≤ ts.length + 1 ∧ ∀ fuel ≥ items.length, ∀ tok rest,
    tok ≠ "," →
      parseMany one fuel (ts ++ tok :: rest) = some (as, tok :: rest) := by
  induction h with
  | nil => exact absurd rfl hne
  | @cons s a items as hs hitems ih =>
      obtain ⟨ts, hts, hparse⟩ := hs
      cases hitems with
      | nil =>
          refine ⟨ts, hts, by simp, fun fuel hfuel tok rest htok => ?_⟩
          obtain ⟨fuel, rfl⟩ : ∃ k, fuel = k + 1 := ⟨fuel - 1, by rw [List.length_singleton] at hfuel; omega⟩
          rw [parseMany, bind_of _ (hparse _), ifTest, if_neg htok]
          rfl
      | @cons s' a' items as hs' hitems =>
          obtain ⟨us, hus, hlen, hmany⟩ := ih (List.cons_ne_nil _ _)
          refine ⟨ts ++ ([","] ++ us), hts.between (show Prints " , " [","] by decide) (by decide)
            (by decide) hus, ?_,
            fun fuel hfuel tok rest htok => ?_⟩
          · simp only [List.length_cons, List.length_append, List.length_nil] at hlen ⊢
            omega
          · rw [List.length_cons] at hfuel
            obtain ⟨fuel, rfl⟩ : ∃ k, fuel = k + 1 := ⟨fuel - 1, by omega⟩
            simp only [List.append_assoc, List.cons_append, List.nil_append]
            rw [parseMany, bind_of _ (hparse _), ifTest, if_pos rfl,
              bind_of _ (hmany fuel (by omega) tok rest htok)]
            rfl

variable {M : Module} {complete : Bool}

theorem prints_bracketed {s : String} {ts : List String} (h : Prints s ts) :
    Prints (" ( " ++ s ++ " ) ") ("(" :: ts ++ [")"]) :=
  ((show Prints " ( " ["("] by decide).after (by decide) h).before (show Prints " ) " [")"] by decide)
    (by decide)

theorem reads_intSample {s : Sample ℕ} (hvalue : s.value < 2 ^ 64) (hfrequency : s.frequency < 2 ^ 64) :
    Reads parseIntSample (" ( " ++ Module.printIntSample s ++ " ) ")
    (s.value % 2 ^ 32, s.frequency % 2 ^ 32) := by
  obtain ⟨vs, hvs, hparseValue⟩ := reads_repr hvalue
  obtain ⟨fs, hfs, hparseFrequency⟩ := reads_repr hfrequency
  refine ⟨_, prints_bracketed (((show Prints "INT " ["INT"] by decide).after (by decide) hvs).between
    (show Prints " COUNT " ["COUNT"] by decide) (by decide) (by decide) hfs), fun rest => ?_⟩
  simp only [List.append_assoc, List.cons_append, List.nil_append]
  rw [parseIntSample, expect_bind, expect_bind, bind_of _ (hparseValue _), expect_bind,
    bind_of _ (hparseFrequency _),
    expect_bind]
  rfl

theorem reads_ptrSample (hM : M.Named) {s : Sample (Site Symbol × ℕ)} (hau : M.AuOk s.value.1)
    (hoffset : s.value.2 < 2 ^ 64) (hfrequency : s.frequency < 2 ^ 64) :
    Reads (parsePtr M complete) (" ( " ++ M.printPtrSample s ++ " ) ")
      (readAu complete s.value.1, s.value.2 % 2 ^ 32, s.frequency % 2 ^ 32) := by
  obtain ⟨os, hos, hparseOffset⟩ := reads_repr hoffset
  obtain ⟨as, has, hparseAu⟩ := reads_au hM complete hau
  obtain ⟨fs, hfs, hparseFrequency⟩ := reads_repr hfrequency
  have hbase := ((show Prints "OFFSET " ["OFFSET"] by decide).after (by decide) hos).between
    (show Prints " BASE " ["BASE"] by decide) (by decide) (by decide) has
  refine ⟨_, prints_bracketed (hbase.between (show Prints " COUNT " ["COUNT"] by decide) (by decide)
    (by decide) hfs),
    fun rest => ?_⟩
  simp only [List.append_assoc, List.cons_append, List.nil_append]
  rw [parsePtr, expect_bind, expect_bind, bind_of _ (hparseOffset _), expect_bind, bind_of _ (hparseAu _),
    expect_bind,
    bind_of _ (hparseFrequency _), expect_bind]
  rfl

theorem reads_samples {α γ : Type} {one : Parser γ} {printSample : Sample α → String} {set : SampleSet α}
    {read : Sample α → γ}
    (hbottom : set.bottom = false) (hnum : set.numSamples < 2 ^ 64) (hne : set.observations ≠ [])
    (hworth : ∀ s ∈ set.observations, s.isWorthPrinting = true) (hlen : set.observations.length < 2 ^ 32)
    (hone : ∀ s ∈ set.observations, Reads one (" ( " ++ printSample s ++ " ) ") (read s))
    {value : Symbol} {ctx : Ctx Symbol}
    (hM : M.Named) (hvalue : M.ValueOk value) (hctx : M.CtxOk ctx) :
    Reads (parsePredictions M one)
      (M.text value ++ " AT " ++ M.printCtx ctx ++ " AS " ++ Module.printSampleSet printSample set ++ " ;")
      (readValue value, readCtx ctx, set.observations.map read) := by
  have hfilter : set.observations.filter Sample.isWorthPrinting = set.observations :=
    List.filter_eq_self.2 hworth
  have hitems : List.Forall₂ (fun s a => Reads one s a)
      (set.observations.map fun s => " ( " ++ printSample s ++ " ) ")
      (set.observations.map read) := by
    rw [List.forall₂_map_left_iff, List.forall₂_map_right_iff]
    exact List.forall₂_same.2 hone
  obtain ⟨vs, hvs, hparseValue⟩ := reads_value hM hvalue
  obtain ⟨cs, hcs, hparseCtx⟩ := reads_ctx hM hctx
  obtain ⟨ns, hns, hparseNum⟩ := reads_repr hnum
  obtain ⟨ls, hls, hparseLen⟩ := reads_repr (show set.observations.length < 2 ^ 64 by omega)
  obtain ⟨ss, hss, hlength, hparseMany⟩ := reads_many hitems (by simpa using hne)
  rw [Nat.mod_eq_of_lt hlen] at hparseLen
  have hset : Prints (Module.printSampleSet printSample set)
      ("PREDICTABLE" :: (ns ++ ("SAMPLES" :: "OVER" :: (ls ++ ("VALUES" :: "\x7b" :: (ss ++ ["\x7d"])))))) := by
    have hcounts := ((show Prints "PREDICTABLE " ["PREDICTABLE"] by decide).after (by decide) hns).between
      (show Prints " SAMPLES OVER " ["SAMPLES", "OVER"] by decide) (by decide) (by decide) hls
    have hvalues := hcounts.between (show Prints " VALUES \x7b " ["VALUES", "\x7b"] by decide) (by decide)
        (by decide) hss
    have hall := hvalues.before (show Prints " \x7d" ["\x7d"] by decide) (by decide)
    rw [Module.printSampleSet, hfilter, hbottom, if_neg Bool.false_ne_true]
    simpa only [List.append_assoc, List.cons_append, List.nil_append] using hall
  have hplace := hvs.between (show Prints " AT " ["AT"] by decide) (by decide) (by decide) hcs
  have hline := (hplace.between (show Prints " AS " ["AS"] by decide) (by decide) (by decide) hset).before
    (show Prints " ;" [";"] by decide) (by decide)
  refine ⟨_, hline, fun rest => ?_⟩
  simp only [List.append_assoc, List.cons_append, List.nil_append]
  have hmany : withFuel (parseMany one) (ss ++ "\x7d" :: ";" :: rest) =
      some (set.observations.map read, "\x7d" :: ";" :: rest) := by
    refine hparseMany _ ?_ _ _ (by decide)
    rw [List.length_append, List.length_map]
    rw [List.length_map] at hlength
    omega
  have hprediction : parsePrediction M
      (vs ++ "AT" :: (cs ++ "AS" :: "PREDICTABLE" :: (ns ++ "SAMPLES" :: "OVER" ::
      (ls ++ "VALUES" :: "\x7b" :: (ss ++ "\x7d" :: ";" :: rest))))) =
        some ((readValue value, readCtx ctx, set.observations.length),
          "\x7b" :: (ss ++ "\x7d" :: ";" :: rest)) := by
    rw [parsePrediction, bind_of _ (hparseValue _), expect_bind, bind_of _ (hparseCtx _), expect_bind,
      expect_bind,
      bind_of _ (hparseNum _), expect_bind, expect_bind, bind_of _ (hparseLen _), expect_bind]
    rfl
  rw [parsePredictions, bind_of _ hprediction]
  dsimp only
  rw [expect_bind, bind_of _ hmany, if_pos (List.length_map _), expect_bind, expect_bind]
  rfl

/-! ### Residues -/

theorem foldl_members {s : PtrResidueSet} (h : s.residueSet < 2 ^ 16) :
    (Module.residueMembers s).foldl (fun bits member => bits ||| 1 <<< member) 0 = s.residueSet := by
  have hfold : ∀ (l : List ℕ)
      (init j : ℕ), (l.foldl (fun bits member => bits ||| 1 <<< member) init).testBit j =
      (init.testBit j || decide (j ∈ l)) := by
    intro l
    induction l with
    | nil => simp
    | cons m l ih =>
        intro init j
        rw [List.foldl_cons, ih, Nat.testBit_or, Nat.one_shiftLeft, Nat.testBit_two_pow, Bool.or_assoc]
        congr 1
        simp only [List.mem_cons, Bool.decide_or, eq_comm]
  refine Nat.eq_of_testBit_eq fun j => ?_
  rw [hfold, Nat.zero_testBit, Bool.false_or]
  by_cases hj : s.residueSet.testBit j = true
  · have hlt : j < 16 := by
      by_contra hge
      rw [Nat.testBit_lt_two_pow (lt_of_lt_of_le h (Nat.pow_le_pow_right (by decide) (by omega)))] at hj
      cases hj
    rw [hj, decide_eq_true_iff]
    exact List.mem_filter.2 ⟨List.mem_range.2 hlt, hj⟩
  · rw [Bool.eq_false_of_not_eq_true hj, decide_eq_false_iff_not]
    exact fun hmem => hj (List.mem_filter.1 hmem).2

theorem residueMembers_ne_nil {s : PtrResidueSet} (h : s.residueSet < 2 ^ 16) (hne : s.residueSet ≠ 0) :
    Module.residueMembers s ≠ [] := by
  intro hnil
  have hfold := foldl_members h
  rw [hnil] at hfold
  exact hne hfold.symm

theorem reads_member {r : ℕ} (h : r < 16) : Reads parseMember r.repr r := by
  obtain ⟨ts, hts, hparse⟩ := reads_repr (show r < 2 ^ 64 by omega)
  refine ⟨ts, hts, fun rest => ?_⟩
  rw [parseMember, bind_of _ (hparse rest), Nat.mod_eq_of_lt (by omega), if_pos h]
  rfl

/-! ### Records -/

section Records

variable (hM : M.Named) {au : Site Symbol} {ctx : Ctx Symbol} {n : ℕ}

theorem get_bind {γ : Type} (f : List String → Parser γ) (toks : List String) :
    ((get : Parser (List String)) >>= f) toks = f toks toks := rfl

include hM

theorem reads_escape (hau : M.AuOk au) (hctx : M.CtxOk ctx) (hn : n < 2 ^ 32) :
    Reads (parseLine M complete)
      ("ESCAPE OBJECT " ++ M.printAu au ++ " ESCAPES " ++ M.printCtx ctx ++ " COUNT " ++ n.repr ++ " ;")
      (.action (.escapeObject (readAu complete au) (readCtx ctx) n)) := by
  obtain ⟨as, has, hparseAu⟩ := reads_au hM complete hau
  obtain ⟨cs, hcs, hparseCtx⟩ := reads_ctx hM hctx
  obtain ⟨ns, hns, hparseNum⟩ := reads_repr (show n < 2 ^ 64 by omega)
  rw [Nat.mod_eq_of_lt hn] at hparseNum
  have hobject := (show Prints "ESCAPE OBJECT " ["ESCAPE", "OBJECT"] by decide).after (by decide) has
  have hescapes := hobject.between (show Prints " ESCAPES " ["ESCAPES"] by decide) (by decide) (by decide) hcs
  refine ⟨_, (hescapes.between (show Prints " COUNT " ["COUNT"] by decide) (by decide) (by decide) hns).before
    (show Prints " ;" [";"] by decide) (by decide), fun rest => ?_⟩
  simp only [List.append_assoc, List.cons_append, List.nil_append]
  have hline : parseEscapeObject M complete
      ("OBJECT" :: (as ++ "ESCAPES" :: (cs ++ "COUNT" :: (ns ++ ";" :: rest)))) =
      some (.escapeObject (readAu complete au) (readCtx ctx) n, rest) := by
    rw [parseEscapeObject, expect_bind, bind_of _ (hparseAu _), expect_bind, bind_of _ (hparseCtx _),
      expect_bind,
      bind_of _ (hparseNum _), expect_bind]
    rfl
  rw [parseLine, get_bind, if_neg (List.cons_ne_nil _ _), ifTest, if_neg (by decide), ifTest,
    if_neg (by decide), ifTest,
    if_pos rfl, map_of _ hline]

theorem reads_local (hau : M.AuOk au) (hctx : M.CtxOk ctx) (hn : n < 2 ^ 32) :
    Reads (parseLine M complete)
      ("LOCAL OBJECT " ++ M.printAu au ++ " IS LOCAL TO " ++ M.printCtx ctx ++ " COUNT " ++ n.repr ++ " ;")
      (.action (.localObject (readAu complete au) (readCtx ctx) n)) := by
  obtain ⟨as, has, hparseAu⟩ := reads_au hM complete hau
  obtain ⟨cs, hcs, hparseCtx⟩ := reads_ctx hM hctx
  obtain ⟨ns, hns, hparseNum⟩ := reads_repr (show n < 2 ^ 64 by omega)
  rw [Nat.mod_eq_of_lt hn] at hparseNum
  have hobject := (show Prints "LOCAL OBJECT " ["LOCAL", "OBJECT"] by decide).after (by decide) has
  have hto := hobject.between (show Prints " IS LOCAL TO " ["IS", "LOCAL", "TO"] by decide) (by decide)
      (by decide) hcs
  refine ⟨_, (hto.between (show Prints " COUNT " ["COUNT"] by decide) (by decide) (by decide) hns).before
    (show Prints " ;" [";"] by decide) (by decide), fun rest => ?_⟩
  simp only [List.append_assoc, List.cons_append, List.nil_append]
  have hline : parseLocalObject M complete
      ("OBJECT" :: (as ++ "IS" :: "LOCAL" :: "TO" :: (cs ++ "COUNT" :: (ns ++ ";" :: rest)))) =
        some (.localObject (readAu complete au) (readCtx ctx) n, rest) := by
    rw [parseLocalObject, expect_bind, bind_of _ (hparseAu _), expect_bind, expect_bind, expect_bind,
      bind_of _ (hparseCtx _), expect_bind, bind_of _ (hparseNum _), expect_bind]
    rfl
  rw [parseLine, get_bind, if_neg (List.cons_ne_nil _ _), ifTest, if_neg (by decide), ifTest,
    if_neg (by decide), ifTest,
    if_neg (by decide), ifTest, if_pos rfl, map_of _ hline]

theorem reads_residues {s : PtrResidueSet} (h : s.residueSet < 2 ^ 16) (hne : s.residueSet ≠ 0)
    (hnum : s.numSamples < 2 ^ 64)
    {value : Symbol} (hvalue : M.ValueOk value) (hctx : M.CtxOk ctx) :
    Reads (parseLine M complete)
      ("PTR RESIDUES " ++ M.text value ++ " AT " ++ M.printCtx ctx ++ " AS " ++
      Module.printResidueSet s ++ " ;")
      (.action (.pointerResidual (readValue value) (readCtx ctx) s.residueSet)) := by
  have hitems : List.Forall₂ (fun s a => Reads parseMember s a) ((Module.residueMembers s).map Nat.repr)
      (Module.residueMembers s) := by
    rw [List.forall₂_map_left_iff]
    refine List.forall₂_same.2 fun r hr => reads_member ?_
    exact List.mem_range.1 (List.mem_filter.1 hr).1
  have hcount : (Module.residueMembers s).length < 2 ^ 64 := by
    have := List.length_filter_le s.residueSet.testBit (List.range 16)
    rw [List.length_range] at this
    rw [Module.residueMembers]
    omega
  obtain ⟨vs, hvs, hparseValue⟩ := reads_value hM hvalue
  obtain ⟨cs, hcs, hparseCtx⟩ := reads_ctx hM hctx
  obtain ⟨ns, hns, hparseNum⟩ := reads_repr hnum
  obtain ⟨ls, hls, hparseLen⟩ := reads_repr hcount
  obtain ⟨ms, hms, hlength, hparseMany⟩ := reads_many hitems (by simpa using residueMembers_ne_nil h hne)
  have hset : Prints (Module.printResidueSet s)
      ("RESTRICTED" :: (ns ++ ("SAMPLES" :: "OVER" :: (ls ++ ("MEMBERS" :: "\x7b" :: (ms ++ ["\x7d"])))))) := by
    have hcounts := ((show Prints "RESTRICTED " ["RESTRICTED"] by decide).after (by decide) hns).between
      (show Prints " SAMPLES OVER " ["SAMPLES", "OVER"] by decide) (by decide) (by decide) hls
    have hmembers := hcounts.between (show Prints " MEMBERS \x7b " ["MEMBERS", "\x7b"] by decide) (by decide)
      (by decide) hms
    have hall := hmembers.before (show Prints " \x7d" ["\x7d"] by decide) (by decide)
    rw [Module.printResidueSet]
    simpa only [List.append_assoc, List.cons_append, List.nil_append] using hall
  have hplace := ((show Prints "PTR RESIDUES " ["PTR", "RESIDUES"] by decide).after (by decide) hvs).between
    (show Prints " AT " ["AT"] by decide) (by decide) (by decide) hcs
  refine ⟨_, (hplace.between (show Prints " AS " ["AS"] by decide) (by decide) (by decide) hset).before
    (show Prints " ;" [";"] by decide) (by decide), fun rest => ?_⟩
  simp only [List.append_assoc, List.cons_append, List.nil_append]
  have hmany : withFuel (parseMany parseMember) (ms ++ "\x7d" :: ";" :: rest) =
      some (Module.residueMembers s, "\x7d" :: ";" :: rest) := by
    refine hparseMany _ ?_ _ _ (by decide)
    rw [List.length_append]
    omega
  have hline : parsePointerResidues M ("RESIDUES" :: (vs ++ "AT" :: (cs ++ "AS" :: "RESTRICTED" ::
      (ns ++ "SAMPLES" :: "OVER" :: (ls ++ "MEMBERS" :: "\x7b" :: (ms ++ "\x7d" :: ";" :: rest)))))) =
        some (.pointerResidual (readValue value) (readCtx ctx) s.residueSet, rest) := by
    rw [parsePointerResidues, expect_bind, bind_of _ (hparseValue _), expect_bind, bind_of _ (hparseCtx _),
      expect_bind,
      expect_bind, bind_of _ (hparseNum _), expect_bind, expect_bind, bind_of _ (hparseLen _), expect_bind,
        expect_bind,
      bind_of _ hmany, expect_bind, expect_bind, foldl_members h]
    rfl
  rw [parseLine, get_bind, if_neg (List.cons_ne_nil _ _), ifTest, if_neg (by decide), ifTest,
    if_neg (by decide), ifTest,
    if_neg (by decide), ifTest, if_neg (by decide), ifTest, if_pos rfl, map_of _ hline]

theorem reads_predictions {key body : String} {γ : Type} {p : Parser (Pieces.Value × Pieces.Ctx × List γ)}
    {a : Action}
    {make : Pieces.Value × Pieces.Ctx × List γ → Action} {r : Pieces.Value × Pieces.Ctx × List γ}
    (hkey : IsWord key ∧ '#' ∉ key.toList) (h : Reads p body r) (ha : a = make r)
    (hparse : ∀ rest, parseLine M complete ("PRED" :: key :: rest) = (p rest).map
    fun x => (.action (make x.1), x.2)) :
    Reads (parseLine M complete) ("PRED " ++ key ++ " " ++ body) (.action a) := by
  obtain ⟨ts, hts, hp⟩ := h
  refine ⟨_, ((show Prints "PRED " ["PRED"] by decide).after (by decide) (.word hkey.1 hkey.2)).between
    (show Prints " " [] by decide) (by decide) (by decide) hts, fun rest => ?_⟩
  simp only [List.cons_append, List.nil_append]
  rw [hparse, hp, ha]
  rfl

omit hM in
theorem reads_complete : Reads (parseLine M complete) "COMPLETE ALLOCATION INFO ;" (.coverage true) := by
  refine ⟨["COMPLETE", "ALLOCATION", "INFO", ";"], by decide, fun rest => ?_⟩
  simp only [List.cons_append, List.nil_append]
  rw [parseLine, get_bind, if_neg (List.cons_ne_nil _ _), ifTest, if_pos rfl, parseComplete, expect_bind,
    expect_bind,
    expect_bind]
  rfl

theorem reads_incomplete {f b i : ℕ} (h : (M.inst? f b i).isSome = true) :
    Reads (parseLine M complete) ("INCOMPLETE ALLOCATION INFO " ++ M.text (.inst f b i) ++ " ;")
    (.coverage false) := by
  obtain ⟨inst, hinst⟩ := Option.isSome_iff_exists.1 h
  obtain ⟨tok, hts, hparse⟩ := words_inst hM hinst
  refine ⟨_, ((show Prints "INCOMPLETE ALLOCATION INFO " ["INCOMPLETE", "ALLOCATION",
    "INFO"] by decide).after (by decide)
    hts).before (show Prints " ;" [";"] by decide) (by decide), fun rest => ?_⟩
  simp only [List.cons_append, List.nil_append]
  rw [parseLine, get_bind, if_neg (List.cons_ne_nil _ _), ifTest, if_neg (by decide), ifTest, if_pos rfl,
    parseIncomplete,
    expect_bind, expect_bind, bind_of _ (hparse _), expect_bind]
  rfl

end Records

end Cpf.Profile
