import Cpf.Profile.ProfileReader

/-!
# What is printed is read again

A name of the instrumentation, a context, an allocation unit or a set of samples is printed as words that the
parser for it reads as the same thing again, whatever follows. The names of the module may not have blanks or
`#`, and must not look like the parser's keywords.
-/

set_option linter.unusedSectionVars false

namespace Cpf.Profile

open Text Parse

def NameOk (s : String) : Prop := IsWord s ∧ '#' ∉ s.toList

/-- The names of the module can be told from each other and from the keywords. -/
structure Module.Named (M : Module) : Prop where
  fcn : ∀ fcn ∈ M.functions, NameOk fcn.name ∧ fcn.name ≠ "argument" ∧ fcn.name ≠ "UNMANAGED" ∧
    fcn.args ≤ 2 ^ 32
  fcns : (M.functions.map IRFunction.name).Nodup
  blocks : ∀ fcn ∈ M.functions, (fcn.blocks.map IRBlock.name).Nodup
  block : ∀ fcn ∈ M.functions, ∀ bb ∈ fcn.blocks, NameOk bb.name ∧ bb.insts.length ≤ 2 ^ 32
  insts : ∀ fcn ∈ M.functions, ∀ bb ∈ fcn.blocks, (bb.insts.filterMap IRInst.name).Nodup
  inst : ∀ fcn ∈ M.functions, ∀ bb ∈ fcn.blocks, ∀ inst ∈ bb.insts, ∀ n ∈ inst.name, NameOk n ∧
    afterChar '$' n = none
  globals : (M.globals.map IRGlobal.name).Nodup
  global : ∀ gv ∈ M.globals, NameOk gv.name

def Reads {α : Type} (p : Parser α) (s : String) (a : α) : Prop :=
  ∃ ts, Prints s ts ∧ ∀ rest, p (ts ++ rest) = some (a, rest)

/-! ### Steps of the parser -/

section Steps

variable {α γ : Type} {x : Parser α} {a : α} {toks rest : List String} (f : α → Parser γ) (keyword tok : String)

theorem bind_of (h : x toks = some (a, rest)) : (x >>= f) toks = f a rest := by
  show (x toks).bind (fun r => f r.1 r.2) = f a rest
  rw [h, Option.bind_some]

theorem map_of (g : α → γ) (h : x toks = some (a, rest)) : (g <$> x) toks = some (g a, rest) := by
  show (x toks).bind (fun r => some (g r.1, r.2)) = some (g a, rest)
  rw [h, Option.bind_some]

theorem liftOption_some (a : α) (toks : List String) : liftOption (some a) toks = some (a, toks) := rfl

theorem consume_bind (f : String → Parser γ) (tok : String) (rest : List String) :
    (consume >>= f) (tok :: rest) = f tok rest := rfl

theorem expect_bind (f : Unit → Parser γ) (keyword : String) (rest : List String) :
    (expect keyword >>= f) (keyword :: rest) = f () rest := bind_of f (if_pos rfl)

theorem ifTest (p q : Parser γ) (keyword tok : String) (rest : List String) :
    (test keyword >>= fun c => if c = true then p else q) (tok :: rest) =
      if tok = keyword then p rest else q (tok :: rest) := by
  by_cases htok : tok = keyword
  · rw [if_pos htok]
    exact bind_of (a := true) _ (if_pos htok)
  · rw [if_neg htok]
    exact bind_of (a := false) _ (if_neg htok)

end Steps

/-- The index of an element that its image tells from the others. -/
theorem findIdx?_of_nodup {σ τ : Type} [DecidableEq τ] {l : List σ} {g : σ → τ} (h : (l.map g).Nodup)
    {i : ℕ} {a : σ}
    (hi : l[i]? = some a) : l.findIdx? (fun b => g b = g a) = some i := by
  obtain ⟨hlt, hget⟩ := List.getElem?_eq_some_iff.1 hi
  refine List.findIdx?_eq_some_iff_getElem.2 ⟨hlt, by simp [hget], fun j hj heq => ?_⟩
  have hinj := List.nodup_iff_injective_getElem.1 h
  have hlen : i < (l.map g).length := by rwa [List.length_map]
  have hfin : (⟨j, by omega⟩ : Fin (l.map g).length) = ⟨i, hlen⟩ := by
    refine hinj ?_
    simpa [hget] using heq
  have := Fin.mk.inj_iff.1 hfin
  omega

theorem findIdx?_filterMap {σ τ : Type} [DecidableEq τ] {l : List σ} {g : σ → Option τ}
    (h : (l.filterMap g).Nodup)
    {i : ℕ} {a : σ} {t : τ} (hi : l[i]? = some a) (ht : g a = some t) :
    l.findIdx? (fun b => g b = some t) = some i := by
  induction l generalizing i with
  | nil => cases hi
  | cons b l ih =>
      rw [List.findIdx?_cons]
      cases i with
      | zero =>
          obtain rfl : b = a := by simpa using hi
          simp [ht]
      | succ i =>
          have hi : l[i]? = some a := hi
          have hmem : t ∈ l.filterMap g := List.mem_filterMap.2 ⟨a, List.mem_of_getElem? hi, ht⟩
          have hb : g b ≠ some t := by
            intro hb
            rw [List.filterMap_cons_some hb] at h
            exact (List.nodup_cons.1 h).1 hmem
          have hl : (l.filterMap g).Nodup := by
            cases hgb : g b with
            | none => rwa [List.filterMap_cons_none hgb] at h
            | some u =>
                rw [List.filterMap_cons_some hgb] at h
                exact (List.nodup_cons.1 h).2
          rw [if_neg (by simpa using hb), ih hl hi]
          rfl

theorem prints_append_repr {s : String} (hs : IsWord s) (hhash : '#' ∉ s.toList) (n : ℕ) :
    Prints (s ++ n.repr) [s ++ n.repr] := by
  refine .word ⟨fun hnil => repr_ne_nil n ?_, fun c hc => ?_⟩ fun hmem => ?_
  · have hlist := congrArg String.toList hnil
    rw [String.toList_append] at hlist
    exact (List.append_eq_nil_iff.1 hlist).2
  · rw [String.toList_append] at hc
    exact (List.mem_append.1 hc).elim (hs.2 c) fun hc => isBlank_of_isDigit (isDigit_of_mem_repr hc)
  · rw [String.toList_append] at hmem
    exact (List.mem_append.1 hmem).elim hhash fun hc => absurd (isDigit_of_mem_repr hc) (by decide)

variable {M : Module} {f b i k g : ℕ} {fcn : IRFunction} {bb : IRBlock} {inst : IRInst}

namespace Module

theorem block?_eq (h : M.block? f b = some bb) : ∃ fcn, M.functions[f]? = some fcn ∧ fcn.blocks[b]? = some bb :=
  Option.bind_eq_some_iff.1 h

theorem fcnText_eq (h : M.functions[f]? = some fcn) : M.fcnText f = fcn.name := by simp [fcnText, h]

theorem blockText_eq (h : M.block? f b = some bb) : M.blockText f b = bb.name := by simp [blockText, h]

end Module

theorem NameOk.prints {s : String} (h : NameOk s) : Prints s [s] := .word h.1 h.2

section Basic

variable (hM : M.Named)

include hM

theorem parseFcn_text (h : M.functions[f]? = some fcn) (rest : List String) :
    parseFcn M (M.fcnText f :: rest) = some (f, rest) := by
  have hidx := findIdx?_of_nodup hM.fcns h
  rw [parseFcn, consume_bind, Module.fcnText_eq h, hidx, liftOption_some]

theorem prints_fcn (h : M.functions[f]? = some fcn) : Prints (M.fcnText f) [M.fcnText f] := by
  rw [Module.fcnText_eq h]
  exact (hM.fcn fcn (List.mem_of_getElem? h)).1.prints

theorem prints_block (h : M.block? f b = some bb) : Prints (M.blockText f b) [M.blockText f b] := by
  obtain ⟨fcn, hf, hb⟩ := Module.block?_eq h
  rw [Module.blockText_eq h]
  exact (hM.block fcn (List.mem_of_getElem? hf) bb (List.mem_of_getElem? hb)).1.prints

theorem parseBb_text (h : M.block? f b = some bb) (rest : List String) :
    parseBb M (M.fcnText f :: M.blockText f b :: rest) = some ((f, b), rest) := by
  obtain ⟨fcn, hf, hb⟩ := Module.block?_eq h
  have hidx := findIdx?_of_nodup (hM.blocks fcn (List.mem_of_getElem? hf)) hb
  rw [parseBb, bind_of _ (parseFcn_text hM hf _), consume_bind, Module.blockText_eq h, hf,
    Option.bind_some, hidx,
    Option.map_some, liftOption_some]

theorem prints_bb (h : M.block? f b = some bb) :
    Prints (M.fcnText f ++ " " ++ M.blockText f b) [M.fcnText f, M.blockText f b] := by
  obtain ⟨fcn, hf, -⟩ := Module.block?_eq h
  exact (prints_fcn hM hf).between (show Prints " " [] by decide) (by decide) (by decide) (prints_block hM h)

/-- An instruction is three words, a function, a block, and a name or a position. -/
theorem words_inst (h : M.inst? f b i = some inst) :
    ∃ tok, Prints (M.text (.inst f b i)) [M.fcnText f, M.blockText f b, tok] ∧
      ∀ rest, parseInst M (M.fcnText f :: M.blockText f b :: tok :: rest) = some ((f, b, i), rest) := by
  obtain ⟨bb, hbb, hi⟩ := Option.bind_eq_some_iff.1 h
  obtain ⟨fcn, hf, hb⟩ := Module.block?_eq hbb
  have hfcn := List.mem_of_getElem? hf
  have hblock := List.mem_of_getElem? hb
  have hinst := List.mem_of_getElem? hi
  have hlt := (List.getElem?_eq_some_iff.1 hi).1
  rw [Module.text, h, Option.bind_some]
  refine ⟨inst.name.getD ("$" ++ i.repr),
    (prints_bb hM hbb).between (show Prints " " [] by decide) (by decide) (by decide) ?_, fun rest => ?_⟩
  · cases hname : inst.name with
    | some n => exact (hM.inst fcn hfcn bb hblock inst hinst n hname).1.prints
    | none => exact prints_append_repr (by decide) (by decide) i
  · rw [parseInst, bind_of _ (parseBb_text hM hbb _)]
    dsimp only
    rw [consume_bind, hbb, Option.bind_some]
    cases hname : inst.name with
    | some n =>
        obtain ⟨-, hdollar⟩ := hM.inst fcn hfcn bb hblock inst hinst n hname
        have hidx : bb.insts.findIdx? (fun inst => inst.name = some n) = some i :=
          findIdx?_filterMap (hM.insts fcn hfcn bb hblock) hi hname
        rw [Option.getD_some, hdollar]
        dsimp only
        rw [hidx, Option.map_some, liftOption_some]
    | none =>
        have hsize := (hM.block fcn hfcn bb hblock).2
        have hi' : i < 2 ^ 32 := by omega
        have hchar : afterChar '$' ("$" ++ i.repr) = some i.repr.toList := by
          rw [afterChar, String.toList_append]
          rfl
        rw [Option.getD_none, hchar]
        dsimp only
        rw [scanUnsigned_repr (by omega), Option.bind_some, Nat.mod_eq_of_lt hi', if_pos hlt, liftOption_some]

theorem reads_arg (h : M.functions[f]? = some fcn) (hk : k < fcn.args) :
    Reads (parseValue M) (M.text (.arg f k)) (.argument f k) := by
  have hargs := (hM.fcn fcn (List.mem_of_getElem? h)).2.2.2
  have hk' : k < 2 ^ 32 := by omega
  have hchar : afterChar '%' ("%" ++ k.repr) = some k.repr.toList := by
    rw [afterChar, String.toList_append]
    rfl
  have hprints : Prints (" %" ++ k.repr) ["%" ++ k.repr] := by
    rw [show (" %" : String) = " " ++ "%" from rfl, String.append_assoc]
    exact (show Prints " " [] by decide).after (by decide) (prints_append_repr (by decide) (by decide) k)
  refine ⟨["argument", M.fcnText f, "%" ++ k.repr], ?_, fun rest => ?_⟩
  · rw [Module.text, String.append_assoc]
    refine ((show Prints "argument " ["argument"] by decide).after (by decide)
      (prints_fcn hM h)).before hprints ?_
    rw [String.toList_append]
    exact startsBlank_append (by decide)
  · simp only [List.cons_append, List.nil_append]
    rw [parseValue, ifTest, if_pos rfl, bind_of _ (parseFcn_text hM h _), consume_bind, h,
      Option.bind_some, hchar,
      Option.bind_some, scanUnsigned_repr (by omega), Option.bind_some, Nat.mod_eq_of_lt hk', if_pos hk,
      liftOption_some]

theorem words_gv {gv : IRGlobal} (h : M.globals[g]? = some gv) :
    ∃ ts, Prints (M.text (.global g)) ("global" :: ts) ∧
      ∀ rest, parseGv M ("global" :: (ts ++ rest)) = some (g, rest) := by
  have hidx := findIdx?_of_nodup hM.globals h
  refine ⟨[gv.name], ?_, fun rest => ?_⟩
  · rw [Module.text, h, Option.map_some, Option.getD_some]
    exact (show Prints "global " ["global"] by decide).after (by decide)
      (hM.global gv (List.mem_of_getElem? h)).prints
  · simp only [List.cons_append, List.nil_append]
    rw [parseGv, expect_bind, consume_bind, hidx, liftOption_some]

end Basic

/-! ### Contexts and allocation units -/

def Module.CtxOk (M : Module) : Ctx Symbol → Prop
  | [] => False
  | frame :: parents =>
      match frame.type, frame.name with
      | .top, _ => parents = []
      | .function, some (.fcn f) => f < M.functions.length ∧ CtxOk M parents
      | .loop, some (.loop f b depth) => (M.block? f b).isSome ∧ depth < 2 ^ 32 ∧ CtxOk M parents
      | _, _ => False

def readFrame (frame : Frame Symbol) : Pieces.Step ℕ (ℕ × ℕ) :=
  match frame.type, frame.name with
  | .function, some (.fcn f) => ⟨.fcn, some f, none, 0⟩
  | .loop, some (.loop f b depth) => ⟨.loop, some f, some (f, b), depth⟩
  | _, _ => ⟨.top, none, none, 0⟩

def readCtx (ctx : Ctx Symbol) : Pieces.Ctx := ctx.map readFrame

def Module.AuOk (M : Module) (au : Site Symbol) : Prop :=
  match au.type, au.name with
  | .null, _ | .unknown, _ => True
  | .constant, some (.global g) => (M.globals[g]?).map IRGlobal.isConstant = some true
  | .constant, some (.unmanaged what) => NameOk what
  | .global, some (.global g) => (M.globals[g]?).map IRGlobal.isConstant = some false
  | .stack, some (.inst f b i) => (M.inst? f b i).map IRInst.isAlloca = some true ∧ M.CtxOk au.creation
  | .heap, some (.inst f b i) => (M.inst? f b i).isSome ∧ M.CtxOk au.creation
  | .heap, some (.unmanaged what) => NameOk what ∧ M.CtxOk au.creation
  | _, _ => False

/-- What is read for a unit; memory that is not managed is unknown. -/
def readAu (complete : Bool) (au : Site Symbol) : Pieces.AU :=
  match au.type, au.name with
  | .unknown, _ => ⟨if complete then .undefined else .unknown, none, []⟩
  | .constant, some (.global g) => ⟨.constant, some (.globalVariable g), []⟩
  | .global, some (.global g) => ⟨.global, some (.globalVariable g), []⟩
  | .stack, some (.inst f b i) => ⟨.stack, some (.instruction f b i), readCtx au.creation⟩
  | .heap, some (.inst f b i) => ⟨.heap, some (.instruction f b i), readCtx au.creation⟩
  | .null, _ => ⟨.null, none, []⟩
  | _, _ => ⟨.unknown, none, []⟩

variable (hM : M.Named) {ctx : Ctx Symbol} {au : Site Symbol} {complete : Bool}

theorem reads_repr {n : ℕ} (hn : n < 2 ^ 64) : Reads parseInt n.repr (n % 2 ^ 32) :=
  ⟨_, prints_repr n, fun rest => by
    rw [List.singleton_append, parseInt, consume_bind, scanUnsigned_repr hn, liftOption_some]⟩

theorem printContext_cons {frame : Frame Symbol} {parents : Ctx Symbol} {s : Symbol}
    (hname : frame.name = some s)
    (hparents : parents ≠ []) {kind : String} (hkind : frame.type = .function ∧ kind = "FUNCTION" ∨
      frame.type = .loop ∧ kind = "LOOP") :
    M.printContext (frame :: parents) = kind ++ (" " ++ M.text s ++
    (" WITHIN " ++ M.printContext parents)) := by
  rcases hkind with ⟨htype, rfl⟩ | ⟨htype, rfl⟩ <;> simp [Module.printContext, htype, hname, hparents]

/-- A frame, the word that begins it, and its name. -/
theorem prints_frame {s kind parents : String} {ts us : List String} (hkind : Prints kind [kind])
    (hs : Prints s ts)
    (hparents : Prints parents us) :
    Prints (kind ++ (" " ++ s ++ (" WITHIN " ++ parents))) (kind :: (ts ++ "WITHIN" :: us)) := by
  have hname : Prints (" " ++ s) ts := (show Prints " " [] by decide).after (by decide) hs
  have hwithin : Prints (" WITHIN " ++ parents) ("WITHIN" :: us) :=
    (show Prints " WITHIN " ["WITHIN"] by decide).after (by decide) hparents
  refine hkind.before (hname.before hwithin ?_) ?_
  · rw [String.toList_append]
    exact startsBlank_append (by decide)
  · rw [String.toList_append, String.toList_append]
    exact startsBlank_append (startsBlank_append (by decide))

theorem prints_au (kind : String) {tail : String} {ts : List String} (hkind : Prints kind [kind])
    (htail : Prints tail ts) :
    Prints ("AU " ++ kind ++ " " ++ tail) ("AU" :: kind :: ts) :=
  ((show Prints "AU " ["AU"] by decide).after (by decide) hkind).between (show Prints " " [] by decide)
    (by decide)
    (by decide) htail

theorem prints_named (kind : String) {name : String} {ts : List String} (hkind : Prints kind [kind])
    (hname : Prints name ts) : Prints ("AU " ++ kind ++ " " ++ (name ++ "")) ("AU" :: kind :: ts) := by
  rw [String.append_empty]
  exact prints_au kind hkind hname

/-- A unit with a name and the context of its creation. -/
theorem prints_created (kind : String) {name : String} {ts us : List String} (hkind : Prints kind [kind])
    (hname : Prints name ts)
    (hctx : Prints (M.printCtx ctx) us) :
    Prints ("AU " ++ kind ++ " " ++ (name ++ (" FROM " ++ M.printCtx ctx)))
    ("AU" :: kind :: (ts ++ "FROM" :: us)) := by
  have hfrom : Prints (" FROM " ++ M.printCtx ctx) ("FROM" :: us) :=
    (show Prints " FROM " ["FROM"] by decide).after (by decide) hctx
  refine prints_au kind hkind (hname.before hfrom ?_)
  rw [String.toList_append]
  exact startsBlank_append (by decide)

theorem prints_unmanaged {what : String} (h : NameOk what) : Prints (M.text (.unmanaged what))
    ["UNMANAGED", what] :=
  (show Prints "UNMANAGED " ["UNMANAGED"] by decide).after (by decide) h.prints

include hM

theorem reads_ctxs (h : M.CtxOk ctx) : ∃ ts, Prints (M.printContext ctx) ts ∧ ctx.length ≤ ts.length ∧
    ∀ fuel ≥ ctx.length, ∀ rest, parseCtxs M fuel (ts ++ rest) = some (readCtx ctx, rest) := by
  induction ctx with
  | nil => exact h.elim
  | cons frame parents ih =>
      obtain ⟨type, name⟩ := frame
      match type, name, h with
      | .top, name, h =>
          have hnil : parents = [] := h
          subst hnil
          refine ⟨["TOP"], by simpa [Module.printContext] using (show Prints "TOP"
            ["TOP"] by decide), by simp, ?_⟩
          intro fuel hfuel rest
          obtain ⟨fuel, rfl⟩ : ∃ k, fuel = k + 1 := ⟨fuel - 1, by rw [List.length_singleton] at hfuel; omega⟩
          rw [List.singleton_append, parseCtxs, ifTest, if_pos rfl]
          rfl
      | .function, some (.fcn f), h =>
          obtain ⟨hf, hparents⟩ : f < M.functions.length ∧ M.CtxOk parents := h
          obtain ⟨us, hus, hlen, hparse⟩ := ih hparents
          have hne : parents ≠ [] := by
            rintro rfl
            exact hparents
          have hget := List.getElem?_eq_getElem hf
          refine ⟨"FUNCTION" :: ([M.fcnText f] ++ "WITHIN" :: us), ?_, by simp; omega,
            fun fuel hfuel rest => ?_⟩
          · rw [printContext_cons rfl hne (.inl ⟨rfl, rfl⟩)]
            exact prints_frame (by decide) (prints_fcn hM hget) hus
          · rw [List.length_cons] at hfuel
            obtain ⟨fuel, rfl⟩ : ∃ k, fuel = k + 1 := ⟨fuel - 1, by omega⟩
            simp only [List.cons_append, List.nil_append]
            rw [parseCtxs, ifTest, if_neg (by decide), ifTest, if_pos rfl, bind_of _ (parseFcn_text hM hget _),
              expect_bind, bind_of _ (hparse fuel (by omega) rest)]
            rfl
      | .loop, some (.loop f b depth), h =>
          obtain ⟨hbb, hdepth, hparents⟩ : (M.block? f b).isSome ∧ depth < 2 ^ 32 ∧ M.CtxOk parents := h
          obtain ⟨bb, hbb⟩ := Option.isSome_iff_exists.1 hbb
          obtain ⟨us, hus, hlen, hparse⟩ := ih hparents
          have hne : parents ≠ [] := by
            rintro rfl
            exact hparents
          refine ⟨"LOOP" :: ([M.fcnText f, M.blockText f b, depth.repr] ++ "WITHIN" :: us), ?_, by simp; omega,
            fun fuel hfuel rest => ?_⟩
          · rw [printContext_cons rfl hne (.inr ⟨rfl, rfl⟩)]
            exact prints_frame (by decide)
              ((prints_bb hM hbb).between (show Prints " " [] by decide) (by decide) (by decide)
                (prints_repr depth)) hus
          · rw [List.length_cons] at hfuel
            obtain ⟨fuel, rfl⟩ : ∃ k, fuel = k + 1 := ⟨fuel - 1, by omega⟩
            have hint : ∀ rest, parseInt (depth.repr :: rest) = some (depth, rest) := fun rest => by
              rw [parseInt, consume_bind, scanUnsigned_repr (by omega), Nat.mod_eq_of_lt hdepth,
                liftOption_some]
            simp only [List.cons_append, List.nil_append]
            rw [parseCtxs, ifTest, if_neg (by decide), ifTest, if_neg (by decide), ifTest, if_pos rfl,
              bind_of _ (parseBb_text hM hbb _), bind_of _ (hint _), expect_bind,
              bind_of _ (hparse fuel (by omega) rest)]
            rfl

theorem reads_ctx (h : M.CtxOk ctx) : Reads (parseCtx M) (M.printCtx ctx) (readCtx ctx) := by
  obtain ⟨ts, hts, hlen, hparse⟩ := reads_ctxs hM h
  refine ⟨"CONTEXT" :: "\x7b" :: (ts ++ ["\x7d"]), ?_, fun rest => ?_⟩
  · have hopen : Prints (" CONTEXT \x7b " ++ M.printContext ctx) ("CONTEXT" :: "\x7b" :: ts) :=
      (show Prints " CONTEXT \x7b " ["CONTEXT", "\x7b"] by decide).after (by decide) hts
    exact hopen.before (show Prints " \x7d " ["\x7d"] by decide) (by decide)
  · simp only [List.cons_append, List.append_assoc, List.nil_append]
    have hfuel : withFuel (parseCtxs M) (ts ++ "\x7d" :: rest) = some (readCtx ctx, "\x7d" :: rest) :=
      hparse _ (by rw [List.length_append]; omega) _
    rw [parseCtx, expect_bind, expect_bind, bind_of _ hfuel, expect_bind]
    rfl

/-- The function of an instruction is not mistaken for an argument, nor for unmanaged memory. -/
theorem fcnText_ne (h : M.functions[f]? = some fcn) : M.fcnText f ≠ "argument" ∧ M.fcnText f ≠ "UNMANAGED" := by
  rw [Module.fcnText_eq h]
  obtain ⟨-, hargument, hunmanaged, -⟩ := hM.fcn fcn (List.mem_of_getElem? h)
  exact ⟨hargument, hunmanaged⟩

theorem reads_au (complete : Bool) (h : M.AuOk au) : Reads (parseAu M complete) (M.printAu au)
    (readAu complete au) := by
  obtain ⟨type, name, creation⟩ := au
  match type, name, h with
  | .unknown, name, _ =>
      refine ⟨["AU", "UNKNOWN"], prints_au "UNKNOWN" (by decide) (show Prints "" [] by decide), fun rest => ?_⟩
      simp only [List.cons_append, List.nil_append]
      rw [parseAu, expect_bind, ifTest, if_pos rfl]
      rfl
  | .null, name, _ =>
      refine ⟨["AU", "NULL"], prints_au "NULL" (by decide) (show Prints "" [] by decide), fun rest => ?_⟩
      simp only [List.cons_append, List.nil_append]
      rw [parseAu, expect_bind, ifTest, if_neg (by decide), ifTest, if_pos rfl]
      rfl
  | .constant, some (.global g), h =>
      have hconstant : (M.globals[g]?).map IRGlobal.isConstant = some true := h
      obtain ⟨gv, hgv, -⟩ := Option.map_eq_some_iff.1 hconstant
      obtain ⟨ts, hts, hparse⟩ := words_gv hM hgv
      refine ⟨"AU" :: "CONSTANT" :: "global" :: ts, prints_named "CONSTANT" (by decide) hts, fun rest => ?_⟩
      simp only [List.cons_append]
      rw [parseAu, expect_bind, ifTest, if_neg (by decide), ifTest, if_neg (by decide), ifTest,
        if_pos rfl, ifTest,
        if_neg (by decide), bind_of _ (hparse rest), if_pos hconstant]
      rfl
  | .constant, some (.unmanaged what), h =>
      refine ⟨["AU", "CONSTANT", "UNMANAGED", what], prints_named "CONSTANT" (by decide)
        (prints_unmanaged (M := M) h),
        fun rest => ?_⟩
      simp only [List.cons_append, List.nil_append]
      rw [parseAu, expect_bind, ifTest, if_neg (by decide), ifTest, if_neg (by decide), ifTest,
        if_pos rfl, ifTest,
        if_pos rfl, consume_bind]
      rfl
  | .global, some (.global g), h =>
      have hvariable : (M.globals[g]?).map IRGlobal.isConstant = some false := h
      obtain ⟨gv, hgv, -⟩ := Option.map_eq_some_iff.1 hvariable
      obtain ⟨ts, hts, hparse⟩ := words_gv hM hgv
      refine ⟨"AU" :: "GLOBAL" :: "global" :: ts, prints_named "GLOBAL" (by decide) hts, fun rest => ?_⟩
      have hnot : (M.globals[g]?).map IRGlobal.isConstant ≠ some true := by rw [hvariable]; decide
      simp only [List.cons_append]
      rw [parseAu, expect_bind, ifTest, if_neg (by decide), ifTest, if_neg (by decide), ifTest,
        if_neg (by decide),
        ifTest, if_pos rfl, bind_of _ (hparse rest), if_neg hnot]
      rfl
  | .stack, some (.inst f b i), h =>
      obtain ⟨halloca, hctx⟩ : (M.inst? f b i).map IRInst.isAlloca = some true ∧ M.CtxOk creation := h
      obtain ⟨inst, hinst, -⟩ := Option.map_eq_some_iff.1 halloca
      obtain ⟨tok, hts, hparse⟩ := words_inst hM hinst
      obtain ⟨us, hus, hparseCtx⟩ := reads_ctx hM hctx
      refine ⟨_, prints_created "STACK" (by decide) hts hus, fun rest => ?_⟩
      simp only [List.cons_append, List.nil_append]
      rw [parseAu, expect_bind, ifTest, if_neg (by decide), ifTest, if_neg (by decide), ifTest,
        if_neg (by decide),
        ifTest, if_neg (by decide), ifTest, if_pos rfl, bind_of _ (hparse _)]
      dsimp only
      rw [if_pos halloca, expect_bind, bind_of _ (hparseCtx rest)]
      rfl
  | .heap, some (.inst f b i), h =>
      obtain ⟨hsome, hctx⟩ : (M.inst? f b i).isSome ∧ M.CtxOk creation := h
      obtain ⟨inst, hinst⟩ := Option.isSome_iff_exists.1 hsome
      obtain ⟨bb, hbb, -⟩ := Option.bind_eq_some_iff.1 hinst
      obtain ⟨fcn, hf, -⟩ := Module.block?_eq hbb
      obtain ⟨tok, hts, hparse⟩ := words_inst hM hinst
      obtain ⟨us, hus, hparseCtx⟩ := reads_ctx hM hctx
      refine ⟨_, prints_created "HEAP" (by decide) hts hus, fun rest => ?_⟩
      simp only [List.cons_append, List.nil_append]
      rw [parseAu, expect_bind, ifTest, if_neg (by decide), ifTest, if_neg (by decide), ifTest,
        if_neg (by decide),
        ifTest, if_neg (by decide), ifTest, if_neg (by decide), ifTest, if_pos rfl, ifTest,
        if_neg (fcnText_ne hM hf).2, bind_of _ (hparse _)]
      dsimp only
      rw [expect_bind, bind_of _ (hparseCtx rest)]
      rfl
  | .heap, some (.unmanaged what), h =>
      obtain ⟨hwhat, hctx⟩ : NameOk what ∧ M.CtxOk creation := h
      obtain ⟨us, hus, hparseCtx⟩ := reads_ctx hM hctx
      refine ⟨_, prints_created "HEAP" (by decide) (prints_unmanaged (M := M) hwhat) hus, fun rest => ?_⟩
      simp only [List.cons_append, List.nil_append]
      rw [parseAu, expect_bind, ifTest, if_neg (by decide), ifTest, if_neg (by decide), ifTest,
        if_neg (by decide),
        ifTest, if_neg (by decide), ifTest, if_neg (by decide), ifTest, if_pos rfl, ifTest, if_pos rfl,
          consume_bind,
        expect_bind, bind_of _ (hparseCtx rest)]
      rfl

def Module.ValueOk (M : Module) : Symbol → Prop
  | .inst f b i => (M.inst? f b i).isSome
  | .arg f k => ∃ fcn, M.functions[f]? = some fcn ∧ k < fcn.args
  | _ => False

def readValue : Symbol → Pieces.Value
  | .inst f b i => .instruction f b i
  | .arg f k => .argument f k
  | .fcn f | .loop f _ _ => .instruction f 0 0
  | .global g => .globalVariable g
  | .unmanaged _ => .globalVariable 0

theorem reads_value {s : Symbol} (h : M.ValueOk s) : Reads (parseValue M) (M.text s) (readValue s) := by
  match s, h with
  | .arg f k, h =>
      obtain ⟨fcn, hf, hk⟩ := h
      exact reads_arg hM hf hk
  | .inst f b i, h =>
      obtain ⟨inst, hinst⟩ := Option.isSome_iff_exists.1 h
      obtain ⟨bb, hbb, -⟩ := Option.bind_eq_some_iff.1 hinst
      obtain ⟨fcn, hf, -⟩ := Module.block?_eq hbb
      obtain ⟨tok, hts, hparse⟩ := words_inst hM hinst
      refine ⟨_, hts, fun rest => ?_⟩
      simp only [List.cons_append, List.nil_append]
      rw [parseValue, ifTest, if_neg (fcnText_ne hM hf).1, bind_of _ (hparse rest)]
      rfl

end Cpf.Profile
