import Cpf.Basics.Words
import Cpf.Profile.ContextMatching
import Cpf.Profile.ProfileWriter

/-!
# Reading a points-to profile

The reader is a recursive descent parser over the words of a line. It looks the names up in the module and
calls a semantic action for every record; a line that cannot be parsed, or whose action fails, is bad.
-/

namespace Cpf.Profile

namespace Pieces

inductive AUType
  | unknown
  | undefined
  | io
  | null
  | constant
  | global
  | stack
  | heap
  deriving DecidableEq

inductive Value
  | argument (f k : ℕ)
  | instruction (f b i : ℕ)
  | globalVariable (g : ℕ)
  deriving DecidableEq

/-- A context of the module; a block is a function and a number. -/
abbrev Ctx := Chain ℕ (ℕ × ℕ)

structure AU where
  type : AUType
  value : Option Value
  ctx : Ctx
  deriving DecidableEq

inductive Action
  | escapeObject (au : AU) (ctx : Ctx) (cnt : ℕ)
  | localObject (au : AU) (ctx : Ctx) (cnt : ℕ)
  | intPredict (value : Value) (ctx : Ctx) (ints : List (ℕ × ℕ))
  | ptrPredict (value : Value) (ctx : Ctx) (ptrs : List (AU × ℕ × ℕ))
  | objPredict (value : Value) (ctx : Ctx) (ptrs : List (AU × ℕ × ℕ))
  | pointerResidual (value : Value) (ctx : Ctx) (bitvector : ℕ)
  deriving DecidableEq

end Pieces

open Text

/-- The parser's state is the words that are left. -/
abbrev Parser := StateT (List String) Option

namespace Parse

open Pieces (Value Action)

def test (keyword : String) : Parser Bool := fun toks =>
  match toks with
  | [] => some (false, [])
  | tok :: rest => if tok = keyword then some (true, rest) else some (false, tok :: rest)

def expect (keyword : String) : Parser Unit := fun toks =>
  match toks with
  | [] => none
  | tok :: rest => if tok = keyword then some ((), rest) else none

def consume : Parser String := fun toks =>
  match toks with
  | [] => none
  | tok :: rest => some (tok, rest)

def liftOption {α : Type} (o : Option α) : Parser α := fun toks => o.map fun a => (a, toks)

/-- Runs a parser that recurs at most once for every word that is left. -/
def withFuel {α : Type} (p : ℕ → Parser α) : Parser α := fun toks => p (toks.length + 1) toks

def parseInt : Parser ℕ := do
  let sint ← consume
  liftOption (scanUnsigned 32 sint.toList)

variable (M : Module)

def parseGv : Parser ℕ := do
  expect "global"
  let name ← consume
  liftOption (M.globals.findIdx? fun gv => gv.name = name)

def parseFcn : Parser ℕ := do
  let fname ← consume
  liftOption (M.functions.findIdx? fun fcn => fcn.name = fname)

/-- `parse_bb`: a function and the number of the block. -/
def parseBb : Parser (ℕ × ℕ) := do
  let f ← parseFcn M
  let bbname ← consume
  liftOption ((M.functions[f]?).bind fun fcn => (fcn.blocks.findIdx? fun bb => bb.name = bbname).map
  fun b => (f, b))

/-- The rest of a word after a character that it has to begin with. -/
def afterChar (c : Char) (s : String) : Option (List Char) :=
  match s.toList with
  | d :: cs => if d = c then some cs else none
  | [] => none

/-- `parse_inst`: an instruction has a position or a name. -/
def parseInst : Parser (ℕ × ℕ × ℕ) := do
  let (f, b) ← parseBb M
  let iname ← consume
  liftOption <| (M.block? f b).bind fun bb =>
    match afterChar '$' iname with
    | some digits => (scanUnsigned 32 digits).bind fun n => if n < bb.insts.length then some (f, b, n) else none
    | none => (bb.insts.findIdx? fun inst => inst.name = some iname).map fun i => (f, b, i)

def parseValue : Parser Value := do
  if ← test "argument" then
    let f ← parseFcn M
    let argstr ← consume
    liftOption <| (M.functions[f]?).bind fun fcn => (afterChar '%' argstr).bind fun digits =>
      (scanUnsigned 32 digits).bind fun u => if u < fcn.args then some (.argument f u) else none
  else
    let (f, b, i) ← parseInst M
    return .instruction f b i

def parseCtxs : ℕ → Parser Pieces.Ctx
  | 0 => liftOption none
  | fuel + 1 => do
      if ← test "TOP" then return [⟨.top, none, none, 0⟩]
      if ← test "FUNCTION" then
        let f ← parseFcn M
        expect "WITHIN"
        let parent ← parseCtxs fuel
        return ⟨.fcn, some f, none, 0⟩ :: parent
      else if ← test "LOOP" then
        let bb ← parseBb M
        let depth ← parseInt
        expect "WITHIN"
        let parent ← parseCtxs fuel
        return ⟨.loop, some bb.1, some bb, depth⟩ :: parent
      else liftOption none

def parseCtx : Parser Pieces.Ctx := do
  expect "CONTEXT"
  expect "\x7b"
  let ctx ← withFuel (parseCtxs M)
  expect "\x7d"
  return ctx

def parseAu (complete : Bool) : Parser Pieces.AU := do
  expect "AU"
  if ← test "UNKNOWN" then return ⟨if complete then .undefined else .unknown, none, []⟩
  else if ← test "NULL" then return ⟨.null, none, []⟩
  else if ← test "CONSTANT" then
    if ← test "UNMANAGED" then
      let _ ← consume
      return ⟨.unknown, none, []⟩
    else
      let g ← parseGv M
      if ((M.globals[g]?).map IRGlobal.isConstant) = some true then
        return ⟨.constant, some (.globalVariable g), []⟩
      else liftOption none
  else if ← test "GLOBAL" then
    let g ← parseGv M
    if ((M.globals[g]?).map IRGlobal.isConstant) = some true then liftOption none
    else return ⟨.global, some (.globalVariable g), []⟩
  else if ← test "STACK" then
    let (f, b, i) ← parseInst M
    if ((M.inst? f b i).map IRInst.isAlloca) = some true then
      expect "FROM"
      let ctx ← parseCtx M
      return ⟨.stack, some (.instruction f b i), ctx⟩
    else liftOption none
  else if ← test "HEAP" then
    if ← test "UNMANAGED" then
      let _ ← consume
      expect "FROM"
      let _ ← parseCtx M
      return ⟨.unknown, none, []⟩
    else
      let (f, b, i) ← parseInst M
      expect "FROM"
      let ctx ← parseCtx M
      return ⟨.heap, some (.instruction f b i), ctx⟩
  else liftOption none

/-- `parse_ptr` gives a unit, an offset and a frequency. -/
def parsePtr (complete : Bool) : Parser (Pieces.AU × ℕ × ℕ) := do
  expect "("
  expect "OFFSET"
  let offset ← parseInt
  expect "BASE"
  let au ← parseAu M complete
  expect "COUNT"
  let freq ← parseInt
  expect ")"
  return (au, offset, freq)

def parseIntSample : Parser (ℕ × ℕ) := do
  expect "("
  expect "INT"
  let u ← parseInt
  expect "COUNT"
  let freq ← parseInt
  expect ")"
  return (u, freq)

/-- `parse_ptrs`, `parse_int_samples` and the loop over the members of a residue set: one, and more after
commas. -/
def parseMany {α : Type} (one : Parser α) : ℕ → Parser (List α)
  | 0 => liftOption none
  | fuel + 1 => do
      let a ← one
      if ← test "," then
        let rest ← parseMany one fuel
        return a :: rest
      else return [a]

def parsePrediction : Parser (Value × Pieces.Ctx × ℕ) := do
  let value ← parseValue M
  expect "AT"
  let ctx ← parseCtx M
  expect "AS"
  expect "PREDICTABLE"
  let _ ← parseInt
  expect "SAMPLES"
  expect "OVER"
  let nvalues ← parseInt
  expect "VALUES"
  return (value, ctx, nvalues)

def parsePredictions {α : Type} (one : Parser α) : Parser (Value × Pieces.Ctx × List α) := do
  let (value, ctx, nvalues) ← parsePrediction M
  expect "\x7b"
  let samples ← withFuel (parseMany one)
  if samples.length = nvalues then
    expect "\x7d"
    expect ";"
    return (value, ctx, samples)
  else liftOption none

def parseEscapeObject (complete : Bool) : Parser Action := do
  expect "OBJECT"
  let au ← parseAu M complete
  expect "ESCAPES"
  let ctx ← parseCtx M
  expect "COUNT"
  let cnt ← parseInt
  expect ";"
  return .escapeObject au ctx cnt

def parseLocalObject (complete : Bool) : Parser Action := do
  expect "OBJECT"
  let au ← parseAu M complete
  expect "IS"
  expect "LOCAL"
  expect "TO"
  let ctx ← parseCtx M
  expect "COUNT"
  let cnt ← parseInt
  expect ";"
  return .localObject au ctx cnt

def parseMember : Parser ℕ := do
  let member ← parseInt
  if member < 16 then return member else liftOption none

def parsePointerResidues : Parser Action := do
  expect "RESIDUES"
  let value ← parseValue M
  expect "AT"
  let ctx ← parseCtx M
  expect "AS"
  expect "RESTRICTED"
  let _ ← parseInt
  expect "SAMPLES"
  expect "OVER"
  let _ ← parseInt
  expect "MEMBERS"
  expect "\x7b"
  let members ← withFuel (parseMany parseMember)
  expect "\x7d"
  expect ";"
  return .pointerResidual value ctx (members.foldl (fun bits member => bits ||| 1 <<< member) 0)

def parsePredictInt : Parser Action := do
  let (value, ctx, ints) ← parsePredictions M parseIntSample
  return .intPredict value ctx ints

def parsePredictPtr (complete : Bool) : Parser Action := do
  let (value, ctx, ptrs) ← parsePredictions M (parsePtr M complete)
  return .ptrPredict value ctx ptrs

def parseUnderlyingObj (complete : Bool) : Parser Action := do
  let (value, ctx, ptrs) ← parsePredictions M (parsePtr M complete)
  return .objPredict value ctx ptrs

inductive Line
  | empty
  | coverage (complete : Bool)
  | action (a : Action)
  deriving DecidableEq

def parseComplete : Parser Line := do
  expect "ALLOCATION"
  expect "INFO"
  expect ";"
  return .coverage true

def parseIncomplete : Parser Line := do
  expect "ALLOCATION"
  expect "INFO"
  let _ ← parseInst M
  expect ";"
  return .coverage false

def parseLine (complete : Bool) : Parser Line := do
  if (← get) = [] then return .empty
  if ← test "COMPLETE" then parseComplete
  else if ← test "INCOMPLETE" then parseIncomplete M
  else if ← test "ESCAPE" then .action <$> parseEscapeObject M complete
  else if ← test "LOCAL" then .action <$> parseLocalObject M complete
  else if ← test "PTR" then .action <$> parsePointerResidues M
  else if ← test "PRED" then
    if ← test "INT" then .action <$> parsePredictInt M
    else if ← test "PTR" then .action <$> parsePredictPtr M complete
    else if ← test "OBJ" then .action <$> parseUnderlyingObj M complete
    else liftOption none
  else liftOption none

structure Result where
  goodHeader : Bool
  goodTailer : Bool
  numGoodLines : ℕ
  numBadLines : ℕ
  isAllocationCoverageComplete : Bool
  actions : List Action
  deriving DecidableEq

def Result.valid (r : Result) : Bool := r.goodHeader && r.goodTailer && r.numBadLines = 0

variable (accepts : Action → Bool)

/-- One line after its comment has been cut off; `accepts` says which semantic actions succeed. -/
def readLine (r : Result) (line : List Char) : Result :=
  match parseLine M r.isAllocationCoverageComplete (words line) with
  | none => { r with numBadLines := r.numBadLines + 1 }
  | some (.empty, _) => { r with numGoodLines := r.numGoodLines + 1 }
  | some (.coverage complete, _) =>
      { r with numGoodLines := r.numGoodLines + 1, isAllocationCoverageComplete := complete }
  | some (.action a, _) =>
      if accepts a then { r with numGoodLines := r.numGoodLines + 1, actions := r.actions ++ [a] }
      else { r with numBadLines := r.numBadLines + 1, actions := r.actions ++ [a] }

def readLines : Result → List (List Char) → Result
  | r, [] => r
  | r, line :: rest =>
      if line.takeWhile (· ≠ '#') = "END SPEC PRIV PROFILE\n".toList then { r with goodTailer := true }
      else readLines (readLine M accepts r (line.takeWhile (· ≠ '#'))) rest

/-- `parse`; `complete` is what `isAllocationCoverageComplete` is at first. -/
def parse (complete : Bool) (text : String) : Result :=
  let initial : Result := ⟨false, false, 0, 0, complete, []⟩
  match lines text.toList with
  | [] => initial
  | header :: rest =>
      if header = "BEGIN SPEC PRIV PROFILE\n".toList then readLines M accepts { initial with goodHeader :=
        true } rest
      else initial

end Parse
end Cpf.Profile
