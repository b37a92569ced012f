import Cpf.Profile.Predictions

/-!
# The text of a points-to profile

The instrumentation gives every instruction, argument, global, function and loop a name that says where it is
in the module. The profiler writes its tables in lines with these names; what is only of statistical interest,
and samples that have been given up, stand in comments.
-/

namespace Cpf.Profile

structure IRInst where
  name : Option String
  isAlloca : Bool
  deriving DecidableEq

structure IRBlock where
  name : String
  insts : List IRInst
  deriving DecidableEq

structure IRFunction where
  name : String
  args : ℕ
  blocks : List IRBlock
  deriving DecidableEq

structure IRGlobal where
  name : String
  isConstant : Bool
  deriving DecidableEq

structure Module where
  functions : List IRFunction
  globals : List IRGlobal
  deriving DecidableEq

/-- What a name stands for; functions, blocks and the like are numbered in the order of the module. -/
inductive Symbol
  | fcn (f : ℕ)
  | loop (f b depth : ℕ)
  | inst (f b i : ℕ)
  | arg (f k : ℕ)
  | global (g : ℕ)
  | unmanaged (what : String)
  deriving DecidableEq

namespace Module

variable (M : Module)

def block? (f b : ℕ) : Option IRBlock := (M.functions[f]?).bind fun fcn => fcn.blocks[b]?

def inst? (f b i : ℕ) : Option IRInst := (M.block? f b).bind fun bb => bb.insts[i]?

def fcnText (f : ℕ) : String := ((M.functions[f]?).map IRFunction.name).getD ""

def blockText (f b : ℕ) : String := ((M.block? f b).map IRBlock.name).getD ""

def text : Symbol → String
  | .fcn f => M.fcnText f
  | .loop f b depth => M.fcnText f ++ " " ++ M.blockText f b ++ " " ++ depth.repr
  | .inst f b i =>
      M.fcnText f ++ " " ++ M.blockText f b ++ " " ++ ((M.inst? f b i).bind IRInst.name).getD ("$" ++ i.repr)
  | .arg f k => "argument " ++ M.fcnText f ++ " %" ++ k.repr
  | .global g => "global " ++ ((M.globals[g]?).map IRGlobal.name).getD ""
  | .unmanaged what => "UNMANAGED " ++ what

def printContext : Ctx Symbol → String
  | [] => ""
  | frame :: parents =>
      (match frame.type with
        | .top => "TOP"
        | .function => "FUNCTION"
        | .loop => "LOOP") ++
        if frame.type = .top then ""
        else " " ++ (frame.name.map M.text).getD "" ++ if parents = [] then "" else " WITHIN " ++
          printContext parents

def printCtx (ctx : Ctx Symbol) : String := " CONTEXT \x7b " ++ M.printContext ctx ++ " \x7d "

def printAu (au : Site Symbol) : String :=
  "AU " ++
    (match au.type with
      | .null => "NULL"
      | .unknown => "UNKNOWN"
      | .constant => "CONSTANT"
      | .global => "GLOBAL"
      | .stack => "STACK"
      | .heap => "HEAP") ++
    " " ++
    if au.type = .null ∨ au.type = .unknown then ""
    else
      (au.name.map M.text).getD "" ++
        if au.type = .global ∨ au.type = .constant then "" else " FROM " ++ M.printCtx au.creation

def printIntSample (s : Sample ℕ) : String := "INT " ++ s.value.repr ++ " COUNT " ++ s.frequency.repr

def printPtrSample (s : Sample (Site Symbol × ℕ)) : String :=
  "OFFSET " ++ s.value.2.repr ++ " BASE " ++ M.printAu s.value.1 ++ " COUNT " ++ s.frequency.repr

/-- The loops that put a comma before every element but the first. -/
def commas : List String → String
  | [] => ""
  | [s] => s
  | s :: rest => s ++ " , " ++ commas rest

def printSampleSet {α : Type} (printSample : Sample α → String) (set : SampleSet α) : String :=
  let worthPrinting := set.observations.filter Sample.isWorthPrinting
  (if set.bottom then "UNPREDICTABLE " else "PREDICTABLE ") ++ set.numSamples.repr ++ " SAMPLES OVER " ++
    worthPrinting.length.repr ++ " VALUES \x7b " ++
    commas (worthPrinting.map fun s => " ( " ++ printSample s ++ " ) ") ++ " \x7d"

def residueMembers (s : PtrResidueSet) : List ℕ := (List.range 16).filter s.residueSet.testBit

def printResidueSet (s : PtrResidueSet) : String :=
  "RESTRICTED " ++ s.numSamples.repr ++ " SAMPLES OVER " ++ (residueMembers s).length.repr ++
    " MEMBERS \x7b " ++
    commas ((residueMembers s).map Nat.repr) ++ " \x7d"

end Module

/-- The order in which a map is iterated, by the addresses of the names. -/
structure MapOrder (κ : Type) where
  sort : List κ → List κ
  perm : ∀ l, (sort l).Perm l

structure MapOrders where
  escapes : MapOrder (Escape Symbol)
  values : MapOrder (CtxValue Symbol)
  leaks : MapOrder Symbol

def MapOrder.iterate {κ σ : Type} [DecidableEq κ] (order : MapOrder κ) (m : List (κ × σ)) : List (κ × σ) :=
  (order.sort (m.map Prod.fst)).filterMap fun k => (m.lookup k).map fun s => (k, s)

structure EventCounts where
  malloc : ℕ
  realloc : ℕ
  free : ℕ
  constant : ℕ
  global : ℕ
  stack : ℕ
  beginFcn : ℕ
  endFcn : ℕ
  beginIter : ℕ
  endIter : ℕ
  fuo : ℕ
  predInt : ℕ
  predPtr : ℕ
  ptrResidue : ℕ
  peakTemporaries : ℕ
  peakPermanents : ℕ
  numSplitConstants : ℕ

namespace Module

variable (M : Module) (order : MapOrders)

def printEventHistogram (evt : EventCounts) : String :=
  "# Event histogram:\n" ++
  "# ---- AU registration\n" ++
  "#  malloc " ++ evt.malloc.repr ++ "\n" ++
  "# realloc " ++ evt.realloc.repr ++ "\n" ++
  "#    free " ++ evt.free.repr ++ "\n" ++
  "#   const " ++ evt.constant.repr ++ "\n" ++
  "#  global " ++ evt.global.repr ++ "\n" ++
  "#   stack " ++ evt.stack.repr ++ "\n" ++
  "# ---- Context manipulation\n" ++
  "#    +fcn " ++ evt.beginFcn.repr ++ "\n" ++
  "#    -fcn " ++ evt.endFcn.repr ++ "\n" ++
  "#   +iter " ++ evt.beginIter.repr ++ "\n" ++
  "#   -iter " ++ evt.endIter.repr ++ "\n" ++
  "# ---- Instrumentation\n" ++
  "#     fuo " ++ evt.fuo.repr ++ "\n" ++
  "#   p int " ++ evt.predInt.repr ++ "\n" ++
  "#   p ptr " ++ evt.predPtr.repr ++ "\n" ++
  "# residue " ++ evt.ptrResidue.repr ++ "\n" ++
  "#\n"

def printLiveObjects (evt : EventCounts) : String :=
  "# Peak temporaries " ++ evt.peakTemporaries.repr ++ "\n" ++
  "# Peak permanents " ++ evt.peakPermanents.repr ++ "\n" ++
  "# Split constants " ++ evt.numSplitConstants.repr ++ "\n"

def printLeaks (leaks : List Symbol) : String :=
  (if leaks = [] then "COMPLETE ALLOCATION INFO ;\n" else "") ++
    String.join ((order.leaks.sort leaks).map fun name => "INCOMPLETE ALLOCATION INFO " ++
      M.text name ++ " ;\n")

def printEscapes (t : Tables Symbol) : String :=
  String.join ((order.escapes.iterate t.escapeFrequencies).map fun e =>
    "ESCAPE OBJECT " ++ M.printAu e.1.1 ++ " ESCAPES " ++ M.printCtx e.1.2 ++ " COUNT " ++
      e.2.repr ++ " ;\n") ++
  String.join (((order.escapes.iterate t.localFrequencies).filter fun e =>
      e.1 ∉ t.escapeFrequencies.map Prod.fst).map fun e =>
    "LOCAL OBJECT " ++ M.printAu e.1.1 ++ " IS LOCAL TO " ++ M.printCtx e.1.2 ++ " COUNT " ++
      e.2.repr ++ " ;\n")

/-- `print_samples`; samples that have been given up stand in a comment. -/
def printSamples {α : Type} (key : String) (printSample : Sample α → String)
    (m : List (CtxValue Symbol × SampleSet α)) :
    String :=
  "# " ++ key ++ " size " ++ m.length.repr ++ "\n" ++
  String.join (((order.values.iterate m).filter fun e => e.2.isWorthPrinting).map fun e =>
    (if e.2.bottom then "#" else "") ++ "PRED " ++ key ++ " " ++ M.text e.1.1 ++ " AT " ++
      M.printCtx e.1.2 ++ " AS " ++
      printSampleSet printSample e.2 ++ " ;\n")

def printResidues (m : List (CtxValue Symbol × PtrResidueSet)) : String :=
  "# residue map size " ++ m.length.repr ++ "\n" ++
  String.join ((order.values.iterate m).map fun e =>
    "PTR RESIDUES " ++ M.text e.1.1 ++ " AT " ++ M.printCtx e.1.2 ++ " AS " ++ printResidueSet e.2 ++ " ;\n")

def print (evt : EventCounts) (t : Tables Symbol) : String :=
  "BEGIN SPEC PRIV PROFILE\n" ++
  printEventHistogram evt ++
  M.printLeaks order t.possibleAllocationLeaks ++
  printLiveObjects evt ++
  M.printEscapes order t ++
  M.printSamples order "INT" printIntSample t.intPredictions ++
  M.printSamples order "PTR" M.printPtrSample t.ptrPredictions ++
  M.printSamples order "OBJ" M.printPtrSample t.objPredictions ++
  M.printResidues order t.ptrResidues ++
  "END SPEC PRIV PROFILE\n"

end Module
end Cpf.Profile
