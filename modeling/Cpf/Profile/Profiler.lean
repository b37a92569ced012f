import Cpf.Basics.SwapRemove
import Cpf.Profile.Units

/-!
# The points-to profiler

The profiler follows the contexts of the program: functions and iterations of loops. Every active context
has a list of units; when a context is left, its units are reported as escaping and go to the parent.
The unit of an object that is freed is reported as local to the contexts that contain both its creation
and its end.
-/

namespace Cpf.Profile

variable {Name : Type} [DecidableEq Name]

structure Context (Name : Type) where
  frame : Frame Name
  aus : List (AllocationUnit Name)
  deriving DecidableEq

/-- The profiler; the current context comes first, and `Top` last. -/
structure Profiler (Name : Type) where
  liveObjects : AllocationUnitTable Name
  contexts : List (Context Name)
  escapes : List (Site Name × Ctx Name)
  locals : List (Site Name × Ctx Name)
  next : ℕ

def chain (contexts : List (Context Name)) : Ctx Name := contexts.map Context.frame

def findCommon (a b : Ctx Name) : Ctx Name :=
  let lastGood := ((List.range (min a.length b.length)).takeWhile fun i =>
    a.drop (a.length - (i + 1)) = b.drop (b.length - (i + 1))).length
  a.drop (a.length - lastGood)

namespace Profiler

def reportLocal (p : Profiler Name) (au : AllocationUnit Name) (ctx : Ctx Name) : Profiler Name :=
  { p with locals := p.locals ++ (ctx.tails.filter (· ≠ [])).map fun c => (au.site, c) }

def freeOneStack (p : Profiler Name) (depth i : ℕ) : Except Failure (Profiler Name) :=
  match p.contexts[depth]? with
  | none => .error .badPointer
  | some ctx =>
      match ctx.aus[i]? with
      | none => .error .badPointer
      | some au => do
          let liveObjects ← p.liveObjects.remove au
          let common := findCommon (chain p.contexts) (chain (p.contexts.drop depth))
          let p := { p with liveObjects := liveObjects }.reportLocal au common
          return { p with contexts := p.contexts.set depth { ctx with aus := swapRemove ctx.aus i } }

/-- One context in the first loop of `add_temporary_au`: stack objects with the address are gone. -/
def dropStaleIn (base depth : ℕ) : ℕ → ℕ → Profiler Name → Except Failure (Profiler Name)
  | 0, _, p => .ok p
  | fuel + 1, i, p =>
      match p.contexts[depth]? with
      | none => .error .badPointer
      | some ctx =>
          match ctx.aus[i]? with
          | none => .ok p
          | some old =>
              if old.type = .stack ∧ old.extents.Includes base then do
                let p ← p.freeOneStack depth i
                dropStaleIn base depth fuel i p
              else dropStaleIn base depth fuel (i + 1) p

/-- The first loop of `add_temporary_au`, up to the innermost function. -/
def dropStale (base : ℕ) : ℕ → List (Context Name) → Profiler Name → Except Failure (Profiler Name)
  | _, [], p => .ok p
  | depth, ctx :: rest, p => do
      let p ← dropStaleIn base depth (ctx.aus.length + 1) 0 p
      if ctx.frame.type ≠ .loop then return p else dropStale base (depth + 1) rest p

def addTemporaryAu (p : Profiler Name) (type : AUType) (name : Name) (base size : ℕ) :
    Except Failure (Profiler Name) := do
  let p ← dropStale base 0 p.contexts p
  let au : AllocationUnit Name :=
    { id := p.next, type, reallocShrinkExcess := false, extents := rightOpen base size,
      name := some name, creation := chain p.contexts }
  let (au, liveObjects) ← p.liveObjects.addTemporary au
  let p := { p with liveObjects := liveObjects, next := p.next + 1 }
  match p.contexts with
  | [] => .error .badPointer
  | current :: outer =>
      if current.aus.any fun old => au.site = old.site then return p
      else return { p with contexts := { current with aus := current.aus ++ [au] } :: outer }

def removeFrom (au : AllocationUnit Name) : List (Context Name) → List (Context Name)
  | [] => []
  | ctx :: rest =>
      match ctx.aus.findIdx? fun old => old.id = au.id with
      | some i => { ctx with aus := swapRemove ctx.aus i } :: rest
      | none => ctx :: removeFrom au rest

def freeUnit (p : Profiler Name) (found : Found Name) (isAlloca : Bool) :
    Except Failure (Profiler Name) :=
  match found with
  | .unit au =>
      if au.type ≠ (if isAlloca then .stack else .heap) then .ok p
      else do
        let p := p.reportLocal au (findCommon au.creation (chain p.contexts))
        let liveObjects ← p.liveObjects.remove au
        return { p with liveObjects := liveObjects, contexts := removeFrom au p.contexts }
  | _ => .ok p

def lookup (p : Profiler Name) (ptr : ℕ) : Found Name × Profiler Name :=
  let (found, liveObjects) := p.liveObjects.lookupPointer ptr
  (found, { p with liveObjects := liveObjects })

def malloc (p : Profiler Name) (name : Name) (ptr size : ℕ) : Except Failure (Profiler Name) :=
  p.addTemporaryAu .heap name ptr size

def free (p : Profiler Name) (ptr : ℕ) (isAlloca : Bool) : Except Failure (Profiler Name) :=
  let (found, p) := p.lookup ptr
  p.freeUnit found isAlloca

def reallocOld (p : Profiler Name) (oldPtr newPtr size : ℕ) : Except Failure (Profiler Name) := do
  let (found, p) := p.lookup oldPtr
  let p ← p.freeUnit found false
  match found with
  | .unit au =>
      let oldSize := au.extents.high - au.extents.low
      if oldPtr = newPtr ∧ 0 < size ∧ size < oldSize then
        let excess :=
          { au with
            id := p.next
            type := .heap
            reallocShrinkExcess := true
            extents := rightOpen (size + oldPtr) (oldSize - size) }
        let (_, liveObjects) ← p.liveObjects.addTemporary excess
        return { p with liveObjects := liveObjects, next := p.next + 1 }
      else return p
  | _ => return p

def realloc (p : Profiler Name) (name : Name) (oldPtr newPtr size : ℕ) :
    Except Failure (Profiler Name) := do
  let p ← if oldPtr ≠ 0 then p.reallocOld oldPtr newPtr size else .ok p
  if size ≠ 0 then p.malloc name newPtr size else return p

def reportConstant (p : Profiler Name) (name : Name) (base size : ℕ) :
    Except Failure (Profiler Name) := do
  let liveObjects ← p.liveObjects.addPermanent
    { id := p.next, type := .constant, reallocShrinkExcess := false, extents := rightOpen base size,
      name := some name, creation := chain p.contexts }
  return { p with liveObjects := liveObjects, next := p.next + 1 }

def reportStack (p : Profiler Name) (name : Name) (base arraySize eltSize : ℕ) :
    Except Failure (Profiler Name) :=
  p.addTemporaryAu .stack name base ((if arraySize = 0 then 1 else arraySize) * eltSize % 2 ^ 64)

def enterCtx (p : Profiler Name) (type : CtxType) (name : Name) : Profiler Name :=
  { p with contexts := ⟨⟨type, some name⟩, []⟩ :: p.contexts }

def exitCtx (p : Profiler Name) (type : CtxType) : Except Failure (Profiler Name) :=
  match p.contexts with
  | current :: parent :: outer =>
      if current.frame.type ≠ type then .error .assertion
      else .ok
        { p with
          escapes := p.escapes ++ current.aus.map fun au => (au.site, chain p.contexts)
          contexts := { parent with aus := parent.aus ++ current.aus } :: outer }
  | _ => .error .badPointer

def freeStacks : ℕ → Profiler Name → Except Failure (Profiler Name)
  | 0, p => .ok p
  | i + 1, p =>
      match p.contexts with
      | [] => .error .badPointer
      | current :: _ =>
          match current.aus[i]? with
          | none => .error .badPointer
          | some au =>
              if au.type = .stack ∧ innermostFunction au.creation = chain p.contexts then do
                let p ← p.freeOneStack 0 i
                freeStacks i p
              else freeStacks i p

def endFunction (p : Profiler Name) : Except Failure (Profiler Name) :=
  match p.contexts with
  | [] => .error .badPointer
  | current :: _ => do
      let p ← freeStacks current.aus.length p
      p.exitCtx .function

def endIter (p : Profiler Name) : Except Failure (Profiler Name) := p.exitCtx .loop

/-- What `end` does in the context `Top`; before that it returns from the active contexts. -/
def finish (p : Profiler Name) : Except Failure (Profiler Name) :=
  match p.contexts with
  | [top] =>
      if top.frame.type ≠ .top then .error .assertion
      else .ok
        { p with
          escapes := p.escapes ++ ((top.aus.filter fun au => au.type ≠ .global ∧ au.type ≠ .constant).map
            fun au => (au.site, chain p.contexts))
          contexts := [{ top with aus := [] }] }
  | _ => .error .assertion

/-- The profile has a line that says that the objects of the site are local to the context. -/
def PrintsLocal (p : Profiler Name) (site : Site Name) (ctx : Ctx Name) : Prop :=
  (site, ctx) ∈ p.locals ∧ (site, ctx) ∉ p.escapes

/-- The profile has a line that says that objects of the site escape the context. -/
def PrintsEscape (p : Profiler Name) (site : Site Name) (ctx : Ctx Name) : Prop :=
  (site, ctx) ∈ p.escapes

def initial : Profiler Name where
  liveObjects := ⟨[], [], none⟩
  contexts := [⟨⟨.top, none⟩, []⟩]
  escapes := []
  locals := []
  next := 0

end Profiler

inductive Event (Name : Type)
  | malloc (name : Name) (ptr size : ℕ)
  | realloc (name : Name) (oldPtr newPtr size : ℕ)
  | free (ptr : ℕ) (isAlloca : Bool)
  | constant (name : Name) (base size : ℕ)
  | stack (name : Name) (base arraySize eltSize : ℕ)
  | beginFunction (name : Name)
  | endFunction
  | beginIter (name : Name)
  | endIter
  | lookup (ptr : ℕ)
  deriving DecidableEq

def Profiler.step (p : Profiler Name) : Event Name → Except Failure (Profiler Name)
  | .malloc name ptr size => p.malloc name ptr size
  | .realloc name oldPtr newPtr size => p.realloc name oldPtr newPtr size
  | .free ptr isAlloca => p.free ptr isAlloca
  | .constant name base size => p.reportConstant name base size
  | .stack name base arraySize eltSize => p.reportStack name base arraySize eltSize
  | .beginFunction name => .ok (p.enterCtx .function name)
  | .endFunction => p.endFunction
  | .beginIter name => .ok (p.enterCtx .loop name)
  | .endIter => p.endIter
  | .lookup ptr => .ok (p.lookup ptr).2

end Cpf.Profile
