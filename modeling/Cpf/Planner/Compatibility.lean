import Cpf.Basics.Closure
import Cpf.Graph.Ebk

/-!
# Loops that are planned together

The planner joins two loops by an edge unless one of them may be active while the other is, and
selects a clique of the graph. The functions that a loop calls, directly or not, are collected once
per loop.
-/

namespace Cpf.Planner

/-- A module whose calls are all direct, with the call graph and the loops of its functions. Two loops
are nested or have no block in common. -/
structure Module (F B L : Type) where
  isDeclaration : F → Bool
  getParent : B → F
  entry : F → B
  successors : B → List B
  calls : B → List F
  outgoing : F → List F
  header : L → B
  getBlocks : L → List B
  parent_entry : ∀ f, isDeclaration f = false → getParent (entry f) = f
  parent_successors : ∀ b, ∀ b' ∈ successors b, getParent b' = getParent b
  mem_outgoing : ∀ f g, g ∈ outgoing f ↔ ∃ b, getParent b = f ∧ g ∈ calls b
  header_mem : ∀ l, header l ∈ getBlocks l
  parent_blocks : ∀ l, ∀ b ∈ getBlocks l, getParent b = getParent (header l)
  nested : ∀ l l', l ≠ l' → getBlocks l ⊆ getBlocks l' ∨ getBlocks l' ⊆ getBlocks l ∨
    (getBlocks l).Disjoint (getBlocks l')

variable {F B L : Type}

abbrev LoopToTransCalledFuncs (F L : Type) := L → Option (Finset F)

abbrev Edges := Finset (ℕ × ℕ)

namespace Module

variable (m : Module F B L)

/-- The callees that `getCalledFuns` does not pass over. -/
def defined (fs : List F) : List F := fs.filter fun f => !m.isDeclaration f

def callees (f : F) : List F := m.defined (m.outgoing f)

def function (l : L) : F := m.getParent (m.header l)

def loopCalls (l : L) : List F := m.defined ((m.getBlocks l).flatMap m.calls)

variable [DecidableEq F] [DecidableEq B] [DecidableEq L] (fuel : ℕ)

def getCalledFuns (cgNode : F) (calledFuns : Finset F) : Except Unit (Finset F) :=
  visit m.callees fuel cgNode calledFuns

def transCalledFuncs (l : L) : Except Unit (Finset F) :=
  (m.loopCalls l).foldlM (fun calledFuns cFun => m.getCalledFuns fuel cFun (insert cFun calledFuns)) ∅

def callsFun (l : L) (tgtF : F) (loopTransCallGraph : LoopToTransCalledFuncs F L) :
    Except Unit (Bool × LoopToTransCalledFuncs F L) :=
  match loopTransCallGraph l with
  | some calledFuns => .ok (decide (tgtF ∈ calledFuns), loopTransCallGraph)
  | none => do
      let calledFuns ← m.transCalledFuncs fuel l
      return (decide (tgtF ∈ calledFuns), Function.update loopTransCallGraph l (some calledFuns))

def mustBeSimultaneouslyActive (a b : L) (loopTransCallGraph : LoopToTransCalledFuncs F L) :
    Except Unit (Bool × LoopToTransCalledFuncs F L) :=
  if m.header b ∈ m.getBlocks a ∨ m.header a ∈ m.getBlocks b then .ok (true, loopTransCallGraph)
  else do
    let (calls, loopTransCallGraph) ← m.callsFun fuel a (m.function b) loopTransCallGraph
    if calls then return (true, loopTransCallGraph)
    else m.callsFun fuel b (m.function a) loopTransCallGraph

/-- The inner loop of `computeEdges`: loop `a` with index `i` and the loops behind it, from index `j`
on. -/
def edgesFrom (a : L) (i : ℕ) : List L → ℕ → Edges × LoopToTransCalledFuncs F L →
    Except Unit (Edges × LoopToTransCalledFuncs F L)
  | [], _, st => .ok st
  | b :: rest, j, (edges, loopTransCallGraph) => do
      let (active, loopTransCallGraph) ← m.mustBeSimultaneouslyActive fuel a b loopTransCallGraph
      edgesFrom a i rest (j + 1)
        (if active then edges else insert (j, i) (insert (i, j) edges), loopTransCallGraph)

def allEdges : List L → ℕ → Edges × LoopToTransCalledFuncs F L →
    Except Unit (Edges × LoopToTransCalledFuncs F L)
  | [], _, st => .ok st
  | a :: rest, i, st => do
      let st ← m.edgesFrom fuel a i rest (i + 1) st
      allEdges rest (i + 1) st

def computeEdges (vertices : List L) : Except Unit Edges := do
  let st ← m.allEdges fuel vertices 0 (∅, fun _ => none)
  return st.1

end Module

/-! ### The clique -/

/-- The part of `runOnModule` that selects among the loops with a strategy. -/
def Module.runOnModule [DecidableEq F] [DecidableEq B] [DecidableEq L] (m : Module F B L) (fuel : ℕ)
    (vertices : List L) (scaledweights : List Int64) : Except Unit (List ℕ) := do
  let edges ← m.computeEdges fuel vertices
  let maxClique ← Graph.ebk fuel edges scaledweights []
  return maxClique.best

/-! ### Executions -/

variable (m : Module F B L)

/-- One step of an execution, on the stack of the blocks at which the active functions are. A declared
function has no blocks; while it runs, the call of it may be left by a call back into the module. -/
inductive Step (callsBack : F → F → Prop) : List B → List B → Prop
  | branch {b b' : B} {stack : List B} (h : b' ∈ m.successors b) : Step callsBack (b :: stack) (b' :: stack)
  | call {b : B} {f : F} {stack : List B} (h : f ∈ m.calls b) (hf : m.isDeclaration f = false) :
      Step callsBack (b :: stack) (m.entry f :: b :: stack)
  | callback {b : B} {f g : F} {stack : List B} (h : f ∈ m.calls b) (hf : m.isDeclaration f = true)
      (hback : callsBack f g) (hg : m.isDeclaration g = false) :
      Step callsBack (b :: stack) (m.entry g :: b :: stack)
  | ret {b : B} {stack : List B} : Step callsBack (b :: stack) stack

def Reachable (callsBack : F → F → Prop) (stack : List B) : Prop :=
  ∃ f, m.isDeclaration f = false ∧ Relation.ReflTransGen (Step m callsBack) [m.entry f] stack

/-- The functions that are only declared never call a function of the module back. -/
def NoCallback (callsBack : F → F → Prop) : Prop := ∀ f g, m.isDeclaration f = true → ¬ callsBack f g

def Active (l : L) (stack : List B) : Prop := ∃ b ∈ stack, b ∈ m.getBlocks l

/-- A call inside the loop leads, through zero or more calls, to the function. -/
def Leads (l : L) (g : F) : Prop :=
  ∃ b ∈ m.getBlocks l, ∃ f ∈ m.calls b, m.isDeclaration f = false ∧
    Relation.ReflTransGen (fun f g => g ∈ m.callees f) f g

end Cpf.Planner
