import Cpf.Basics.RingIndex
import Cpf.Basics.Postdominance
import Mathlib.Data.Finset.Basic

/-!
# The code of a stage

`copyInstructions` gives a pipeline stage a function of its own. The blocks of the loop that are relevant to
the stage are cloned; a clone consumes values from earlier stages, has copies of the stage's instructions and
produces values to later stages. A branch to a block without a clone is sent to the closest relevant
post-dominator.
-/

namespace Cpf.CodeGen

/-- `ControlSpeculation::LoopBlock`: a block of one iteration, or what comes before and after the iteration. -/
inductive LoopBlock (β : Type*)
  | beforeIteration
  | block (b : β)
  | loopContinue
  | loopExit (b : β)
  deriving DecidableEq

variable {β ι : Type*} [DecidableEq β]

namespace LoopBlock

def isAfterIteration : LoopBlock β → Bool
  | loopContinue | loopExit _ => true
  | beforeIteration | block _ => false

def getBlock : LoopBlock β → Option β
  | block b | loopExit b => some b
  | beforeIteration | loopContinue => none

end LoopBlock

/-- A loop. `succs` are the successors of a terminator; `isSpeculativelyDead` says which of its edges are never
taken, `isCritEdge` that the block's name ends with `crit_edge`. -/
structure Loop (β ι : Type*) where
  header : β
  blocks : List β
  code : β → List ι
  terminator : β → ι
  isPhi : ι → Bool
  succs : β → List β
  isSpeculativelyDead : β → ℕ → Bool
  isCritEdge : β → Bool

def Loop.liveSuccs (L : Loop β ι) (b : β) : List β :=
  ((L.succs b).zipIdx.filter fun edge => !L.isSpeculativelyDead b edge.2).map Prod.fst

/-- What is known of a stage: its instructions, where it consumes a value from and where it produces it to, each
with the flag for replicated stages, and its relevant blocks. -/
structure StagePlan (β ι : Type*) where
  insts : Finset ι
  cons : ι → Option (ℕ × Bool)
  prods : ι → List (ℕ × Bool)
  rel : Finset β

/-- A block of the new function; `exit` is the block that ends the worker. -/
inductive Node (β : Type*)
  | preheader
  | clone (b : β)
  | exit (b : β)
  deriving DecidableEq

inductive Op (ι : Type*)
  | consume (stage : ℕ) (inst : ι) (replicated : Bool)
  | copy (inst : ι)
  | produce (stage : ℕ) (inst : ι) (replicated : Bool)
  deriving DecidableEq

inductive Terminator (β : Type*)
  | branch (targets : List (Option (Node β)))
  | jump (target : Node β)
  deriving DecidableEq

def performed (ops : List (Op ι)) : List ι :=
  ops.filterMap fun op => match op with
    | .consume _ i _ | .copy i => some i
    | .produce _ _ _ => none

/-- A stage of a loop, with the immediate post-dominators of the loop. -/
structure StageOf (β ι : Type*) where
  loop : Loop β ι
  plan : StagePlan β ι
  ipdom : LoopBlock β → LoopBlock β

namespace StageOf

variable (S : StageOf β ι)

/-! ### The clone of a block -/

variable [DecidableEq ι] in
/-- One instruction of a block: its value is consumed, or it is copied and its value is produced. -/
def cloneInst (body : List (Op ι)) (i : ι) : List (Op ι) :=
  match S.plan.cons i with
  | some (stage, replicated) => body ++ [.consume stage i replicated]
  | none =>
      if i ∈ S.plan.insts then
        (if S.loop.isPhi i then .copy i :: body else body ++ [.copy i]) ++
          (S.plan.prods i).map fun endPoint => .produce endPoint.1 i endPoint.2
      else body

variable [DecidableEq ι] in
def cloneBody (b : β) : List (Op ι) := (S.loop.code b).foldl S.cloneInst []

def copiesTerminator (b : β) : Prop :=
  S.plan.cons (S.loop.terminator b) = none ∧ S.loop.terminator b ∈ S.plan.insts

instance [DecidableEq ι] (b : β) : Decidable (S.copiesTerminator b) :=
  inferInstanceAs (Decidable (_ ∧ _))

/-! ### Where the branches go -/

/-- `closestRelevantPostdom`: it is invalid when the post-dominators end in a cycle; `fuel` bounds their
number. -/
def closestRelevantPostdomFrom : ℕ → LoopBlock β → Option (LoopBlock β)
  | 0, _ => none
  | fuel + 1, iter =>
      if iter.isAfterIteration ∨ ∃ b ∈ iter.getBlock, b ∈ S.plan.rel then some iter
      else if S.ipdom iter = iter then none
      else closestRelevantPostdomFrom fuel (S.ipdom iter)

def closestRelevantPostdom (b : β) : Option (LoopBlock β) :=
  S.closestRelevantPostdomFrom (S.loop.blocks.length + 1) (.block b)

/-- A block other than the header that is split off its edge back to the header. -/
def isHeaderCritEdge (b : β) : Prop :=
  b ∈ S.loop.succs S.loop.header ∧ (S.loop.succs b).length = 1 ∧ S.loop.isCritEdge b = true

instance (b : β) : Decidable (S.isHeaderCritEdge b) := inferInstanceAs (Decidable (_ ∧ _ ∧ _))

/-- The header's entry in the map of the blocks. Looking up a header without a clone makes a null entry. -/
def headerEntry : Option (Node β) := if S.loop.header ∈ S.plan.rel then some (.clone S.loop.header) else none

/-- The entry of a block in the map; `some none` is a null entry. The blocks that branch to the header are
mapped when the clones and the exits are there. -/
def vmap (b : β) : Option (Option (Node β)) :=
  if b ∈ S.plan.rel then some (some (.clone b))
  else if b ∉ S.loop.blocks then some (some (.exit b))
  else if b = S.loop.header ∧ ∃ c ∈ S.loop.blocks, c ∉ S.plan.rel ∧ S.loop.header ∈ S.loop.succs c ∧
    S.isHeaderCritEdge c
    then some none
  else if S.loop.header ∈ S.loop.succs b then
    if S.isHeaderCritEdge b then some S.headerEntry else some (some .preheader)
  else none

def iterationBegin : Option β :=
  match S.closestRelevantPostdom S.loop.header with
  | none => none
  | some first => if first.isAfterIteration then some S.loop.header else first.getBlock

/-- Where the new preheader branches to. -/
def entry : Option (Node β) := S.iterationBegin.bind fun b => (S.vmap b).join

/-- The operand of a new branch in place of the block `b`. -/
def fixTarget (b : β) : Option (Node β) :=
  match S.vmap b with
  | some node => node
  | none =>
      match S.closestRelevantPostdom b with
      | none => none
      | some .loopContinue => S.entry
      | some target => target.getBlock.bind fun c => (S.vmap c).join

/-- The loop that looks for the only closest relevant post-dominator of a terminator. -/
def uniqueDst (dst : Option β) (crpd : LoopBlock β) : Option (Option β) :=
  match dst with
  | none =>
      if crpd = .loopContinue then if S.loop.header ∈ S.plan.rel then some (some S.loop.header) else none
      else some crpd.getBlock
  | some b =>
      if crpd.getBlock = some b then some (some b)
      else if crpd = .loopContinue ∧ b = S.loop.header then some (some b)
      else none

/-- The block that a clone without a terminator branches to. -/
def defaultBranch (b : β) : Option β :=
  ((S.loop.liveSuccs b).foldlM (fun dst c => (S.closestRelevantPostdom c).bind (S.uniqueDst dst)) none).join

variable [DecidableEq ι]

def terminatorOf (b : β) : Option (Terminator β) :=
  if S.copiesTerminator b then some (.branch ((S.loop.succs b).map S.fixTarget))
  else ((S.defaultBranch b).bind S.fixTarget).map .jump

/-! ### Running the stage -/

/-- Runs the new function from a node; a copied branch takes the next of the outcomes. The result has the blocks
whose clones were run, and the exit. -/
def run : ℕ → Node β → List ℕ → Option (List β × β)
  | 0, _, _ => none
  | _ + 1, .exit b, _ => some ([], b)
  | fuel + 1, .preheader, outcomes => S.entry.bind fun node => run fuel node outcomes
  | fuel + 1, .clone b, outcomes =>
      match S.terminatorOf b with
      | none => none
      | some (.jump node) => (run fuel node outcomes).map fun rest => (b :: rest.1, rest.2)
      | some (.branch targets) =>
          match outcomes with
          | [] => none
          | outcome :: outcomes =>
              (targets[outcome]?).join.bind fun node => (run fuel node outcomes).map
                fun rest => (b :: rest.1, rest.2)

end StageOf

/-! ### Running the loop -/

/-- The loop runs from a block, with the edges that it takes, until it leaves for the block `e`. -/
inductive LoopExec (L : Loop β ι) : β → List (β × ℕ) → β → Prop
  | exit {b e : β} {sn : ℕ} : b ∈ L.blocks → (L.succs b)[sn]? = some e → L.isSpeculativelyDead b sn = false →
      e ∉ L.blocks → LoopExec L b [(b, sn)] e
  | step {b c e : β} {sn : ℕ} {t : List (β × ℕ)} : b ∈ L.blocks → (L.succs b)[sn]? = some c →
      L.isSpeculativelyDead b sn = false → c ∈ L.blocks → LoopExec L c t e → LoopExec L b ((b, sn) :: t) e

namespace StageOf

variable [DecidableEq ι] (S : StageOf β ι)

def outcomes (t : List (β × ℕ)) : List ℕ :=
  t.filterMap fun edge => if S.copiesTerminator edge.1 then some edge.2 else none

def relevant (t : List (β × ℕ)) : List β := (t.map Prod.fst).filter (· ∈ S.plan.rel)

def opsOf (bs : List β) : List (Op ι) := bs.flatMap S.cloneBody

/-- The instruction has a place in the stage: its value is consumed or it is copied. -/
def Has (i : ι) : Prop := i ∈ S.plan.insts ∨ (S.plan.cons i).isSome = true

instance (i : ι) : Decidable (S.Has i) := inferInstanceAs (Decidable (_ ∨ _))

end StageOf

end Cpf.CodeGen
