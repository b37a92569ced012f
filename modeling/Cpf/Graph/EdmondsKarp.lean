import Cpf.Basics.Iterate
import Mathlib.Data.List.Sort

/-!
# Edmonds and Karp's maximum flow

`computeMinCut` finds a maximum flow by breadth-first search for augmenting paths, and then the
vertices at the edges between the part of the residual graph that is reached from the source and
the rest. Loops that the code runs until nothing is left to do get a fuel here; `none` of a map
stands for an absent key.
-/

namespace Cpf.Graph

def infinity : UInt64 := 0xffffffffffffffff

def source : ℕ := 0

def sink : ℕ := 1

/-- The adjacency lists and the capacities of a network. `verts` are the keys of the map of
adjacency lists, in order. -/
structure Network where
  verts : List ℕ
  adj : ℕ → List ℕ
  cap : ℕ → ℕ → Option UInt64

namespace Network

def empty : Network := ⟨[], fun _ => [], fun _ _ => none⟩

def addEdge (g : Network) (u w : ℕ) (c : UInt64) : Network where
  verts := if u ∈ g.verts then g.verts else g.verts.orderedInsert (· ≤ ·) u
  adj := Function.update g.adj u (g.adj u ++ [w])
  cap := Function.update g.cap u (Function.update (g.cap u) w (some c))

def revAdj (g : Network) (v : ℕ) : List ℕ :=
  g.verts.flatMap fun u => (g.adj u).filterMap fun w => if w = v then some u else none

def rem (g : Network) (used : ℕ → ℕ → UInt64) (v w : ℕ) : UInt64 :=
  let totalCapacity := (g.cap v w).getD 0
  if totalCapacity = infinity then infinity else totalCapacity - used v w

end Network

/-- The state of `bfsFindAugmentingPath`; `found` holds its result once the sink is reached. -/
structure Bfs where
  preds : ℕ → Option ℕ
  fringe : List (ℕ × UInt64)
  found : Option UInt64

namespace Bfs

/-- The body of the loop over `adj[v]`. -/
def visit (g : Network) (used : ℕ → ℕ → UInt64) (v : ℕ) (flow : UInt64) (b : Bfs) (w : ℕ) : Bfs :=
  let rem := g.rem used v w
  if b.found = none ∧ 0 < rem ∧ b.preds w = none then
    let preds := Function.update b.preds w (some v)
    if w = sink then { b with preds := preds, found := some (min flow rem) }
    else { b with preds := preds, fringe := b.fringe ++ [(w, min flow rem)] }
  else b

/-- The body of the loop over `revAdj[v]`. -/
def visitReverse (used : ℕ → ℕ → UInt64) (v : ℕ) (flow : UInt64) (b : Bfs) (u : ℕ) : Bfs :=
  let rem := used u v
  if b.found = none ∧ 0 < rem ∧ b.preds u = none then
    { b with
      preds := Function.update b.preds u (some v)
      fringe := b.fringe ++ [(u, min flow rem)] }
  else b

def step (g : Network) (used : ℕ → ℕ → UInt64) (b : Bfs) : Except Unit (Option Bfs) :=
  match b.found, b.fringe with
  | none, (v, flow) :: fringe =>
      let b := (g.adj v).foldl (visit g used v flow) { b with fringe := fringe }
      .ok (some ((g.revAdj v).foldl (visitReverse used v flow) b))
  | _, _ => .ok none

def init : Bfs := ⟨Function.update (fun _ => none) source (some source), [(source, infinity)], none⟩

end Bfs

/-- `bfsFindAugmentingPath`: the amount that fits, 0 if there is no path, and the predecessors. -/
def bfsFindAugmentingPath (fuel : ℕ) (g : Network) (used : ℕ → ℕ → UInt64) :
    Except Unit (UInt64 × (ℕ → Option ℕ)) := do
  let b ← iterate () (Bfs.step g used) fuel Bfs.init
  return (b.found.getD 0, b.preds)

def setFlow (flow : ℕ → ℕ → UInt64) (u w : ℕ) (x : UInt64) : ℕ → ℕ → UInt64 :=
  fun v v' => if v = u ∧ v' = w then x else flow v v'

/-- The update of the flow at one step of the path from the sink back to the source. -/
def augmentEdge (g : Network) (additional : UInt64) (flow : ℕ → ℕ → UInt64) (u w : ℕ) :
    ℕ → ℕ → UInt64 :=
  let flow := if g.cap u w = none then setFlow flow u w 0 else flow
  let flow := if g.cap w u = none then setFlow flow w u 0 else flow
  let flow := setFlow flow u w (flow u w + additional)
  setFlow flow w u (flow w u - additional)

/-- One step of the walk along the predecessors; `parents[w]` of an absent key is 0. -/
def augmentStep (g : Network) (parents : ℕ → Option ℕ) (additional : UInt64)
    (p : ℕ × (ℕ → ℕ → UInt64)) : Except Unit (Option (ℕ × (ℕ → ℕ → UInt64))) :=
  if p.1 = source then .ok none
  else
    let u := (parents p.1).getD 0
    .ok (some (u, augmentEdge g additional p.2 u p.1))

def maxFlowStep (fuel : ℕ) (g : Network) (flow : ℕ → ℕ → UInt64) :
    Except Unit (Option (ℕ → ℕ → UInt64)) := do
  let (additional, parents) ← bfsFindAugmentingPath fuel g flow
  if additional = 0 then return none
  let p ← iterate () (augmentStep g parents additional) fuel (sink, flow)
  return some p.2

def maxFlowEdmondsKarp (fuel : ℕ) (g : Network) : Except Unit (ℕ → ℕ → UInt64) :=
  iterate () (maxFlowStep fuel g) fuel (fun _ _ => 0)

/-- The search of `computeMinCut` in the residual graph. -/
structure Reach where
  reachable : List ℕ
  fringe : List ℕ

namespace Reach

def visit (r : Reach) (w : ℕ) (residual : UInt64) : Reach :=
  if w ∉ r.reachable ∧ 0 < residual then ⟨w :: r.reachable, r.fringe ++ [w]⟩ else r

def step (g : Network) (flow : ℕ → ℕ → UInt64) (r : Reach) : Except Unit (Option Reach) :=
  match r.fringe with
  | [] => .ok none
  | v :: fringe =>
      let r := (g.adj v).foldl (fun r w => r.visit w (g.rem flow v w)) ⟨r.reachable, fringe⟩
      .ok (some ((g.revAdj v).foldl (fun r u => r.visit u (flow u v)) r))

end Reach

def computeMinCut (fuel : ℕ) (g : Network) : Except Unit (List ℕ) := do
  let flow ← maxFlowEdmondsKarp fuel g
  let r ← iterate () (Reach.step g flow) fuel ⟨[source], [source]⟩
  return g.verts.flatMap fun v => (g.adj v).flatMap fun w =>
    if (v ∈ r.reachable ∧ w ∉ r.reachable) ∨ (v ∉ r.reachable ∧ w ∈ r.reachable) then [v, w] else []

end Cpf.Graph
