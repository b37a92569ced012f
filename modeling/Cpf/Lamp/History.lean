import Cpf.Lamp.Hooks

/-!
# What the memory profile stands for

A history numbers the events of a run. It knows the last store of each byte, the loops that are active with
the numbers of their events, and the dependences that occurred, each with the iteration of the loop it belongs
to. It knows nothing of time stamps, pages or keys.
-/

namespace Cpf.Lamp

/-- An invocation of a loop: the numbers of the event that entered it, of those that began its iterations and of
the last of these events. -/
structure Active where
  loop : UInt16
  entered : ℕ
  iterations : List ℕ
  began : ℕ

/-- A load of a byte that a store wrote. `loop` is the loop the dependence belongs to, `carried` tells if one of
its iterations began in between, and `began` is the number of the event that began its current iteration. -/
structure Occurrence where
  load : ℕ
  store : ℕ
  loop : UInt16
  carried : Bool
  began : ℕ
  deriving DecidableEq

def Occurrence.key (o : Occurrence) : Key :=
  ⟨o.load, if o.carried then 1 else 0, o.store % 2 ^ 22, o.loop.toNat % 2 ^ 10⟩

/-- `iterations` are the events that began an iteration of any loop, and `begun` the loops of these. -/
structure History where
  clock : ℕ
  externalCallId : ℕ
  lastStore : UInt64 → Option (ℕ × ℕ)
  depth : ℕ
  active : ℕ → Active
  iterations : List ℕ
  begun : List UInt16
  found : Finset Occurrence

namespace History

def init : History := ⟨1, 0, fun _ => none, 0, fun _ => ⟨0, 0, [], 0⟩, [], [], ∅⟩

variable (h : History)

/-- The depth of the innermost active loop in which an iteration began before the store, where an iteration of
an inner loop counts too. Without one the store belongs to the program. -/
def level (m : ℕ) : ℕ := Nat.findGreatest (fun d => ∃ k ∈ h.iterations, (h.active d).entered < k ∧
    k < m) h.depth

def occurrence (load : ℕ) (store : ℕ × ℕ) : Occurrence :=
  let loop := h.active (h.level store.2)
  ⟨load, store.1, loop.loop, decide (∃ k ∈ loop.iterations, store.2 < k), loop.began⟩

def loadBytes (load : ℕ) (addrs : List UInt64) : History :=
  { h with found := h.found ∪ ((addrs.filterMap h.lastStore).map (h.occurrence load)).toFinset }

def storeBytes (store : ℕ) (addrs : List UInt64) : History :=
  { h with lastStore := fun addr => if addr ∈ addrs then some (store, h.clock) else h.lastStore addr }

def forgetBytes (addrs : List UInt64) : History :=
  { h with lastStore := fun addr => if addr ∈ addrs then none else h.lastStore addr }

def apply : Event → History
  | .load w instr addr => h.loadBytes instr (State.bytes addr w.bytes)
  | .store w instr addr silent => if silent then h else h.storeBytes instr (State.bytes addr w.bytes)
  | .allocate addr size => h.forgetBytes (State.bytes addr size)
  | .deallocate _ addr size => h.forgetBytes (State.bytes addr size)
  | .externalLoad addr size => h.loadBytes h.externalCallId (State.bytes addr size)
  | .externalStore addr size => h.storeBytes h.externalCallId (State.bytes addr size)
  | .externalDeallocate addr size => h.forgetBytes (State.bytes addr size)
  | .register id => { h with externalCallId := id }
  | .loopInvocation loop => { h with
      depth := h.depth + 1
      active := Function.update h.active (h.depth + 1) ⟨loop, h.clock, [], h.clock⟩ }
  | .loopIterationBegin =>
      let current := h.active h.depth
      { h with
        active := Function.update h.active h.depth { current with
          iterations := h.clock :: current.iterations
          began := h.clock }
        iterations := h.clock :: h.iterations
        begun := current.loop :: h.begun }
  | .loopIterationEnd => h
  | .loopExit => { h with depth := h.depth - 1 }

def step (e : Event) : History := { h.apply e with clock := h.clock + 1 }

/-- What the profiler relies on: instructions and loops that it was told of, fewer iterations than fit in a time
stamp, a bound on the depth, and no exit without an active loop. -/
def Permits (cfg : Config) : Event → Prop
  | .load _ instr _ => instr < cfg.numInstrs
  | .store _ instr _ _ => instr < cfg.numInstrs
  | .deallocate instr _ _ => instr < cfg.numInstrs
  | .externalLoad _ _ | .externalStore _ _ | .externalDeallocate _ _ => h.externalCallId < cfg.numInstrs
  | .loopInvocation loop => h.depth + 1 < maxLoopDepth ∧ loop.toNat ≤ cfg.numLoops
  | .loopIterationBegin => h.iterations.length + 2 ≤ timeStampMax
  | .loopExit => 0 < h.depth
  | _ => True

end History

end Cpf.Lamp
