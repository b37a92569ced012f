import Cpf.Lamp.MemoryMap
import Cpf.Slamp.Hooks

/-!
# Hooks of the memory profiler

The instrumented program calls a hook at every loop event, load, store and allocation. A store marks its bytes
with its instruction and the time, which advances with every iteration of a loop. A load finds the marks of
its bytes, attributes each to one of the active loops by its time, and counts the dependence in the profile.
Wherever the profiler aborts or a vector is read out of its bounds there is no next state.
-/

namespace Cpf.Lamp
open Slamp (Width)

structure Config where
  numInstrs : ℕ
  numLoops : ℕ

structure Timestamp where
  instr : ℕ
  timestamp : ℕ
  deriving DecidableEq, Inhabited

def timeStampMax : ℕ := 2 ^ 44 - 1

def instrMax : ℕ := 2 ^ 20 - 1

def formTimestamp (instr timestamp : ℕ) : Option Timestamp :=
  if timestamp ≤ timeStampMax ∧ instr ≤ instrMax then some ⟨instr, timestamp⟩ else none

structure Dependence where
  store : ℕ
  loop : ℕ
  dist : ℕ
  load : ℕ
  deriving DecidableEq

/-- Where the profile counts a dependence; `ls_key_t` has 22 bits for the store and 10 for the loop. -/
structure Key where
  load : ℕ
  dist : ℕ
  store : ℕ
  loop : ℕ
  deriving DecidableEq

structure MemoryProfile where
  totalCount : ℕ
  loopCount : ℕ

def maxDepDist : ℕ := 2

def trackedDistance (dist : ℕ) : ℕ := if maxDepDist ≤ dist then maxDepDist - 1 else dist

def Dependence.key (dep : Dependence) : Key :=
  ⟨dep.load, trackedDistance dep.dist, dep.store % 2 ^ 22, dep.loop % 2 ^ 10⟩

/-! ### Active loops -/

/-- The time stamps of the iterations are kept with the newest first. -/
structure LoopInfo where
  iterationTimeStamps : List ℕ
  invocationTimeStamp : ℕ
  loopId : UInt16
  dependenceSets : ℕ → Finset Dependence

namespace LoopInfo

def reset (info : LoopInfo) (loop : UInt16) (timeStamp : ℕ) : LoopInfo :=
  { info with loopId := loop, invocationTimeStamp := timeStamp, iterationTimeStamps := [] }

/-- A full `circular_buffer` drops its oldest element. -/
def iteration (info : LoopInfo) (timeStamp : ℕ) : LoopInfo :=
  { info with iterationTimeStamps := (timeStamp :: info.iterationTimeStamps).take maxDepDist }

def initializeSets (info : LoopInfo) : LoopInfo := { info with dependenceSets := fun _ => ∅ }

def insert (info : LoopInfo) (dep : Dependence) : LoopInfo :=
  { info with dependenceSets :=
      Function.update info.dependenceSets dep.dist (Insert.insert dep (info.dependenceSets dep.dist)) }

def calculateDistance (info : LoopInfo) (storeTimeStamp : ℕ) : ℕ :=
  (info.iterationTimeStamps.takeWhile fun t => storeTimeStamp < t).length

end LoopInfo

def maxLoopDepth : ℕ := 1048576

/-- `LoopHierarchy`; the loop at depth 0 stands for the program. -/
structure LoopHierarchy where
  currentDepth : ℕ
  loopInfo : ℕ → LoopInfo

namespace LoopHierarchy

variable (loops : LoopHierarchy)

def init : LoopHierarchy := ⟨0, fun _ => ⟨[], 0, 0, fun _ => ∅⟩⟩

def update (d : ℕ) (info : LoopInfo) : LoopHierarchy :=
  { loops with loopInfo := Function.update loops.loopInfo d info }

def getCurrentLoop : LoopInfo := loops.loopInfo loops.currentDepth

def setCurrentLoop (info : LoopInfo) : LoopHierarchy := loops.update loops.currentDepth info

def enterLoop (loop : UInt16) (timeStamp : ℕ) : Option LoopHierarchy :=
  let loops := { loops with currentDepth := loops.currentDepth + 1 }
  if loops.currentDepth < maxLoopDepth then
    some (loops.setCurrentLoop (loops.getCurrentLoop.reset loop timeStamp))
  else none

/-- `exitLoop`; without an active loop the depth wraps around. -/
def exitLoop : Option LoopHierarchy :=
  if 0 < loops.currentDepth then some { loops with currentDepth := loops.currentDepth - 1 } else none

def findFrom (storeTimeStamp : ℕ) : ℕ → ℕ
  | 0 => 0
  | d + 1 => if (loops.loopInfo (d + 1)).invocationTimeStamp < storeTimeStamp then d +
    1 else findFrom storeTimeStamp d

def findLoop (storeTimeStamp : ℕ) : Option ℕ :=
  if storeTimeStamp = 0 then some 0
  else
    let d := loops.findFrom storeTimeStamp loops.currentDepth
    if d = 0 ∧ storeTimeStamp < (loops.loopInfo 0).invocationTimeStamp then none else some d

end LoopHierarchy

/-! ### The state of the profiler -/

structure State where
  timeStamp : ℕ
  externalCallId : ℕ
  shadow : Shadow Timestamp
  loops : LoopHierarchy
  iterationCount : ℕ → ℕ
  profile : Key → MemoryProfile

namespace State

/-- `LAMP_init`: the program's first iteration has time stamp 0. -/
def init : State where
  timeStamp := 1
  externalCallId := 0
  shadow := .init
  loops := LoopHierarchy.init.setCurrentLoop (LoopHierarchy.init.getCurrentLoop.iteration 0)
  iterationCount := Function.update (fun _ => 0) 0 1
  profile := fun _ => ⟨0, 0⟩

variable (cfg : Config) (s : State)

/-- The part of `memory_profile` for the mark of a byte. -/
def record (load : ℕ) (value : Timestamp) : Option State := do
  let d ← s.loops.findLoop value.timestamp
  let loop := s.loops.loopInfo d
  let dep : Dependence :=
  ⟨value.instr, loop.loopId.toNat, trackedDistance (loop.calculateDistance value.timestamp), load⟩
  if cfg.numInstrs ≤ load then none
  else
    let profile := s.profile dep.key
    if dep ∈ loop.dependenceSets dep.dist then
      some { s with profile := Function.update s.profile dep.key { profile with totalCount :=
      profile.totalCount + 1 } }
    else
      some { s with
        profile := Function.update s.profile dep.key ⟨profile.totalCount + 1, profile.loopCount + 1⟩
        loops := s.loops.update d (loop.insert dep) }

/-- The loop of `memory_profile` over the bytes; a mark like the last one is passed over. -/
def memoryProfile (load : ℕ) : List UInt64 → Option Timestamp → State → Option State
  | [], _, s => some s
  | addr :: addrs, lastStore, s => do
      match ← s.shadow.getItem load addr with
      | none => memoryProfile load addrs lastStore s
      | some value =>
          if lastStore = some value then memoryProfile load addrs lastStore s
          else
            let s ← s.record cfg load value
            memoryProfile load addrs (some value) s

def bytes (addr : UInt64) (size : ℕ) : List UInt64 := (List.range size).map fun i => addr + UInt64.ofNat i

def touch (instr : ℕ) (addr : UInt64) : Option State := do
  if cfg.numInstrs ≤ instr then none
  else
    let shadow ← s.shadow.setStampPage instr addr
    pure { s with shadow := shadow }

def alignedLoad (instr : ℕ) (addr : UInt64) (size : ℕ) : Option State := do
  let s ← s.touch cfg instr addr
  memoryProfile cfg instr (bytes addr size) none s

def unalignedLoad (instr : ℕ) (addr : UInt64) (size : ℕ) : Option State :=
  (bytes addr size).foldlM (fun s addr => s.alignedLoad cfg instr addr 1) s

def load (w : Width) (instr : ℕ) (addr : UInt64) : Option State :=
  if addr.toNat % w.bytes ≠ 0 then s.unalignedLoad cfg instr addr w.bytes else s.alignedLoad cfg instr
    addr w.bytes

/-- `pages.getStampPage()->setItem`. -/
def setItem (instr : ℕ) (value : Timestamp) (addr : UInt64) : Option State := do
  let shadow ← s.shadow.setItem instr addr value
  pure { s with shadow := shadow }

def alignedStore (instr : ℕ) (addr : UInt64) (size : ℕ) : Option State := do
  let s ← s.touch cfg instr addr
  let value ← formTimestamp instr s.timeStamp
  (bytes addr size).foldlM (fun s addr => s.setItem instr value addr) s

/-- `LAMP_aligned_store<uint8_t>` of each byte, as in `LAMP_unaligned_store`. -/
def storeEach (instr : ℕ) (addr : UInt64) (size : ℕ) : Option State :=
  (bytes addr size).foldlM (fun s addr => s.alignedStore cfg instr addr 1) s

/-- `LAMP_store<T>`; `silent` is what `is_silent_store` gives. -/
def store (w : Width) (instr : ℕ) (addr : UInt64) (silent : Bool) : Option State :=
  if silent then some s
  else if addr.toNat % w.bytes ≠ 0 then s.storeEach cfg instr addr w.bytes
  else s.alignedStore cfg instr addr w.bytes

/-- `invalidate_region`, which is all that `LAMP_allocate` does. -/
def invalidateRegion (addr : UInt64) (size : ℕ) : Option State :=
  (bytes addr size).foldlM (fun s addr => (s.shadow.setInvalid addr).map fun shadow => { s with shadow :=
    shadow }) s

def deallocate (instr : ℕ) (addr : UInt64) (size : ℕ) : Option State := do
  let s ← s.storeEach cfg instr addr size
  s.invalidateRegion addr size

def externalLoad (addr : UInt64) (size : ℕ) : Option State :=
  (bytes addr size).foldlM (fun s addr => s.load cfg .one s.externalCallId addr) s

def loopInvocation (loop : UInt16) : Option State := do
  let loops ← s.loops.enterLoop loop s.timeStamp
  pure { s with loops := loops.setCurrentLoop loops.getCurrentLoop.initializeSets }

def loopIterationBegin : Option State :=
  let loop := s.loops.getCurrentLoop
  if cfg.numLoops < loop.loopId.toNat then none
  else some { s with
    timeStamp := s.timeStamp + 1
    loops := s.loops.setCurrentLoop (loop.iteration (s.timeStamp + 1)).initializeSets
    iterationCount := Function.update s.iterationCount loop.loopId.toNat
      (s.iterationCount loop.loopId.toNat + 1) }

end State

inductive Event
  | load (w : Width) (instr : ℕ) (addr : UInt64)
  | store (w : Width) (instr : ℕ) (addr : UInt64) (silent : Bool)
  | allocate (addr : UInt64) (size : ℕ)
  | deallocate (instr : ℕ) (addr : UInt64) (size : ℕ)
  | externalLoad (addr : UInt64) (size : ℕ)
  | externalStore (addr : UInt64) (size : ℕ)
  | externalDeallocate (addr : UInt64) (size : ℕ)
  | register (id : ℕ)
  | loopInvocation (loop : UInt16)
  | loopIterationBegin
  | loopIterationEnd
  | loopExit

def State.step (cfg : Config) (s : State) : Event → Option State
  | .load w instr addr => s.load cfg w instr addr
  | .store w instr addr silent => s.store cfg w instr addr silent
  | .allocate addr size => s.invalidateRegion addr size
  | .deallocate instr addr size => s.deallocate cfg instr addr size
  | .externalLoad addr size => s.externalLoad cfg addr size
  | .externalStore addr size => s.storeEach cfg s.externalCallId addr size
  | .externalDeallocate addr size => s.deallocate cfg s.externalCallId addr size
  | .register id => some { s with externalCallId := id }
  | .loopInvocation loop => s.loopInvocation loop
  | .loopIterationBegin => s.loopIterationBegin cfg
  | .loopIterationEnd => some s
  | .loopExit => s.loops.exitLoop.map fun loops => { s with loops := loops }

end Cpf.Lamp
