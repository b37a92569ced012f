import Mathlib.Tactic

/-!
# Hooks of the dependence profiler

A timestamp packs the instruction of a store (20 bits), the iteration (40 bits) and the invocation (4 bits) in
which it was executed. Zero stands for a byte that was never stored to. The instrumented program calls a hook
at every loop event, call, load and store. A store writes its timestamp to the shadow cells of its bytes; a
load looks at the timestamps of its bytes and logs the dependences it finds. The shadow memory is a map from
shadow addresses to timestamps, zero at the start.
-/

namespace Cpf.Slamp

def createTS (instr : UInt32) (iter invoc : UInt64) : UInt64 :=
  (instr.toUInt64 <<< 44) ||| ((iter &&& 0xffffffffff) <<< 4) ||| (invoc &&& 0xf)

def getInstr (ts : UInt64) : UInt32 := ((ts >>> 44) &&& 0xfffff).toUInt32

def getIter (ts : UInt64) : UInt64 := (ts >>> 4) &&& 0xffffffffff

def getInvoc (ts : UInt64) : UInt64 := ts &&& 0xf

theorem toNat_getInvoc (ts : UInt64) : (getInvoc ts).toNat = ts.toNat % 16 := by
  rw [getInvoc, UInt64.toNat_and]
  exact Nat.and_two_pow_sub_one_eq_mod ts.toNat 4

/-- The three fields of a timestamp side by side. -/
theorem toNat_createTS (instr : UInt32) (iter invoc : UInt64) :
    (createTS instr iter invoc).toNat =
      instr.toNat % 2 ^ 20 * 2 ^ 44 + iter.toNat % 2 ^ 40 * 2 ^ 4 + invoc.toNat % 16 := by
  have hiter : (iter &&& 0xffffffffff).toNat = iter.toNat % 2 ^ 40 := by
    rw [UInt64.toNat_and]
    exact Nat.and_two_pow_sub_one_eq_mod iter.toNat 40
  have hinvoc : (invoc &&& 0xf).toNat = invoc.toNat % 16 := toNat_getInvoc invoc
  rw [createTS, UInt64.toNat_or, UInt64.toNat_or, UInt64.toNat_shiftLeft, UInt64.toNat_shiftLeft,
    hiter, hinvoc]
  have hleft : instr.toUInt64.toNat <<< ((44 : UInt64).toNat % 64) % 2 ^ 64 =
      (instr.toNat % 2 ^ 20) <<< 44 := by
    change instr.toNat <<< 44 % 2 ^ 64 = _
    rw [Nat.shiftLeft_eq, Nat.shiftLeft_eq]
    omega
  have hmid : (iter.toNat % 2 ^ 40) <<< ((4 : UInt64).toNat % 64) % 2 ^ 64 =
      (iter.toNat % 2 ^ 40) <<< 4 := by
    change (iter.toNat % 2 ^ 40) <<< 4 % 2 ^ 64 = _
    rw [Nat.shiftLeft_eq]
    omega
  have hlow : (iter.toNat % 2 ^ 40) <<< 4 < 2 ^ 44 := by
    rw [Nat.shiftLeft_eq]
    omega
  rw [hleft, hmid, ← Nat.shiftLeft_add_eq_or_of_lt hlow, Nat.shiftLeft_eq, Nat.shiftLeft_eq]
  have hshift : instr.toNat % 2 ^ 20 * 2 ^ 44 + iter.toNat % 2 ^ 40 * 2 ^ 4 =
      2 ^ 4 * (instr.toNat % 2 ^ 20 * 2 ^ 40 + iter.toNat % 2 ^ 40) := by
    ring
  rw [hshift, ← Nat.two_pow_add_eq_or_of_lt (by omega)]

theorem getInvoc_createTS (instr : UInt32) (iter invoc : UInt64) :
    getInvoc (createTS instr iter invoc) = getInvoc invoc := by
  apply UInt64.toNat_inj.1
  rw [toNat_getInvoc, toNat_getInvoc, toNat_createTS]
  omega

theorem getInstr_createTS {instr : UInt32} (hinstr : instr.toNat < 2 ^ 20) (iter invoc : UInt64) :
    getInstr (createTS instr iter invoc) = instr := by
  apply UInt32.toNat_inj.1
  have hmask : (createTS instr iter invoc).toNat >>> 44 &&& (0xfffff : UInt64).toNat =
      (createTS instr iter invoc).toNat >>> 44 % 2 ^ 20 :=
    Nat.and_two_pow_sub_one_eq_mod _ 20
  rw [getInstr, UInt64.toNat_toUInt32, UInt64.toNat_and, UInt64.toNat_shiftRight]
  change ((createTS instr iter invoc).toNat >>> 44 &&& (0xfffff : UInt64).toNat) % 2 ^ 32 = _
  rw [hmask, Nat.shiftRight_eq_div_pow, toNat_createTS]
  omega

theorem getIter_createTS (instr : UInt32) {iter : UInt64} (hiter : iter.toNat < 2 ^ 40)
    (invoc : UInt64) : getIter (createTS instr iter invoc) = iter := by
  apply UInt64.toNat_inj.1
  have hmask : (createTS instr iter invoc).toNat >>> 4 &&& (0xffffffffff : UInt64).toNat =
      (createTS instr iter invoc).toNat >>> 4 % 2 ^ 40 :=
    Nat.and_two_pow_sub_one_eq_mod _ 40
  rw [getIter, UInt64.toNat_and, UInt64.toNat_shiftRight]
  change (createTS instr iter invoc).toNat >>> 4 &&& (0xffffffffff : UInt64).toNat = _
  rw [hmask, Nat.shiftRight_eq_div_pow, toNat_createTS]
  omega

/-- A timestamp of an iteration that fits in its field is not the empty one. -/
theorem createTS_ne_zero (instr : UInt32) {iter : UInt64} (invoc : UInt64)
    (hpos : 0 < iter.toNat) (hlt : iter.toNat < 2 ^ 40) : createTS instr iter invoc ≠ 0 := by
  intro h
  have hts := toNat_createTS instr iter invoc
  rw [h, Nat.mod_eq_of_lt hlt] at hts
  change 0 = _ at hts
  omega

/-! ### Hooks -/

structure Config where
  dependenceModule : Bool
  assumeOneAddr : Bool
  heapStart : UInt64
  localwriteModule : Bool
  localwriteMask : UInt64
  localwritePattern : UInt64

structure Key where
  src : UInt32
  dst : UInt32
  dstBare : UInt32
  cross : Bool
  deriving DecidableEq

structure State where
  invokedepth : ℕ
  iteration : UInt64
  invocation : UInt64
  context : UInt32
  shadow : UInt64 → UInt64
  deplog : Finset Key

def State.init : State := ⟨0, 0, 0, 0, fun _ => 0, ∅⟩

def getShadow (addr : UInt64) : UInt64 := ((addr <<< 3) &&& 0x00007fffffffffff) ^^^ 0x0000200000000000

/-- The address of `s[i]`, where `s` is the shadow of `addr`. -/
def cell (addr : UInt64) (i : ℕ) : UInt64 := getShadow addr + 8 * UInt64.ofNat i

def writeCells {α : Type*} (f : UInt64 → α) (addr : UInt64) (size : ℕ) (v : α) : UInt64 → α :=
  (List.range size).foldl (fun f i => Function.update f (cell addr i) v) f

namespace Config

def isBadAlloc (cfg : Config) (addr : UInt64) : Bool :=
  decide (addr < 0x100000000) && decide (cfg.heapStart < addr)

def localwrite (cfg : Config) (addr : UInt64) : Bool :=
  !cfg.localwriteModule || decide (addr &&& cfg.localwriteMask = cfg.localwritePattern)

end Config

namespace State

def loopInvocation (s : State) : State :=
  if s.invokedepth + 1 > 1 then { s with invokedepth := s.invokedepth + 1 }
  else { s with
    invokedepth := s.invokedepth + 1
    invocation := s.invocation + 1
    iteration := s.iteration + 1 }

def loopIteration (s : State) : State :=
  if s.invokedepth > 1 then s else { s with iteration := s.iteration + 1 }

def loopExit (s : State) : State :=
  if s.invokedepth = 0 then s else { s with invokedepth := s.invokedepth - 1 }

/-- Gives `none` where the assertion fails. -/
def push (s : State) (instr : UInt32) : Option State :=
  if s.invokedepth > 1 then some s
  else if s.context = 0 then some { s with context := instr } else none

def pop (s : State) : State := if s.invokedepth > 1 then s else { s with context := 0 }

def attributed (s : State) (instr : UInt32) : UInt32 := if s.invokedepth > 1 then s.context else instr

/-- The guard of `slamp::log`: the timestamp is not empty and its invocation field is that of the
current invocation. -/
def records (s : State) (ts : UInt64) : Bool :=
  decide (ts ≠ 0) && decide (getInvoc ts = getInvoc s.invocation)

def log (s : State) (ts : UInt64) (dstInst bareInst : UInt32) : State :=
  if s.records ts then
    let key : Key := ⟨getInstr ts, dstInst, bareInst, decide (getIter ts ≠ s.iteration)⟩
    { s with deplog := insert key s.deplog }
  else s

/-- The loop over the timestamps of a load; a timestamp that was seen at an earlier byte is passed
over. -/
def logEach (dstInst bareInst : UInt32) : State → List UInt64 → List UInt64 → State
  | s, _, [] => s
  | s, seen, ts :: tss =>
      logEach dstInst bareInst (if ts ∈ seen then s else s.log ts dstInst bareInst) (ts :: seen) tss

def timestamps (s : State) (addr : UInt64) (size : ℕ) : List UInt64 :=
  (List.range size).map fun i => s.shadow (cell addr i)

/-- `SLAMP_dependence_module_load_log<size>`; an empty timestamp is passed over by `slamp::log`
too. -/
def loadLogSized (cfg : Config) (s : State) (instr bareInstr : UInt32) (addr : UInt64) (size : ℕ) :
    State :=
  if cfg.assumeOneAddr then s.log (s.shadow (cell addr 0)) instr bareInstr
  else logEach instr bareInstr s [] (s.timestamps addr size)

/-- `SLAMP_dependence_module_load_log` with the size as an argument: the bare instruction it logs
is 0. -/
def loadLogN (s : State) (instr : UInt32) (addr : UInt64) (size : ℕ) : State :=
  logEach instr 0 s [] (s.timestamps addr size)

def load (cfg : Config) (s : State) (instr : UInt32) (addr : UInt64) (bareInstr : UInt32)
    (size : ℕ) : State :=
  if cfg.isBadAlloc addr then s
  else if cfg.localwrite addr && cfg.dependenceModule then
    s.loadLogSized cfg (s.attributed instr) bareInstr addr size
  else s

/-- `SLAMP_loadn`; the `size_t` length is passed on as an `unsigned`. -/
def loadn (cfg : Config) (s : State) (instr : UInt32) (addr : UInt64) (_bareInstr : UInt32)
    (n : UInt64) : State :=
  if cfg.isBadAlloc addr then s
  else if cfg.localwrite addr && cfg.dependenceModule then
    s.loadLogN (s.attributed instr) addr n.toUInt32.toNat
  else s

def writeShadow (s : State) (addr : UInt64) (size : ℕ) (ts : UInt64) : State :=
  { s with shadow := writeCells s.shadow addr size ts }

def store (cfg : Config) (s : State) (instr : UInt32) (addr : UInt64) (size : ℕ) : State :=
  if cfg.isBadAlloc addr then s
  else if cfg.localwrite addr && cfg.dependenceModule then
    s.writeShadow addr (if cfg.assumeOneAddr then 1 else size)
      (createTS (s.attributed instr) s.iteration s.invocation)
  else s

def storen (cfg : Config) (s : State) (instr : UInt32) (addr : UInt64) (n : UInt64) : State :=
  if cfg.isBadAlloc addr then s
  else if cfg.localwrite addr && cfg.dependenceModule then
    s.writeShadow addr n.toUInt32.toNat (createTS (s.attributed instr) s.iteration s.invocation)
  else s

end State

/-- The template argument of the hooks of fixed size. -/
inductive Width
  | one
  | two
  | four
  | eight
  deriving DecidableEq

def Width.bytes : Width → ℕ
  | one => 1
  | two => 2
  | four => 4
  | eight => 8

inductive Event
  | loopInvocation
  | loopIteration
  | loopExit
  | push (instr : UInt32)
  | pop
  | load (w : Width) (instr : UInt32) (addr : UInt64) (bareInstr : UInt32)
  | loadn (instr : UInt32) (addr : UInt64) (bareInstr : UInt32) (n : UInt64)
  | store (w : Width) (instr : UInt32) (addr : UInt64)
  | storen (instr : UInt32) (addr : UInt64) (n : UInt64)

/-- One call; `none` if an assertion fails. -/
def State.step (cfg : Config) (s : State) : Event → Option State
  | .loopInvocation => some s.loopInvocation
  | .loopIteration => some s.loopIteration
  | .loopExit => some s.loopExit
  | .push instr => s.push instr
  | .pop => some s.pop
  | .load w instr addr bareInstr => some (s.load cfg instr addr bareInstr w.bytes)
  | .loadn instr addr bareInstr n => some (s.loadn cfg instr addr bareInstr n)
  | .store w instr addr => some (s.store cfg instr addr w.bytes)
  | .storen instr addr n => some (s.storen cfg instr addr n)

end Cpf.Slamp
