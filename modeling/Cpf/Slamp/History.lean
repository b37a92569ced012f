import Cpf.Basics.Trans
import Cpf.Slamp.Hooks

/-!
# The history of a profiled run

Next to the profiler's state we keep what really happened: how many iterations and invocations
there were, the last store to every byte, the store that wrote every shadow cell last, and for
every timestamp that was logged, the store it stands for and the load that found it.
-/

namespace Cpf.Slamp

/-- A load or store: the instruction it is attributed to, and where in the run it was made. -/
structure Access where
  instr : UInt32
  iteration : ℕ
  invocation : ℕ
  inLoop : Bool
  deriving DecidableEq

structure History where
  iterations : ℕ
  invocations : ℕ
  lastStore : UInt64 → Option Access
  writer : UInt64 → Option Access
  recorded : List (Access × Access)

def History.init : History := ⟨0, 0, fun _ => none, fun _ => none, []⟩

/-- The shadow cells of an access of `size` bytes at `addr`, if the hook gets past its guards. -/
def cells (cfg : Config) (addr : UInt64) (size : ℕ) : List UInt64 :=
  if !cfg.isBadAlloc addr && (cfg.localwrite addr && cfg.dependenceModule) then
    (List.range size).map (cell addr)
  else []

/-- The number of cells that the hooks of fixed size look at. -/
def Config.span (cfg : Config) (w : Width) : ℕ := if cfg.assumeOneAddr then 1 else w.bytes

def Event.cellsRead (cfg : Config) : Event → List UInt64
  | .load w _ addr _ => cells cfg addr (cfg.span w)
  | .loadn _ addr _ n => cells cfg addr n.toUInt32.toNat
  | _ => []

def Event.instr : Event → UInt32
  | .push instr | .load _ instr _ _ | .loadn instr _ _ _ | .store _ instr _ | .storen instr _ _ => instr
  | _ => 0

def Event.bytes : Event → Option (UInt64 × ℕ)
  | .load w _ addr _ | .store w _ addr => some (addr, w.bytes)
  | .loadn _ addr _ n | .storen _ addr n => some (addr, n.toNat)
  | _ => none

structure Profile where
  state : State
  history : History

namespace Profile

def init : Profile := ⟨.init, .init⟩

def access (p : Profile) (e : Event) : Access where
  instr := p.state.attributed e.instr
  iteration := p.history.iterations
  invocation := p.history.invocations
  inLoop := decide (0 < p.state.invokedepth)

def storeBytes (f : UInt64 → Option Access) (addr : UInt64) (size : ℕ) (a : Access) :
    UInt64 → Option Access :=
  fun b => if (b - addr).toNat < size then some a else f b

/-- The last store to a shadow cell, after a store that wrote the cells `cs`. -/
def storeCells (f : UInt64 → Option Access) (cs : List UInt64) (a : Access) :
    UInt64 → Option Access :=
  fun c => if c ∈ cs then some a else f c

/-- The stores whose timestamps a load logs. -/
def sources (cfg : Config) (p : Profile) (e : Event) : List Access :=
  ((e.cellsRead cfg).filter (fun c => p.state.records (p.state.shadow c))).filterMap p.history.writer

def historyStep (cfg : Config) (p : Profile) (e : Event) : History :=
  let h := p.history
  match e with
  | .loopInvocation =>
      if p.state.invokedepth + 1 > 1 then h
      else { h with iterations := h.iterations + 1, invocations := h.invocations + 1 }
  | .loopIteration =>
      if p.state.invokedepth > 1 then h else { h with iterations := h.iterations + 1 }
  | .load _ _ _ _ | .loadn _ _ _ _ =>
      { h with recorded := h.recorded ++ (p.sources cfg e).map (fun src => (src, p.access e)) }
  | .store w _ addr =>
      { h with
        lastStore := storeBytes h.lastStore addr w.bytes (p.access e)
        writer := storeCells h.writer (cells cfg addr (cfg.span w)) (p.access e) }
  | .storen _ addr n =>
      { h with
        lastStore := storeBytes h.lastStore addr n.toNat (p.access e)
        writer := storeCells h.writer (cells cfg addr n.toUInt32.toNat) (p.access e) }
  | _ => h

def step (cfg : Config) (p : Profile) (e : Event) : Option Profile :=
  (p.state.step cfg e).map fun s => ⟨s, p.historyStep cfg e⟩

end Profile
end Cpf.Slamp
