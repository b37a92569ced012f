import Cpf.Basics.BoundedBuffer
import Cpf.Basics.Channels
import Cpf.Basics.RingIndex

/-!
# The thread pool

Work is handed to the workers of a pool through a bounded buffer with twice as many slots as there are workers.
A worker runs what it takes and then posts the handle that came with it. `tpool_finish` adds one call of
`pthread_exit` for each worker. A work routine returns and does not use the pool, and nobody adds work while
`tpool_finish` runs.
-/

namespace Cpf.Tpool
open BoundedBuffer

inductive Routine (α : Type*)
  | call (arg : α)
  | pthreadExit
  deriving DecidableEq

structure Work (α H : Type*) where
  routine : Routine α
  workDoneFlag : Option H
  deriving DecidableEq

variable {T α H : Type}

namespace Work

def exit : Work α H := ⟨.pthreadExit, none⟩

def isCall (w : Work α H) : Bool :=
  match w.routine with
  | .call _ => true
  | .pthreadExit => false

end Work

/-- Where a worker is in `tpool_worker_loop`. While it is `waiting` it takes work from the buffer. -/
inductive WorkerPc (α H : Type)
  | waiting
  | working (w : Work α H)
  | posting (h : H)
  | exited

/-- `exits` counts the calls of `pthread_exit` that `tpool_finish` has added, `executed` are the works that are
done, each with its worker, and `waits` the handles on which `sem_wait` has succeeded. -/
structure State (T α H : Type) where
  buffer : BoundedBuffer.State T (Work α H)
  worker : T → WorkerPc α H
  handles : H → ℕ
  exits : ℕ
  executed : List (T × Work α H)
  waits : List H

/-- The threads of a pool; all others call its functions, and `main` calls `tpool_finish`. -/
structure Pool (T : Type) [Fintype T] where
  isWorker : T → Bool
  main : T
  main_not_worker : isWorker main = false

def oneWorker : Pool (Fin 2) := ⟨fun t => t = 1, 0, rfl⟩

namespace Pool

variable [Fintype T] (pool : Pool T)

def numThreads : ℕ := (Finset.univ.filter fun t => pool.isWorker t).card

def numSlots : ℕ := 2 * pool.numThreads

end Pool

inductive Action (T α H : Type)
  | addWork (t : T) (w : Work α H)
  | finish
  | wait (t : T) (h : H)
  | step (t : T)

namespace State

variable [Fintype T] [DecidableEq T] [DecidableEq H] (pool : Pool T) (s : State T α H)

def init (slots : ℕ → Work α H) : State T α H :=
  ⟨.init pool.numSlots slots, fun _ => .waiting, fun _ => 0, 0, [], []⟩

def bufferStep (a : BoundedBuffer.Action T (Work α H)) : Option (State T α H) :=
  (s.buffer.step pool.numSlots a).map fun b => { s with buffer := b }

def setWorker (t : T) (p : WorkerPc α H) : State T α H := { s with worker := Function.update s.worker t p }

def afterWork (t : T) (w : Work α H) : State T α H :=
  let s := { s with executed := s.executed ++ [(t, w)] }
  match w.workDoneFlag with
  | some h => s.setWorker t (.posting h)
  | none => s.setWorker t .waiting

def workerStep (t : T) : Option (State T α H) :=
  match s.worker t with
  | .waiting =>
      match s.buffer.pc t with
      | .idle => s.bufferStep pool (.pop t)
      | .done (some w) => (s.setWorker t (.working w)).bufferStep pool (.finish t)
      | _ => s.bufferStep pool (.step t)
  | .working w =>
      match w.routine with
      | .call _ => some (s.afterWork t w)
      | .pthreadExit => some (s.setWorker t .exited)
  | .posting h => some { s.setWorker t .waiting with handles := Function.update s.handles h (s.handles h + 1) }
  | .exited => none

def step : Action T α H → Option (State T α H)
  | .addWork t w => if pool.isWorker t = false then s.bufferStep pool (.push t w) else none
  | .finish =>
      if s.exits < pool.numThreads then
        { s with exits := s.exits + 1 }.bufferStep pool (.push pool.main .exit)
      else none
  | .wait t h =>
      match s.buffer.pc t with
      | .idle =>
          if pool.isWorker t = false ∧ 0 < s.handles h then
            some { s with handles := Function.update s.handles h (s.handles h - 1), waits := s.waits ++ [h] }
          else none
      | _ => none
  | .step t => if pool.isWorker t then s.workerStep pool t else s.bufferStep pool (.step t)

end State

/-- How the pool is used: work is not a call of `pthread_exit`, and `tpool_finish` is called when every other
call has returned and no work is added any more. -/
def Proper (s : State T α H) : Action T α H → Prop
  | .addWork _ w => w.isCall = true ∧ s.exits = 0
  | .finish => ∀ t, ∀ w ∈ (s.buffer.pc t).pending, w.isCall = false
  | _ => True

instance [Fintype T] (s : State T α H) : ∀ a, Decidable (Proper s a)
  | .addWork _ w => inferInstanceAs (Decidable (w.isCall = true ∧ s.exits = 0))
  | .finish => inferInstanceAs (Decidable (∀ t, ∀ w ∈ (s.buffer.pc t).pending, w.isCall = false))
  | .wait _ _ => isTrue trivial
  | .step _ => isTrue trivial

/-! ### The invariant -/

namespace WorkerPc

def holding : WorkerPc α H → List (Work α H)
  | .working w => [w]
  | .exited => [.exit]
  | _ => []

def postingOn [DecidableEq H] (h : H) : WorkerPc α H → ℕ
  | .posting h' => if h' = h then 1 else 0
  | _ => 0

end WorkerPc

def exitsIn (works : List (Work α H)) : ℕ := works.countP fun w => w.isCall = false

/-- A thread in the buffer and in the loop of the workers. -/
structure ThreadOk (isWorker : Bool) (pc : Pc (Work α H)) (p : WorkerPc α H) : Prop where
  caller : isWorker = false → (pc.Pushing ∨ pc = .idle) ∧ p = .waiting
  worker : isWorker = true → pc.Popping ∨ pc = .idle
  busy : p ≠ .waiting → pc = .idle
  blocking : pc ≠ .tryFull ∧ pc ≠ .done none

namespace ThreadOk

variable {pc : Pc (Work α H)} {p : WorkerPc α H}

theorem resting (p : WorkerPc α H) : ThreadOk true .idle p where
  caller h := absurd h Bool.noConfusion
  worker _ := .inr rfl
  busy _ := rfl
  blocking := by simp

theorem popping (hpop : pc.Popping ∨ pc = .idle) (hblocking : pc ≠ .tryFull ∧ pc ≠ .done none) :
    ThreadOk true pc (.waiting : WorkerPc α H) where
  caller h := absurd h Bool.noConfusion
  worker _ := hpop
  busy h := absurd rfl h
  blocking := hblocking

theorem pushing (hpush : pc.Pushing ∨ pc = .idle) : ThreadOk false pc (.waiting : WorkerPc α H) where
  caller _ := ⟨hpush, rfl⟩
  worker h := absurd h Bool.noConfusion
  busy h := absurd rfl h
  blocking := by
    rcases hpush with hpush | rfl
    · constructor <;> rintro rfl <;> exact hpush.elim
    · simp

end ThreadOk

/-- The works that were added: first those that are calls, then those of `tpool_finish`. -/
structure WorksOk (values : List (Work α H)) (pending : T → List (Work α H)) (exits : ℕ) : Prop where
  values_eq : ∃ jobs k, values = jobs ++ List.replicate k .exit ∧ (∀ w ∈ jobs, w.isCall = true) ∧
    (exits = 0 → k = 0)
  calls : exits = 0 → ∀ t, ∀ w ∈ pending t, w.isCall = true
  exits : 0 < exits → ∀ t, ∀ w ∈ pending t, w = .exit

variable [Fintype T] [DecidableEq T] [DecidableEq H]

structure Ok (pool : Pool T) (s : State T α H) : Prop where
  buffer : BoundedBuffer.Ok pool.numSlots s.buffer
  threads : ∀ t, ThreadOk (pool.isWorker t) (s.buffer.pc t) (s.worker t)
  took : ∀ t, onChannel t s.buffer.popped =
    onChannel t s.executed ++ (s.buffer.pc t).result ++ (s.worker t).holding
  executed_calls : ∀ e ∈ s.executed, e.2.isCall = true
  works : WorksOk s.buffer.values (fun t => (s.buffer.pc t).pending) s.exits
  exits_eq : exitsIn s.buffer.values + total (fun pc => exitsIn pc.pending) s.buffer.pc = s.exits
  exits_le : s.exits ≤ pool.numThreads
  taken : exitsIn (s.buffer.popped.map Prod.snd) =
    total (fun pc => exitsIn pc.result) s.buffer.pc + total (fun p => exitsIn p.holding) s.worker
  handles : ∀ h, s.waits.count h + s.handles h + total (WorkerPc.postingOn h) s.worker =
    s.executed.countP fun e => e.2.workDoneFlag = some h

theorem ok_init (pool : Pool T) (slots : ℕ → Work α H) : Ok pool (State.init pool slots : State T α H) where
  buffer := BoundedBuffer.ok_init _ _
  threads _ := ⟨fun _ => ⟨.inr rfl, rfl⟩, fun _ => .inr rfl, fun _ => rfl, nofun, nofun⟩
  took _ := rfl
  executed_calls := nofun
  works := ⟨⟨[], 0, rfl, nofun, fun _ => rfl⟩, fun _ _ => nofun, fun _ _ => nofun⟩
  exits_eq := by
    have hbuffer : total (fun pc => exitsIn pc.pending) (State.init pool slots : State T α H).buffer.pc = 0 :=
      total_eq_zero fun _ => rfl
    rw [hbuffer]
    rfl
  exits_le := Nat.zero_le _
  taken := by
    have hbuffer : total (fun pc => exitsIn pc.result) (State.init pool slots : State T α H).buffer.pc = 0 :=
      total_eq_zero fun _ => rfl
    have hworker : total (fun p => exitsIn p.holding) (State.init pool slots : State T α H).worker = 0 :=
      total_eq_zero fun _ => rfl
    rw [hbuffer, hworker]
    rfl
  handles h := by
    have hworker : total (WorkerPc.postingOn h) (State.init pool slots : State T α H).worker = 0 :=
      total_eq_zero fun _ => rfl
    rw [hworker]
    rfl

/-! ### Steps -/

omit [Fintype T] [DecidableEq H] in
theorem mem_of_onChannel {t : T} {l : List (T × Work α H)} {w : Work α H} (h : w ∈ onChannel t l) :
    w ∈ l.map Prod.snd := by
  obtain ⟨e, he, rfl⟩ := List.mem_map.1 h
  exact List.mem_map.2 ⟨e, (List.mem_filter.1 he).1, rfl⟩

omit [Fintype T] [DecidableEq T] [DecidableEq H] in
theorem exitsIn_append (l m : List (Work α H)) : exitsIn (l ++ m) = exitsIn l + exitsIn m := List.countP_append

omit [Fintype T] [DecidableEq T] [DecidableEq H] in
/-- The works that a thread puts into the ring were pending. -/
theorem WorksOk.push {values new rest : List (Work α H)} {pending pending' : T → List (Work α H)}
    {exits : ℕ} {t : T}
    (h : WorksOk values pending exits) (hnew : pending t = new ++ rest) (ht : pending' t = rest)
    (hother : ∀ u, u ≠ t → pending' u = pending u) : WorksOk (values ++ new) pending' exits := by
  obtain ⟨jobs, k, hvalues, hjobs, hk⟩ := h.values_eq
  have hsub : ∀ u, pending' u ⊆ pending u := by
    intro u
    by_cases hu : u = t
    · rw [hu, ht, hnew]
      exact List.subset_append_right _ _
    · rw [hother u hu]
      exact List.Subset.refl _
  have hpending : ∀ w ∈ new, w ∈ pending t := fun w hw => by
    rw [hnew]
    exact List.mem_append_left _ hw
  refine ⟨?_, fun hzero u w hw => h.calls hzero u w (hsub u hw), fun hpos u w hw => h.exits hpos u w
    (hsub u hw)⟩
  rcases Nat.eq_zero_or_pos exits with hzero | hpos
  · refine ⟨jobs ++ new, 0, ?_, fun w hw => ?_, fun _ => rfl⟩
    · rw [hvalues, hk hzero]
      simp
    · rcases List.mem_append.1 hw with hw | hw
      · exact hjobs w hw
      · exact h.calls hzero t w (hpending w hw)
  · refine ⟨jobs, k + new.length, ?_, hjobs, fun hzero => by omega⟩
    have hreplicate : new = List.replicate new.length .exit :=
      List.eq_replicate_iff.2 ⟨rfl, fun w hw => h.exits hpos t w (hpending w hw)⟩
    rw [hvalues, List.append_assoc, List.replicate_add, ← hreplicate]

namespace Ok

variable {pool : Pool T} {s s' : State T α H} {t : T}

omit [DecidableEq H] in
theorem bufferStep_eq {a : BoundedBuffer.Action T (Work α H)} (h : s.bufferStep pool a = some s') :
    ∃ b, s.buffer.step pool.numSlots a = some b ∧ s' = { s with buffer := b } := by
  obtain ⟨b, hb, rfl⟩ := Option.map_eq_some_iff.1 h
  exact ⟨b, hb, rfl⟩

theorem callerStep (h : Ok pool s) (ht : pool.isWorker t = false) (hs : s.bufferStep pool (.step t) = some s') :
    Ok pool s' := by
  obtain ⟨b, hb, rfl⟩ := bufferStep_eq hs
  have hadvance : s.buffer.advance pool.numSlots t = some b := hb
  have hthread := h.threads t
  have hpushing : (s.buffer.pc t).Pushing := by
    refine (hthread.caller ht).1.resolve_right fun hidle => ?_
    rw [BoundedBuffer.State.advance, hidle] at hadvance
    cases hadvance
  obtain ⟨hpopped, hnext, new, hpushed, hpending⟩ := BoundedBuffer.State.advance_pushing hadvance hpushing
  have hother : ∀ u, u ≠ t → b.pc u = s.buffer.pc u :=
    fun u hu => BoundedBuffer.State.advance_pc_of_ne hadvance hu
  have hpc := BoundedBuffer.State.advance_pc hadvance
  have hvalues : b.values = s.buffer.values ++ new := by
    rw [BoundedBuffer.State.values, hpushed, List.map_append, List.map_map]
    simp [Function.comp_def, BoundedBuffer.State.values]
  have hresult : (s.buffer.pc t).result = [] := by
    cases hp : s.buffer.pc t <;> rw [hp] at hpushing <;> first | rfl | exact hpushing.elim
  have hresult' : (b.pc t).result = [] := by
    rcases hnext with hnext | hnext
    · cases hp : b.pc t <;> rw [hp] at hnext <;> first | rfl | exact hnext.elim
    · rw [hnext]
      rfl
  refine ⟨h.buffer.step hb, fun u => ?_, fun u => ?_, h.executed_calls, ?_, ?_, h.exits_le, ?_, h.handles⟩
  · by_cases hu : u = t
    · rw [hu, ht, (hthread.caller ht).2]
      exact .pushing hnext
    · simp only [hother u hu]
      exact h.threads u
  · have htook := h.took u
    by_cases hu : u = t
    · rw [hu] at htook ⊢
      rw [hpopped, htook, hresult, hresult']
    · rw [hpopped, hother u hu, htook]
  · rw [hvalues]
    exact h.works.push hpending rfl fun u hu => by rw [hother u hu]
  · have htotal := total_update (fun pc => exitsIn pc.pending) s.buffer.pc t (b.pc t)
    have hexits := h.exits_eq
    rw [← hpc] at htotal
    simp only [hpending, exitsIn_append] at htotal
    rw [hvalues, exitsIn_append]
    dsimp only
    omega
  · have htotal := total_update (fun pc => exitsIn pc.result) s.buffer.pc t (b.pc t)
    have htaken := h.taken
    rw [← hpc] at htotal
    simp only [hresult, hresult'] at htotal
    rw [hpopped]
    dsimp only
    omega

theorem pushes (h : Ok pool s) {w : Work α H} {exits : ℕ} (ht : pool.isWorker t = false)
    (hcalls : exits = 0 → s.exits = 0 ∧ w.isCall = true)
    (hexits : 0 < exits → w = .exit ∧ ∀ u, ∀ w ∈ (s.buffer.pc u).pending, w = .exit)
    (hcount : exits = s.exits + exitsIn [w]) (hle : exits ≤ pool.numThreads)
    (hs : { s with exits := exits }.bufferStep pool (.push t w) = some s') : Ok pool s' := by
  obtain ⟨b, hb, rfl⟩ := bufferStep_eq hs
  have hok := h.buffer.step hb
  obtain ⟨hidle, rfl⟩ := BoundedBuffer.State.push_eq hb
  have hidle : s.buffer.pc t = .idle := hidle
  have hother : ∀ u, u ≠ t → (s.buffer.goto t (.waitFree w)).pc u = s.buffer.pc u := fun u hu =>
    BoundedBuffer.State.goto_pc_of_ne hu
  have hself : (s.buffer.goto t (.waitFree w)).pc t = .waitFree w := Function.update_self _ _ _
  refine ⟨hok, fun u => ?_, fun u => ?_, h.executed_calls,
    ⟨?_, fun hzero u v hv => ?_, fun hpos u v hv => ?_⟩, ?_, hle,
    ?_, h.handles⟩
  · show ThreadOk _ ((s.buffer.goto t (.waitFree w)).pc u) _
    by_cases hu : u = t
    · rw [hu, hself, ht, ((h.threads t).caller ht).2]
      exact .pushing (.inl trivial)
    · rw [hother u hu]
      exact h.threads u
  · show onChannel u s.buffer.popped = onChannel u s.executed ++
      ((s.buffer.goto t (.waitFree w)).pc u).result ++ _
    have htook := h.took u
    by_cases hu : u = t
    · rw [hu, hidle] at htook
      rw [hu, hself]
      exact htook
    · rw [hother u hu]
      exact htook
  · obtain ⟨jobs, k, hvalues, hjobs, hk⟩ := h.works.values_eq
    exact ⟨jobs, k, hvalues, hjobs, fun hzero => hk (hcalls hzero).1⟩
  · have hv : v ∈ ((s.buffer.goto t (.waitFree w)).pc u).pending := hv
    by_cases hu : u = t
    · rw [hu, hself] at hv
      rw [List.mem_singleton.1 hv]
      exact (hcalls hzero).2
    · rw [hother u hu] at hv
      exact h.works.calls (hcalls hzero).1 u v hv
  · have hv : v ∈ ((s.buffer.goto t (.waitFree w)).pc u).pending := hv
    by_cases hu : u = t
    · rw [hu, hself] at hv
      rw [List.mem_singleton.1 hv]
      exact (hexits hpos).1
    · rw [hother u hu] at hv
      exact (hexits hpos).2 u v hv
  · have htotal := total_update (fun pc => exitsIn pc.pending) s.buffer.pc t (.waitFree w)
    have hexits_eq := h.exits_eq
    have hzero : exitsIn (Pc.idle : Pc (Work α H)).pending = 0 := rfl
    simp only [hidle, hzero] at htotal
    show exitsIn s.buffer.values +
      total (fun pc => exitsIn pc.pending) (Function.update s.buffer.pc t (.waitFree w)) = exits
    have hpending : (Pc.waitFree w).pending = [w] := rfl
    rw [hpending] at htotal
    omega
  · have htotal := total_update (fun pc => exitsIn pc.result) s.buffer.pc t (.waitFree w)
    have hidle' : (Pc.idle : Pc (Work α H)).result = [] := rfl
    have hwait : (Pc.waitFree w).result = [] := rfl
    have htaken := h.taken
    simp only [hidle, hidle', hwait] at htotal
    show _ = total (fun pc => exitsIn pc.result) (Function.update s.buffer.pc t (.waitFree w)) +
      total (fun p => exitsIn p.holding) s.worker
    show exitsIn (s.buffer.popped.map Prod.snd) = _
    omega

/-- The worker moves on in the buffer without a change of the rings. -/
theorem goes (h : Ok pool s) (ht : pool.isWorker t = true) {b : BoundedBuffer.State T (Work α H)}
    {pc : Pc (Work α H)}
    {p : WorkerPc α H} {executed : List (T × Work α H)} {handles : H → ℕ}
    (hb : BoundedBuffer.Ok pool.numSlots b)
    (hpc : b.pc = Function.update s.buffer.pc t pc) (hvalues : b.values = s.buffer.values)
    (hpending : pc.pending = (s.buffer.pc t).pending) (hthread : ThreadOk true pc p)
    (hexecuted : ∀ e ∈ executed, e.2.isCall = true)
    (htook : onChannel t b.popped = onChannel t executed ++ pc.result ++ p.holding)
    (htooks : ∀ u, u ≠ t → onChannel u b.popped = onChannel u s.buffer.popped ∧
      onChannel u executed = onChannel u s.executed)
    (htaken : exitsIn (b.popped.map Prod.snd) + exitsIn (s.buffer.pc t).result + exitsIn (s.worker t).holding =
      exitsIn (s.buffer.popped.map Prod.snd) + exitsIn pc.result + exitsIn p.holding)
    (hhandles : ∀ h, handles h + p.postingOn h + s.executed.countP (fun e => e.2.workDoneFlag = some h) =
      s.handles h + (s.worker t).postingOn h + executed.countP fun e => e.2.workDoneFlag = some h) :
    Ok pool { s with
      buffer := b, worker := Function.update s.worker t p, executed := executed, handles := handles } := by
  have hother : ∀ u, u ≠ t → b.pc u = s.buffer.pc u := fun u hu => by rw [hpc, Function.update_of_ne hu]
  have hself : b.pc t = pc := by rw [hpc, Function.update_self]
  have hsame : ∀ u, (b.pc u).pending = (s.buffer.pc u).pending := by
    intro u
    by_cases hu : u = t
    · rw [hu, hself, hpending]
    · rw [hother u hu]
  refine ⟨hb, fun u => ?_, fun u => ?_, hexecuted, ?_, ?_, h.exits_le, ?_, fun x => ?_⟩
  · by_cases hu : u = t
    · subst hu
      simp only [hself, Function.update_self, ht]
      exact hthread
    · simp only [hother u hu, Function.update_of_ne hu]
      exact h.threads u
  · by_cases hu : u = t
    · subst hu
      simp only [hself, Function.update_self]
      exact htook
    · simp only [hother u hu, Function.update_of_ne hu, (htooks u hu).1, (htooks u hu).2]
      exact h.took u
  · have hworks := h.works
    simp only [hvalues, hsame]
    exact hworks
  · have htotal := total_update (fun pc => exitsIn pc.pending) s.buffer.pc t pc
    have hexits := h.exits_eq
    rw [← hpc] at htotal
    simp only [hpending] at htotal
    dsimp only
    rw [hvalues]
    omega
  · have hresult := total_update (fun pc => exitsIn pc.result) s.buffer.pc t pc
    have hholding := total_update (fun p => exitsIn p.holding) s.worker t p
    have htaken_eq := h.taken
    rw [← hpc] at hresult
    dsimp only at hresult hholding ⊢
    omega
  · have hposting := total_update (WorkerPc.postingOn x) s.worker t p
    have hhandles_eq := h.handles x
    have hnew := hhandles x
    dsimp only
    omega

theorem posts (h : Ok pool s) (ht : pool.isWorker t = true) {x : H} (hworker : s.worker t = .posting x) :
    Ok pool { s with
      worker := Function.update s.worker t .waiting, handles :=
      Function.update s.handles x (s.handles x + 1) } := by
  have hidle := (h.threads t).busy (by rw [hworker]; simp)
  refine h.goes ht h.buffer (Function.update_eq_self _ _).symm rfl rfl
    (by rw [hidle]; exact .resting _) h.executed_calls ?_ (fun u _ => ⟨rfl, rfl⟩) ?_ (fun y => ?_)
  · rw [h.took t, hworker]
    rfl
  · rw [hworker]
    rfl
  · by_cases hxy : x = y
    · subst hxy
      simp [hworker, WorkerPc.postingOn]
    · simp [hworker, WorkerPc.postingOn, hxy, Ne.symm hxy]

/-- A work that was taken and is no call is one of `tpool_finish`. -/
theorem eq_exit (h : Ok pool s) {w : Work α H} (hworker : s.worker t = .working w) (hnot : w.isCall = false) :
    w = .exit := by
  have hpopped : w ∈ s.buffer.popped.map Prod.snd := mem_of_onChannel (by
    rw [h.took t, hworker]
    exact List.mem_append_right _ (List.mem_singleton.2 rfl))
  rw [h.buffer.ring.fifo] at hpopped
  have hmem : w ∈ s.buffer.values := List.mem_of_mem_take hpopped
  obtain ⟨jobs, k, hvalues, hjobs, _⟩ := h.works.values_eq
  rw [hvalues, List.mem_append] at hmem
  rcases hmem with hmem | hmem
  · rw [hjobs w hmem] at hnot
    cases hnot
  · exact List.eq_of_mem_replicate hmem

theorem leaves (h : Ok pool s) (ht : pool.isWorker t = true) (hworker : s.worker t = .working .exit) :
    Ok pool { s with worker := Function.update s.worker t .exited } := by
  have hidle := (h.threads t).busy (by rw [hworker]; simp)
  refine h.goes ht h.buffer (Function.update_eq_self _ _).symm rfl rfl
    (by rw [hidle]; exact .resting _) h.executed_calls ?_ (fun u _ => ⟨rfl, rfl⟩) ?_ (fun y => ?_)
  · rw [h.took t, hworker]
    rfl
  · rw [hworker]
    rfl
  · rw [hworker]
    rfl

/-- A worker has run a call, and posts its handle or waits for more work. -/
theorem runs (h : Ok pool s) (ht : pool.isWorker t = true) {w : Work α H} (hworker : s.worker t = .working w)
    (hcall : w.isCall = true) {p : WorkerPc α H} (hp : p.holding = [])
    (hposting : ∀ y, p.postingOn y = if w.workDoneFlag = some y then 1 else 0) :
    Ok pool { s with executed := s.executed ++ [(t, w)], worker := Function.update s.worker t p } := by
  have hidle := (h.threads t).busy (by rw [hworker]; simp)
  have htook := h.took t
  rw [hidle, hworker] at htook
  have hchannel : ∀ u, onChannel u (s.executed ++ [(t, w)]) =
      onChannel u s.executed ++ if u = t then [w] else [] := by
    intro u
    rw [onChannel_append]
    by_cases hu : u = t
    · rw [hu, if_pos rfl, onChannel_cons_self, onChannel_nil]
    · rw [if_neg hu, onChannel_cons_of_ne (Ne.symm hu), onChannel_nil]
  have hexecuted : ∀ e ∈ s.executed ++ [(t, w)], e.2.isCall = true := by
    intro e he
    rcases List.mem_append.1 he with he | he
    · exact h.executed_calls e he
    · rw [List.mem_singleton.1 he]
      exact hcall
  have hheld : exitsIn [w] = 0 := by simp [exitsIn, hcall]
  refine h.goes ht h.buffer (Function.update_eq_self _ _).symm rfl rfl
    (by rw [hidle]; exact .resting _) hexecuted ?_ (fun u hu => ⟨rfl, ?_⟩) ?_ (fun y => ?_)
  · rw [hchannel, if_pos rfl, htook, hidle, hp]
    simp [Pc.result, WorkerPc.holding]
  · rw [hchannel, if_neg hu, List.append_nil]
  · rw [hworker, hp]
    show _ + _ + exitsIn [w] = _ + _ + exitsIn []
    rw [hheld]
    rfl
  · rw [hworker, hposting, List.countP_append, List.countP_singleton]
    by_cases hflag : w.workDoneFlag = some y
    · simp [hflag, WorkerPc.postingOn]
      omega
    · simp [hflag, WorkerPc.postingOn]

/-- A waiting worker moves on in the buffer, and stays at its place in the loop. -/
theorem stays (h : Ok pool s) (ht : pool.isWorker t = true) (hworker : s.worker t = .waiting)
    {b : BoundedBuffer.State T (Work α H)} {pc : Pc (Work α H)} (hb : BoundedBuffer.Ok pool.numSlots b)
    (hpc : b.pc = Function.update s.buffer.pc t pc) (hvalues : b.values = s.buffer.values)
    (hpending : pc.pending = (s.buffer.pc t).pending) (hthread : ThreadOk true pc (.waiting : WorkerPc α H))
    (htook : onChannel t b.popped = onChannel t s.executed ++ pc.result)
    (htooks : ∀ u, u ≠ t → onChannel u b.popped = onChannel u s.buffer.popped)
    (htaken : exitsIn (b.popped.map Prod.snd) + exitsIn (s.buffer.pc t).result =
      exitsIn (s.buffer.popped.map Prod.snd) + exitsIn pc.result) : Ok pool { s with buffer := b } := by
  have hok : Ok pool { s with buffer := b, worker := Function.update s.worker t .waiting } :=
    h.goes ht hb hpc hvalues hpending hthread h.executed_calls
      (by rw [htook]; exact (List.append_nil _).symm) (fun u hu => ⟨htooks u hu, rfl⟩)
      (by rw [hworker, htaken]) (fun y => by rw [hworker])
  rwa [← hworker, Function.update_eq_self] at hok

/-- A waiting worker takes a step of its pop, and starts to work when the pop returns. -/
theorem waits (h : Ok pool s) (ht : pool.isWorker t = true) (hworker : s.worker t = .waiting)
    (hs : s.workerStep pool t = some s') : Ok pool s' := by
  have hthread := h.threads t
  have htook := h.took t
  rw [ht, hworker] at hthread
  rw [hworker] at htook
  simp only [State.workerStep, hworker] at hs
  cases hpc : s.buffer.pc t with
  | idle =>
    rw [hpc] at hs htook
    obtain ⟨b, hb, rfl⟩ := bufferStep_eq hs
    have hok := h.buffer.step hb
    obtain ⟨_, rfl⟩ := BoundedBuffer.State.pop_eq hb
    refine h.stays ht hworker hok rfl rfl (by rw [hpc]; rfl)
      (.popping (.inl trivial) (by simp)) ?_ (fun u _ => rfl) ?_
    · exact htook.trans (List.append_nil _)
    · rw [hpc]
      rfl
  | done r =>
    cases r with
    | none => exact absurd hpc hthread.blocking.2
    | some w =>
      rw [hpc] at hs htook
      obtain ⟨b, hb, rfl⟩ := bufferStep_eq hs
      have hok : BoundedBuffer.Ok pool.numSlots b := h.buffer.step hb
      obtain rfl : b = s.buffer.goto t .idle := BoundedBuffer.State.finish_eq hb
      refine h.goes ht hok rfl rfl (by rw [hpc]; rfl) (.resting _) h.executed_calls ?_
        (fun u _ => ⟨rfl, rfl⟩) ?_ (fun y => ?_)
      · show onChannel t s.buffer.popped = onChannel t s.executed ++ _ ++ _
        rw [htook]
        simp [Pc.result, WorkerPc.holding]
      · rw [hpc, hworker]
        show exitsIn (s.buffer.popped.map Prod.snd) + exitsIn [w] + exitsIn [] =
          exitsIn (s.buffer.popped.map Prod.snd) + exitsIn [] + exitsIn [w]
        omega
      · rw [hworker]
        rfl
  | _ =>
    rw [hpc] at hs
    obtain ⟨b, hb, rfl⟩ := bufferStep_eq hs
    have hadvance : s.buffer.advance pool.numSlots t = some b := hb
    have hpopping : (s.buffer.pc t).Popping :=
      (hthread.worker rfl).resolve_right (by simp [hpc])
    have hblocking := BoundedBuffer.State.advance_blocking hadvance hpopping hthread.blocking.1
    obtain ⟨hpushed, hnext, hpending, new, hpopped, hresult⟩ :=
      BoundedBuffer.State.advance_popping hadvance hpopping
    have hnone : (s.buffer.pc t).pending = [] := by
      cases hp : s.buffer.pc t <;> rw [hp] at hpopping <;> first | rfl | exact hpopping.elim
    have hmap : (new.map (Prod.mk t)).map Prod.snd = new := by simp [Function.comp_def]
    have hchannel : ∀ u, onChannel u (new.map (Prod.mk t)) = if u = t then new else [] := by
      intro u
      by_cases hu : u = t
      · simp [hu, onChannel, List.filter_map, Function.comp_def]
      · simp [hu, onChannel, List.filter_map, Function.comp_def, Ne.symm hu]
    refine h.stays ht hworker (h.buffer.step hb) (BoundedBuffer.State.advance_pc hadvance) ?_
      (hpending.trans hnone.symm) (.popping (.inl hnext) hblocking) ?_ (fun u hu => ?_) ?_
    · rw [BoundedBuffer.State.values, hpushed, BoundedBuffer.State.values]
    · rw [hpopped, onChannel_append, hchannel, if_pos rfl, htook, hresult]
      simp [WorkerPc.holding]
    · rw [hpopped, onChannel_append, hchannel, if_neg hu, List.append_nil]
    · rw [hpopped, List.map_append, hmap, exitsIn_append, hresult, exitsIn_append]
      omega

theorem workerStep (h : Ok pool s) (ht : pool.isWorker t = true) (hs : s.workerStep pool t = some s') :
    Ok pool s' := by
  cases hworker : s.worker t with
  | exited =>
    simp only [State.workerStep, hworker] at hs
    cases hs
  | posting x =>
    simp only [State.workerStep, hworker, State.setWorker] at hs
    cases hs
    exact h.posts ht hworker
  | working w =>
    cases hroutine : w.routine with
    | pthreadExit =>
      obtain rfl := h.eq_exit hworker (by simp only [Work.isCall, hroutine])
      simp only [State.workerStep, hworker, hroutine, State.setWorker] at hs
      cases hs
      exact h.leaves ht hworker
    | call arg =>
      have hcall : w.isCall = true := by simp only [Work.isCall, hroutine]
      simp only [State.workerStep, hworker, hroutine, State.afterWork, State.setWorker] at hs
      cases hflag : w.workDoneFlag with
      | none =>
        rw [hflag] at hs
        cases hs
        exact h.runs ht hworker hcall rfl fun y => by rw [hflag]; rfl
      | some x =>
        rw [hflag] at hs
        cases hs
        exact h.runs ht hworker hcall rfl fun y => by simp [hflag, WorkerPc.postingOn]
  | waiting => exact h.waits ht hworker hs

theorem step (h : Ok pool s) {a : Action T α H} (ha : Proper s a) (hs : s.step pool a = some s') :
    Ok pool s' := by
  cases a with
  | addWork t w =>
    simp only [State.step] at hs
    split_ifs at hs with ht
    refine h.pushes ht (fun _ => ⟨ha.2, ha.1⟩) (fun hpos => absurd ha.2 hpos.ne') ?_ h.exits_le hs
    simp [exitsIn, ha.1]
  | finish =>
    simp only [State.step] at hs
    split_ifs at hs with hlt
    refine h.pushes pool.main_not_worker (fun hzero => absurd hzero (Nat.succ_ne_zero s.exits))
      (fun _ => ⟨rfl, fun u w hw => ?_⟩) rfl hlt hs
    rcases Nat.eq_zero_or_pos s.exits with hzero | hpos
    · have hcall := h.works.calls hzero u w hw
      rw [ha u w hw] at hcall
      cases hcall
    · exact h.works.exits hpos u w hw
  | wait t x =>
    simp only [State.step] at hs
    split at hs
    · split_ifs at hs with hwait
      cases hs
      refine ⟨h.buffer, h.threads, h.took, h.executed_calls, h.works, h.exits_eq, h.exits_le, h.taken,
        fun y => ?_⟩
      have hhandles := h.handles y
      by_cases hxy : x = y
      · subst hxy
        have hpos := hwait.2
        simp only [List.count_append, List.count_singleton_self, Function.update_self]
        omega
      · simpa [List.count_append, List.count_singleton, hxy, Ne.symm hxy] using hhandles
    · cases hs
  | step t =>
    simp only [State.step] at hs
    split_ifs at hs with ht
    · exact h.workerStep ht hs
    · exact h.callerStep (by simpa using ht) hs

end Ok

/-! ### What the pool promises -/

section Runs

variable {pool : Pool T} {slots : ℕ → Work α H} {s : State T α H}

theorem ok_of_run (h : Run (State.step pool) Proper (State.init pool slots) s) : Ok pool s :=
  h.invariant (Ok pool) (ok_init pool slots) fun _ _ _ ht hp ha => ht.step hp ha

/-- A wait on a handle has succeeded at most as often as a work with this handle is done. -/
theorem waits_for_work (h : Run (State.step pool) Proper (State.init pool slots) s) (x : H) :
    s.waits.count x ≤ s.executed.countP fun e => e.2.workDoneFlag = some x := by
  have := (ok_of_run h).handles x
  omega

theorem waits_for_work_one : ∃ s : State (Fin 2) ℕ ℕ, s.waits = [7] ∧
    s.waits.count 7 ≤ s.executed.countP fun e => e.2.workDoneFlag = some 7 := by
  have hreplay : (Run.replay (State.step oneWorker) Proper (State.init oneWorker fun _ => .exit)
      (.addWork 0 ⟨.call 5, some 7⟩ :: List.replicate 6 (.step 0) ++ List.replicate 10 (.step 1) ++
        [.wait 0 7])).any
        (fun s => s.waits = [7]) = true := by decide
  obtain ⟨s, hrun, hwaits⟩ := Run.exists_of_any hreplay
  exact ⟨s, of_decide_eq_true hwaits, waits_for_work hrun 7⟩

omit [Fintype T] [DecidableEq T] [DecidableEq H] in
theorem exitsIn_pos_of_mem {works : List (Work α H)} (h : .exit ∈ works) : 0 < exitsIn works :=
  List.countP_pos_iff.2 ⟨_, h, rfl⟩

theorem Ok.all_taken (h : Ok pool s) (hexit : 0 < exitsIn (s.buffer.popped.map Prod.snd)) :
    (s.buffer.popped.map Prod.snd).filter Work.isCall = s.buffer.values.filter Work.isCall := by
  obtain ⟨jobs, k, hvalues, hjobs, _⟩ := h.works.values_eq
  have hnone : (List.replicate k (Work.exit : Work α H)).filter Work.isCall = [] :=
    List.filter_eq_nil_iff.2 fun w hw => by rw [List.eq_of_mem_replicate hw]; exact nofun
  rw [h.buffer.ring.fifo, hvalues] at hexit ⊢
  have hle : jobs.length ≤ s.buffer.popped.length := by
    by_contra hlt
    rw [List.take_append_of_le_length (Nat.le_of_not_le hlt)] at hexit
    obtain ⟨w, hw, hnot⟩ := List.countP_pos_iff.1 hexit
    have hcall := hjobs w (List.mem_of_mem_take hw)
    simp [hcall] at hnot
  rw [List.take_append, List.take_of_length_le hle, List.filter_append, List.filter_append, hnone,
    List.take_replicate]
  congr 1
  exact List.filter_eq_nil_iff.2 fun w hw => by rw [List.eq_of_mem_replicate hw]; exact nofun

/-- When the workers of a pool have exited, each work that was added has been executed exactly once. -/
theorem Ok.executed_all (hok : Ok pool s) (hpos : 0 < pool.numThreads)
    (hexited : ∀ t, pool.isWorker t = true → s.worker t = .exited) :
    (s.executed.map Prod.snd).Perm (s.buffer.values.filter Work.isCall) := by
  have hholding : ∀ t, (s.buffer.pc t).result ++ (s.worker t).holding = [] ∨
      (s.buffer.pc t).result ++ (s.worker t).holding = [.exit] := by
    intro t
    cases ht : pool.isWorker t with
    | true =>
      right
      rw [(hok.threads t).busy (by rw [hexited t ht]; exact nofun), hexited t ht]
      rfl
    | false =>
      left
      obtain ⟨hpc, hwaiting⟩ := (hok.threads t).caller ht
      rw [hwaiting]
      cases hp : s.buffer.pc t <;> rw [hp] at hpc <;> first | rfl | simp [Pc.Pushing] at hpc
  have hchannels : ∀ t, onChannel t (s.buffer.popped.filter fun e => e.2.isCall) = onChannel t s.executed := by
    intro t
    have hcalls : ∀ w ∈ onChannel t s.executed, w.isCall = true := by
      intro w hw
      obtain ⟨e, he, rfl⟩ := List.mem_map.1 (mem_of_onChannel hw)
      exact hok.executed_calls e he
    have hfilter : onChannel t (s.buffer.popped.filter fun e => e.2.isCall) =
        (onChannel t s.buffer.popped).filter Work.isCall := by
      rw [onChannel, onChannel, List.filter_map, List.filter_filter, List.filter_filter]
      simp only [Function.comp_def, Bool.and_comm]
    rw [hfilter, hok.took t, List.append_assoc, List.filter_append, List.filter_eq_self.2 hcalls]
    rcases hholding t with hnil | hexit
    · rw [hnil, List.filter_nil, List.append_nil]
    · rw [hexit]
      exact List.append_nil _
  have htaken : 0 < exitsIn (s.buffer.popped.map Prod.snd) := by
    obtain ⟨t, ht⟩ := Finset.card_pos.1 hpos
    have hworker := (Finset.mem_filter.1 ht).2
    refine exitsIn_pos_of_mem (mem_of_onChannel (t := t) ?_)
    rw [hok.took t, hexited t hworker]
    exact List.mem_append_right _ (List.mem_singleton.2 rfl)
  have hperm := ((perm_of_onChannel hchannels).map Prod.snd).symm
  have hfilter : (s.buffer.popped.filter fun e => e.2.isCall).map Prod.snd =
      (s.buffer.popped.map Prod.snd).filter Work.isCall := by
    rw [List.filter_map]
    rfl
  rwa [hfilter, hok.all_taken htaken] at hperm

/-- The steps that the threads of the pool take, in the order of a schedule. -/
def State.follow (pool : Pool T) (s : State T α H) (ts : List T) : Option (State T α H) :=
  ts.foldlM (fun s t => s.step pool (.step t)) s

/-- A bound on the steps of a thread before it waits for work. -/
def weight : Pc (Work α H) × WorkerPc α H → ℕ
  | (pc, .waiting) => pc.effort
  | (_, .working _) => 26
  | (_, .posting _) => 25
  | (_, .exited) => 0

def State.measure (s : State T α H) : ℕ :=
  total weight (fun t => (s.buffer.pc t, s.worker t)) + 20 * (s.buffer.pushed.length - s.buffer.popped.length)

omit [DecidableEq H] in
theorem measure_lt {t : T} {s' : State T α H} (h : s'.buffer.popped.length ≤ s'.buffer.pushed.length)
    (hpc : ∀ u, u ≠ t → s'.buffer.pc u = s.buffer.pc u) (hworker : ∀ u, u ≠ t → s'.worker u = s.worker u)
    (hlt : weight (s'.buffer.pc t, s'.worker t) + 20 * s'.buffer.pushed.length + 20 * s.buffer.popped.length <
      weight (s.buffer.pc t, s.worker t) + 20 * s.buffer.pushed.length + 20 * s'.buffer.popped.length) :
    s'.measure < s.measure := by
  have htotal := total_update weight (fun t => (s.buffer.pc t, s.worker t)) t (s'.buffer.pc t, s'.worker t)
  have hupdate : Function.update (fun t => (s.buffer.pc t, s.worker t)) t (s'.buffer.pc t, s'.worker t) =
      fun t => (s'.buffer.pc t, s'.worker t) := by
    funext u
    by_cases hu : u = t
    · rw [hu, Function.update_self]
    · rw [Function.update_of_ne hu, hpc u hu, hworker u hu]
  rw [hupdate] at htotal
  simp only [State.measure]
  omega

theorem Ok.measure_step {t : T} {s' : State T α H} (h : Ok pool s) (hs : s.step pool (.step t) = some s') :
    s'.measure < s.measure ∧ s'.exits = s.exits := by
  have hle : s'.buffer.popped.length ≤ s'.buffer.pushed.length :=
    (h.step (a := .step t) trivial hs).buffer.popped_le
  have hadvances : ∀ {b}, s.worker t = .waiting → s.buffer.advance pool.numSlots t = some b →
      s' = { s with buffer := b } → s'.measure < s.measure ∧ s'.exits = s.exits := by
    rintro b hwaiting hb rfl
    refine ⟨measure_lt hle (fun u hu => BoundedBuffer.State.advance_pc_of_ne hb hu) (fun _ _ => rfl) ?_, rfl⟩
    simp only [hwaiting, weight]
    exact BoundedBuffer.State.advance_effort hb
  simp only [State.step] at hs
  split_ifs at hs with ht
  · cases hworker : s.worker t with
    | exited =>
      simp only [State.workerStep, hworker] at hs
      cases hs
    | posting x =>
      simp only [State.workerStep, hworker, State.setWorker] at hs
      cases hs
      have hidle := (h.threads t).busy (by rw [hworker]; simp)
      refine ⟨measure_lt hle (fun _ _ => rfl) (fun u hu => Function.update_of_ne hu _ _) ?_, rfl⟩
      simp only [hidle, hworker, Function.update_self, weight, Pc.effort]
      omega
    | working w =>
      have hidle := (h.threads t).busy (by rw [hworker]; simp)
      have hsets : ∀ {p executed}, weight (.idle, p) < 26 →
          s' = { s with executed := executed, worker := Function.update s.worker t p } →
            s'.measure < s.measure ∧ s'.exits = s.exits := by
        rintro p executed hp rfl
        refine ⟨measure_lt hle (fun _ _ => rfl) (fun u hu => Function.update_of_ne hu _ _) ?_, rfl⟩
        simp only [hidle, hworker, Function.update_self, weight] at hp ⊢
        omega
      cases hroutine : w.routine <;> simp only [State.workerStep, hworker, hroutine, Option.some.injEq] at hs
      case pthreadExit => exact hsets (p := .exited) (by simp [weight]) hs.symm
      case call arg =>
        rw [State.afterWork] at hs
        split at hs
        · next x _ => exact hsets (p := .posting x) (by simp [weight]) hs.symm
        · exact hsets (p := .waiting) (by simp [weight, Pc.effort]) hs.symm
    | waiting =>
      simp only [State.workerStep, hworker] at hs
      cases hpc : s.buffer.pc t with
      | idle =>
        rw [hpc] at hs
        obtain ⟨b, hb, rfl⟩ := Ok.bufferStep_eq hs
        obtain ⟨_, rfl⟩ := BoundedBuffer.State.pop_eq hb
        refine ⟨measure_lt hle (fun u hu => BoundedBuffer.State.goto_pc_of_ne hu) (fun _ _ => rfl) ?_, rfl⟩
        simp [hpc, hworker, weight, Pc.effort, BoundedBuffer.State.goto]
      | done r =>
        cases r with
        | none => exact absurd hpc (h.threads t).blocking.2
        | some w =>
          rw [hpc] at hs
          obtain ⟨b, hb, rfl⟩ := Ok.bufferStep_eq hs
          obtain rfl : b = s.buffer.goto t .idle := BoundedBuffer.State.finish_eq hb
          refine ⟨measure_lt hle (fun u hu => BoundedBuffer.State.goto_pc_of_ne hu)
            (fun u hu => Function.update_of_ne hu _ _) ?_, rfl⟩
          simp [hpc, hworker, weight, Pc.effort, BoundedBuffer.State.goto, State.setWorker]
      | _ =>
        rw [hpc] at hs
        obtain ⟨b, hb, hs'⟩ := Ok.bufferStep_eq hs
        exact hadvances hworker hb hs'
  · obtain ⟨b, hb, hs'⟩ := Ok.bufferStep_eq hs
    exact hadvances ((h.threads t).caller (by simpa using ht)).2 hb hs'

/-- A worker that cannot take a step has exited or waits for work. -/
theorem Ok.worker_stuck {t : T} (h : Ok pool s) (ht : pool.isWorker t = true)
    (hstuck : s.step pool (.step t) = none) :
    s.buffer.advance pool.numSlots t = none ∧
      (s.worker t = .exited ∨ s.worker t = .waiting ∧ s.buffer.pc t ≠ .idle ∧
      ∀ r, s.buffer.pc t ≠ .done r) := by
  simp only [State.step, if_pos ht, State.workerStep] at hstuck
  cases hworker : s.worker t <;> simp only [hworker] at hstuck
  case exited =>
    have hidle := (h.threads t).busy (by rw [hworker]; simp)
    exact ⟨by simp only [BoundedBuffer.State.advance, hidle], .inl rfl⟩
  case posting => cases hstuck
  case working w => cases hroutine : w.routine <;> simp [hroutine] at hstuck
  case waiting =>
    cases hpc : s.buffer.pc t <;> simp only [hpc] at hstuck
    case idle => simp [State.bufferStep, BoundedBuffer.State.step, hpc] at hstuck
    case done r =>
      cases r with
      | none => exact absurd hpc (h.threads t).blocking.2
      | some w => simp [State.bufferStep, BoundedBuffer.State.step, State.setWorker, hpc] at hstuck
    all_goals exact ⟨Option.map_eq_none_iff.1 hstuck, .inr ⟨rfl, by simp, by simp⟩⟩

/-- When no thread can take a step, the buffer is stuck, and no value is between the ring and a worker. -/
theorem Ok.stuck (h : Ok pool s) (hstuck : ∀ t, s.step pool (.step t) = none) :
    (∀ t, s.buffer.advance pool.numSlots t = none) ∧ ∀ t r, s.buffer.pc t ≠ .done r := by
  refine ⟨fun t => ?_, fun t r hr => ?_⟩
  · cases ht : pool.isWorker t with
    | true => exact (h.worker_stuck ht (hstuck t)).1
    | false =>
      have hcaller := hstuck t
      simp only [State.step, ht, Bool.false_eq_true, if_false] at hcaller
      exact Option.map_eq_none_iff.1 hcaller
  · cases ht : pool.isWorker t with
    | true =>
      rcases (h.worker_stuck ht (hstuck t)).2 with hexited | ⟨_, _, hne⟩
      · have hpc := (h.threads t).busy (by rw [hexited]; exact nofun)
        rw [hr] at hpc
        cases hpc
      · exact hne r hr
    | false =>
      have hpc := ((h.threads t).caller ht).1
      rw [hr] at hpc
      rcases hpc with hpc | hpc
      · exact hpc.elim
      · cases hpc

/-- While a worker waits for work, not all calls of `pthread_exit` have been taken. -/
theorem Ok.holding_lt {t : T} (h : Ok pool s) (ht : pool.isWorker t = true) (hwaiting : s.worker t = .waiting) :
    total (fun p => exitsIn p.holding) s.worker < pool.numThreads := by
  set workers := Finset.univ.filter fun u => pool.isWorker u with hworkers
  have hle : ∀ u ∈ Finset.univ, exitsIn (s.worker u).holding ≤ if u ∈ workers.erase t then 1 else 0 := by
    intro u _
    split_ifs with hu
    · have hlength : (s.worker u).holding.length ≤ 1 := by cases s.worker u <;> simp [WorkerPc.holding]
      exact List.countP_le_length.trans hlength
    · have hzero : s.worker u = .waiting := by
        by_cases hut : u = t
        · rw [hut, hwaiting]
        · refine ((h.threads u).caller ?_).2
          simpa [hworkers, hut] using hu
      rw [hzero]
      rfl
  calc total (fun p => exitsIn p.holding) s.worker
      ≤ ∑ u, if u ∈ workers.erase t then 1 else 0 := Finset.sum_le_sum hle
    _ = (workers.erase t).card := by rw [Finset.sum_ite_mem, Finset.univ_inter, Finset.card_eq_sum_ones]
    _ < workers.card := Finset.card_erase_lt_of_mem (Finset.mem_filter.2 ⟨Finset.mem_univ t, ht⟩)

/-- When all calls of `pthread_exit` are added and no thread can take a step, the workers have exited. -/
theorem Ok.exited_of_stuck (h : Ok pool s) (hexits : s.exits = pool.numThreads)
    (hstuck : ∀ t, s.step pool (.step t) = none) : ∀ t, pool.isWorker t = true → s.worker t = .exited := by
  obtain ⟨hadvance, hnotDone⟩ := h.stuck hstuck
  obtain ⟨hwaits, hempty, hfull⟩ := h.buffer.blocked hadvance
  intro t ht
  refine (h.worker_stuck ht (hstuck t)).2.resolve_right fun ⟨hwaiting, hidle, _⟩ => ?_
  -- A worker that waits has found the ring empty, so that all calls of `pthread_exit` have been taken.
  have hpc : s.buffer.pc t = .waitFull := by
    have hpopping := ((h.threads t).worker ht).resolve_right hidle
    have hwait := hwaits t
    cases hp : s.buffer.pc t <;> rw [hp] at hpopping hwait <;> first
      | rfl
      | exact hpopping.elim
      | exact hwait.elim
      | exact absurd hp (hnotDone t _)
  have hlength := hempty t hpc
  have hslots : 0 < pool.numSlots := by
    have : 0 < pool.numThreads := Finset.card_pos.2 ⟨t, Finset.mem_filter.2 ⟨Finset.mem_univ t, ht⟩⟩
    simp only [Pool.numSlots]
    omega
  have hpending : total (fun pc => exitsIn pc.pending) s.buffer.pc = 0 := total_eq_zero fun u => by
    have hwait := hwaits u
    cases hu : s.buffer.pc u <;> rw [hu] at hwait <;> first | rfl | exact hwait.elim | skip
    have := hfull u _ hu
    omega
  have hresult : total (fun pc => exitsIn pc.result) s.buffer.pc = 0 := total_eq_zero fun u => by
    have hwait := hwaits u
    cases hu : s.buffer.pc u <;> rw [hu] at hwait <;> first
      | rfl
      | exact hwait.elim
      | exact absurd hu (hnotDone u _)
  have hpopped : s.buffer.popped.map Prod.snd = s.buffer.values := by
    rw [h.buffer.ring.fifo, List.take_of_length_le]
    rw [BoundedBuffer.State.values, List.length_map]
    omega
  have hholding := h.holding_lt ht hwaiting
  have hexits_eq := h.exits_eq
  have htaken := h.taken
  rw [hpopped] at htaken
  omega

/-- When `tpool_finish` has added its calls of `pthread_exit`, every schedule ends, and where it does all
workers have exited and each work that was added has been executed exactly once. -/
theorem finish_joins (hpos : 0 < pool.numThreads) (h : Run (State.step pool) Proper (State.init pool slots) s)
    (hexits : s.exits = pool.numThreads) {ts : List T} {s' : State T α H} (hs : s.follow pool ts = some s') :
    ts.length ≤ s.measure ∧ ((∀ t, s'.step pool (.step t) = none) →
      (∀ t, pool.isWorker t = true → s'.worker t = .exited) ∧
        (s'.executed.map Prod.snd).Perm (s'.buffer.values.filter Work.isCall)) := by
  have hok := ok_of_run h
  have hfollow : ts.length + s'.measure ≤ s.measure ∧ Ok pool s' ∧ s'.exits = pool.numThreads := by
    clear h
    induction ts generalizing s with
    | nil =>
      cases hs
      exact ⟨by simp, hok, hexits⟩
    | cons t ts ih =>
      rw [State.follow, List.foldlM_cons] at hs
      obtain ⟨u, hu, hrest⟩ := Option.bind_eq_some_iff.1 hs
      obtain ⟨hlt, hsame⟩ := hok.measure_step hu
      obtain ⟨hle, hok', hexits'⟩ := ih (hsame.trans hexits) hrest (hok.step (a := .step t) trivial hu)
      exact ⟨by rw [List.length_cons]; omega, hok', hexits'⟩
  obtain ⟨hle, hok', hexits'⟩ := hfollow
  refine ⟨by omega, fun hstuck => ?_⟩
  have hexited := hok'.exited_of_stuck hexits' hstuck
  exact ⟨hexited, hok'.executed_all hpos hexited⟩

theorem finish_joins_one : ∃ s s' : State (Fin 2) ℕ ℕ, ∃ ts, s.follow oneWorker ts = some s' ∧
    ts.length ≤ s.measure ∧ s'.worker 1 = .exited ∧
      (s'.executed.map Prod.snd).Perm (s'.buffer.values.filter Work.isCall) := by
  have hreplay : (Run.replay (State.step oneWorker) Proper (State.init oneWorker fun _ => .exit)
      (.addWork 0 ⟨.call 5, none⟩ :: List.replicate 6 (.step 0) ++ [.finish])).any
        (fun s : State (Fin 2) ℕ ℕ => decide (s.exits = 1 ∧
          (s.follow oneWorker (List.replicate 6 0 ++ List.replicate 18 1)).any (fun s' =>
            decide (∀ t, (s'.step oneWorker (.step t)).isNone = true)) = true)) = true := by decide
  obtain ⟨s, hrun, hs⟩ := Run.exists_of_any hreplay
  obtain ⟨hexits, hany⟩ := of_decide_eq_true hs
  obtain ⟨s', hfollow, hstuck⟩ := (Option.any_eq_true _ _).1 hany
  have hthreads : oneWorker.numThreads = 1 := by decide
  have hpos : 0 < oneWorker.numThreads := hthreads.symm ▸ Nat.one_pos
  have hjoins := finish_joins hpos hrun (hexits.trans hthreads.symm) hfollow
  have hnone : ∀ t, s'.step oneWorker (.step t) = none := fun t =>
    Option.isNone_iff_eq_none.1 (of_decide_eq_true hstuck t)
  obtain ⟨hexited, hperm⟩ := hjoins.2 hnone
  exact ⟨s, s', _, hfollow, hjoins.1, hexited 1 rfl, hperm⟩

end Runs

end Cpf.Tpool
