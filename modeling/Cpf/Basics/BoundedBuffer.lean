import Cpf.Basics.RingIndex
import Cpf.Basics.Trans
import Mathlib.Algebra.BigOperators.Group.Finset.Basic

/-!
# Bounded buffers

A ring of `n` slots is shared by any number of threads. Two semaphores count the free and the full slots, and a
lock guards the slots and the two positions. `Ok` accounts for every slot, wherever the threads are in their
calls, so that no slot is overwritten before it is read or read before it is written.
-/

namespace Cpf.BoundedBuffer

variable {T α : Type*}

inductive Pc (α : Type*)
  | idle
  | waitFree (a : α)
  | lockPush (a : α)
  | write (a : α)
  | advancePut (a : α)
  | unlockPush
  | postFull
  | waitFull
  | tryFull
  | lockPop
  | read
  | advancePull (a : α)
  | unlockPop (a : α)
  | postFree (a : α)
  | done (r : Option α)

namespace Pc

/-- The thread has taken a free slot that is still to be written. -/
def claimsFree : Pc α → ℕ
  | .lockPush _ | .write _ | .advancePut _ => 1
  | _ => 0

/-- The thread has written a slot that is still to be announced. -/
def owesFull : Pc α → ℕ
  | .unlockPush | .postFull => 1
  | _ => 0

/-- The thread has taken a full slot that is still to be read. -/
def claimsFull : Pc α → ℕ
  | .lockPop | .read | .advancePull _ => 1
  | _ => 0

/-- The thread has read a slot that is still to be announced. -/
def owesFree : Pc α → ℕ
  | .unlockPop _ | .postFree _ => 1
  | _ => 0

def inside : Pc α → Bool
  | .write _ | .advancePut _ | .unlockPush | .read | .advancePull _ | .unlockPop _ => true
  | _ => false

def pending : Pc α → List α
  | .waitFree a | .lockPush a | .write a | .advancePut a => [a]
  | _ => []

/-- The value that the thread has popped and not returned yet. -/
def result : Pc α → List α
  | .unlockPop a | .postFree a | .done (some a) => [a]
  | _ => []

/-- A bound on the steps that a thread takes before it waits for a full slot, or has its value. -/
def effort : Pc α → ℕ
  | .waitFree _ => 40
  | .lockPush _ => 39
  | .write _ => 38
  | .advancePut _ => 37
  | .unlockPop _ => 29
  | .postFree _ | .tryFull => 28
  | .done _ => 27
  | .unlockPush => 16
  | .postFull => 15
  | .idle => 14
  | .waitFull => 13
  | .lockPop => 12
  | .read => 11
  | .advancePull _ => 10

def Pushing : Pc α → Prop
  | .waitFree _ | .lockPush _ | .write _ | .advancePut _ | .unlockPush | .postFull => True
  | _ => False

def Popping : Pc α → Prop
  | .waitFull | .tryFull | .lockPop | .read | .advancePull _ | .unlockPop _ | .postFree _ | .done _ => True
  | _ => False

/-- The thread is in a pop that does not wait for a value. -/
def Trying : Pc α → Prop
  | .tryFull | .lockPop | .read | .advancePull _ | .unlockPop _ | .postFree _ | .done _ => True
  | _ => False

theorem Trying.popping {p : Pc α} (h : p.Trying) : p.Popping := by
  cases p <;> trivial

/-- The thread is waiting for a semaphore, or has no call to go on with. -/
def Waits : Pc α → Prop
  | .idle | .done _ | .waitFree _ | .waitFull => True
  | _ => False

end Pc

/-- `pushed` and `popped` are the values in the order of the critical sections, each with its thread, and
`calls` are the values that a thread was called to push. -/
structure State (T α : Type*) where
  free : ℕ
  full : ℕ
  lock : Option T
  slots : ℕ → α
  put : ℕ
  pull : ℕ
  pc : T → Pc α
  pushed : List (T × α)
  popped : List (T × α)
  calls : T → List α

def State.init (n : ℕ) (slots : ℕ → α) : State T α :=
  ⟨n, 0, none, slots, 0, 0, fun _ => .idle, [], [], fun _ => []⟩

/-- A thread calls push, pop or the pop that does not wait, takes a step, or returns from a pop. -/
inductive Action (T α : Type*)
  | push (t : T) (a : α)
  | pop (t : T)
  | tryPop (t : T)
  | step (t : T)
  | finish (t : T)

namespace State

variable [DecidableEq T] (s : State T α)

def goto (t : T) (p : Pc α) : State T α := { s with pc := Function.update s.pc t p }

/-- The next step of a thread in its call. -/
def advance (n : ℕ) (t : T) : Option (State T α) :=
  match s.pc t with
  | .waitFree a => if 0 < s.free then some { s.goto t (.lockPush a) with free := s.free - 1 } else none
  | .lockPush a => if s.lock.isNone then some { s.goto t (.write a) with lock := some t } else none
  | .write a => some { s.goto t (.advancePut a) with slots := Function.update s.slots s.put a }
  | .advancePut a => some { s.goto t .unlockPush with
      put := (s.put + 1) % n
      pushed := s.pushed ++ [(t, a)] }
  | .unlockPush => some { s.goto t .postFull with lock := none }
  | .postFull => some { s.goto t .idle with full := s.full + 1 }
  | .waitFull => if 0 < s.full then some { s.goto t .lockPop with full := s.full - 1 } else none
  | .tryFull =>
      if 0 < s.full then some { s.goto t .lockPop with full := s.full - 1 } else some (s.goto t (.done none))
  | .lockPop => if s.lock.isNone then some { s.goto t .read with lock := some t } else none
  | .read => some (s.goto t (.advancePull (s.slots s.pull)))
  | .advancePull a => some { s.goto t (.unlockPop a) with
      pull := (s.pull + 1) % n
      popped := s.popped ++ [(t, a)] }
  | .unlockPop a => some { s.goto t (.postFree a) with lock := none }
  | .postFree a => some { s.goto t (.done (some a)) with free := s.free + 1 }
  | .idle | .done _ => none

def step (n : ℕ) : Action T α → Option (State T α)
  | .push t a =>
      match s.pc t with
      | .idle => some { s.goto t (.waitFree a) with
          calls := Function.update s.calls t (s.calls t ++ [a]) }
      | _ => none
  | .pop t =>
      match s.pc t with
      | .idle => some (s.goto t .waitFull)
      | _ => none
  | .tryPop t =>
      match s.pc t with
      | .idle => some (s.goto t .tryFull)
      | _ => none
  | .step t => s.advance n t
  | .finish t =>
      match s.pc t with
      | .done _ => some (s.goto t .idle)
      | _ => none

end State

/-! ### What a step changes -/

namespace State

variable [DecidableEq T] {n : ℕ} {s s' : State T α} {t u : T}

theorem goto_pc_of_ne {p : Pc α} (hu : u ≠ t) : (s.goto t p).pc u = s.pc u := Function.update_of_ne hu _ _

theorem advance_pc_of_ne (h : s.advance n t = some s') (hu : u ≠ t) : s'.pc u = s.pc u := by
  cases hpc : s.pc t <;> simp only [State.advance, hpc] at h <;> (try split_ifs at h) <;> cases h <;>
    exact Function.update_of_ne hu _ _

theorem advance_pc (h : s.advance n t = some s') : s'.pc = Function.update s.pc t (s'.pc t) := by
  funext u
  by_cases hu : u = t
  · rw [hu, Function.update_self]
  · rw [Function.update_of_ne hu, advance_pc_of_ne h hu]

theorem push_eq {a : α} (h : s.step n (.push t a) = some s') : s.pc t = .idle ∧
    s' = { s.goto t (.waitFree a) with calls := Function.update s.calls t (s.calls t ++ [a]) } := by
  simp only [step] at h
  split at h
  · next hpc => exact ⟨hpc, (Option.some.inj h).symm⟩
  · cases h

theorem pop_eq (h : s.step n (.pop t) = some s') : s.pc t = .idle ∧ s' = s.goto t .waitFull := by
  simp only [step] at h
  split at h
  · next hpc => exact ⟨hpc, (Option.some.inj h).symm⟩
  · cases h

theorem finish_eq (h : s.step n (.finish t) = some s') : s' = s.goto t .idle := by
  simp only [step] at h
  split at h
  · exact (Option.some.inj h).symm
  · cases h

theorem advance_blocking (h : s.advance n t = some s') (hp : (s.pc t).Popping) (hne : s.pc t ≠ .tryFull) :
    s'.pc t ≠ .tryFull ∧ s'.pc t ≠ .done none := by
  cases hpc : s.pc t <;> rw [hpc] at hp <;> simp only [State.advance, hpc] at h
  case tryFull => exact absurd hpc hne
  case waitFull =>
    split_ifs at h
    cases h
    simp [goto]
  case lockPop =>
    split_ifs at h
    cases h
    simp [goto]
  case done => cases h
  all_goals first
    | exact hp.elim
    | cases h
      simp [goto]

theorem advance_pushing (h : s.advance n t = some s') (hp : (s.pc t).Pushing) :
    s'.popped = s.popped ∧ ((s'.pc t).Pushing ∨ s'.pc t = .idle) ∧ ∃ new, s'.pushed = s.pushed ++
    new.map (Prod.mk t) ∧
      (s.pc t).pending = new ++ (s'.pc t).pending := by
  cases hpc : s.pc t <;> rw [hpc] at hp <;> simp only [State.advance, hpc] at h
  case waitFree a =>
    split_ifs at h
    cases h
    exact ⟨rfl, .inl (by simp [goto, Pc.Pushing]), [], (List.append_nil _).symm, by simp [goto, Pc.pending]⟩
  case lockPush a =>
    split_ifs at h
    cases h
    exact ⟨rfl, .inl (by simp [goto, Pc.Pushing]), [], (List.append_nil _).symm, by simp [goto, Pc.pending]⟩
  case write a =>
    cases h
    exact ⟨rfl, .inl (by simp [goto, Pc.Pushing]), [], (List.append_nil _).symm, by simp [goto, Pc.pending]⟩
  case advancePut a =>
    cases h
    exact ⟨rfl, .inl (by simp [goto, Pc.Pushing]), [a], rfl, by simp [goto, Pc.pending]⟩
  case unlockPush =>
    cases h
    exact ⟨rfl, .inl (by simp [goto, Pc.Pushing]), [], (List.append_nil _).symm, by simp [goto, Pc.pending]⟩
  case postFull =>
    cases h
    exact ⟨rfl, .inr (by simp [goto]), [], (List.append_nil _).symm, by simp [goto, Pc.pending]⟩
  all_goals exact hp.elim

theorem advance_trying (h : s.advance n t = some s') (hp : (s.pc t).Trying) : (s'.pc t).Trying := by
  cases hpc : s.pc t <;> rw [hpc] at hp <;> simp only [State.advance, hpc] at h
  case tryFull =>
    split_ifs at h <;> cases h <;> simp [goto, Pc.Trying]
  case lockPop =>
    split_ifs at h
    cases h
    simp [goto, Pc.Trying]
  case done r => cases h
  case read | advancePull | unlockPop | postFree =>
    cases h
    simp [goto, Pc.Trying]
  all_goals exact hp.elim

theorem advance_popping (h : s.advance n t = some s') (hp : (s.pc t).Popping) :
    s'.pushed = s.pushed ∧ (s'.pc t).Popping ∧ (s'.pc t).pending = [] ∧ ∃ new,
      s'.popped = s.popped ++ new.map (Prod.mk t) ∧ (s'.pc t).result = (s.pc t).result ++ new := by
  cases hpc : s.pc t <;> rw [hpc] at hp <;> simp only [State.advance, hpc] at h
  case waitFull =>
    split_ifs at h
    cases h
    exact ⟨rfl, by simp [goto, Pc.Popping], by simp [goto, Pc.pending], [], (List.append_nil _).symm,
      by simp [goto, Pc.result]⟩
  case tryFull =>
    split_ifs at h <;> cases h <;>
      exact ⟨rfl, by simp [goto, Pc.Popping], by simp [goto, Pc.pending], [], (List.append_nil _).symm,
        by simp [goto, Pc.result]⟩
  case lockPop =>
    split_ifs at h
    cases h
    exact ⟨rfl, by simp [goto, Pc.Popping], by simp [goto, Pc.pending], [], (List.append_nil _).symm,
      by simp [goto, Pc.result]⟩
  case read =>
    cases h
    exact ⟨rfl, by simp [goto, Pc.Popping], by simp [goto, Pc.pending], [], (List.append_nil _).symm,
      by simp [goto, Pc.result]⟩
  case advancePull a =>
    cases h
    exact ⟨rfl, by simp [goto, Pc.Popping], by simp [goto, Pc.pending], [a], rfl, by simp [goto, Pc.result]⟩
  case unlockPop a =>
    cases h
    exact ⟨rfl, by simp [goto, Pc.Popping], by simp [goto, Pc.pending], [], (List.append_nil _).symm,
      by simp [goto, Pc.result]⟩
  case postFree a =>
    cases h
    exact ⟨rfl, by simp [goto, Pc.Popping], by simp [goto, Pc.pending], [], (List.append_nil _).symm,
      by simp [goto, Pc.result]⟩
  case done r => cases h
  all_goals exact hp.elim

/-- A step uses up effort, where a value that is pushed makes room for the steps that pop it. -/
theorem advance_effort (h : s.advance n t = some s') :
    (s'.pc t).effort + 20 * s'.pushed.length + 20 * s.popped.length <
      (s.pc t).effort + 20 * s.pushed.length + 20 * s'.popped.length := by
  cases hpc : s.pc t <;> simp only [State.advance, hpc] at h <;> (try split_ifs at h) <;> cases h <;>
    simp only [goto, Function.update_self, Pc.effort, List.length_append, List.length_singleton] <;> omega

end State

/-! ### Counting threads -/

section Total

variable {β : Type*} [Fintype T]

def total (w : β → ℕ) (pc : T → β) : ℕ := ∑ t, w (pc t)

theorem total_update [DecidableEq T] (w : β → ℕ) (pc : T → β) (t : T) (p : β) :
    total w (Function.update pc t p) + w (pc t) = total w pc + w p := by
  have hsplit : ∀ q : T → β, total w q = w (q t) + ∑ u ∈ Finset.univ.erase t, w (q u) := fun q =>
    (Finset.add_sum_erase _ _ (Finset.mem_univ t)).symm
  have hrest : ∑ u ∈ Finset.univ.erase t, w (Function.update pc t p u) = ∑ u ∈ Finset.univ.erase t, w (pc u) :=
    Finset.sum_congr rfl fun u hu => by rw [Function.update_of_ne (Finset.ne_of_mem_erase hu)]
  rw [hsplit, hsplit pc, hrest, Function.update_self]
  omega

theorem le_total (w : β → ℕ) (pc : T → β) (t : T) : w (pc t) ≤ total w pc :=
  Finset.single_le_sum (f := fun t => w (pc t)) (fun _ _ => Nat.zero_le _) (Finset.mem_univ t)

theorem total_eq_zero {w : β → ℕ} {pc : T → β} (h : ∀ t, w (pc t) = 0) : total w pc = 0 :=
  Finset.sum_eq_zero fun t _ => h t

end Total

/-! ### The invariant -/

variable [Fintype T] [DecidableEq T]

def State.values (s : State T α) : List α := s.pushed.map Prod.snd

/-- The positions and the slots hold the values that were pushed and not popped yet. -/
structure Ring (n : ℕ) (s : State T α) : Prop where
  put_eq : s.put = s.pushed.length % n
  pull_eq : s.pull = s.popped.length % n
  cells : ∀ i, s.popped.length ≤ i → ∀ h : i < s.values.length, s.slots (i % n) = s.values[i]
  fifo : s.popped.map Prod.snd = s.values.take s.popped.length

structure Ok (n : ℕ) (s : State T α) : Prop where
  free_eq : s.free + total Pc.claimsFree s.pc + s.pushed.length + total Pc.owesFree s.pc = n + s.popped.length
  full_eq : s.full + total Pc.owesFull s.pc + total Pc.claimsFull s.pc + s.popped.length = s.pushed.length
  lock_iff : ∀ t, (s.pc t).inside = true ↔ s.lock = some t
  ring : Ring n s
  written : ∀ t a, s.pc t = .advancePut a → s.slots s.put = a
  taken : ∀ t a, s.pc t = .advancePull a → s.values[s.popped.length]? = some a
  calls_eq : ∀ t, (s.pushed.filter fun e => e.1 = t).map Prod.snd ++ (s.pc t).pending = s.calls t

omit [DecidableEq T] in
theorem total_idle {w : Pc α → ℕ} (h : w .idle = 0) : total w (fun _ : T => (.idle : Pc α)) = 0 :=
  total_eq_zero fun _ => h

theorem ok_init (n : ℕ) (slots : ℕ → α) : Ok n (State.init n slots : State T α) where
  free_eq := by
    rw [State.init, total_idle rfl, total_idle rfl]
    rfl
  full_eq := by
    rw [State.init, total_idle rfl, total_idle rfl]
    rfl
  lock_iff t := by simp [State.init, Pc.inside]
  ring := ⟨(Nat.zero_mod n).symm, (Nat.zero_mod n).symm, fun i _ hi => absurd hi (Nat.not_lt_zero i), rfl⟩
  written _ _ ha := by cases ha
  taken _ _ ha := by cases ha
  calls_eq _ := rfl

namespace Ok

variable {n : ℕ} {s s' : State T α} {t : T}

theorem popped_le (h : Ok n s) : s.popped.length ≤ s.pushed.length := by
  have := h.full_eq
  omega

/-- There are never more than `n` values between the two positions. -/
theorem pushed_le (h : Ok n s) : s.pushed.length ≤ n + s.popped.length := by
  have := h.free_eq
  omega

/-- No two threads are in the critical section. -/
theorem inside_unique (h : Ok n s) {u : T} (ht : (s.pc t).inside = true)
    (hu : (s.pc u).inside = true) : t = u :=
  Option.some.inj (((h.lock_iff t).1 ht).symm.trans ((h.lock_iff u).1 hu))

/-- A free slot that is claimed leaves room in the ring. -/
theorem lt_of_claimsFree (h : Ok n s) (ht : (s.pc t).claimsFree = 1) :
    s.pushed.length < n + s.popped.length := by
  have hle := le_total Pc.claimsFree s.pc t
  have := h.free_eq
  omega

/-- A full slot that is claimed holds a value. -/
theorem lt_of_claimsFull (h : Ok n s) (ht : (s.pc t).claimsFull = 1) : s.popped.length < s.pushed.length := by
  have hle := le_total Pc.claimsFull s.pc t
  have := h.full_eq
  omega

theorem steps (h : Ok n s) {p : Pc α} (hpc : s'.pc = Function.update s.pc t p)
    (hfree : s'.free + p.claimsFree + p.owesFree + s'.pushed.length + s.popped.length =
      s.free + (s.pc t).claimsFree + (s.pc t).owesFree + s.pushed.length + s'.popped.length)
    (hfull : s'.full + p.owesFull + p.claimsFull + s'.popped.length + s.pushed.length =
      s.full + (s.pc t).owesFull + (s.pc t).claimsFull + s.popped.length + s'.pushed.length)
    (hlock : p.inside = true ↔ s'.lock = some t) (hothers : ∀ u, u ≠ t → (s'.lock = some u ↔ s.lock = some u))
    (hring : Ring n s') (hwritten : ∀ a, p = .advancePut a → s'.slots s'.put = a)
    (hwrittens : ∀ u a, u ≠ t → s.pc u = .advancePut a → s'.slots s'.put = a)
    (htaken : ∀ a, p = .advancePull a → s'.values[s'.popped.length]? = some a)
    (htakens : ∀ u a, u ≠ t → s.pc u = .advancePull a → s'.values[s'.popped.length]? = some a)
    (hcalls : ∀ u, u ≠ t → s'.calls u = s.calls u ∧
      s'.pushed.filter (fun e => e.1 = u) = s.pushed.filter fun e => e.1 = u)
    (hcall : (s'.pushed.filter fun e => e.1 = t).map Prod.snd ++ p.pending = s'.calls t) : Ok n s' := by
  have hclaimsFree := total_update Pc.claimsFree s.pc t p
  have howesFree := total_update Pc.owesFree s.pc t p
  have hclaimsFull := total_update Pc.claimsFull s.pc t p
  have howesFull := total_update Pc.owesFull s.pc t p
  have hfree_eq := h.free_eq
  have hfull_eq := h.full_eq
  refine ⟨?_, ?_, fun u => ?_, hring, fun u a hu => ?_, fun u a hu => ?_, fun u => ?_⟩
  · rw [hpc]
    omega
  · rw [hpc]
    omega
  · by_cases hut : u = t
    · rw [hpc, hut, Function.update_self]
      exact hlock
    · rw [hpc, Function.update_of_ne hut, hothers u hut]
      exact h.lock_iff u
  · by_cases hut : u = t
    · rw [hpc, hut, Function.update_self] at hu
      exact hwritten a hu
    · rw [hpc, Function.update_of_ne hut] at hu
      exact hwrittens u a hut hu
  · by_cases hut : u = t
    · rw [hpc, hut, Function.update_self] at hu
      exact htaken a hu
    · rw [hpc, Function.update_of_ne hut] at hu
      exact htakens u a hut hu
  · by_cases hut : u = t
    · rw [hpc, hut, Function.update_self]
      exact hcall
    · rw [hpc, Function.update_of_ne hut, (hcalls u hut).1, (hcalls u hut).2]
      exact h.calls_eq u

theorem moves (h : Ok n s) {p : Pc α} {free full : ℕ} {lock : Option T} {calls : T → List α}
    (hfree : free + p.claimsFree + p.owesFree = s.free + (s.pc t).claimsFree + (s.pc t).owesFree)
    (hfull : full + p.owesFull + p.claimsFull = s.full + (s.pc t).owesFull + (s.pc t).claimsFull)
    (hlock : p.inside = true ↔ lock = some t) (hothers : ∀ u, u ≠ t → (lock = some u ↔ s.lock = some u))
    (hwritten : ∀ a, p ≠ .advancePut a) (htaken : ∀ a, p = .advancePull a → s.values[s.popped.length]? = some a)
    (hcalls : ∀ u, u ≠ t → calls u = s.calls u)
    (hcall : (s.pushed.filter fun e => e.1 = t).map Prod.snd ++ p.pending = calls t) :
    Ok n { s.goto t p with free := free, full := full, lock := lock, calls := calls } := by
  refine h.steps (t := t) (p := p) rfl ?_ ?_ hlock hothers ⟨h.ring.put_eq, h.ring.pull_eq, h.ring.cells,
    h.ring.fifo⟩
    (fun a ha => absurd ha (hwritten a)) (fun u a _ hu => h.written u a hu) htaken
      (fun u a _ hu => h.taken u a hu)
    (fun u hu => ⟨hcalls u hu, rfl⟩) hcall
  · show free + _ + _ + s.pushed.length + s.popped.length = s.free + _ + _ + s.pushed.length + s.popped.length
    omega
  · show full + _ + _ + s.popped.length + s.pushed.length = s.full + _ + _ + s.popped.length + s.pushed.length
    omega

/-- The slot that is written holds no value that is still to be read. -/
theorem write (h : Ok n s) {a : α} (ht : s.pc t = .write a) :
    Ok n { s.goto t (.advancePut a) with slots := Function.update s.slots s.put a } := by
  have hlt := h.lt_of_claimsFree (t := t) (by rw [ht]; rfl)
  have hinside : (s.pc t).inside = true := by rw [ht]; rfl
  have hcalls := h.calls_eq t
  rw [ht] at hcalls
  refine h.steps (t := t) (p := .advancePut a) rfl (by rw [ht]; rfl) (by rw [ht]; rfl)
    (iff_of_true rfl ((h.lock_iff t).1 hinside)) (fun u _ => Iff.rfl)
    ⟨h.ring.put_eq, h.ring.pull_eq, fun i hle hi => ?_, h.ring.fifo⟩
    (fun b hb => ?_) (fun u b hu hb => ?_) (fun b hb => by cases hb) (fun u b hu hb => ?_)
    (fun u _ => ⟨rfl, rfl⟩) hcalls
  · have hi' : i < s.pushed.length := by simpa [State.values, State.goto] using hi
    have hne : i % n ≠ s.put := by
      rw [h.ring.put_eq]
      have hle' : _ := hle
      simp only [State.goto] at hle'
      exact fun heq => hi'.ne ((RingIndex.mod_eq_mod_iff hi'.le (by omega)).1 heq)
    show Function.update s.slots s.put a (i % n) = _
    rw [Function.update_of_ne hne]
    exact h.ring.cells i hle hi
  · cases hb
    exact Function.update_self _ _ _
  · exact absurd (h.inside_unique (by rw [hb]; rfl) hinside) hu
  · exact absurd (h.inside_unique (by rw [hb]; rfl) hinside) hu

theorem advancePut (h : Ok n s) {a : α} (ht : s.pc t = .advancePut a) :
    Ok n { s.goto t .unlockPush with put := (s.put + 1) % n, pushed := s.pushed ++ [(t, a)] } := by
  have hlt := h.lt_of_claimsFree (t := t) (by rw [ht]; rfl)
  have hinside : (s.pc t).inside = true := by rw [ht]; rfl
  have hslot := h.written t a ht
  have hcalls := h.calls_eq t
  rw [ht] at hcalls
  have hvalues : (s.pushed ++ [(t, a)]).map Prod.snd = s.values ++ [a] := List.map_append
  refine h.steps (t := t) (p := .unlockPush) rfl ?_ ?_ (iff_of_true rfl ((h.lock_iff t).1 hinside))
    (fun u _ => Iff.rfl) ⟨?_, h.ring.pull_eq, fun i hle hi => ?_, ?_⟩ (fun b hb => by cases hb)
    (fun u b hu hb => ?_) (fun b hb => by cases hb) (fun u b hu hb => ?_) (fun u hu => ⟨rfl, ?_⟩) ?_
  · rw [ht, List.length_append]
    simp only [Pc.claimsFree, Pc.owesFree, State.goto, List.length_singleton]
    omega
  · rw [ht, List.length_append]
    simp only [Pc.claimsFull, Pc.owesFull, State.goto, List.length_singleton]
    omega
  · show (s.put + 1) % n = (s.pushed ++ [(t, a)]).length % n
    rw [h.ring.put_eq, List.length_append, List.length_singleton, Nat.mod_add_mod]
  · show s.slots (i % n) = ((s.pushed ++ [(t, a)]).map Prod.snd)[i]
    simp only [hvalues]
    by_cases hlast : i < s.values.length
    · rw [List.getElem_append_left hlast]
      exact h.ring.cells i hle hlast
    · have hi' : i = s.values.length := by
        have := hi
        simp only [State.values, List.length_map, List.length_append, List.length_singleton] at this hlast ⊢
        omega
      subst hi'
      rw [List.getElem_concat_length rfl, ← hslot, h.ring.put_eq, State.values, List.length_map]
  · show s.popped.map Prod.snd = ((s.pushed ++ [(t, a)]).map Prod.snd).take s.popped.length
    rw [hvalues, List.take_append_of_le_length, h.ring.fifo]
    rw [State.values, List.length_map]
    exact h.popped_le
  · exact absurd (h.inside_unique (by rw [hb]; rfl) hinside) hu
  · exact absurd (h.inside_unique (by rw [hb]; rfl) hinside) hu
  · show (s.pushed ++ [(t, a)]).filter _ = _
    rw [List.filter_append, List.filter_cons_of_neg (by simpa using Ne.symm hu), List.filter_nil,
      List.append_nil]
  · show ((s.pushed ++ [(t, a)]).filter _).map Prod.snd ++ [] = s.calls t
    rw [List.append_nil, List.filter_append, List.map_append, List.filter_cons_of_pos (by simp)]
    exact hcalls

theorem advancePull (h : Ok n s) {a : α} (ht : s.pc t = .advancePull a) :
    Ok n { s.goto t (.unlockPop a) with pull := (s.pull + 1) % n, popped := s.popped ++ [(t, a)] } := by
  have hlt := h.lt_of_claimsFull (t := t) (by rw [ht]; rfl)
  have hinside : (s.pc t).inside = true := by rw [ht]; rfl
  have hnext := h.taken t a ht
  have hcalls := h.calls_eq t
  rw [ht] at hcalls
  refine h.steps (t := t) (p := .unlockPop a) rfl ?_ ?_ (iff_of_true rfl ((h.lock_iff t).1 hinside))
    (fun u _ => Iff.rfl) ⟨h.ring.put_eq, ?_, fun i hle hi => ?_, ?_⟩ (fun b hb => by cases hb)
    (fun u b hu hb => h.written u b hb) (fun b hb => by cases hb) (fun u b hu hb => ?_)
    (fun u hu => ⟨rfl, rfl⟩) hcalls
  · rw [ht, List.length_append]
    simp only [Pc.claimsFree, Pc.owesFree, State.goto, List.length_singleton]
    omega
  · rw [ht, List.length_append]
    simp only [Pc.claimsFull, Pc.owesFull, State.goto, List.length_singleton]
    omega
  · show (s.pull + 1) % n = (s.popped ++ [(t, a)]).length % n
    rw [h.ring.pull_eq, List.length_append, List.length_singleton, Nat.mod_add_mod]
  · refine h.ring.cells i (le_trans ?_ hle) hi
    show s.popped.length ≤ (s.popped ++ [(t, a)]).length
    simp
  · show (s.popped ++ [(t, a)]).map Prod.snd = s.values.take (s.popped ++ [(t, a)]).length
    rw [List.map_append, h.ring.fifo, List.length_append, List.length_singleton, List.take_add_one, hnext]
    rfl
  · exact absurd (h.inside_unique (by rw [hb]; rfl) hinside) hu

theorem read_eq (h : Ok n s) (ht : s.pc t = .read) : s.values[s.popped.length]? = some (s.slots s.pull) := by
  have hlt := h.lt_of_claimsFull (t := t) (by rw [ht]; rfl)
  have hlt' : s.popped.length < s.values.length := by rwa [State.values, List.length_map]
  rw [List.getElem?_eq_getElem hlt', ← h.ring.cells _ (Nat.le_refl _) hlt', h.ring.pull_eq]

theorem advance (h : Ok n s) (ht : s.advance n t = some s') : Ok n s' := by
  have hlock := h.lock_iff t
  have hcalls := h.calls_eq t
  cases hpc : s.pc t <;> rw [hpc] at hlock hcalls <;> simp only [State.advance, hpc] at ht
  case idle => cases ht
  case done => cases ht
  case waitFree a =>
    split_ifs at ht with hfree
    cases ht
    refine h.moves (by rw [hpc]; simp only [Pc.claimsFree, Pc.owesFree]; omega) (by rw [hpc]; rfl) hlock
      (fun _ _ => Iff.rfl) nofun nofun (fun _ _ => rfl) hcalls
  case lockPush a =>
    split_ifs at ht with hnone
    cases ht
    refine h.moves (by rw [hpc]; rfl) (by rw [hpc]; rfl) (iff_of_true rfl rfl) (fun u hu => ?_) nofun nofun
      (fun _ _ => rfl) hcalls
    simp [Option.isNone_iff_eq_none.1 hnone, Ne.symm hu]
  case write a =>
    cases ht
    exact h.write hpc
  case advancePut a =>
    cases ht
    exact h.advancePut hpc
  case unlockPush =>
    cases ht
    refine h.moves (by rw [hpc]; rfl) (by rw [hpc]; rfl) (iff_of_false nofun nofun) (fun u hu => ?_) nofun nofun
      (fun _ _ => rfl) hcalls
    simp [hlock.1 rfl, Ne.symm hu]
  case postFull =>
    cases ht
    refine h.moves (by rw [hpc]; rfl) (by rw [hpc]; rfl) hlock (fun _ _ => Iff.rfl) nofun nofun
      (fun _ _ => rfl) hcalls
  case waitFull =>
    split_ifs at ht with hfull
    cases ht
    refine h.moves (by rw [hpc]; rfl) (by rw [hpc]; simp only [Pc.claimsFull, Pc.owesFull]; omega) hlock
      (fun _ _ => Iff.rfl) nofun nofun (fun _ _ => rfl) hcalls
  case tryFull =>
    split_ifs at ht with hfull
    · cases ht
      refine h.moves (by rw [hpc]; rfl) (by rw [hpc]; simp only [Pc.claimsFull, Pc.owesFull]; omega) hlock
        (fun _ _ => Iff.rfl) nofun nofun (fun _ _ => rfl) hcalls
    · cases ht
      exact h.moves (by rw [hpc]; rfl) (by rw [hpc]; rfl) hlock (fun _ _ => Iff.rfl) nofun nofun
        (fun _ _ => rfl) hcalls
  case lockPop =>
    split_ifs at ht with hnone
    cases ht
    refine h.moves (by rw [hpc]; rfl) (by rw [hpc]; rfl) (iff_of_true rfl rfl) (fun u hu => ?_) nofun nofun
      (fun _ _ => rfl) hcalls
    simp [Option.isNone_iff_eq_none.1 hnone, Ne.symm hu]
  case read =>
    cases ht
    refine h.moves (by rw [hpc]; rfl) (by rw [hpc]; rfl) hlock (fun _ _ => Iff.rfl) nofun (fun a ha => ?_)
      (fun _ _ => rfl) hcalls
    cases ha
    exact h.read_eq hpc
  case advancePull a =>
    cases ht
    exact h.advancePull hpc
  case unlockPop a =>
    cases ht
    refine h.moves (by rw [hpc]; rfl) (by rw [hpc]; rfl) (iff_of_false nofun nofun) (fun u hu => ?_) nofun nofun
      (fun _ _ => rfl) hcalls
    simp [hlock.1 rfl, Ne.symm hu]
  case postFree a =>
    cases ht
    exact h.moves (by rw [hpc]; rfl) (by rw [hpc]; rfl) hlock (fun _ _ => Iff.rfl) nofun nofun
      (fun _ _ => rfl) hcalls

theorem step (h : Ok n s) {e : Action T α} (he : s.step n e = some s') : Ok n s' := by
  cases e with
  | step t => exact h.advance he
  | push t a =>
    simp only [State.step] at he
    split at he
    · next hpc =>
      cases he
      have hlock := h.lock_iff t
      have hcalls := h.calls_eq t
      rw [hpc] at hlock hcalls
      refine h.moves (by rw [hpc]; rfl) (by rw [hpc]; rfl) hlock (fun _ _ => Iff.rfl) nofun nofun
        (fun u hu => Function.update_of_ne hu _ _) ?_
      rw [Function.update_self, ← hcalls]
      simp [Pc.pending]
    · cases he
  | pop t =>
    simp only [State.step] at he
    split at he
    · next hpc =>
      cases he
      have hlock := h.lock_iff t
      have hcalls := h.calls_eq t
      rw [hpc] at hlock hcalls
      exact h.moves (by rw [hpc]; rfl) (by rw [hpc]; rfl) hlock (fun _ _ => Iff.rfl) nofun nofun
        (fun _ _ => rfl) hcalls
    · cases he
  | tryPop t =>
    simp only [State.step] at he
    split at he
    · next hpc =>
      cases he
      have hlock := h.lock_iff t
      have hcalls := h.calls_eq t
      rw [hpc] at hlock hcalls
      exact h.moves (by rw [hpc]; rfl) (by rw [hpc]; rfl) hlock (fun _ _ => Iff.rfl) nofun nofun
        (fun _ _ => rfl) hcalls
    · cases he
  | finish t =>
    simp only [State.step] at he
    split at he
    · next r hpc =>
      cases he
      have hlock := h.lock_iff t
      have hcalls := h.calls_eq t
      rw [hpc] at hlock hcalls
      exact h.moves (by rw [hpc]; rfl) (by rw [hpc]; rfl) hlock (fun _ _ => Iff.rfl) nofun nofun
        (fun _ _ => rfl) hcalls
    · cases he

/-- When no thread can take a step, every thread in a call waits for a semaphore, a popping one only if the ring
is empty and a pushing one only if it is full. -/
theorem blocked (h : Ok n s) (hstuck : ∀ t, s.advance n t = none) :
    (∀ t, (s.pc t).Waits) ∧ (∀ t, s.pc t = .waitFull → s.popped.length = s.pushed.length) ∧
      ∀ t a, s.pc t = .waitFree a → s.pushed.length = n + s.popped.length := by
  have hfreeLock : s.lock = none := by
    cases hlock : s.lock with
    | none => rfl
    | some u =>
      have hinside := (h.lock_iff u).2 hlock
      have hu := hstuck u
      cases hpc : s.pc u <;> rw [hpc] at hinside <;> simp [State.advance, hpc, Pc.inside] at hu hinside
  have hwaits : ∀ t, (s.pc t).Waits := by
    intro t
    have ht := hstuck t
    cases hpc : s.pc t <;> simp [State.advance, hpc, hfreeLock, Pc.Waits] at ht ⊢
    split_ifs at ht
  have hzero : total Pc.claimsFree s.pc = 0 ∧ total Pc.owesFree s.pc = 0 ∧ total Pc.claimsFull s.pc = 0 ∧
      total Pc.owesFull s.pc = 0 := by
    refine ⟨total_eq_zero fun t => ?_, total_eq_zero fun t => ?_, total_eq_zero fun t => ?_,
      total_eq_zero fun t => ?_⟩ <;>
    · have ht := hwaits t
      cases hpc : s.pc t <;> rw [hpc] at ht <;> first | rfl | exact ht.elim
  have hfree_eq := h.free_eq
  have hfull_eq := h.full_eq
  refine ⟨hwaits, fun t ht => ?_, fun t a ht => ?_⟩
  · have hfull : s.full = 0 := by
      have hadvance := hstuck t
      simp only [State.advance, ht] at hadvance
      split_ifs at hadvance with hpos
      omega
    omega
  · have hfree : s.free = 0 := by
      have hadvance := hstuck t
      simp only [State.advance, ht] at hadvance
      split_ifs at hadvance with hpos
      omega
    omega

theorem not_inside_of_waits {p : Pc α} (hwaits : p.Waits) : p.inside = false := by
  cases p <;> first | rfl | exact hwaits.elim

/-- When no thread is in the critical section, the lock is free. -/
theorem lock_free (h : Ok n s) (houtside : ∀ t, (s.pc t).inside = false) : s.lock = none := by
  cases hlock : s.lock with
  | none => rfl
  | some u => exact absurd ((h.lock_iff u).2 hlock) (Bool.eq_false_iff.1 (houtside u))

/-- When all other threads are outside of their calls or wait for a semaphore, the semaphore counts the values
in the ring and the lock is free. -/
theorem full_of_waits (h : Ok n s) (hwaits : ∀ t, (s.pc t).Waits) :
    s.full + s.popped.length = s.pushed.length ∧ s.lock = none := by
  have hzero : total Pc.claimsFull s.pc = 0 ∧ total Pc.owesFull s.pc = 0 := by
    refine ⟨total_eq_zero fun t => ?_, total_eq_zero fun t => ?_⟩ <;>
    · have ht := hwaits t
      cases hpc : s.pc t <;> rw [hpc] at ht <;> first | rfl | exact ht.elim
  have hfull_eq := h.full_eq
  exact ⟨by omega, h.lock_free fun t => not_inside_of_waits (hwaits t)⟩

end Ok

def Alone (n : ℕ) (t : T) : State T α → State T α → Prop :=
  Relation.ReflTransGen fun s s' => s.advance n t = some s'

omit [Fintype T] in
/-- A thread that runs alone in a pop that does not wait, while the lock is free or its own, ends with a
value, or without one when there is none; a value that there is it does not miss. -/
theorem tries_alone {n : ℕ} {s : State T α} {t : T} (htrying : (s.pc t).Trying)
    (hlock : (s.pc t).inside = false → s.lock = none) :
    (∃ s' a, Alone n t s s' ∧ s'.pc t = .done (some a)) ∨
      (s.pc t = .tryFull → s.full = 0) ∧ Alone n t s (s.goto t (.done none)) := by
  have post : ∀ (s : State T α) a, s.pc t = .postFree a → ∃ s' a, Alone n t s s' ∧
      s'.pc t = .done (some a) := by
    intro s a hpc
    refine ⟨{ s.goto t (.done (some a)) with free := s.free + 1 }, a, .single ?_, Function.update_self _ _ _⟩
    simp only [State.advance, hpc]
  have unlock : ∀ (s : State T α) a, s.pc t = .unlockPop a →
      ∃ s' a, Alone n t s s' ∧ s'.pc t = .done (some a) := by
    intro s a hpc
    obtain ⟨s', b, hrun, hdone⟩ := post { s.goto t (.postFree a) with lock := none } a
        (Function.update_self _ _ _)
    exact ⟨s', b, .head (by simp only [State.advance, hpc]) hrun, hdone⟩
  have pull : ∀ (s : State T α) a, s.pc t = .advancePull a →
      ∃ s' a, Alone n t s s' ∧ s'.pc t = .done (some a) := by
    intro s a hpc
    obtain ⟨s', b, hrun, hdone⟩ := unlock { s.goto t (.unlockPop a) with
      pull := (s.pull + 1) % n, popped := s.popped ++ [(t, a)] } a (Function.update_self _ _ _)
    exact ⟨s', b, .head (by simp only [State.advance, hpc]) hrun, hdone⟩
  have read : ∀ s : State T α, s.pc t = .read → ∃ s' a, Alone n t s s' ∧ s'.pc t = .done (some a) := by
    intro s hpc
    obtain ⟨s', b, hrun, hdone⟩ := pull (s.goto t (.advancePull (s.slots s.pull))) _
        (Function.update_self _ _ _)
    exact ⟨s', b, .head (by simp only [State.advance, hpc]) hrun, hdone⟩
  have lock : ∀ s : State T α, s.pc t = .lockPop → s.lock = none →
      ∃ s' a, Alone n t s s' ∧ s'.pc t = .done (some a) := by
    intro s hpc hlock
    obtain ⟨s', b, hrun, hdone⟩ := read { s.goto t .read with lock := some t } (Function.update_self _ _ _)
    exact ⟨s', b, .head (by simp only [State.advance, hpc, hlock, Option.isNone_none, if_true]) hrun, hdone⟩
  cases hpc : s.pc t <;> rw [hpc] at htrying hlock
  case tryFull =>
    by_cases hfull : 0 < s.full
    · obtain ⟨s', a, hrun, hdone⟩ := lock { s.goto t .lockPop with full := s.full - 1 }
        (Function.update_self _ _ _) (hlock rfl)
      exact .inl ⟨s', a, .head (by simp only [State.advance, hpc, if_pos hfull]) hrun, hdone⟩
    · exact .inr ⟨fun _ => Nat.eq_zero_of_not_pos hfull,
        .single (by simp only [State.advance, hpc, if_neg hfull])⟩
  case lockPop => exact .inl (lock s hpc (hlock rfl))
  case read => exact .inl (read s hpc)
  case advancePull a => exact .inl (pull s a hpc)
  case unlockPop a => exact .inl (unlock s a hpc)
  case postFree a => exact .inl (post s a hpc)
  case done r =>
    cases r with
    | some a => exact .inl ⟨s, a, .refl, hpc⟩
    | none =>
      have hsame : s.goto t (.done none) = s := by
        rw [State.goto, ← hpc, Function.update_eq_self]
      refine .inr ⟨fun h => (by cases h), ?_⟩
      rw [hsame]
      exact .refl
  all_goals exact htrying.elim

end Cpf.BoundedBuffer
