import Cpf.Basics.ByteHeap
import Cpf.Basics.RingIndex
import Cpf.Basics.Trans

/-!
# The start messages of the workers

`__specpriv_trigger_workers` writes the object `workerArgs` to the pipe of every worker, and the
worker reads it from there, both in as many transfers as the pipe makes of it. The loops resume at
`&workerArgs + n` after `n` bytes, which lies `n` objects and not `n` bytes behind the start.
Addresses are relative to the object.
-/

namespace Cpf.Executive
open Heap

/-- `sizeof(struct WorkerArgs)`: four words of eight bytes behind the iteration, six of four, and a
pointer. -/
def workerArgsSize : ℕ := 72

/-- `&workerArgs + n`, for a pointer to an object of `size` bytes. -/
def objectsBehind (size n : ℕ) : ℕ := n * size

def loadBytes (h : Heap) (p len : ℕ) : List UInt8 := (List.range len).map (fun i => h (p + i))

def storeBytes (h : Heap) (p : ℕ) (bs : List UInt8) : Heap :=
  fun k => if p ≤ k ∧ k < p + bs.length then bs.getD (k - p) 0 else h k

/-- A worker with its end of its pipe. `received` counts the messages it has read. -/
structure Receiver where
  pipe : List UInt8
  mem : Heap
  bytesRead : ℕ
  received : ℕ

/-- The main process, which writes to worker `wid`, and the workers. Recorded are the messages, the
sizes of the transfers and whether they all stayed inside the object. -/
structure Pipes (n : ℕ) where
  mem : Heap
  wid : ℕ
  bytesWritten : ℕ
  receivers : Fin n → Receiver
  messages : List Heap
  transfers : List ℕ
  inside : Bool

inductive PipeAction (n : ℕ)
  | trigger (args : Heap)
  | write (w : ℕ)
  | read (wid : Fin n) (r : ℕ)

def Receiver.read (size len : ℕ) (r : Receiver) : Receiver where
  pipe := r.pipe.drop len
  mem := storeBytes r.mem (objectsBehind size r.bytesRead) (r.pipe.take len)
  bytesRead := if r.bytesRead + len = size then 0 else r.bytesRead + len
  received := if r.bytesRead + len = size then r.received + 1 else r.received

namespace Pipes

variable {n size : ℕ} {s s' : Pipes n}

def start (mem : Heap) (workers : Fin n → Heap) : Pipes n :=
  ⟨mem, n, 0, fun w => ⟨[], workers w, 0, 0⟩, [], [], true⟩

/-- The main process sets the object and starts with the first worker. -/
def trigger (size : ℕ) (args : Heap) (s : Pipes n) : Pipes n :=
  { s with
    mem := fun k => if k < size then args k else s.mem k
    wid := 0
    messages := s.messages ++ [args] }

def write (size : ℕ) (w : Fin n) (len : ℕ) (s : Pipes n) : Pipes n :=
  let p := objectsBehind size s.bytesWritten
  { s with
    wid := if s.bytesWritten + len = size then s.wid + 1 else s.wid
    bytesWritten := if s.bytesWritten + len = size then 0 else s.bytesWritten + len
    receivers := Function.update s.receivers w
      { s.receivers w with pipe := (s.receivers w).pipe ++ loadBytes s.mem p len }
    transfers := len :: s.transfers
    inside := s.inside && decide (p + len ≤ size) }

def read (size : ℕ) (w : Fin n) (len : ℕ) (s : Pipes n) : Pipes n :=
  { s with
    receivers := Function.update s.receivers w ((s.receivers w).read size len)
    transfers := len :: s.transfers
    inside := s.inside &&
      decide (objectsBehind size (s.receivers w).bytesRead + len ≤ size) }

/-- A call of `write` takes some of the bytes that are left, a call of `read` some of those that are
in the pipe. -/
def step (size : ℕ) (s : Pipes n) : PipeAction n → Option (Pipes n)
  | .trigger args => if s.wid = n then some (s.trigger size args) else none
  | .write len =>
      if h : s.wid < n then
        if 1 ≤ len ∧ len ≤ size - s.bytesWritten then some (s.write size ⟨s.wid, h⟩ len) else none
      else none
  | .read w len =>
      if 1 ≤ len ∧ len ≤ size - (s.receivers w).bytesRead ∧ len ≤ (s.receivers w).pipe.length then
        some (s.read size w len)
      else none

theorem step_cases {a : PipeAction n} (h : s.step size a = some s') :
    (∃ args, s.wid = n ∧ s' = s.trigger size args) ∨
    (∃ w : Fin n, ∃ len, w.val = s.wid ∧ 1 ≤ len ∧ len ≤ size - s.bytesWritten ∧
      s' = s.write size w len) ∨
    ∃ w len, 1 ≤ len ∧ len ≤ size - (s.receivers w).bytesRead ∧
      len ≤ (s.receivers w).pipe.length ∧ s' = s.read size w len := by
  cases a with
  | trigger args =>
      rw [step] at h
      split_ifs at h with hw
      exact .inl ⟨args, hw, (Option.some.inj h).symm⟩
  | write len =>
      rw [step] at h
      split_ifs at h with hw hlen
      exact .inr (.inl ⟨⟨s.wid, hw⟩, len, rfl, hlen.1, hlen.2, (Option.some.inj h).symm⟩)
  | read w len =>
      rw [step] at h
      split_ifs at h with hlen
      exact .inr (.inr ⟨w, len, hlen.1, hlen.2.1, hlen.2.2, (Option.some.inj h).symm⟩)

/-- Every worker that is not in its loop has the last message it read, byte for byte, and no byte
outside of the object was read or written. -/
structure Delivered (size : ℕ) (s : Pipes n) : Prop where
  inside : s.inside = true
  equal : ∀ w, (s.receivers w).bytesRead = 0 → ∀ i, (s.receivers w).received = i + 1 →
    ∃ args, s.messages[i]? = some args ∧ ∀ k < size, (s.receivers w).mem k = args k

/-- Every message was written and read in one transfer. -/
def Whole (size : ℕ) (s : Pipes n) : Prop := ∀ len ∈ s.transfers, len = size

instance (size : ℕ) (s : Pipes n) : Decidable (s.Whole size) :=
  inferInstanceAs (Decidable (∀ len ∈ s.transfers, len = size))

/-- No message is under way. -/
def Between (s : Pipes n) : Prop := s.bytesWritten = 0 ∧ ∀ w, (s.receivers w).bytesRead = 0

/-- A transfer that does not start with the object lies outside of it. -/
theorem eq_zero_of_inside {m len : ℕ} (hlen : 1 ≤ len) (h : objectsBehind size m + len ≤ size) :
    m = 0 := by
  by_contra hne
  have hmul : 1 * size ≤ m * size := Nat.mul_le_mul_right size (Nat.pos_of_ne_zero hne)
  rw [objectsBehind] at h
  omega

/-- A partial transfer that stayed inside the object is that of a message under way. -/
structure PartialInv (size : ℕ) (s : Pipes n) : Prop where
  wid_le : s.wid ≤ n
  idle : s.wid = n → s.bytesWritten = 0
  underway : s.inside = true → s.Between → s.Whole size

theorem PartialInv.start (size : ℕ) (mem : Heap) (workers : Fin n → Heap) :
    PartialInv size (start mem workers) :=
  ⟨le_rfl, fun _ => rfl, fun _ _ _ hl => absurd hl List.not_mem_nil⟩

theorem PartialInv.step {a : PipeAction n} (h : PartialInv size s)
    (hstep : s.step size a = some s') : PartialInv size s' := by
  rcases step_cases hstep with ⟨args, hw, rfl⟩ | ⟨w, len, hw, hpos, hle, rfl⟩ | ⟨w, len, hpos, hle, _, rfl⟩
  · exact ⟨Nat.zero_le n, fun _ => h.idle hw, h.underway⟩
  · have hlt : s.wid < n := hw ▸ w.isLt
    refine ⟨?_, fun hn => ?_, fun hin hb => ?_⟩
    · dsimp only [write]
      split_ifs <;> omega
    · dsimp only [write] at hn ⊢
      split_ifs at hn ⊢
      · rfl
      · omega
    · obtain ⟨hin, hinside⟩ := Bool.and_eq_true_iff.1 hin
      have hzero := eq_zero_of_inside hpos (of_decide_eq_true hinside)
      have hfull : s.bytesWritten + len = size := by
        by_contra hne
        have hwritten := hb.1
        dsimp only [write] at hwritten
        rw [if_neg hne] at hwritten
        omega
      refine List.forall_mem_cons.2 ⟨by omega, h.underway hin ⟨hzero, fun v => ?_⟩⟩
      have hv := hb.2 v
      dsimp only [write] at hv
      by_cases hvw : v = w
      · subst hvw
        rwa [Function.update_self] at hv
      · rwa [Function.update_of_ne hvw] at hv
  · refine ⟨h.wid_le, h.idle, fun hin hb => ?_⟩
    obtain ⟨hin, hinside⟩ := Bool.and_eq_true_iff.1 hin
    have hzero := eq_zero_of_inside hpos (of_decide_eq_true hinside)
    have hfull : (s.receivers w).bytesRead + len = size := by
      by_contra hne
      have hread := hb.2 w
      dsimp only [read, Receiver.read] at hread
      rw [Function.update_self] at hread
      dsimp only at hread
      rw [if_neg hne] at hread
      omega
    refine List.forall_mem_cons.2 ⟨by omega, h.underway hin ⟨hb.1, fun v => ?_⟩⟩
    by_cases hvw : v = w
    · rw [hvw, hzero]
    · have hv := hb.2 v
      dsimp only [read] at hv
      rwa [Function.update_of_ne hvw] at hv

/-- How many of the messages have been written to worker `w`. -/
def sent (s : Pipes n) (w : Fin n) : ℕ :=
  if w.val < s.wid then s.messages.length else s.messages.length - 1

/-- The pipe of a worker holds the messages that were written to it and that it has not read. -/
structure ReceiverOk (size : ℕ) (s : Pipes n) (w : Fin n) : Prop where
  bytesRead : (s.receivers w).bytesRead = 0
  received_le : (s.receivers w).received ≤ s.sent w
  pipe : (s.receivers w).pipe =
    ((s.messages.take (s.sent w)).drop (s.receivers w).received).flatMap
      (fun args => loadBytes args 0 size)
  equal : ∀ i, (s.receivers w).received = i + 1 →
    ∃ args, s.messages[i]? = some args ∧ ∀ k < size, (s.receivers w).mem k = args k

/-- What holds as long as every transfer is that of a whole message. -/
structure WholeInv (size : ℕ) (s : Pipes n) : Prop where
  inside : s.inside = true
  wid_le : s.wid ≤ n
  bytesWritten : s.bytesWritten = 0
  messages : s.wid < n → ∃ args, s.messages.getLast? = some args ∧ ∀ k < size, s.mem k = args k
  receiver : ∀ w, ReceiverOk size s w

theorem objectsBehind_zero (size : ℕ) : objectsBehind size 0 = 0 := Nat.zero_mul size

@[simp] theorem length_loadBytes (h : Heap) (p len : ℕ) : (loadBytes h p len).length = len := by
  simp [loadBytes]

theorem loadBytes_congr {h h' : Heap} (heq : ∀ k < size, h k = h' k) :
    loadBytes h 0 size = loadBytes h' 0 size := by
  refine List.map_congr_left (fun i hi => ?_)
  rw [Nat.zero_add]
  exact heq i (List.mem_range.1 hi)

theorem storeBytes_loadBytes {h h' : Heap} {k : ℕ} (hk : k < size) :
    storeBytes h 0 (loadBytes h' 0 size) k = h' k := by
  rw [storeBytes, length_loadBytes, if_pos ⟨Nat.zero_le k, by omega⟩, loadBytes, Nat.sub_zero]
  simp [List.getD, hk]

theorem WholeInv.start (size : ℕ) (mem : Heap) (workers : Fin n → Heap) :
    WholeInv size (start mem workers) := by
  refine ⟨rfl, le_rfl, rfl, fun h => absurd h (lt_irrefl n), fun w => ⟨rfl, Nat.zero_le _, ?_, ?_⟩⟩
  · simp [Pipes.start]
  · exact fun i hi => (by cases hi)

theorem WholeInv.trigger (h : WholeInv size s) (hw : s.wid = n) (args : Heap) :
    WholeInv size (s.trigger size args) := by
  refine ⟨h.inside, Nat.zero_le n, h.bytesWritten, fun _ => ⟨args, List.getLast?_concat, ?_⟩, fun w => ?_⟩
  · exact fun k hk => if_pos hk
  · have hr := h.receiver w
    have hold : s.sent w = s.messages.length := if_pos (by rw [hw]; exact w.isLt)
    have hnew : (s.trigger size args).sent w = s.messages.length := by
      simp [sent, Pipes.trigger]
    refine ⟨hr.bytesRead, ?_, ?_, fun i hi => ?_⟩
    · rw [hnew, ← hold]
      exact hr.received_le
    · have hpipe := hr.pipe
      rw [hold, List.take_length] at hpipe
      rw [hnew]
      refine hpipe.trans ?_
      simp [Pipes.trigger]
    · obtain ⟨args', hargs, heq⟩ := hr.equal i hi
      refine ⟨args', ?_, heq⟩
      exact (List.getElem?_append_left (List.getElem?_eq_some_iff.1 hargs).1).trans hargs

theorem WholeInv.write (h : WholeInv size s) {w : Fin n} (hw : w.val = s.wid) :
    WholeInv size (s.write size w size) := by
  have hfull : s.bytesWritten + size = size := by rw [h.bytesWritten, Nat.zero_add]
  have hlt : s.wid < n := hw ▸ w.isLt
  obtain ⟨args, hargs, hmem⟩ := h.messages hlt
  obtain ⟨ms, hms⟩ := List.getLast?_eq_some_iff.1 hargs
  have hsent : ∀ v, (s.write size w size).sent v =
      if v = w then s.messages.length else s.sent v := by
    intro v
    simp only [sent, Pipes.write, if_pos hfull]
    by_cases hv : v = w
    · rw [if_pos hv, if_pos (by rw [hv]; omega)]
    · have hne : v.val ≠ w.val := fun he => hv (Fin.ext he)
      rw [if_neg hv]
      by_cases hvlt : v.val < s.wid
      · rw [if_pos hvlt, if_pos (by omega)]
      · rw [if_neg hvlt, if_neg (by omega)]
  refine ⟨?_, ?_, if_pos hfull, fun _ => ⟨args, hargs, hmem⟩, fun v => ?_⟩
  · simp only [Pipes.write, h.bytesWritten, objectsBehind_zero, h.inside]
    simp
  · simp only [Pipes.write, if_pos hfull]
    omega
  · have hr := h.receiver v
    by_cases hv : v = w
    · subst hv
      have hold : s.sent v = ms.length := by
        rw [sent, if_neg (by omega), hms]
        simp
      have hreceived := hr.received_le
      rw [hold] at hreceived
      have hpipe := hr.pipe
      rw [hold, hms, List.take_left] at hpipe
      have hcell : (s.write size v size).receivers v =
          { s.receivers v with
            pipe := (s.receivers v).pipe ++ loadBytes s.mem (objectsBehind size s.bytesWritten) size } :=
        Function.update_self ..
      refine ⟨?_, ?_, ?_, ?_⟩
      · rw [hcell]
        exact hr.bytesRead
      · rw [hsent, if_pos rfl, hcell, hms, List.length_append]
        exact hreceived.trans (Nat.le_add_right _ _)
      · rw [hsent, if_pos rfl, hcell]
        change _ ++ loadBytes s.mem (objectsBehind size s.bytesWritten) size =
          List.flatMap _ ((s.messages.take s.messages.length).drop (s.receivers v).received)
        rw [List.take_length, hms, List.drop_append_of_le_length hreceived, List.flatMap_append,
          ← hpipe, h.bytesWritten, objectsBehind_zero, loadBytes_congr hmem]
        simp
      · rw [hcell]
        exact hr.equal
    · have hcell : (s.write size w size).receivers v = s.receivers v := Function.update_of_ne hv _ _
      refine ⟨?_, ?_, ?_, ?_⟩
      · rw [hcell]
        exact hr.bytesRead
      · rw [hsent, if_neg hv, hcell]
        exact hr.received_le
      · rw [hsent, if_neg hv, hcell]
        exact hr.pipe
      · rw [hcell]
        exact hr.equal

theorem WholeInv.read (h : WholeInv size s) {w : Fin n} (hpos : 1 ≤ size)
    (hlen : size ≤ (s.receivers w).pipe.length) : WholeInv size (s.read size w size) := by
  have hr := h.receiver w
  have hfull : (s.receivers w).bytesRead + size = size := by rw [hr.bytesRead, Nat.zero_add]
  have hcell : (s.read size w size).receivers w = (s.receivers w).read size size :=
    Function.update_self ..
  refine ⟨?_, h.wid_le, h.bytesWritten, h.messages, fun v => ?_⟩
  · simp only [Pipes.read, hr.bytesRead, objectsBehind_zero, h.inside]
    simp
  · by_cases hv : v = w
    · subst hv
      -- The pipe is not empty, so that there is a message that was not read.
      have hlt : (s.receivers v).received < (s.messages.take (s.sent v)).length := by
        by_contra hge
        rw [hr.pipe, List.drop_eq_nil_of_le (not_lt.1 hge)] at hlen
        simp at hlen
        omega
      obtain ⟨args, hargs⟩ : ∃ args, (s.messages.take (s.sent v))[(s.receivers v).received]? =
          some args := ⟨_, List.getElem?_eq_getElem hlt⟩
      have hdrop := List.drop_eq_getElem_cons hlt
      rw [(List.getElem?_eq_some_iff.1 hargs).2] at hdrop
      have hpipe := hr.pipe
      rw [hdrop, List.flatMap_cons] at hpipe
      have hload := length_loadBytes args 0 size
      refine ⟨?_, ?_, ?_, fun i hi => ⟨args, ?_, fun k hk => ?_⟩⟩
      · rw [hcell]
        exact if_pos hfull
      · rw [hcell]
        simp only [Receiver.read, if_pos hfull]
        rw [List.length_take] at hlt
        exact (Nat.succ_le_of_lt hlt).trans (min_le_left _ _)
      · rw [hcell]
        simp only [Receiver.read, if_pos hfull]
        rw [hpipe, List.drop_left' hload]
        rfl
      · rw [hcell] at hi
        simp only [Receiver.read, if_pos hfull] at hi
        rw [show i = (s.receivers v).received by omega]
        rw [List.getElem?_take_of_lt] at hargs
        · exact hargs
        · rw [List.length_take] at hlt
          exact lt_of_lt_of_le hlt (min_le_left _ _)
      · rw [hcell]
        simp only [Receiver.read, hr.bytesRead, objectsBehind_zero]
        rw [hpipe, List.take_left' hload]
        exact storeBytes_loadBytes hk
    · have hr' := h.receiver v
      have hcell' : (s.read size w size).receivers v = s.receivers v := Function.update_of_ne hv _ _
      refine ⟨?_, ?_, ?_, ?_⟩
      · rw [hcell']
        exact hr'.bytesRead
      · rw [hcell']
        exact hr'.received_le
      · rw [hcell']
        exact hr'.pipe
      · rw [hcell']
        exact hr'.equal

theorem WholeInv.step {a : PipeAction n} (h : WholeInv size s) (hstep : s.step size a = some s')
    (hwhole : s'.Whole size) : WholeInv size s' := by
  rcases step_cases hstep with ⟨args, hw, rfl⟩ | ⟨w, len, hw, _, _, rfl⟩ | ⟨w, len, hpos, _, hle, rfl⟩
  · exact h.trigger hw args
  · obtain rfl := hwhole len List.mem_cons_self
    exact h.write hw
  · obtain rfl := hwhole len List.mem_cons_self
    exact h.read hpos hle

theorem Whole.of_step {a : PipeAction n} (hstep : s.step size a = some s')
    (hwhole : s'.Whole size) : s.Whole size := by
  rcases step_cases hstep with ⟨args, _, rfl⟩ | ⟨w, len, _, _, _, rfl⟩ | ⟨w, len, _, _, _, rfl⟩
  · exact hwhole
  · exact fun l hl => hwhole l (List.mem_cons_of_mem _ hl)
  · exact fun l hl => hwhole l (List.mem_cons_of_mem _ hl)

/-- As long as every message is written and read in one transfer, every worker gets what the main
process passed; and when no message is under way, that is the only way. -/
theorem messages_delivered_iff (size : ℕ) (mem : Heap) (workers : Fin n → Heap) (s : Pipes n)
    (hrun : Run (Pipes.step size) (fun _ _ => True) (start mem workers) s) :
    (s.Whole size → s.Delivered size) ∧ (s.Between → (s.Delivered size ↔ s.Whole size)) := by
  obtain ⟨hsome, hinv⟩ := hrun.invariant
    (fun s => PartialInv size s ∧ (s.Whole size → WholeInv size s))
    ⟨.start size mem workers, fun _ => .start size mem workers⟩
    (fun _ _ _ hs _ ha => ⟨hs.1.step ha, fun hw => (hs.2 (hw.of_step ha)).step ha hw⟩)
  have hdeliver : s.Whole size → s.Delivered size := fun hw =>
    ⟨(hinv hw).inside, fun w _ => ((hinv hw).receiver w).equal⟩
  exact ⟨hdeliver, fun hb => ⟨fun hd => hsome.underway hd.inside hb, hdeliver⟩⟩

/-- A message of which every byte is its own position. -/
def countedArgs : Heap := fun k => UInt8.ofNat k

theorem messages_delivered_whole : ∃ s : Pipes 1, Run (Pipes.step workerArgsSize) (fun _ _ => True)
    (start (fun _ => 0) (fun _ _ => 0)) s ∧ (s.receivers 0).received = 1 ∧
    s.Delivered workerArgsSize := by
  have hrun : Run (Pipes.step workerArgsSize) (fun _ _ => True)
      (start (fun _ => 0) (fun (_ : Fin 1) _ => 0)) _ :=
    ((Run.refl.tail (a := .trigger countedArgs) trivial rfl).tail
      (a := .write workerArgsSize) trivial rfl).tail (a := .read 0 workerArgsSize) trivial rfl
  exact ⟨_, hrun, rfl, (messages_delivered_iff workerArgsSize _ _ _ hrun).1 (by decide)⟩

/-- The second half of a message is written from behind the object. -/
theorem message_in_two_halves : ∃ s : Pipes 1, Run (Pipes.step workerArgsSize) (fun _ _ => True)
    (start (fun _ => 0) (fun _ _ => 0)) s ∧ (s.receivers 0).received = 1 ∧
    (s.receivers 0).bytesRead = 0 ∧ s.messages = [countedArgs] ∧ s.inside = false ∧
    (s.receivers 0).mem 70 = 0 ∧ countedArgs 70 = 70 ∧ ¬ s.Delivered workerArgsSize := by
  have hrun : Run (Pipes.step workerArgsSize) (fun _ _ => True)
      (start (fun _ => 0) (fun (_ : Fin 1) _ => 0)) _ :=
    (((Run.refl.tail (a := .trigger countedArgs) trivial rfl).tail (a := .write 36) trivial rfl).tail
      (a := .write 36) trivial rfl).tail (a := .read 0 workerArgsSize) trivial rfl
  exact ⟨_, hrun, rfl, rfl, rfl, rfl, by decide, by decide, fun h => absurd h.inside (by decide)⟩

end Pipes
end Cpf.Executive
