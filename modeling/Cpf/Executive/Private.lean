import Cpf.Basics.Loop
import Cpf.Executive.Shadow

/-!
# Private accesses of a worker

The instrumentation calls of `private.c` that a worker makes around its own loads and stores of
private memory. A call either returns with the worker's new bookkeeping or ends in
`__specpriv_misspec`, which does not return; the error is the reason it reports. The calls are
those of a worker process (the main process returns from them at once).
-/

namespace Cpf.Executive
open Heap

/-- One worker's private heap with the state that `private.c` keeps for it. -/
structure Worker where
  priv : Heap
  shadow : Heap
  range : ShadowRange
  firstIteration : ℕ
  checkpointGranularity : ℕ
  code8 : UInt8
  lastReadLiveInPtrStart : ℕ
  lastReadLiveInPtrEnd : ℕ

namespace Worker

def setIter (i : ℕ) (w : Worker) : Worker :=
  { w with code8 := iterCode w.firstIteration w.checkpointGranularity i }

def setFirstIter (i : ℕ) (w : Worker) : Worker := setIter i { w with firstIteration := i }

/-- `__specpriv_advance_iter` up to its decision about a checkpoint. -/
def advanceIter (i ckptUsed : ℕ) (w : Worker) : Worker :=
  if ckptUsed = 0 then w
  else { setIter i w with lastReadLiveInPtrStart := 0, lastReadLiveInPtrEnd := 0 }

def code16 (w : Worker) : ℕ := w.code8.toNat ||| (w.code8.toNat <<< 8)

def code32 (w : Worker) : ℕ := w.code16 ||| (w.code16 <<< 16)

def code64 (w : Worker) : ℕ := w.code32 ||| (w.code32 <<< 32)

def touch (ptr len : ℕ) (w : Worker) : Worker := { w with range := w.range.update ptr len }

/-- The pointer by which the program names byte `ptr` of the private heap. -/
def nativePtr (ptr : ℕ) : ℕ := privAddr + ptr

def privateWriteRange (ptr len : ℕ) (w : Worker) : Except String Worker :=
  if memchr w.shadow ptr readLiveIn len then .error "misspec during private write range (1)"
  else .ok (touch ptr len { w with shadow := memset w.shadow ptr w.code8 len })

def readByte (code8 : UInt8) (name : String) (shadow : Heap) (i : ℕ) : Except String Heap :=
  if shadow i = liveIn then .ok (Function.update shadow i readLiveIn)
  else if shadow i ≠ code8 ∧ shadow i ≠ readLiveIn then .error name
  else .ok shadow

/-- The loop body on one aligned word of `n` shadow bytes. -/
def readWord (n code : ℕ) (v : UInt8 → ℕ) (name : String) (shadow : Heap) (i : ℕ) :
    Except String Heap :=
  if load n shadow i = v liveIn then .ok (store n shadow i (v readLiveIn))
  else if load n shadow i ≠ code ∧ load n shadow i ≠ v readLiveIn then .error name
  else .ok shadow

def privateReadRangeInternal (start stop : ℕ) (name : String) (w : Worker) :
    Except String Worker := do
  let lo8 := roundUp start 8
  let hi8 := roundDown stop 8
  let s ← (forRange start lo8 1).foldlM (readByte w.code8 name) w.shadow
  let s ← (forRange lo8 hi8 8).foldlM (readWord 8 w.code64 V64 name) s
  let s ← (forRange hi8 stop 1).foldlM (readByte w.code8 name) s
  return { w with shadow := s }

def privateReadRange (ptr len : ℕ) (name : String) (w : Worker) : Except String Worker := do
  let w ← privateReadRangeInternal ptr (ptr + len) name w
  return touch ptr len w

def privateWrite1b (ptr : ℕ) (w : Worker) : Except String Worker :=
  if w.shadow ptr = readLiveIn then .error "misspec during private write 1b"
  else .ok (touch ptr 1 { w with shadow := Function.update w.shadow ptr w.code8 })

def privateRead1b (ptr : ℕ) (name : String) (w : Worker) : Except String Worker :=
  privateReadRange ptr 1 name w

def privateWrite2b (ptr : ℕ) (w : Worker) : Except String Worker :=
  if byteOf (load 2 w.shadow ptr) 1 = readLiveIn then .error "misspec during private write 2b"
  else if byteOf (load 2 w.shadow ptr) 0 = readLiveIn then .error "misspec during private write 2b"
  else .ok (touch ptr 2 { w with shadow := store 2 w.shadow ptr w.code16 })

def readByteOf (code8 : UInt8) (name : String) (word ptr : ℕ) (bs : Heap) (i : ℕ) :
    Except String Heap :=
  if byteOf word i = liveIn then .ok (Function.update bs (ptr + i) readLiveIn)
  else if byteOf word i ≠ code8 ∧ byteOf word i ≠ readLiveIn then .error name
  else .ok bs

def readMixed (n ptr : ℕ) (name : String) (w : Worker) : Except String Worker := do
  let s ← (List.range n).foldlM (readByteOf w.code8 name (load n w.shadow ptr) ptr) w.shadow
  return { w with shadow := s }

def privateRead2b (ptr : ℕ) (name : String) (w : Worker) : Except String Worker :=
  if load 2 w.shadow ptr = w.code16 then .ok (touch ptr 2 w)
  else if load 2 w.shadow ptr = V16 liveIn then
    .ok (touch ptr 2 { w with shadow := store 2 w.shadow ptr (V16 readLiveIn) })
  else if load 2 w.shadow ptr = V16 readLiveIn then .ok (touch ptr 2 w)
  else readMixed 2 ptr name (touch ptr 2 w)

/-- The window of consecutive live-in reads is extended by the `n` bytes at `ptr`, or restarted
there. -/
def growWindow (ptr n : ℕ) (w : Worker) : Worker :=
  if w.lastReadLiveInPtrStart = 0 ∨ w.lastReadLiveInPtrEnd ≠ nativePtr ptr then
    { w with lastReadLiveInPtrStart := nativePtr ptr, lastReadLiveInPtrEnd := nativePtr ptr + n }
  else { w with lastReadLiveInPtrEnd := w.lastReadLiveInPtrEnd + n }

/-- The `n` bytes at `ptr` are not all in the window of live-in reads. -/
def outsideWindow (ptr n : ℕ) (w : Worker) : Bool :=
  w.lastReadLiveInPtrStart > nativePtr ptr || w.lastReadLiveInPtrEnd < nativePtr ptr + n

/-- The write of a word of `n` bytes that skips the check inside the window. -/
def privateWriteSized (n code : ℕ) (reason : String) (ptr : ℕ) (w : Worker) :
    Except String Worker :=
  if w.outsideWindow ptr n && memchr w.shadow ptr readLiveIn n then .error reason
  else .ok (touch ptr n { w with shadow := store n w.shadow ptr code })

def privateWrite4b (ptr : ℕ) (w : Worker) : Except String Worker :=
  privateWriteSized 4 w.code32 "misspec during private write 4b" ptr w

def privateRead4b (ptr : ℕ) (name : String) (w : Worker) : Except String Worker :=
  if load 4 w.shadow ptr = w.code32 then .ok (touch ptr 4 w)
  else if load 4 w.shadow ptr = V32 liveIn then
    .ok (growWindow ptr 4 (touch ptr 4 { w with shadow := store 4 w.shadow ptr (V32 readLiveIn) }))
  else if load 4 w.shadow ptr = V32 readLiveIn then .ok (touch ptr 4 w)
  else readMixed 4 ptr name (touch ptr 4 w)

def privateWrite8b (ptr : ℕ) (w : Worker) : Except String Worker :=
  privateWriteSized 8 w.code64 "misspec in private write 8b" ptr w

def privateRead8b (ptr : ℕ) (name : String) (w : Worker) : Except String Worker :=
  if load 8 w.shadow ptr = V64 liveIn then
    .ok (growWindow ptr 8 (touch ptr 8 { w with shadow := store 8 w.shadow ptr (V64 readLiveIn) }))
  else if load 8 w.shadow ptr = w.code64 ∨ load 8 w.shadow ptr = V64 readLiveIn then
    .ok (touch ptr 8 w)
  else readMixed 8 ptr name (touch ptr 8 w)

/-- One stride of `n` bytes is overwritten with `code` and its old marks are checked. -/
def writeStrideWord (n code : ℕ) (v : UInt8 → ℕ) (reason : String) (shadow : Heap) (cbase : ℕ) :
    Except String Heap :=
  if load n shadow cbase ≠ v liveIn ∧
      (List.range n).any (fun i => byteOf (load n shadow cbase) i = readLiveIn) then .error reason
  else .ok (store n shadow cbase code)

def writeStrideBytes (len : ℕ) (code8 : UInt8) (shadow : Heap) (cbase : ℕ) : Except String Heap :=
  if memchr shadow cbase readLiveIn len then
    .error "misspec during private_write_range_stride, lenPerStride=x"
  else .ok (memset shadow cbase code8 len)

def strides (base nStrides strideWidth : ℕ) : List ℕ :=
  (List.range nStrides).map (fun i => base + i * strideWidth)

def privateWriteRangeStride (base nStrides strideWidth lenPerStride : ℕ) (w : Worker) :
    Except String Worker :=
  if nStrides = 0 then .ok w
  else do
    let w := touch base ((nStrides - 1) * strideWidth + lenPerStride) w
    let s ← (strides base nStrides strideWidth).foldlM
      (match lenPerStride with
        | 4 => writeStrideWord 4 w.code32 V32
            "misspec during private write range string, lenPerStride=4"
        | 8 => writeStrideWord 8 w.code64 V64
            "misspec during private write range string, lenPerStride=8"
        | len => writeStrideBytes len w.code8) w.shadow
    return { w with shadow := s }

/-- One stride of 16 bytes: the mark of the second word goes to the word after it. -/
def readStride16 (code64 : ℕ) (message : String) (shadow : Heap) (cbase : ℕ) :
    Except String Heap := do
  let s ← readWord 8 code64 V64 message shadow cbase
  if load 8 s (cbase + 8) = V64 liveIn then return store 8 s (cbase + 16) (V64 readLiveIn)
  else if load 8 s (cbase + 8) ≠ code64 ∧ load 8 s (cbase + 8) ≠ V64 readLiveIn then .error message
  else return s

def privateReadRangeStride (base nStrides strideWidth lenPerStride : ℕ) (message : String)
    (w : Worker) : Except String Worker := do
  let w := if nStrides = 0 then w
    else touch base ((nStrides - 1) * strideWidth + lenPerStride) w
  let s ← (strides base nStrides strideWidth).foldlM
    (match lenPerStride with
      | 4 => readWord 4 w.code32 V32 message
      | 8 => readWord 8 w.code64 V64 message
      | 16 => readStride16 w.code64 message
      | len => fun s cbase => Except.map Worker.shadow
          (privateReadRangeInternal cbase (cbase + len) message { w with shadow := s })) w.shadow
  return { w with shadow := s }

end Worker

/-- The instrumentation calls around private loads and stores. -/
inductive Access
  | write1b (ptr : ℕ)
  | write2b (ptr : ℕ)
  | write4b (ptr : ℕ)
  | write8b (ptr : ℕ)
  | writeRange (ptr len : ℕ)
  | writeRangeStride (base nStrides strideWidth lenPerStride : ℕ)
  | read1b (ptr : ℕ) (name : String)
  | read2b (ptr : ℕ) (name : String)
  | read4b (ptr : ℕ) (name : String)
  | read8b (ptr : ℕ) (name : String)
  | readRange (ptr len : ℕ) (name : String)
  | readRangeStride (base nStrides strideWidth lenPerStride : ℕ) (name : String)

namespace Access

def call : Access → Worker → Except String Worker
  | write1b ptr => Worker.privateWrite1b ptr
  | write2b ptr => Worker.privateWrite2b ptr
  | write4b ptr => Worker.privateWrite4b ptr
  | write8b ptr => Worker.privateWrite8b ptr
  | writeRange ptr len => Worker.privateWriteRange ptr len
  | writeRangeStride base n width len => Worker.privateWriteRangeStride base n width len
  | read1b ptr name => Worker.privateRead1b ptr name
  | read2b ptr name => Worker.privateRead2b ptr name
  | read4b ptr name => Worker.privateRead4b ptr name
  | read8b ptr name => Worker.privateRead8b ptr name
  | readRange ptr len name => Worker.privateReadRange ptr len name
  | readRangeStride base n width len name => Worker.privateReadRangeStride base n width len name

/-- Where the access starts, how often it repeats, at which distance and how long each part is. -/
def shape : Access → ℕ × ℕ × ℕ × ℕ
  | write1b ptr | read1b ptr _ => (ptr, 1, 0, 1)
  | write2b ptr | read2b ptr _ => (ptr, 1, 0, 2)
  | write4b ptr | read4b ptr _ => (ptr, 1, 0, 4)
  | write8b ptr | read8b ptr _ => (ptr, 1, 0, 8)
  | writeRange ptr len | readRange ptr len _ => (ptr, 1, 0, len)
  | writeRangeStride base n width len | readRangeStride base n width len _ => (base, n, width, len)

def isWrite : Access → Bool
  | write1b _ | write2b _ | write4b _ | write8b _ | writeRange _ _ | writeRangeStride _ _ _ _ => true
  | _ => false

/-- The calls other than the four- and eight-byte writes and the strided read. -/
def isPlain : Access → Bool
  | write4b _ | write8b _ | readRangeStride _ _ _ _ _ => false
  | _ => true

def Touches (a : Access) (k : ℕ) : Prop :=
  ∃ i < a.shape.2.1, a.shape.1 + i * a.shape.2.2.1 ≤ k ∧
    k < a.shape.1 + i * a.shape.2.2.1 + a.shape.2.2.2

instance (a : Access) (k : ℕ) : Decidable (a.Touches k) :=
  inferInstanceAs (Decidable (∃ i < _, _))

def Writes (a : Access) (k : ℕ) : Prop := a.isWrite = true ∧ a.Touches k

def Reads (a : Access) (k : ℕ) : Prop := a.isWrite = false ∧ a.Touches k

instance (a : Access) (k : ℕ) : Decidable (a.Writes k) := inferInstanceAs (Decidable (_ ∧ _))

instance (a : Access) (k : ℕ) : Decidable (a.Reads k) := inferInstanceAs (Decidable (_ ∧ _))

/-- The access stays inside a private heap of `size` bytes. -/
def InHeap (a : Access) (size : ℕ) : Prop :=
  0 < a.shape.2.1 → a.shape.1 + ((a.shape.2.1 - 1) * a.shape.2.2.1 + a.shape.2.2.2) ≤ size

instance (a : Access) (size : ℕ) : Decidable (a.InHeap size) :=
  inferInstanceAs (Decidable (_ → _))

end Access

/-- An instrumented load or store of the program; `data` are the bytes a store writes. -/
structure Op where
  access : Access
  data : Heap

namespace Op

/-- The instrumentation call and then the load or store itself. -/
def exec (w : Worker) (o : Op) : Except String Worker := do
  let w ← o.access.call w
  return { w with priv := fun k => if o.access.Writes k then o.data k else w.priv k }

end Op
end Cpf.Executive
