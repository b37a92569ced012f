import Cpf.Basics.ByteHeap
import Cpf.Smtx.AStream

/-!
# Messages about versioned memory

An access is sent as two words: a token with the address, the kind and the size of the access, and the value.
A token that is zero marks the end of an iteration, and the word behind it is the mode. What the receiver
does with a message is compared with the access itself.
-/

namespace Cpf.Smtx

open Heap

inductive VerMode
  | ok
  | misspec
  | recover
  | term
  | cont
  | unknown (bits : BitVec 32)
  deriving DecidableEq

def VerMode.box : VerMode → Word
  | .ok => 0
  | .misspec => -1
  | .recover => -2
  | .term => -3
  | .cont => -4
  | .unknown bits => bits.signExtend 64

def VerMode.unbox (value : Word) : VerMode :=
  let bits := value.setWidth 32
  if bits = 0 then .ok
  else if bits = -1 then .misspec
  else if bits = -2 then .recover
  else if bits = -3 then .term
  else if bits = -4 then .cont
  else .unknown bits

inductive AccType
  | write
  | read
  deriving DecidableEq

def AccType.code : AccType → Word
  | .write => 0
  | .read => 4

def encodeSize (size : ℕ) : Word := if size < 8 then BitVec.ofNat 64 (size >>> 1) else 3

def encode (addr : Word) (type : AccType) (size : Word) : Word := addr <<< 3 ||| type.code ||| size

def sizeOf (token : Word) : ℕ :=
  let size := token &&& 3
  if size = 0 then 1 else if size = 1 then 2 else if size = 2 then 4 else 8

/-- `ver_applyUpdates`, once it has consumed the two words. -/
def applyUpdates (processReads : Bool) (mem : Heap) (token value : Word) : Heap × VerMode :=
  if token ≠ 0 then
    let addr := (token.sshiftRight 3).toNat
    let size := sizeOf token
    if token &&& 4 ≠ 0 ∧ processReads then
      if load size mem addr ≠ value.toNat % 256 ^ size then (mem, .misspec) else (mem, .cont)
    else (store size mem addr value.toNat, .cont)
  else (mem, .unbox value)

inductive Size
  | one
  | two
  | four
  | eight
  deriving DecidableEq

def Size.bytes : Size → ℕ
  | .one => 1
  | .two => 2
  | .four => 4
  | .eight => 8

inductive AccessKind
  | read
  | writeAll
  | writeSilent
  deriving DecidableEq

def AccessKind.type : AccessKind → AccType
  | .read => .read
  | .writeAll => .write
  | .writeSilent => .write

/-- A call of `ver_read`, `ver_writeAll` or `ver_writeSilent`. The address is the sign extension of its low
61 bits. -/
structure Access where
  kind : AccessKind
  addr : Word
  val : Word
  size : Size
  nonnull : addr ≠ 0
  signExtended : (addr <<< 3).sshiftRight 3 = addr

namespace Access

def token (a : Access) : Word := encode a.addr a.kind.type (encodeSize a.size.bytes)

def words (a : Access) : List Word := [a.token, a.val]

def isWrite (a : Access) : Bool := a.kind.type = .write

def apply (mem : Heap) (a : Access) : Heap :=
  if a.isWrite then store a.size.bytes mem a.addr.toNat a.val.toNat else mem

/-- The value of a read is the content of the location. -/
def Agrees (mem : Heap) (a : Access) : Prop :=
  a.isWrite = false → load a.size.bytes mem a.addr.toNat = a.val.toNat % 256 ^ a.size.bytes

instance (mem : Heap) (a : Access) : Decidable (a.Agrees mem) := inferInstanceAs (Decidable (_ → _))

end Access

/-- The memory behind a sequence of accesses. -/
def memAfter (mem : Heap) (l : List Access) : Heap := l.foldl Access.apply mem

/-- Every read sees the content that the accesses in front of it leave. -/
def AllAgree : Heap → List Access → Prop
  | _, [] => True
  | mem, a :: l => a.Agrees mem ∧ AllAgree (a.apply mem) l

theorem memAfter_append (mem : Heap) (l l' : List Access) :
    memAfter mem (l ++ l') = memAfter (memAfter mem l) l' := List.foldl_append

theorem allAgree_append (mem : Heap) (l l' : List Access) :
    AllAgree mem (l ++ l') ↔ AllAgree mem l ∧ AllAgree (memAfter mem l) l' := by
  induction l generalizing mem with
  | nil => exact ⟨fun h => ⟨trivial, h⟩, fun h => h.2⟩
  | cons a l ih =>
      rw [List.cons_append, AllAgree, AllAgree, ih, and_assoc]
      rfl

theorem memAfter_filter (mem : Heap) (l : List Access) (p : Access → Bool)
    (hp : ∀ a, a.isWrite = true → p a = true) : memAfter mem (l.filter p) = memAfter mem l := by
  induction l generalizing mem with
  | nil => rfl
  | cons a l ih =>
      cases ha : p a with
      | true =>
          rw [List.filter_cons_of_pos ha]
          exact ih _
      | false =>
          have hread : a.isWrite = false := Bool.eq_false_iff.2 fun hw => by
            rw [hp a hw] at ha
            cases ha
          have hkeep : a.apply mem = mem := by rw [Access.apply, hread, if_neg Bool.false_ne_true]
          rw [List.filter_cons_of_neg (by rw [ha]; exact Bool.false_ne_true), ih]
          change memAfter mem l = memAfter (a.apply mem) l
          rw [hkeep]

/-! ### The receiver reads what was sent -/

/-- The bits of a token below the address. -/
def Access.low (a : Access) : Word := a.kind.type.code ||| encodeSize a.size.bytes

theorem Access.low_lt (a : Access) : a.low < 8 := by
  unfold low
  cases a.kind <;> cases a.size <;> decide

theorem Access.token_eq (a : Access) : a.token = a.addr <<< 3 ||| a.low := BitVec.or_assoc ..

theorem getLsbD_of_lt_eight {c : Word} (h : c < 8) {i : ℕ} (hi : 3 ≤ i) : c.getLsbD i = false := by
  have hlt : c.toNat < 2 ^ i :=
    lt_of_lt_of_le (BitVec.lt_def.1 h) (Nat.pow_le_pow_right (by omega) hi : 2 ^ 3 ≤ 2 ^ i)
  rw [BitVec.getLsbD]
  exact Nat.testBit_lt_two_pow hlt

theorem sshiftRight_or {addr c : Word} (h : c < 8) :
    (addr <<< 3 ||| c).sshiftRight 3 = (addr <<< 3).sshiftRight 3 := by
  apply BitVec.eq_of_getLsbD_eq
  intro i hi
  have hmsb : (addr <<< 3 ||| c).msb = (addr <<< 3).msb := by
    rw [BitVec.msb_or, BitVec.msb_eq_getLsbD_last c, getLsbD_of_lt_eight h (by omega), Bool.or_false]
  rw [BitVec.getLsbD_sshiftRight, BitVec.getLsbD_sshiftRight, hmsb, BitVec.getLsbD_or,
    getLsbD_of_lt_eight h (by omega), Bool.or_false]

theorem or_and_of_lt_eight {addr c m : Word} (hm : m < 8) : (addr <<< 3 ||| c) &&& m = c &&& m := by
  apply BitVec.eq_of_getLsbD_eq
  intro i hi
  rw [BitVec.getLsbD_and, BitVec.getLsbD_and, BitVec.getLsbD_or, BitVec.getLsbD_shiftLeft]
  by_cases hlow : i < 3
  · simp [hlow]
  · rw [getLsbD_of_lt_eight hm (by omega), Bool.and_false, Bool.and_false]

namespace Access

variable (a : Access)

theorem addr_token : a.token.sshiftRight 3 = a.addr := by
  rw [token_eq, sshiftRight_or a.low_lt, a.signExtended]

theorem token_ne_zero : a.token ≠ 0 := by
  intro hzero
  apply a.nonnull
  rw [← a.addr_token, hzero]
  rfl

theorem isRead_token : a.token &&& 4 ≠ 0 ↔ a.isWrite = false := by
  rw [token_eq, or_and_of_lt_eight (by decide)]
  unfold low isWrite
  cases a.kind <;> cases a.size <;> decide

theorem not_isRead_token {processReads : Bool} (ha : a.isWrite = true) :
    ¬ (a.token &&& 4 ≠ 0 ∧ processReads = true) := by
  rintro ⟨hread, -⟩
  rw [a.isRead_token.1 hread] at ha
  cases ha

theorem sizeOf_token : sizeOf a.token = a.size.bytes := by
  have hlow : a.token &&& 3 = a.low &&& 3 := by rw [token_eq, or_and_of_lt_eight (by decide)]
  unfold sizeOf
  rw [hlow]
  unfold low
  cases a.kind <;> cases a.size <;> decide

end Access

/-- What a receiver that checks reads does with the message of an access. -/
theorem applyUpdates_check (mem : Heap) (a : Access) : applyUpdates true mem a.token a.val =
    if a.Agrees mem then (a.apply mem, .cont) else (mem, .misspec) := by
  unfold applyUpdates
  rw [if_pos a.token_ne_zero]
  dsimp only
  rw [a.addr_token, a.sizeOf_token]
  by_cases ha : a.isWrite = true
  · have hagrees : a.Agrees mem := fun hread => by
      rw [ha] at hread
      cases hread
    rw [if_neg (a.not_isRead_token ha), if_pos hagrees, Access.apply, if_pos ha]
  · have hread : a.isWrite = false := Bool.eq_false_iff.2 ha
    rw [if_pos ⟨a.isRead_token.2 hread, rfl⟩, Access.apply, if_neg ha]
    by_cases hload : load a.size.bytes mem a.addr.toNat = a.val.toNat % 256 ^ a.size.bytes
    · have hagrees : a.Agrees mem := fun _ => hload
      rw [if_neg (not_not.2 hload), if_pos hagrees]
    · rw [if_pos hload, if_neg fun hagrees => hload (hagrees hread)]

/-- What any receiver does with the message of a write. -/
theorem applyUpdates_write (processReads : Bool) (mem : Heap) {a : Access} (ha : a.isWrite = true) :
    applyUpdates processReads mem a.token a.val = (a.apply mem, .cont) := by
  unfold applyUpdates
  rw [if_pos a.token_ne_zero]
  dsimp only
  rw [a.addr_token, a.sizeOf_token, Access.apply, if_pos ha, if_neg (a.not_isRead_token ha)]

theorem applyUpdates_end (processReads : Bool) (mem : Heap) :
    applyUpdates processReads mem 0 0 = (mem, .ok) := rfl

end Cpf.Smtx
