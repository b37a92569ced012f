import Cpf.Basics.WordBits

/-!
# What was read and written, byte by byte

The shadow byte of an address is found by flipping bit 45 of the address. `__specpriv_ver_read*`
sets bit 2 of the shadow bytes of what is read, `__specpriv_ver_write*` sets bit 1 and, at the
first write of a byte that was read before, bit 0. Ranges are written in words of eight bytes and
a tail; `__specpriv_ver_read` returns at once.
-/

namespace Cpf.Smtx
open Heap

def shadowMask : ℕ := 0x0000200000000000

def getShadowOf (x : ℕ) : ℕ := x ^^^ shadowMask

/-- A range whose shadow is one range: it crosses no multiple of the mask. -/
def Contiguous (ptr size : ℕ) : Prop := ptr % shadowMask + size ≤ shadowMask

instance (ptr size : ℕ) : Decidable (Contiguous ptr size) :=
  inferInstanceAs (Decidable (ptr % shadowMask + size ≤ shadowMask))

/-- The reads of one word; `loads` has bit 2 of every byte. -/
def verReadWord (n : ℕ) (loads : BitVec (8 * n)) (h : Heap) (ptr : ℕ) : Heap :=
  let shadow := getShadowOf ptr
  let access := loadWord n h shadow
  storeWord n h shadow (access ||| loads)

/-- The writes of one word; `stores` has bit 1 of every byte and `firsts` bit 0. -/
def verWriteWord (n : ℕ) (stores firsts : BitVec (8 * n)) (h : Heap) (ptr : ℕ) : Heap :=
  let shadow := getShadowOf ptr
  let access := loadWord n h shadow
  if access &&& stores = stores then h
  else
    let mask1 := access >>> 2
    let mask2 := ~~~(access >>> 1)
    let mask := mask1 &&& mask2 &&& firsts
    storeWord n h shadow (access ||| stores ||| mask)

def verRead1 (h : Heap) (ptr : ℕ) : Heap := verReadWord 1 0x04#8 h ptr

def verRead2 (h : Heap) (ptr : ℕ) : Heap := verReadWord 2 0x0404#16 h ptr

def verRead4 (h : Heap) (ptr : ℕ) : Heap := verReadWord 4 0x04040404#32 h ptr

def verRead8 (h : Heap) (ptr : ℕ) : Heap := verReadWord 8 0x0404040404040404#64 h ptr

/-- The first statement of the function is a `return`. -/
def verRead (h : Heap) (_ptr : ℕ) (_size : UInt32) : Heap := h

def verWrite1 (h : Heap) (ptr : ℕ) : Heap := verWriteWord 1 0x02#8 0x1#8 h ptr

def verWrite2 (h : Heap) (ptr : ℕ) : Heap := verWriteWord 2 0x0202#16 0x0101#16 h ptr

def verWrite4 (h : Heap) (ptr : ℕ) : Heap := verWriteWord 4 0x02020202#32 0x01010101#32 h ptr

def verWrite8 (h : Heap) (ptr : ℕ) : Heap :=
  verWriteWord 8 0x0202020202020202#64 0x0101010101010101#64 h ptr

/-- Words of eight bytes while `i < size - rem`, then the remaining bytes one by one. -/
def verWrite (h : Heap) (ptr : ℕ) (size : UInt32) : Heap :=
  let rem := size &&& 0x7
  let z := (size - rem).toNat
  let h := (List.range' 0 (z / 8) 8).foldl (fun h i => verWrite8 h (ptr + i)) h
  (List.range' z rem.toNat).foldl (fun h i => verWrite1 h (ptr + i)) h

def verMemmove (h : Heap) (writePtr : ℕ) (size : UInt32) (readPtr : ℕ) : Heap :=
  verWrite (verRead h readPtr size) writePtr size

inductive Width where
  | one
  | two
  | four
  | eight
  deriving DecidableEq

def Width.bytes : Width → ℕ
  | .one => 1
  | .two => 2
  | .four => 4
  | .eight => 8

inductive MemOp where
  | readWord (w : Width) (ptr : ℕ)
  | read (ptr : ℕ) (size : UInt32)
  | writeWord (w : Width) (ptr : ℕ)
  | write (ptr : ℕ) (size : UInt32)
  | memmove (writePtr : ℕ) (size : UInt32) (readPtr : ℕ)

def MemOp.run : MemOp → Heap → Heap
  | .readWord .one ptr, h => verRead1 h ptr
  | .readWord .two ptr, h => verRead2 h ptr
  | .readWord .four ptr, h => verRead4 h ptr
  | .readWord .eight ptr, h => verRead8 h ptr
  | .read ptr size, h => verRead h ptr size
  | .writeWord .one ptr, h => verWrite1 h ptr
  | .writeWord .two ptr, h => verWrite2 h ptr
  | .writeWord .four ptr, h => verWrite4 h ptr
  | .writeWord .eight ptr, h => verWrite8 h ptr
  | .write ptr size, h => verWrite h ptr size
  | .memmove writePtr size readPtr, h => verMemmove h writePtr size readPtr

def runCalls (h : Heap) (calls : List MemOp) : Heap := calls.foldl (fun h c => c.run h) h

/-! ## The automaton of one byte -/

inductive Kind where
  | read
  | write
  deriving DecidableEq

structure RangeAccess where
  kind : Kind
  ptr : ℕ
  size : ℕ

def RangeAccess.Touches (x : RangeAccess) (a : ℕ) : Prop := x.ptr ≤ a ∧ a < x.ptr + x.size

instance (x : RangeAccess) (a : ℕ) : Decidable (x.Touches a) :=
  inferInstanceAs (Decidable (x.ptr ≤ a ∧ a < x.ptr + x.size))

def MemOp.accesses : MemOp → List RangeAccess
  | .readWord w ptr => [⟨.read, ptr, w.bytes⟩]
  | .read ptr size => [⟨.read, ptr, size.toNat⟩]
  | .writeWord w ptr => [⟨.write, ptr, w.bytes⟩]
  | .write ptr size => [⟨.write, ptr, size.toNat⟩]
  | .memmove writePtr size readPtr =>
      [⟨.read, readPtr, size.toNat⟩, ⟨.write, writePtr, size.toNat⟩]

/-- The accesses of a call other than the reads of `ver_read`. -/
def MemOp.marking : MemOp → List RangeAccess
  | .readWord w ptr => [⟨.read, ptr, w.bytes⟩]
  | .read _ _ => []
  | .writeWord w ptr => [⟨.write, ptr, w.bytes⟩]
  | .write ptr size => [⟨.write, ptr, size.toNat⟩]
  | .memmove writePtr size _ => [⟨.write, writePtr, size.toNat⟩]

def historyOf (xs : List RangeAccess) (a : ℕ) : List Kind :=
  (xs.filter (fun x => x.Touches a)).map RangeAccess.kind

def history (calls : List MemOp) (a : ℕ) : List Kind := historyOf (calls.flatMap MemOp.accesses) a

def marking (calls : List MemOp) (a : ℕ) : List Kind := historyOf (calls.flatMap MemOp.marking) a

def ReadFirst (ks : List Kind) : Prop := .write ∈ ks ∧ .read ∈ ks.takeWhile (fun k => k ≠ .write)

instance (ks : List Kind) : Decidable (ReadFirst ks) :=
  inferInstanceAs (Decidable (.write ∈ ks ∧ .read ∈ ks.takeWhile (fun k => k ≠ .write)))

def markRead (b : UInt8) : UInt8 := b ||| 0x04

def markWrite (b : UInt8) : UInt8 :=
  if b &&& 0x02 = 0x02 then b
  else
    let mask1 : UInt8 := b >>> 2
    let mask2 : UInt8 := ~~~(b >>> 1)
    b ||| 0x02 ||| (mask1 &&& mask2 &&& 0x01)

def markByte (b : UInt8) : Kind → UInt8
  | .read => markRead b
  | .write => markWrite b

/-- Bit 2 says read, bit 1 written and bit 0 read before the first write. -/
structure Says (b : UInt8) (ks : List Kind) : Prop where
  read : b.toNat.testBit 2 = true ↔ .read ∈ ks
  write : b.toNat.testBit 1 = true ↔ .write ∈ ks
  readFirst : b.toNat.testBit 0 = true ↔ ReadFirst ks

/-- The shadow byte of every address says how it was accessed. -/
def MarksExact (h : Heap) (calls : List MemOp) : Prop :=
  ∀ a, Says (h (getShadowOf a)) (history calls a)

/-- Every byte that is read is read by a word read too, and by one before its first write where
it is read before that. -/
def ReadsMarked (calls : List MemOp) : Prop :=
  ∀ a, (.read ∈ history calls a → .read ∈ marking calls a) ∧
    (ReadFirst (history calls a) → ReadFirst (marking calls a))

/-- The ranges accessed have their shadow in one piece. -/
def MemOp.Placed (c : MemOp) : Prop := ∀ x ∈ c.accesses, Contiguous x.ptr x.size

instance (c : MemOp) : Decidable c.Placed :=
  inferInstanceAs (Decidable (∀ x ∈ c.accesses, Contiguous x.ptr x.size))

section Shadow

variable {x y ptr size i : ℕ}

theorem getShadowOf_getShadowOf (x : ℕ) : getShadowOf (getShadowOf x) = x := by
  rw [getShadowOf, getShadowOf, Nat.xor_assoc, Nat.xor_self, Nat.xor_zero]

theorem getShadowOf_injective : Function.Injective getShadowOf :=
  Function.LeftInverse.injective getShadowOf_getShadowOf

theorem getShadowOf_div (x : ℕ) : getShadowOf x / shadowMask = (x / shadowMask) ^^^ 1 := by
  have hdiv : getShadowOf x / 2 ^ 45 = (x / 2 ^ 45) ^^^ 1 := by
    rw [getShadowOf, Nat.xor_div_two_pow]
    rfl
  exact hdiv

theorem getShadowOf_eq (x : ℕ) :
    getShadowOf x = shadowMask * ((x / shadowMask) ^^^ 1) + x % shadowMask := by
  have hmod : getShadowOf x % 2 ^ 45 = x % 2 ^ 45 := by
    rw [getShadowOf, Nat.xor_mod_two_pow]
    exact Nat.xor_zero _
  have hsplit := Nat.div_add_mod (getShadowOf x) (2 ^ 45)
  rw [hmod] at hsplit
  rw [← getShadowOf_div]
  exact hsplit.symm

theorem Contiguous.div_eq (hc : Contiguous ptr size) (hi : i < size) :
    (ptr + i) / shadowMask = ptr / shadowMask := by
  have hsmall : ptr % shadowMask + i < shadowMask := by
    unfold Contiguous at hc
    omega
  have hsplit := Nat.div_add_mod ptr shadowMask
  rw [show ptr + i = ptr % shadowMask + i + shadowMask * (ptr / shadowMask) by omega,
    Nat.add_mul_div_left _ _ (by decide), Nat.div_eq_of_lt hsmall, Nat.zero_add]

theorem getShadowOf_add (hc : Contiguous ptr size) (hi : i < size) :
    getShadowOf (ptr + i) = getShadowOf ptr + i := by
  have hsmall : ptr % shadowMask + i < shadowMask := by
    unfold Contiguous at hc
    omega
  have hmod : (ptr + i) % shadowMask = ptr % shadowMask + i := by
    rw [← Nat.mod_add_mod, Nat.mod_eq_of_lt hsmall]
  rw [getShadowOf_eq, getShadowOf_eq, hc.div_eq hi, hmod]
  omega

/-- A range in one piece and its shadow are apart. -/
theorem Contiguous.ne_getShadowOf (hc : Contiguous ptr size) (hi : i < size) {j : ℕ}
    (hj : j < size) : ptr + i ≠ getShadowOf (ptr + j) := by
  intro he
  have hdiv := getShadowOf_div (ptr + j)
  rw [← he, hc.div_eq hi, hc.div_eq hj] at hdiv
  have hflip := congrArg (fun x => (ptr / shadowMask) ^^^ x) hdiv
  simp only [Nat.xor_self, ← Nat.xor_assoc, Nat.zero_xor] at hflip
  exact absurd hflip (by decide)

theorem getShadowOf_mem_iff (hc : Contiguous ptr size) {a : ℕ} :
    (getShadowOf ptr ≤ getShadowOf a ∧ getShadowOf a < getShadowOf ptr + size) ↔
      (ptr ≤ a ∧ a < ptr + size) := by
  constructor
  · rintro ⟨hle, hlt⟩
    have hshift := getShadowOf_add hc (i := getShadowOf a - getShadowOf ptr) (by omega)
    rw [Nat.add_sub_cancel' hle] at hshift
    have ha := getShadowOf_injective hshift
    omega
  · rintro ⟨hle, hlt⟩
    have hshift := getShadowOf_add hc (i := a - ptr) (by omega)
    rw [Nat.add_sub_cancel' hle] at hshift
    omega

end Shadow

/-! ## Words are marked byte by byte -/

theorem testBit_markRead (c : UInt8) {b : ℕ} (hb : b < 8) :
    (markRead c).toNat.testBit b = (c.toNat.testBit b || decide (b = 2)) := by
  have hload : ∀ b < 8, (0x04#8).getLsbD b = decide (b = 2) := by decide
  rw [← hload b hb]
  exact BitVec.getLsbD_or

theorem written_iff (c : UInt8) : c &&& 0x02 = 0x02 ↔ c.toNat.testBit 1 = true := by
  have hand : ∀ b < 8, (c &&& 0x02).toNat.testBit b = (c.toNat.testBit b && decide (b = 1)) := by
    have hstore : ∀ b < 8, (0x02#8).getLsbD b = decide (b = 1) := by decide
    intro b hb
    rw [← hstore b hb]
    exact BitVec.getLsbD_and
  constructor
  · intro he
    have hbit := hand 1 (by omega)
    rw [he, decide_eq_true rfl, Bool.and_true] at hbit
    exact hbit.symm
  · intro hbit
    apply byte_ext
    intro b hb
    rw [hand b hb]
    have hstore : ∀ b < 8, (2 : ℕ).testBit b = decide (b = 1) := by decide
    refine Eq.trans ?_ (hstore b hb).symm
    by_cases h1 : b = 1
    · rw [h1, hbit]
      rfl
    · rw [decide_eq_false h1, Bool.and_false]

theorem testBit_markWrite (c : UInt8) {b : ℕ} (hb : b < 8) :
    (markWrite c).toNat.testBit b = (c.toNat.testBit b || decide (b = 1) ||
      (c.toNat.testBit 2 && !c.toNat.testBit 1 && decide (b = 0))) := by
  unfold markWrite
  by_cases hw : c &&& 0x02 = 0x02
  · have hbit := (written_iff c).1 hw
    rw [if_pos hw, hbit]
    by_cases h1 : b = 1
    · rw [h1, hbit]
      rfl
    · simp [h1]
  · rw [if_neg hw]
    have hstore : ∀ b < 8, (0x02#8).getLsbD b = decide (b = 1) := by decide
    have hfirst : ∀ b < 8, (0x01#8).getLsbD b = decide (b = 0) := by decide
    have hbits : (c.toBitVec ||| 0x02#8 |||
        (c.toBitVec >>> 2 &&& ~~~(c.toBitVec >>> 1) &&& 0x01#8)).getLsbD b =
          (c.toBitVec.getLsbD b || decide (b = 1) ||
            (c.toBitVec.getLsbD 2 && !c.toBitVec.getLsbD 1 && decide (b = 0))) := by
      simp only [BitVec.getLsbD_or, BitVec.getLsbD_and, BitVec.getLsbD_not,
        BitVec.getLsbD_ushiftRight, hstore b hb, hfirst b hb]
      by_cases h0 : b = 0
      · subst b
        simp
      · simp [h0]
    exact hbits

section Words

variable {n ptr : ℕ} {h : Heap}

theorem markWrite_of_written {c : UInt8} (hc : c.toNat.testBit 1 = true) : markWrite c = c := by
  rw [markWrite, if_pos ((written_iff c).2 hc)]

theorem verReadWord_eq {loads : BitVec (8 * n)}
    (hloads : ∀ i < n, ∀ b < 8, loads.getLsbD (8 * i + b) = decide (b = 2)) :
    verReadWord n loads h ptr = mapBytes n markRead h (getShadowOf ptr) := by
  apply storeWord_eq_mapBytes
  intro i hi b hb
  rw [BitVec.getLsbD_or, getLsbD_loadWord hi hb, hloads i hi b hb, testBit_markRead _ hb]

theorem verWriteWord_eq {stores firsts : BitVec (8 * n)}
    (hstores : ∀ i < n, ∀ b < 8, stores.getLsbD (8 * i + b) = decide (b = 1))
    (hfirsts : ∀ i < n, ∀ b < 8, firsts.getLsbD (8 * i + b) = decide (b = 0)) :
    verWriteWord n stores firsts h ptr = mapBytes n markWrite h (getShadowOf ptr) := by
  unfold verWriteWord
  dsimp only
  split_ifs with hall
  · -- every byte is written already, and the marks of such bytes stay
    funext k
    by_cases hk : getShadowOf ptr ≤ k ∧ k < getShadowOf ptr + n
    · have hi : k - getShadowOf ptr < n := by omega
      have hbit := congrArg (fun m => BitVec.getLsbD m (8 * (k - getShadowOf ptr) + 1)) hall
      simp only [BitVec.getLsbD_and, getLsbD_loadWord hi (by decide : 1 < 8),
        hstores _ hi 1 (by decide), Nat.add_sub_cancel' hk.1, decide_true, Bool.and_true] at hbit
      rw [mapBytes_apply_of_mem hk.1 hk.2, markWrite_of_written hbit]
    · rw [mapBytes_apply_of_not_mem hk]
  · apply storeWord_eq_mapBytes
    intro i hi b hb
    rw [testBit_markWrite _ hb, BitVec.getLsbD_or, BitVec.getLsbD_or, BitVec.getLsbD_and,
      getLsbD_loadWord hi hb, hstores i hi b hb, hfirsts i hi b hb]
    congr 1
    by_cases h0 : b = 0
    · subst b
      rw [BitVec.getLsbD_and, BitVec.getLsbD_not, BitVec.getLsbD_ushiftRight,
        BitVec.getLsbD_ushiftRight, Nat.add_zero, Nat.add_comm 2, Nat.add_comm 1,
        getLsbD_loadWord hi (by decide), getLsbD_loadWord hi (by decide),
        decide_eq_true (show 8 * i < 8 * n by omega), Bool.true_and]
    · rw [decide_eq_false h0, Bool.and_false, Bool.and_false]

/-- Marking a range and then the range behind it is marking both. -/
theorem mapBytes_mapBytes {g : UInt8 → UInt8} {m p : ℕ} :
    mapBytes n g (mapBytes m g h p) (p + m) = mapBytes (m + n) g h p := by
  funext k
  unfold mapBytes
  by_cases hlow : p ≤ k ∧ k < p + m
  · rw [if_neg (by omega), if_pos hlow, if_pos (by omega)]
  · by_cases hhigh : p + m ≤ k ∧ k < p + m + n
    · rw [if_pos hhigh, if_neg hlow, if_pos (by omega)]
    · rw [if_neg hhigh, if_neg hlow, if_neg (by omega)]

end Words

theorem verRead1_eq (h : Heap) (ptr : ℕ) :
    verRead1 h ptr = mapBytes 1 markRead h (getShadowOf ptr) := verReadWord_eq (by decide)

theorem verRead2_eq (h : Heap) (ptr : ℕ) :
    verRead2 h ptr = mapBytes 2 markRead h (getShadowOf ptr) := verReadWord_eq (by decide)

theorem verRead4_eq (h : Heap) (ptr : ℕ) :
    verRead4 h ptr = mapBytes 4 markRead h (getShadowOf ptr) := verReadWord_eq (by decide)

theorem verRead8_eq (h : Heap) (ptr : ℕ) :
    verRead8 h ptr = mapBytes 8 markRead h (getShadowOf ptr) := verReadWord_eq (by decide)

theorem verWrite1_eq (h : Heap) (ptr : ℕ) :
    verWrite1 h ptr = mapBytes 1 markWrite h (getShadowOf ptr) :=
  verWriteWord_eq (by decide) (by decide)

theorem verWrite2_eq (h : Heap) (ptr : ℕ) :
    verWrite2 h ptr = mapBytes 2 markWrite h (getShadowOf ptr) :=
  verWriteWord_eq (by decide) (by decide)

theorem verWrite4_eq (h : Heap) (ptr : ℕ) :
    verWrite4 h ptr = mapBytes 4 markWrite h (getShadowOf ptr) :=
  verWriteWord_eq (by decide) (by decide)

theorem verWrite8_eq (h : Heap) (ptr : ℕ) :
    verWrite8 h ptr = mapBytes 8 markWrite h (getShadowOf ptr) :=
  verWriteWord_eq (by decide) (by decide)

section Ranges

variable {ptr size n : ℕ} {h : Heap} {f : Heap → ℕ → Heap}

/-- A loop that writes words of `n` bytes one after another. -/
theorem foldl_words (hn : 0 < n)
    (hf : ∀ h p, f h p = mapBytes n markWrite h (getShadowOf p)) (hc : Contiguous ptr size)
    {off count : ℕ} (hsize : off + n * count ≤ size) :
    (List.range' off count n).foldl (fun h i => f h (ptr + i)) h =
      mapBytes (n * count) markWrite h (getShadowOf ptr + off) := by
  induction count generalizing h off with
  | zero =>
      funext k
      rw [mapBytes_apply_of_not_mem (by omega)]
      rfl
  | succ count ih =>
      have hlen : n * (count + 1) = n + n * count := by ring
      rw [List.range'_succ, List.foldl_cons, ih (by omega), hf, hlen, ← Nat.add_assoc,
        ← mapBytes_mapBytes (p := getShadowOf ptr + off), getShadowOf_add hc (by omega)]

theorem verWrite_eq {size : UInt32} (hc : Contiguous ptr size.toNat) :
    verWrite h ptr size = mapBytes size.toNat markWrite h (getShadowOf ptr) := by
  have hrem : (size &&& 0x7).toNat = size.toNat % 8 := by
    rw [UInt32.toNat_and]
    exact Nat.and_two_pow_sub_one_eq_mod _ 3
  have hz : (size - (size &&& 0x7)).toNat = size.toNat - size.toNat % 8 := by
    rw [UInt32.toNat_sub_of_le, hrem]
    rw [UInt32.le_iff_toNat_le, hrem]
    exact Nat.mod_le _ _
  unfold verWrite
  dsimp only
  rw [hz, hrem, foldl_words (by omega) verWrite8_eq hc (by omega),
    foldl_words (by omega) verWrite1_eq hc (by omega),
    Nat.add_zero, Nat.one_mul]
  have hwords : 8 * ((size.toNat - size.toNat % 8) / 8) = size.toNat - size.toNat % 8 := by omega
  rw [hwords, mapBytes_mapBytes, Nat.sub_add_cancel (Nat.mod_le _ _)]

end Ranges

/-! ## Calls and runs -/

section Runs

variable {h : Heap} {a : ℕ} {calls : List MemOp}

theorem mapBytes_shadow {x : RangeAccess} {g : UInt8 → UInt8} (hc : Contiguous x.ptr x.size) :
    mapBytes x.size g h (getShadowOf x.ptr) (getShadowOf a) =
      if x.Touches a then g (h (getShadowOf a)) else h (getShadowOf a) := by
  unfold mapBytes
  simp only [getShadowOf_mem_iff hc]
  rfl

theorem historyOf_append (xs ys : List RangeAccess) (a : ℕ) :
    historyOf (xs ++ ys) a = historyOf xs a ++ historyOf ys a := by
  rw [historyOf, List.filter_append, List.map_append]
  rfl

theorem foldl_historyOf_single (x : RangeAccess) (b : UInt8) :
    (historyOf [x] a).foldl markByte b = if x.Touches a then markByte b x.kind else b := by
  unfold historyOf
  by_cases ht : x.Touches a
  · rw [if_pos ht, List.filter_cons_of_pos (by simpa using ht)]
    rfl
  · rw [if_neg ht, List.filter_cons_of_neg (by simpa using ht)]
    rfl

theorem verWrite_apply {ptr : ℕ} {size : UInt32} (hc : Contiguous ptr size.toNat) :
    verWrite h ptr size (getShadowOf a) =
      (historyOf [⟨.write, ptr, size.toNat⟩] a).foldl markByte (h (getShadowOf a)) := by
  rw [verWrite_eq hc, foldl_historyOf_single]
  exact mapBytes_shadow (x := ⟨.write, ptr, size.toNat⟩) hc

/-- A call marks every byte as its accesses other than those of `ver_read` do. -/
theorem MemOp.run_apply {c : MemOp} (hp : c.Placed) :
    c.run h (getShadowOf a) = (historyOf c.marking a).foldl markByte (h (getShadowOf a)) := by
  cases c with
  | readWord w ptr =>
      have hc : Contiguous ptr w.bytes := hp ⟨.read, ptr, w.bytes⟩ (List.mem_singleton_self _)
      rw [MemOp.marking, foldl_historyOf_single]
      refine Eq.trans ?_ (mapBytes_shadow (x := ⟨.read, ptr, w.bytes⟩) (g := markRead) hc)
      cases w with
      | one => exact congrFun (verRead1_eq h ptr) _
      | two => exact congrFun (verRead2_eq h ptr) _
      | four => exact congrFun (verRead4_eq h ptr) _
      | eight => exact congrFun (verRead8_eq h ptr) _
  | read ptr size => rfl
  | writeWord w ptr =>
      have hc : Contiguous ptr w.bytes := hp ⟨.write, ptr, w.bytes⟩ (List.mem_singleton_self _)
      rw [MemOp.marking, foldl_historyOf_single]
      refine Eq.trans ?_ (mapBytes_shadow (x := ⟨.write, ptr, w.bytes⟩) (g := markWrite) hc)
      cases w with
      | one => exact congrFun (verWrite1_eq h ptr) _
      | two => exact congrFun (verWrite2_eq h ptr) _
      | four => exact congrFun (verWrite4_eq h ptr) _
      | eight => exact congrFun (verWrite8_eq h ptr) _
  | write ptr size =>
      exact verWrite_apply (hp ⟨.write, ptr, size.toNat⟩ (List.mem_singleton_self _))
  | memmove writePtr size readPtr =>
      exact verWrite_apply (hp ⟨.write, writePtr, size.toNat⟩
        (List.mem_cons_of_mem _ (List.mem_singleton_self _)))

theorem runCalls_apply (hp : ∀ c ∈ calls, c.Placed) :
    runCalls h calls (getShadowOf a) = (marking calls a).foldl markByte (h (getShadowOf a)) := by
  induction calls generalizing h with
  | nil => rfl
  | cons c calls ih =>
      have hrest := ih (h := c.run h) (fun c' hc' => hp c' (List.mem_cons_of_mem _ hc'))
      rw [runCalls, List.foldl_cons, ← runCalls, hrest, c.run_apply (hp c List.mem_cons_self),
        marking, marking, List.flatMap_cons, historyOf_append, List.foldl_append]

end Runs

/-! ## What the marks of a byte say -/

section Automaton

variable {ks ms : List Kind} {b : UInt8}

theorem not_readFirst_nil : ¬ ReadFirst [] := fun h => absurd h.1 (by decide)

theorem readFirst_cons_read : ReadFirst (.read :: ks) ↔ .write ∈ ks := by
  constructor
  · rintro ⟨hw, -⟩
    simpa using hw
  · intro hw
    exact ⟨List.mem_cons_of_mem _ hw, by simp⟩

theorem not_readFirst_cons_write : ¬ ReadFirst (.write :: ks) := by
  rintro ⟨-, hr⟩
  simp at hr

theorem readFirst_concat_read : ReadFirst (ks ++ [.read]) ↔ ReadFirst ks := by
  cases ks with
  | nil => decide
  | cons k ks =>
      cases k with
      | read => simp only [List.cons_append, readFirst_cons_read, List.mem_append,
          List.mem_singleton, reduceCtorEq, or_false]
      | write => simp only [List.cons_append, not_readFirst_cons_write]

theorem readFirst_concat_write :
    ReadFirst (ks ++ [.write]) ↔ ReadFirst ks ∨ (.read ∈ ks ∧ .write ∉ ks) := by
  cases ks with
  | nil => decide
  | cons k ks =>
      cases k with
      | read =>
          simp only [List.cons_append, readFirst_cons_read, List.mem_append, List.mem_cons,
            reduceCtorEq, false_or, true_or, true_and, List.not_mem_nil, or_false, or_true, true_iff]
          exact Classical.em _
      | write =>
          simp only [List.cons_append, not_readFirst_cons_write, List.mem_cons, true_or,
            not_true_eq_false, and_false, or_false]

theorem Says.read_step (hs : Says b ks) : Says (markRead b) (ks ++ [.read]) where
  read := by
    rw [testBit_markRead b (by decide)]
    simp
  write := by
    rw [testBit_markRead b (by decide)]
    simpa using hs.write
  readFirst := by
    rw [testBit_markRead b (by decide), readFirst_concat_read]
    simpa using hs.readFirst

theorem Says.write_step (hs : Says b ks) : Says (markWrite b) (ks ++ [.write]) where
  read := by
    rw [testBit_markWrite b (by decide)]
    simpa using hs.read
  write := by
    rw [testBit_markWrite b (by decide)]
    simp
  readFirst := by
    rw [testBit_markWrite b (by decide), readFirst_concat_write, ← hs.readFirst, ← hs.read,
      ← hs.write]
    simp

/-- The automaton of one byte remembers what its marks are to say. -/
theorem foldl_says (hs : Says b []) : Says (ks.foldl markByte b) ks := by
  induction ks using List.reverseRecOn with
  | nil => exact hs
  | append_singleton ks k ih =>
      rw [List.foldl_append]
      cases k with
      | read => exact ih.read_step
      | write => exact ih.write_step

theorem says_nil (hb : b &&& 0x07 = 0) : Says b [] := by
  have hlow : ∀ i < 3, b.toNat.testBit i = false := by
    intro i hi
    have hmask : ∀ i < 3, (0x07#8).getLsbD i = true := by decide
    have hbit := congrArg (fun c : UInt8 => c.toBitVec.getLsbD i) hb
    have hand : (b &&& 0x07).toBitVec.getLsbD i = (b.toBitVec.getLsbD i && (0x07#8).getLsbD i) :=
      BitVec.getLsbD_and
    rw [hmask i hi, Bool.and_true] at hand
    exact hand.symm.trans (hbit.trans BitVec.getLsbD_zero)
  constructor <;> rw [hlow _ (by decide)]
  · decide
  · decide
  · exact iff_of_false (by decide) not_readFirst_nil

/-- `ms` is `ks` with some reads left out. -/
inductive Thinned : List Kind → List Kind → Prop where
  | nil : Thinned [] []
  | keep (k : Kind) {ms ks : List Kind} : Thinned ms ks → Thinned (k :: ms) (k :: ks)
  | drop {ms ks : List Kind} : Thinned ms ks → Thinned ms (.read :: ks)

theorem Thinned.append {ms' ks' : List Kind} (h : Thinned ms ks) (h' : Thinned ms' ks') :
    Thinned (ms ++ ms') (ks ++ ks') := by
  induction h with
  | nil => exact h'
  | keep k _ ih => exact .keep k ih
  | drop _ ih => exact .drop ih

theorem Thinned.refl (ks : List Kind) : Thinned ks ks := by
  induction ks with
  | nil => exact .nil
  | cons k ks ih => exact .keep k ih

theorem Thinned.read_mem (h : Thinned ms ks) (hr : .read ∈ ms) : .read ∈ ks := by
  induction h with
  | nil => exact hr
  | keep k _ ih =>
      rcases List.mem_cons.1 hr with rfl | hr
      · exact List.mem_cons_self
      · exact List.mem_cons_of_mem _ (ih hr)
  | drop _ _ => exact List.mem_cons_self

theorem Thinned.write_mem_iff (h : Thinned ms ks) : .write ∈ ms ↔ .write ∈ ks := by
  induction h with
  | nil => exact Iff.rfl
  | keep k _ ih => rw [List.mem_cons, List.mem_cons, ih]
  | drop _ ih => rw [ih, List.mem_cons, or_iff_right (by decide)]

theorem Thinned.readFirst (h : Thinned ms ks) (hr : ReadFirst ms) : ReadFirst ks := by
  induction h with
  | nil => exact hr
  | keep k h _ =>
      cases k with
      | read => exact readFirst_cons_read.2 (h.write_mem_iff.1 (readFirst_cons_read.1 hr))
      | write => exact absurd hr not_readFirst_cons_write
  | drop h _ => exact readFirst_cons_read.2 (h.write_mem_iff.1 hr.1)

end Automaton

section Main

variable {h : Heap} {calls : List MemOp}

theorem thinned_call (c : MemOp) (a : ℕ) :
    Thinned (historyOf c.marking a) (historyOf c.accesses a) := by
  have hread : ∀ x : RangeAccess, x.kind = .read → Thinned [] (historyOf [x] a) := by
    intro x hx
    by_cases ht : x.Touches a
    · simpa [historyOf, ht, hx] using Thinned.drop .nil
    · simpa [historyOf, ht] using Thinned.nil
  cases c with
  | readWord w ptr => exact .refl _
  | read ptr size => exact hread ⟨.read, ptr, size.toNat⟩ rfl
  | writeWord w ptr => exact .refl _
  | write ptr size => exact .refl _
  | memmove writePtr size readPtr =>
      have happ := (hread ⟨.read, readPtr, size.toNat⟩ rfl).append
        (.refl (historyOf [⟨.write, writePtr, size.toNat⟩] a))
      rwa [← historyOf_append] at happ

theorem thinned_marking (calls : List MemOp) (a : ℕ) :
    Thinned (marking calls a) (history calls a) := by
  induction calls with
  | nil => exact .nil
  | cons c calls ih =>
      rw [marking, history, List.flatMap_cons, List.flatMap_cons, historyOf_append,
        historyOf_append]
      exact (thinned_call c a).append ih

/-- The shadow bytes say how every byte was accessed exactly when the reads that matter are made
by word reads. -/
theorem runCalls_exact_iff (hclear : ∀ k, h k &&& 0x07 = 0) (hplaced : ∀ c ∈ calls, c.Placed) :
    MarksExact (runCalls h calls) calls ↔ ReadsMarked calls := by
  refine forall_congr' (fun a => ?_)
  have hsaid : Says (runCalls h calls (getShadowOf a)) (marking calls a) := by
    rw [runCalls_apply hplaced]
    exact foldl_says (says_nil (hclear _))
  have hthin := thinned_marking calls a
  constructor
  · intro hexact
    exact ⟨fun hr => hsaid.read.1 (hexact.read.2 hr),
      fun hr => hsaid.readFirst.1 (hexact.readFirst.2 hr)⟩
  · rintro ⟨hread, hfirst⟩
    exact ⟨hsaid.read.trans ⟨hthin.read_mem, hread⟩, hsaid.write.trans hthin.write_mem_iff,
      hsaid.readFirst.trans ⟨hthin.readFirst, hfirst⟩⟩

theorem runCalls_exact_iff_overlap :
    MarksExact (runCalls (fun _ => 0) [.readWord .two 16, .read 24 3, .write 17 12])
        [.readWord .two 16, .read 24 3, .write 17 12] ↔
      ReadsMarked [.readWord .two 16, .read 24 3, .write 17 12] :=
  runCalls_exact_iff (fun _ => rfl) (by decide)

/-- A range read leaves no mark. -/
theorem range_read_unmarked :
    ¬ MarksExact (runCalls (fun _ => 0) [.read 16 1]) [.read 16 1] :=
  fun hexact => absurd ((hexact 16).read.2 (by decide)) (by decide)

end Main

end Cpf.Smtx
