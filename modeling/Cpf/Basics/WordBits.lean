import Cpf.Basics.ByteHeap

/-!
# Words and vectors in memory

Bit `8 * i + b` of the little-endian word of `n` bytes at an address is bit `b` of its `i`-th byte.
An operation on the whole word whose bits depend on the bits of the same byte only is therefore an
operation on every byte. Of the intrinsics on `__m128i` there are, lane by lane, those that a byte-wise
test of marks needs.
-/

namespace Cpf
open Heap

section Words

def loadWord (n : ℕ) (h : Heap) (p : ℕ) : BitVec (8 * n) := BitVec.ofNat (8 * n) (load n h p)

def storeWord (n : ℕ) (h : Heap) (p : ℕ) (m : BitVec (8 * n)) : Heap := store n h p m.toNat

def mapBytes (n : ℕ) (g : UInt8 → UInt8) (h : Heap) (p : ℕ) : Heap :=
  fun k => if p ≤ k ∧ k < p + n then g (h k) else h k

variable {n p k : ℕ} {h : Heap} {g : UInt8 → UInt8}

theorem testBit_byteOf {b : ℕ} (hb : b < 8) (m i : ℕ) :
    (byteOf m i).toNat.testBit b = m.testBit (8 * i + b) := by
  have hmod : (byteOf m i).toNat = (m >>> (8 * i)) % 2 ^ 8 := by
    rw [byteOf, UInt8.toNat_ofNat']
    omega
  rw [hmod, Nat.testBit_mod_two_pow, Nat.testBit_shiftRight, decide_eq_true hb, Bool.true_and]

theorem byte_ext {b c : UInt8} (hbits : ∀ i < 8, b.toNat.testBit i = c.toNat.testBit i) : b = c := by
  apply UInt8.toNat_inj.1
  apply Nat.eq_of_testBit_eq
  intro i
  by_cases hi : i < 8
  · exact hbits i hi
  · have hle : 2 ^ 8 ≤ 2 ^ i := Nat.pow_le_pow_right (by omega) (by omega)
    rw [Nat.testBit_lt_two_pow (lt_of_lt_of_le b.toNat_lt hle),
      Nat.testBit_lt_two_pow (lt_of_lt_of_le c.toNat_lt hle)]

theorem store_apply (m : ℕ) :
    store n h p m k = if p ≤ k ∧ k < p + n then byteOf m (k - p) else h k := by
  induction n generalizing p m with
  | zero => rw [store, if_neg (by omega)]
  | succ n ih =>
      rw [store]
      by_cases hk : k = p
      · subst k
        rw [Function.update_self, if_pos (by omega), Nat.sub_self, byteOf_zero]
      · rw [Function.update_of_ne hk, ih]
        by_cases hin : p + 1 ≤ k ∧ k < p + 1 + n
        · rw [if_pos hin, if_pos (by omega), show k - p = k - (p + 1) + 1 by omega, byteOf_succ]
        · rw [if_neg hin, if_neg (by omega)]

theorem getLsbD_loadWord {i b : ℕ} (hi : i < n) (hb : b < 8) :
    (loadWord n h p).getLsbD (8 * i + b) = (h (p + i)).toNat.testBit b := by
  rw [loadWord, BitVec.getLsbD_ofNat, decide_eq_true (by omega), Bool.true_and,
    ← testBit_byteOf hb, byteOf_load hi]

/-- A word operation that works bit by bit within the bytes is the operation `g` on its bytes. -/
theorem storeWord_eq_mapBytes {m : BitVec (8 * n)}
    (hbits : ∀ i < n, ∀ b < 8, m.getLsbD (8 * i + b) = (g (h (p + i))).toNat.testBit b) :
    storeWord n h p m = mapBytes n g h p := by
  funext k
  rw [storeWord, store_apply, mapBytes]
  by_cases hk : p ≤ k ∧ k < p + n
  · rw [if_pos hk, if_pos hk]
    apply byte_ext
    intro b hb
    have hbit := hbits (k - p) (by omega) b hb
    rw [testBit_byteOf hb, ← BitVec.getLsbD, hbit, Nat.add_sub_cancel' hk.1]
  · rw [if_neg hk, if_neg hk]

theorem mapBytes_apply_of_mem (hle : p ≤ k) (hlt : k < p + n) : mapBytes n g h p k = g (h k) :=
  if_pos ⟨hle, hlt⟩

theorem mapBytes_apply_of_not_mem (hk : ¬ (p ≤ k ∧ k < p + n)) : mapBytes n g h p k = h k :=
  if_neg hk

end Words

section Vectors

/-! ### Vectors of sixteen bytes

Vectors of four words, of one byte repeated, differences, masks, the test for zero and the store under a
mask. -/

/-- The bytes of a vector; those from 16 on are not looked at. -/
abbrev M128i := ℕ → UInt8

def setEpi32 (e3 e2 e1 e0 : BitVec 32) : M128i := fun i =>
  byteOf (if i < 4 then e0 else if i < 8 then e1 else if i < 12 then e2 else e3).toNat (i % 4)

def set1Epi8 (b : UInt8) : M128i := fun _ => b

def subEpi8 (a b : M128i) : M128i := fun i => a i - b i

def andnotSi128 (a b : M128i) : M128i := fun i => ~~~(a i) &&& b i

def testAllZeros (a mask : M128i) : Bool := (List.range 16).all (fun i => a i &&& mask i = 0)

/-- `_mm_maskmoveu_si128`: the bytes whose mask has its highest bit are stored at `p`. -/
def maskmoveuSi128 (d mask : M128i) (h : Heap) (p : ℕ) : Heap := fun k =>
  if p ≤ k ∧ k < p + 16 ∧ (mask (k - p)).toNat.testBit 7 = true then d (k - p) else h k

def packWords (w1 w0 : BitVec 64) : M128i :=
  setEpi32 ((w1 >>> 32).setWidth 32) (w1.setWidth 32) ((w0 >>> 32).setWidth 32) (w0.setWidth 32)

variable {w1 w0 : BitVec 64} {i b : ℕ}

theorem testBit_setEpi32 {e3 e2 e1 e0 : BitVec 32} (hb : b < 8) :
    (setEpi32 e3 e2 e1 e0 i).toNat.testBit b =
      (if i < 4 then e0 else if i < 8 then e1 else if i < 12 then e2 else e3).getLsbD
        (8 * (i % 4) + b) := by
  rw [setEpi32, testBit_byteOf hb]
  rfl

theorem testBit_packWords_low (hi : i < 8) (hb : b < 8) :
    (packWords w1 w0 i).toNat.testBit b = w0.getLsbD (8 * i + b) := by
  rw [packWords, testBit_setEpi32 hb]
  by_cases h4 : i < 4
  · rw [if_pos h4, Nat.mod_eq_of_lt h4, BitVec.getLsbD_setWidth, decide_eq_true (by omega),
      Bool.true_and]
  · rw [if_neg h4, if_pos hi, BitVec.getLsbD_setWidth, decide_eq_true (by omega), Bool.true_and,
      BitVec.getLsbD_ushiftRight]
    congr 1
    omega

theorem testBit_packWords_high (hi : i < 8) (hb : b < 8) :
    (packWords w1 w0 (8 + i)).toNat.testBit b = w1.getLsbD (8 * i + b) := by
  rw [packWords, testBit_setEpi32 hb, if_neg (by omega), if_neg (by omega)]
  by_cases h4 : i < 4
  · rw [if_pos (by omega), BitVec.getLsbD_setWidth, decide_eq_true (by omega), Bool.true_and]
    congr 1
    omega
  · rw [if_neg (by omega), BitVec.getLsbD_setWidth, decide_eq_true (by omega), Bool.true_and,
      BitVec.getLsbD_ushiftRight]
    congr 1
    omega

/-- The two words at `p` and `p + 8`, both shifted left by `s`, have in bit `b` of a lane bit
`b - s` of the byte of that lane. -/
theorem testBit_packWords_shift {s : ℕ} (h : Heap) (p : ℕ) (hi : i < 16) (hs : s ≤ b) (hb : b < 8) :
    (packWords (loadWord 8 h (p + 8) <<< s) (loadWord 8 h p <<< s) i).toNat.testBit b =
      (h (p + i)).toNat.testBit (b - s) := by
  by_cases h8 : i < 8
  · rw [testBit_packWords_low h8 hb, BitVec.getLsbD_shiftLeft, decide_eq_true (by omega),
      decide_eq_false (by omega), Bool.true_and, Bool.not_false, Bool.true_and,
      Nat.add_sub_assoc hs, getLsbD_loadWord h8 (by omega)]
  · obtain ⟨j, rfl⟩ := Nat.exists_eq_add_of_le (not_lt.1 h8)
    rw [testBit_packWords_high (by omega) hb, BitVec.getLsbD_shiftLeft, decide_eq_true (by omega),
      decide_eq_false (by omega), Bool.true_and, Bool.not_false, Bool.true_and,
      Nat.add_sub_assoc hs, getLsbD_loadWord (by omega) (by omega), Nat.add_assoc]

theorem packWords_load (h : Heap) (p : ℕ) (hi : i < 16) :
    packWords (loadWord 8 h (p + 8)) (loadWord 8 h p) i = h (p + i) := by
  apply byte_ext
  intro b hb
  have hbit := testBit_packWords_shift h p hi (Nat.zero_le b) hb
  rwa [BitVec.shiftLeft_zero, BitVec.shiftLeft_zero, Nat.sub_zero] at hbit

theorem testAllZeros_set1Epi8_iff {a : M128i} :
    testAllZeros a (set1Epi8 0x80) = true ↔ ∀ i < 16, (a i).toNat.testBit 7 = false := by
  have hand : ∀ c : UInt8, ∀ b < 8,
      (c &&& 0x80).toNat.testBit b = (c.toNat.testBit b && decide (b = 7)) := by
    have hhigh : ∀ b < 8, (0x80#8).getLsbD b = decide (b = 7) := by decide
    intro c b hb
    rw [← hhigh b hb]
    exact BitVec.getLsbD_and
  have hzero : ∀ b, (0 : UInt8).toNat.testBit b = false := fun b => Nat.zero_testBit b
  simp only [testAllZeros, List.all_eq_true, List.mem_range, decide_eq_true_eq]
  refine forall₂_congr (fun i _ => ?_)
  change a i &&& 0x80 = 0 ↔ _
  constructor
  · intro he
    have hbit := hand (a i) 7 (by omega)
    rw [he, hzero, decide_eq_true rfl, Bool.and_true] at hbit
    exact hbit.symm
  · intro h7
    apply byte_ext
    intro b hb
    rw [hand _ b hb, hzero]
    by_cases hb7 : b = 7
    · rw [hb7, h7, Bool.false_and]
    · rw [decide_eq_false hb7, Bool.and_false]

theorem testBit_andnotSi128 {a c : M128i} (hb : b < 8) :
    (andnotSi128 a c i).toNat.testBit b = (!(a i).toNat.testBit b && (c i).toNat.testBit b) := by
  have hbits : (~~~(a i).toBitVec &&& (c i).toBitVec).getLsbD b =
      (!(a i).toBitVec.getLsbD b && (c i).toBitVec.getLsbD b) := by
    rw [BitVec.getLsbD_and, BitVec.getLsbD_not, decide_eq_true hb, Bool.true_and]
  exact hbits

/-- The sign of a difference of small bytes says which is smaller. -/
theorem testBit_sub_seven {x y : UInt8} (hx : x.toNat ≤ 128) (hy : y.toNat ≤ 128) (h0 : 0 < y.toNat) :
    (x - y).toNat.testBit 7 = decide (x < y) := by
  have hsub : (x - y).toNat = (256 - y.toNat + x.toNat) % 256 := UInt8.toNat_sub x y
  have hlt : x < y ↔ x.toNat < y.toNat := UInt8.lt_iff_toNat_lt
  have hbit : (x - y).toNat.testBit 7 = decide (128 ≤ (x - y).toNat) := by
    have hsmall := (x - y).toNat_lt
    rw [Nat.testBit_eq_decide_div_mod_eq]
    by_cases hle : 128 ≤ (x - y).toNat
    · rw [decide_eq_true hle, decide_eq_true (by omega)]
    · rw [decide_eq_false hle, decide_eq_false (by omega)]
  rw [hbit, hsub]
  by_cases hlt' : x.toNat < y.toNat
  · rw [decide_eq_true (hlt.2 hlt'), decide_eq_true (by omega)]
  · rw [decide_eq_false (fun hc => hlt' (hlt.1 hc)), decide_eq_false (by omega)]

end Vectors

end Cpf
