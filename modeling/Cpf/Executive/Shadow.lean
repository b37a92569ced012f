import Cpf.Basics.RingIndex
import Cpf.Basics.ByteHeap

/-!
# Shadow codes, touched ranges and iteration codes

The constants of `constants.h` and the per-worker bookkeeping of `private.c`. Every byte of the
private heap has one byte of metadata at the same offset of the shadow heap. Heap addresses are
offsets from the natural position of their heap; the recorded native pointers of the last
live-in read keep the heap's position, because the code compares them with zero.
-/

namespace Cpf.Executive

def pointerBits : ℕ := 43

def privAddr : ℕ := 3 <<< pointerBits

def numDistinctUint8Values : ℕ := 256

def numReservedShadowValues : ℕ := 3

def maxCheckpointGranularity : ℕ := numDistinctUint8Values - numReservedShadowValues

def maxWorkers : ℕ := 64

/-- `INT32_MAX`, the iteration number of the final checkpoint. -/
def lastIteration : ℕ := 2 ^ 31 - 1

theorem lt_lastIteration {n : ℕ} (h : n ≤ maxWorkers) : n < lastIteration := h.trans_lt (by decide)

theorem oneWorker_pos : 1 ≤ 1 := le_rfl

theorem oneWorker_le : 1 ≤ maxWorkers := by decide

theorem twoWorkers_pos : 1 ≤ 2 := by decide

theorem twoWorkers_le : 2 ≤ maxWorkers := by decide

def liveIn : UInt8 := 0

/-- The byte was read and, as far as its worker knows, the read saw the live-in value. -/
def readLiveIn : UInt8 := 1

/-- The byte was defined before the most recent checkpoint. -/
def oldIteration : UInt8 := 2

def wasWrittenEver (b : UInt8) : Bool := oldIteration ≤ b

def V16 (b : UInt8) : ℕ := (b.toNat <<< 8) ||| b.toNat

def V32 (b : UInt8) : ℕ := (V16 b <<< 16) ||| V16 b

def V64 (b : UInt8) : ℕ := (V32 b <<< 32) ||| V32 b

theorem shiftLeft_or_self {a i : ℕ} (ha : a < 2 ^ i) : (a <<< i) ||| a = a * 2 ^ i + a := by
  rw [← Nat.shiftLeft_add_eq_or_of_lt ha, Nat.shiftLeft_eq]

theorem V16_eq (b : UInt8) : V16 b = b.toNat * 257 := by
  rw [V16, shiftLeft_or_self b.toNat_lt]
  ring

theorem V32_eq (b : UInt8) : V32 b = b.toNat * 16843009 := by
  have hb := b.toNat_lt
  rw [V32, V16_eq, shiftLeft_or_self (by omega)]
  ring

theorem V64_eq (b : UInt8) : V64 b = b.toNat * 72340172838076673 := by
  have hb := b.toNat_lt
  rw [V64, V32_eq, shiftLeft_or_self (by omega)]
  ring

theorem V16_eq_splat (b : UInt8) : V16 b = splat 2 b := by
  rw [V16_eq]
  simp only [splat, Heap.load]
  ring

theorem V32_eq_splat (b : UInt8) : V32 b = splat 4 b := by
  rw [V32_eq]
  simp only [splat, Heap.load]
  ring

theorem V64_eq_splat (b : UInt8) : V64 b = splat 8 b := by
  rw [V64_eq]
  simp only [splat, Heap.load]
  ring

/-- Conversion to the 32-bit `unsigned` of the merge loops. -/
def unsigned (n : ℕ) : ℕ := n % 2 ^ 32

def roundDown (n k : ℕ) : ℕ := n - n % k

def roundUp (n k : ℕ) : ℕ := roundDown (n + (k - 1)) k

def bytesPerWord : ℕ := 8

/-- `[lowestInclusive, highestExclusive)`, relative to the position of the shadow heap. -/
structure ShadowRange where
  lowestInclusive : ℕ
  highestExclusive : ℕ
  deriving DecidableEq

namespace ShadowRange

/-- `__specpriv_reset_shadow_range`: an empty range has been touched. -/
def reset : ShadowRange := ⟨1 <<< pointerBits, 0⟩

def update (r : ShadowRange) (shadow len : ℕ) : ShadowRange where
  lowestInclusive := if shadow < r.lowestInclusive then shadow else r.lowestInclusive
  highestExclusive :=
    if r.highestExclusive < shadow + len then shadow + len else r.highestExclusive

/-- The update of a checkpoint's range by the range `r` merged into it. -/
def widen (partialRange r : ShadowRange) : ShadowRange where
  lowestInclusive :=
    if r.lowestInclusive < partialRange.lowestInclusive then r.lowestInclusive
    else partialRange.lowestInclusive
  highestExclusive :=
    if partialRange.highestExclusive < r.highestExclusive then r.highestExclusive
    else partialRange.highestExclusive

/-- The range is untouched or lies in a heap of `size` bytes. -/
def Within (r : ShadowRange) (size : ℕ) : Prop :=
  r = reset ∨ r.lowestInclusive ≤ r.highestExclusive ∧ r.highestExclusive ≤ size

def Covers (r : ShadowRange) (k : ℕ) : Prop := r.lowestInclusive ≤ k ∧ k < r.highestExclusive

instance (r : ShadowRange) (k : ℕ) : Decidable (r.Covers k) :=
  inferInstanceAs (Decidable (_ ∧ _))

/-- The range covers `k` once its ends are rounded out to whole words. -/
def CoversWord (r : ShadowRange) (k : ℕ) : Prop :=
  roundDown r.lowestInclusive bytesPerWord ≤ k ∧ k < roundUp r.highestExclusive bytesPerWord

instance (r : ShadowRange) (k : ℕ) : Decidable (r.CoversWord k) :=
  inferInstanceAs (Decidable (_ ∧ _))

theorem reset_within (size : ℕ) : reset.Within size := Or.inl rfl

theorem update_highest_le (r : ShadowRange) (p len : ℕ) :
    p + len ≤ (r.update p len).highestExclusive := by
  simp only [update]
  split_ifs <;> omega

theorem update_lowest_le (r : ShadowRange) (p len : ℕ) :
    (r.update p len).lowestInclusive ≤ p := by
  simp only [update]
  split_ifs <;> omega

theorem Covers.update {r : ShadowRange} {k : ℕ} (h : r.Covers k) (p len : ℕ) :
    (r.update p len).Covers k := by
  simp only [Covers, ShadowRange.update] at h ⊢
  split_ifs <;> omega

theorem covers_update {r : ShadowRange} {p len k : ℕ} (hp : p ≤ k) (hk : k < p + len) :
    (r.update p len).Covers k :=
  ⟨(update_lowest_le r p len).trans hp, lt_of_lt_of_le hk (update_highest_le r p len)⟩

theorem CoversWord.update {r : ShadowRange} {k : ℕ} (h : r.CoversWord k) (p len : ℕ) :
    (r.update p len).CoversWord k := by
  simp only [CoversWord, ShadowRange.update, roundDown, roundUp, bytesPerWord] at h ⊢
  split_ifs <;> omega

/-- A byte in a word that holds part of the new range, or starts or ends at it, is covered. -/
theorem coversWord_update {r : ShadowRange} {p len k : ℕ}
    (hp : roundDown p bytesPerWord ≤ k) (hk : k < roundUp (p + len) bytesPerWord) :
    (r.update p len).CoversWord k := by
  have hl := update_lowest_le r p len
  have hh := update_highest_le r p len
  simp only [CoversWord, roundDown, roundUp, bytesPerWord] at hp hk ⊢
  omega

theorem Covers.coversWord {r : ShadowRange} {k : ℕ} (h : r.Covers k) : r.CoversWord k := by
  simp only [Covers, CoversWord, roundDown, roundUp, bytesPerWord] at h ⊢
  omega

theorem Within.update {r : ShadowRange} {size p len : ℕ} (h : r.Within size)
    (hsize : size < 2 ^ 32) (hp : p + len ≤ size) : (r.update p len).Within size := by
  have hr : reset = ⟨2 ^ 43, 0⟩ := rfl
  refine Or.inr ?_
  simp only [ShadowRange.update]
  rcases h with rfl | ⟨hle, hhi⟩
  · simp only [hr]
    constructor <;> split_ifs <;> omega
  · constructor <;> split_ifs <;> omega

theorem CoversWord.lt_size {r : ShadowRange} {size k : ℕ} (h : r.CoversWord k)
    (hr : r.Within size) (h16 : size % 16 = 0) : k < size := by
  simp only [CoversWord, roundDown, roundUp, bytesPerWord] at h
  rcases hr with rfl | ⟨_, hhi⟩
  · simp only [reset] at h
    omega
  · omega

theorem Within.widen {r r' : ShadowRange} {size : ℕ} (h : r.Within size) (h' : r'.Within size)
    (hsize : size < 2 ^ 32) : (r.widen r').Within size := by
  have hr : reset = ⟨2 ^ 43, 0⟩ := rfl
  rcases h with rfl | ⟨hle, hhi⟩
  · rcases h' with rfl | ⟨hle', hhi'⟩
    · exact Or.inl rfl
    · refine Or.inr ?_
      simp only [ShadowRange.widen, hr]
      constructor <;> split_ifs <;> omega
  · refine Or.inr ?_
    rcases h' with rfl | ⟨hle', hhi'⟩
    · simp only [ShadowRange.widen, hr]
      constructor <;> split_ifs <;> omega
    · simp only [ShadowRange.widen]
      constructor <;> split_ifs <;> omega

theorem Covers.widen {r : ShadowRange} {k : ℕ} (h : r.Covers k) (r' : ShadowRange) :
    (r.widen r').Covers k := by
  simp only [Covers, ShadowRange.widen] at h ⊢
  split_ifs <;> omega

theorem Covers.widen_right {r' : ShadowRange} {k : ℕ} (h : r'.Covers k) (r : ShadowRange) :
    (r.widen r').Covers k := by
  simp only [Covers, ShadowRange.widen] at h ⊢
  split_ifs <;> omega

end ShadowRange

/-- The size of a heap of less than 4 GB. The pointers to the end of a heap have 64 bits, but `sizeof_private`
and the like are a 32-bit `Len`, as are the offsets of the merge loops; of a larger heap they see a part. -/
structure HeapLen where
  val : ℕ
  aligned : val % 16 = 0
  lt : val < 2 ^ 32

/-- The bounds of a heap with sixteen bytes. -/
theorem sixteen_aligned : 16 % 16 = 0 := rfl

theorem sixteen_lt : 16 < 2 ^ 32 := by decide

abbrev sixteen : HeapLen := ⟨16, sixteen_aligned, sixteen_lt⟩

/-- A heap of 4 GB and sixteen bytes. -/
abbrev beyondLen : ℕ := 2 ^ 32 + 16

def checkpointGranularity (numWorkers : ℕ) : ℕ :=
  maxCheckpointGranularity - maxCheckpointGranularity % numWorkers

theorem checkpointGranularity_pos {numWorkers : ℕ} (hpos : 1 ≤ numWorkers)
    (hle : numWorkers ≤ maxWorkers) : 0 < checkpointGranularity numWorkers := by
  have hmod := Nat.mod_lt maxCheckpointGranularity hpos
  simp only [checkpointGranularity, maxCheckpointGranularity, numDistinctUint8Values,
    numReservedShadowValues, maxWorkers] at *
  omega

theorem checkpointGranularity_le (numWorkers : ℕ) : checkpointGranularity numWorkers ≤ 253 :=
  Nat.sub_le _ _

/-- The metadata value of a byte defined during iteration `i`. -/
def iterCode (firstIteration granularity i : ℕ) : UInt8 :=
  UInt8.ofNat ((i - firstIteration) % granularity + numReservedShadowValues)

end Cpf.Executive
