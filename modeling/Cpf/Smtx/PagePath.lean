import Cpf.Basics.WordBits
import Cpf.Smtx.AccessMarks

/-!
# Pages and packets of a worker

`forward_pair` sends a touched page and its marks either whole or as pairs of packets, one for each
word whose marks are not zero. The try-commit unit checks a page sixteen bytes at a time with vector
instructions and a packet byte by byte; a worker or the commit unit updates its memory likewise.
-/

namespace Cpf.Smtx
open Heap

def pageSize : ℕ := 4096

/-- The stage id that marks a byte; zero is an untouched byte. -/
def newStageId (stage : ℕ) : UInt8 := UInt8.ofNat (stage + 1)

/-- The least metadata that a read of the stage must not meet: a sequential stage may read what it
wrote itself. -/
def refOf (stage replicationFactor : ℕ) : UInt8 :=
  if replicationFactor = 1 then newStageId stage + 1 else newStageId stage

/-- The loop of `check_packet` from byte `i` on, with `n` bytes left. -/
def checkPacketLoop (id ref : UInt8) (addr : ℕ) :
    ℕ → ℕ → BitVec 64 → BitVec 64 → Heap → Option Heap
  | 0, _, _, _, h => some h
  | n + 1, i, data, shadow, h =>
      let localshadow := getShadowOf (addr + i)
      if shadow &&& 0x1 ≠ 0 ∧ ref ≤ h localshadow then none
      else
        let h :=
          if shadow &&& 0x2 ≠ 0 then
            Function.update (Function.update h (addr + i) (UInt8.ofNat (data &&& 0xff).toNat))
              localshadow id
          else h
        checkPacketLoop id ref addr n (i + 1) (data >>> 8) (shadow >>> 8) h

/-- `check_packet`; there is no memory to speak of once it has returned false. -/
def checkPacket (addr : ℕ) (data shadow : BitVec 64) (size stage replicationFactor : ℕ) (h : Heap) :
    Option Heap :=
  checkPacketLoop (newStageId stage) (refOf stage replicationFactor) addr size 0 data shadow h

def checkPageStep (addr : ℕ) (data shadow : Heap) (id ref : UInt8) (h : Heap) (i : ℕ) :
    Option Heap :=
  let m0 := loadWord 8 shadow i
  let m1 := loadWord 8 shadow (i + 8)
  if m0 = 0 ∧ m1 = 0 then some h
  else
    -- the sign of each lane is bit 0 of the marks
    let mask0 := packWords (m1 <<< 7) (m0 <<< 7)
    let l0 := loadWord 8 h (getShadowOf (addr + i))
    let l1 := loadWord 8 h (getShadowOf (addr + i + 8))
    let ls := packWords l1 l0
    let mask1 := subEpi8 ls (set1Epi8 ref)
    let mask := andnotSi128 mask1 mask0
    if testAllZeros mask (set1Epi8 0x80) = false then none
    else
      let mask2 := packWords (m1 <<< 6) (m0 <<< 6)
      let ds := packWords (loadWord 8 data (i + 8)) (loadWord 8 data i)
      let h := maskmoveuSi128 ds mask2 h (addr + i)
      some (maskmoveuSi128 (set1Epi8 id) mask2 h (getShadowOf (addr + i)))

def checkPage (addr : ℕ) (data shadow : Heap) (stage replicationFactor : ℕ) (h : Heap) :
    Option Heap :=
  (List.range' 0 (pageSize / 16) 16).foldlM
    (checkPageStep addr data shadow (newStageId stage) (refOf stage replicationFactor)) h

def updatePage (addr : ℕ) (data shadow : Heap) (h : Heap) : Heap :=
  (List.range' 0 (pageSize / 16) 16).foldl (fun h i =>
    let m := packWords (loadWord 8 shadow (i + 8) <<< 6) (loadWord 8 shadow i <<< 6)
    let d := packWords (loadWord 8 data (i + 8)) (loadWord 8 data i)
    maskmoveuSi128 d m h (addr + i)) h

def updatePacketLoop (ptr : ℕ) : ℕ → ℕ → BitVec 64 → BitVec 64 → Heap → Heap
  | 0, _, _, _, h => h
  | n + 1, i, value, shadow, h =>
      let h :=
        if shadow &&& 0x2 ≠ 0 then
          Function.update h (ptr + i) (UInt8.ofNat (value &&& 0xff).toNat)
        else h
      updatePacketLoop ptr n (i + 1) (value.sshiftRight 8) (shadow.sshiftRight 8) h

def updateNormalPacket (ptr : ℕ) (value shadow : BitVec 64) (h : Heap) : Heap :=
  updatePacketLoop ptr 8 0 value shadow h

/-- Two packets that are consumed together: a word or a chunk, then its marks. -/
inductive PacketPair where
  | normal (ptr : ℕ) (value shadow : BitVec 64) (size : ℕ)
  | super (ptr : ℕ) (data shadow : Heap)

/-- What the try-commit unit does with a pair that has to be checked. -/
def PacketPair.check (stage replicationFactor : ℕ) : PacketPair → Heap → Option Heap
  | .normal ptr value shadow size, h => checkPacket ptr value shadow size stage replicationFactor h
  | .super ptr data shadow, h => checkPage ptr data shadow stage replicationFactor h

/-- What a later stage and the commit unit do with a pair. -/
def PacketPair.update : PacketPair → Heap → Heap
  | .normal ptr value shadow _, h => updateNormalPacket ptr value shadow h
  | .super ptr data shadow, h => updatePage ptr data shadow h

/-- The page at `p`, as it is copied to a chunk. -/
def chunkAt (h : Heap) (p : ℕ) : Heap := fun i => h (p + i)

def wordPair (mem : ℕ) (data shadow : Heap) (i : ℕ) : Option PacketPair :=
  let sv := loadWord 8 shadow i
  if sv ≠ 0 then some (.normal (mem + i) (loadWord 8 data i) sv 8) else none

def wordPairs (mem : ℕ) (data shadow : Heap) : List PacketPair :=
  (List.range' 0 (pageSize / 8) 8).filterMap (wordPair mem data shadow)

structure Forwarded where
  pairs : List PacketPair
  readOnly : List ℕ
  heap : Heap

def forwardPair (nonzero mem shadow : ℕ) (h : Heap) : Forwarded where
  pairs :=
    if 8 < nonzero then [.super mem (chunkAt h mem) (chunkAt h shadow)]
    else if nonzero ≠ 0 then wordPairs mem (chunkAt h mem) (chunkAt h shadow)
    else []
  readOnly := if nonzero = 0 then [mem] else []
  heap := memset h shadow 0 pageSize

def checkPairs (stage replicationFactor : ℕ) (pairs : List PacketPair) (h : Heap) : Option Heap :=
  pairs.foldlM (fun h p => p.check stage replicationFactor h) h

def updatePairs (pairs : List PacketPair) (h : Heap) : Heap :=
  pairs.foldl (fun h p => p.update h) h

/-! ## One byte after another -/

section Bytes

variable {addr stage replicationFactor : ℕ} {data shadow h : Heap} {id ref : UInt8} {i k n : ℕ}

/-- The read of byte `k` meets a later stage's metadata. -/
def Fails (addr : ℕ) (shadow : Heap) (ref : UInt8) (h : Heap) (k : ℕ) : Prop :=
  (shadow k).toNat.testBit 0 = true ∧ ref ≤ h (getShadowOf (addr + k))

instance : Decidable (Fails addr shadow ref h k) :=
  inferInstanceAs (Decidable ((shadow k).toNat.testBit 0 = true ∧
    ref ≤ h (getShadowOf (addr + k))))

def byteUpdate (addr : ℕ) (data shadow : Heap) (id : UInt8) (h : Heap) (k : ℕ) : Heap :=
  if (shadow k).toNat.testBit 1 = true then
    Function.update (Function.update h (addr + k) (data k)) (getShadowOf (addr + k)) id
  else h

def byteCheck (addr : ℕ) (data shadow : Heap) (id ref : UInt8) (h : Heap) (k : ℕ) : Option Heap :=
  if Fails addr shadow ref h k then none else some (byteUpdate addr data shadow id h k)

def byteStore (addr : ℕ) (data shadow : Heap) (h : Heap) (k : ℕ) : Heap :=
  if (shadow k).toNat.testBit 1 = true then Function.update h (addr + k) (data k) else h

theorem byteUpdate_shadow_of_ne (hc : Contiguous addr pageSize) (hi : i < pageSize)
    (hk : k < pageSize) (hne : i ≠ k) :
    byteUpdate addr data shadow id h k (getShadowOf (addr + i)) = h (getShadowOf (addr + i)) := by
  unfold byteUpdate
  split_ifs
  · have hshadow : getShadowOf (addr + i) ≠ getShadowOf (addr + k) := fun he =>
      hne (Nat.add_left_cancel (getShadowOf_injective he))
    rw [Function.update_of_ne hshadow, Function.update_of_ne (hc.ne_getShadowOf hk hi).symm]
  · rfl

theorem foldlM_byteCheck (hc : Contiguous addr pageSize) {ks : List ℕ} (hnodup : ks.Nodup)
    (hks : ∀ k ∈ ks, k < pageSize) :
    ks.foldlM (byteCheck addr data shadow id ref) h =
      if ∃ k ∈ ks, Fails addr shadow ref h k then none
      else some (ks.foldl (byteUpdate addr data shadow id) h) := by
  induction ks generalizing h with
  | nil => simp
  | cons k ks ih =>
      obtain ⟨hk, hnodup⟩ := List.nodup_cons.1 hnodup
      rw [List.foldlM_cons, byteCheck]
      by_cases hf : Fails addr shadow ref h k
      · rw [if_pos hf, if_pos ⟨k, List.mem_cons_self, hf⟩]
        rfl
      · have hlater : (∃ i ∈ ks, Fails addr shadow ref (byteUpdate addr data shadow id h k) i) ↔
            ∃ i ∈ k :: ks, Fails addr shadow ref h i := by
          have hsame : ∀ i ∈ ks, (Fails addr shadow ref (byteUpdate addr data shadow id h k) i ↔
              Fails addr shadow ref h i) := by
            intro i hi
            have hne : i ≠ k := fun he => hk (he ▸ hi)
            rw [Fails, Fails, byteUpdate_shadow_of_ne hc (hks i (List.mem_cons_of_mem _ hi))
              (hks k List.mem_cons_self) hne]
          constructor
          · rintro ⟨i, hi, hfi⟩
            exact ⟨i, List.mem_cons_of_mem _ hi, (hsame i hi).1 hfi⟩
          · rintro ⟨i, hi, hfi⟩
            rcases List.mem_cons.1 hi with rfl | hi
            · exact absurd hfi hf
            · exact ⟨i, hi, (hsame i hi).2 hfi⟩
        rw [if_neg hf, Option.bind_eq_bind, Option.bind_some,
          ih hnodup (fun i hi => hks i (List.mem_cons_of_mem _ hi)), List.foldl_cons]
        simp only [hlater]

/-- The memory and local shadow after the updates of some bytes of a page. -/
theorem foldl_byteUpdate_apply (hc : Contiguous addr pageSize) {ks : List ℕ}
    (hks : ∀ k ∈ ks, k < pageSize) (x : ℕ) :
    ks.foldl (byteUpdate addr data shadow id) h x =
      if ∃ k ∈ ks, (shadow k).toNat.testBit 1 = true ∧ x = getShadowOf (addr + k) then id
      else if ∃ k ∈ ks, (shadow k).toNat.testBit 1 = true ∧ x = addr + k then data (x - addr)
      else h x := by
  induction ks generalizing h with
  | nil => simp
  | cons k ks ih =>
      have hk := hks k List.mem_cons_self
      have hrest : ∀ i ∈ ks, i < pageSize := fun i hi => hks i (List.mem_cons_of_mem _ hi)
      rw [List.foldl_cons, ih hrest]
      simp only [List.exists_mem_cons_iff]
      by_cases hlate : ∃ i ∈ ks, (shadow i).toNat.testBit 1 = true ∧ x = getShadowOf (addr + i)
      · rw [if_pos hlate, if_pos (.inr hlate)]
      · rw [if_neg hlate]
        unfold byteUpdate
        by_cases hbit : (shadow k).toNat.testBit 1 = true
        · rw [if_pos hbit]
          by_cases hx : x = getShadowOf (addr + k)
          · have hmem : ¬ ∃ i ∈ ks, (shadow i).toNat.testBit 1 = true ∧ x = addr + i := by
              rintro ⟨i, hi, -, he⟩
              exact hc.ne_getShadowOf (hrest i hi) hk (he.symm.trans hx)
            rw [if_neg hmem, if_pos (.inl ⟨hbit, hx⟩), hx, Function.update_self]
          · rw [if_neg (not_or.2 ⟨fun he => hx he.2, hlate⟩), Function.update_of_ne hx]
            by_cases hmem : ∃ i ∈ ks, (shadow i).toNat.testBit 1 = true ∧ x = addr + i
            · rw [if_pos hmem, if_pos (.inr hmem)]
            · rw [if_neg hmem]
              by_cases hxk : x = addr + k
              · rw [if_pos (.inl ⟨hbit, hxk⟩), hxk, Function.update_self, Nat.add_sub_cancel_left]
              · rw [if_neg (not_or.2 ⟨fun he => hxk he.2, hmem⟩), Function.update_of_ne hxk]
        · rw [if_neg hbit, if_neg (not_or.2 ⟨fun he => hbit he.1, hlate⟩)]
          have hor : ((shadow k).toNat.testBit 1 = true ∧ x = addr + k ∨
              ∃ i ∈ ks, (shadow i).toNat.testBit 1 = true ∧ x = addr + i) ↔
              ∃ i ∈ ks, (shadow i).toNat.testBit 1 = true ∧ x = addr + i :=
            or_iff_right (fun he => hbit he.1)
          simp only [hor]

theorem foldl_byteStore_apply {ks : List ℕ} (x : ℕ) :
    ks.foldl (byteStore addr data shadow) h x =
      if ∃ k ∈ ks, (shadow k).toNat.testBit 1 = true ∧ x = addr + k then data (x - addr)
      else h x := by
  have hloop := foldl_update_if (fun y => (shadow (y - addr)).toNat.testBit 1 = true)
    (fun y => data (y - addr)) h (ks.map (fun k => addr + k)) x
  rw [List.foldl_map] at hloop
  simp only [Nat.add_sub_cancel_left] at hloop
  refine hloop.trans ?_
  have hiff : (x ∈ ks.map (fun k => addr + k) ∧ (shadow (x - addr)).toNat.testBit 1 = true) ↔
      ∃ k ∈ ks, (shadow k).toNat.testBit 1 = true ∧ x = addr + k := by
    rw [List.mem_map]
    constructor
    · rintro ⟨⟨k, hk, rfl⟩, hbit⟩
      rw [Nat.add_sub_cancel_left] at hbit
      exact ⟨k, hk, hbit, rfl⟩
    · rintro ⟨k, hk, hbit, rfl⟩
      rw [Nat.add_sub_cancel_left]
      exact ⟨⟨k, hk, rfl⟩, hbit⟩
  simp only [hiff]

end Bytes

/-! ## Blocks and words -/

section Blocks

variable {addr : ℕ} {data shadow h : Heap} {id ref : UInt8} {i k n p : ℕ}

/-- The metadata of the page's bytes are stage ids. -/
def LocalOk (addr : ℕ) (h : Heap) : Prop := ∀ k < pageSize, (h (getShadowOf (addr + k))).toNat ≤ 64

theorem LocalOk.updated (hc : Contiguous addr pageSize) (hl : LocalOk addr h) (hid : id.toNat ≤ 64)
    {ks : List ℕ} (hks : ∀ k ∈ ks, k < pageSize) :
    LocalOk addr (ks.foldl (byteUpdate addr data shadow id) h) := by
  intro k hk
  rw [foldl_byteUpdate_apply hc hks]
  split_ifs with hid' hmem
  · exact hid
  · obtain ⟨i, hi, -, he⟩ := hmem
    exact absurd he.symm (hc.ne_getShadowOf (hks i hi) hk)
  · exact hl k hk

theorem exists_range'_iff {q : ℕ → Prop} {f : ℕ → ℕ} {x a : ℕ}
    (hf : ∀ k, i ≤ k → k < i + n → f k = a + (k - i)) :
    (∃ k ∈ List.range' i n, q k ∧ x = f k) ↔ a ≤ x ∧ x < a + n ∧ q (i + (x - a)) := by
  constructor
  · rintro ⟨k, hk, hq, rfl⟩
    obtain ⟨hle, hlt⟩ := List.mem_range'_1.1 hk
    rw [hf k hle hlt]
    refine ⟨by omega, by omega, ?_⟩
    rwa [show i + (a + (k - i) - a) = k by omega]
  · rintro ⟨hle, hlt, hq⟩
    refine ⟨i + (x - a), List.mem_range'_1.2 (by omega), hq, ?_⟩
    rw [hf _ (by omega) (by omega)]
    omega

theorem word_eq_zero_iff : loadWord 8 h p = 0 ↔ ∀ k < 8, h (p + k) = 0 := by
  constructor
  · intro hz k hk
    apply byte_ext
    intro b hb
    rw [← getLsbD_loadWord hk hb, hz]
    exact BitVec.getLsbD_zero.trans (Nat.zero_testBit b).symm
  · intro hall
    apply BitVec.eq_of_getLsbD_eq
    intro j hj
    have hbit := getLsbD_loadWord (h := h) (p := p) (show j / 8 < 8 by omega)
      (Nat.mod_lt j (by decide))
    rw [Nat.div_add_mod, hall _ (by omega)] at hbit
    exact hbit.trans ((Nat.zero_testBit _).trans BitVec.getLsbD_zero.symm)

theorem byteCheck_of_unmarked (hk : shadow k = 0) :
    byteCheck addr data shadow id ref h k = some h := by
  rw [byteCheck, if_neg, byteUpdate, if_neg] <;> simp [Fails, hk]

theorem foldlM_byteCheck_unmarked {ks : List ℕ} (hks : ∀ k ∈ ks, shadow k = 0) :
    ks.foldlM (byteCheck addr data shadow id ref) h = some h := by
  induction ks with
  | nil => rfl
  | cons k ks ih =>
      rw [List.foldlM_cons, byteCheck_of_unmarked (hks k List.mem_cons_self), Option.bind_eq_bind,
        Option.bind_some]
      exact ih (fun i hi => hks i (List.mem_cons_of_mem _ hi))

theorem blocks_unmarked (h0 : loadWord 8 shadow i = 0) (h1 : loadWord 8 shadow (i + 8) = 0) :
    ∀ k ∈ List.range' i 16, shadow k = 0 := by
  intro k hk
  obtain ⟨hle, hlt⟩ := List.mem_range'_1.1 hk
  by_cases hlow : k < i + 8
  · have hz := word_eq_zero_iff.1 h0 (k - i) (by omega)
    rwa [Nat.add_sub_cancel' hle] at hz
  · have hz := word_eq_zero_iff.1 h1 (k - (i + 8)) (by omega)
    rwa [Nat.add_sub_cancel' (by omega)] at hz

/-- The lanes of the mask of the test have their sign where a check fails. -/
theorem mask_iff_fails (hc : Contiguous addr pageSize) (hl : LocalOk addr h) (h0 : 0 < ref.toNat)
    (href : ref.toNat ≤ 128) (hi : i + 16 ≤ pageSize) {j : ℕ} (hj : j < 16) :
    (andnotSi128 (subEpi8 (packWords (loadWord 8 h (getShadowOf (addr + i + 8)))
        (loadWord 8 h (getShadowOf (addr + i)))) (set1Epi8 ref))
      (packWords (loadWord 8 shadow (i + 8) <<< 7) (loadWord 8 shadow i <<< 7)) j).toNat.testBit 7
        = true ↔ Fails addr shadow ref h (i + j) := by
  have hword : getShadowOf (addr + i + 8) = getShadowOf (addr + i) + 8 := by
    rw [Nat.add_assoc, getShadowOf_add hc (by omega), getShadowOf_add hc (by omega), Nat.add_assoc]
  have hlane : getShadowOf (addr + i) + j = getShadowOf (addr + (i + j)) := by
    rw [getShadowOf_add hc (by omega), getShadowOf_add hc (by omega), Nat.add_assoc]
  have hsmall := hl (i + j) (by omega)
  rw [testBit_andnotSi128 (by decide), testBit_packWords_shift shadow i hj le_rfl (by decide), hword,
    subEpi8, packWords_load h _ hj, hlane, set1Epi8, testBit_sub_seven (by omega) href h0,
    Nat.sub_self, Fails, Bool.and_eq_true, Bool.not_eq_true', decide_eq_false_iff_not,
    UInt8.not_lt, and_comm]

/-- The lanes that are stored at `a` are the bytes of the block that are marked as written. -/
theorem lane_stored_iff {f : ℕ → ℕ} {x a : ℕ}
    (hf : ∀ k, i ≤ k → k < i + 16 → f k = a + (k - i)) :
    (a ≤ x ∧ x < a + 16 ∧
      (packWords (loadWord 8 shadow (i + 8) <<< 6) (loadWord 8 shadow i <<< 6)
        (x - a)).toNat.testBit 7 = true) ↔
      ∃ k ∈ List.range' i 16, (shadow k).toNat.testBit 1 = true ∧ x = f k := by
  rw [exists_range'_iff (q := fun k => (shadow k).toNat.testBit 1 = true) hf]
  refine and_congr_right (fun _ => and_congr_right (fun _ => ?_))
  rw [testBit_packWords_shift shadow i (by omega) (by decide) (by decide)]

/-- The masked stores of a block are the updates of its bytes. -/
theorem maskmove_eq_foldl (hc : Contiguous addr pageSize) (hi : i + 16 ≤ pageSize) :
    maskmoveuSi128 (set1Epi8 id)
        (packWords (loadWord 8 shadow (i + 8) <<< 6) (loadWord 8 shadow i <<< 6))
        (maskmoveuSi128 (packWords (loadWord 8 data (i + 8)) (loadWord 8 data i))
          (packWords (loadWord 8 shadow (i + 8) <<< 6) (loadWord 8 shadow i <<< 6)) h (addr + i))
        (getShadowOf (addr + i)) =
      (List.range' i 16).foldl (byteUpdate addr data shadow id) h := by
  have hks : ∀ k ∈ List.range' i 16, k < pageSize := by
    intro k hk
    have hlt := (List.mem_range'_1.1 hk).2
    omega
  have hshadow : ∀ k, i ≤ k → k < i + 16 →
      getShadowOf (addr + k) = getShadowOf (addr + i) + (k - i) := by
    intro k hle hlt
    rw [getShadowOf_add hc (by omega), getShadowOf_add hc (by omega)]
    omega
  have hmem : ∀ k, i ≤ k → k < i + 16 → addr + k = addr + i + (k - i) := by
    intro k hle hlt
    omega
  funext x
  rw [foldl_byteUpdate_apply hc hks]
  simp only [maskmoveuSi128, lane_stored_iff hshadow]
  split_ifs with hid hin hin'
  · rfl
  · rw [packWords_load _ _ (by omega)]
    congr 1
    omega
  · exact absurd ((lane_stored_iff hmem).1 hin) hin'
  · exact absurd ((lane_stored_iff hmem).2 ‹_›) hin
  · rfl

theorem test_eq_false_iff (hc : Contiguous addr pageSize) (hl : LocalOk addr h)
    (h0 : 0 < ref.toNat) (href : ref.toNat ≤ 128) (hi : i + 16 ≤ pageSize) :
    testAllZeros (andnotSi128 (subEpi8 (packWords (loadWord 8 h (getShadowOf (addr + i + 8)))
        (loadWord 8 h (getShadowOf (addr + i)))) (set1Epi8 ref))
      (packWords (loadWord 8 shadow (i + 8) <<< 7) (loadWord 8 shadow i <<< 7))) (set1Epi8 0x80)
        = false ↔ ∃ k ∈ List.range' i 16, Fails addr shadow ref h k := by
  rw [← Bool.not_eq_true, testAllZeros_set1Epi8_iff]
  constructor
  · intro hsome
    by_contra hnone
    apply hsome
    intro j hj
    rw [← Bool.not_eq_true, mask_iff_fails hc hl h0 href hi hj]
    exact fun hf => hnone ⟨i + j, List.mem_range'_1.2 (by omega), hf⟩
  · rintro ⟨k, hk, hf⟩ hall
    obtain ⟨hle, hlt⟩ := List.mem_range'_1.1 hk
    have hj := hall (k - i) (by omega)
    rw [← Bool.not_eq_true, mask_iff_fails hc hl h0 href hi (by omega), Nat.add_sub_cancel' hle] at hj
    exact hj hf

theorem checkPageStep_eq (hc : Contiguous addr pageSize) (hl : LocalOk addr h) (h0 : 0 < ref.toNat)
    (href : ref.toNat ≤ 128) (hi : i + 16 ≤ pageSize) :
    checkPageStep addr data shadow id ref h i =
      (List.range' i 16).foldlM (byteCheck addr data shadow id ref) h := by
  unfold checkPageStep
  dsimp only
  by_cases hzero : loadWord 8 shadow i = 0 ∧ loadWord 8 shadow (i + 8) = 0
  · rw [if_pos hzero]
    exact (foldlM_byteCheck_unmarked (blocks_unmarked hzero.1 hzero.2)).symm
  · have hks : ∀ k ∈ List.range' i 16, k < pageSize := by
      intro k hk
      have hlt := (List.mem_range'_1.1 hk).2
      omega
    rw [if_neg hzero, foldlM_byteCheck hc List.nodup_range' hks, maskmove_eq_foldl hc hi]
    simp only [test_eq_false_iff hc hl h0 href hi]

theorem foldlM_checkPageStep (hc : Contiguous addr pageSize) (hl : LocalOk addr h)
    (hid : id.toNat ≤ 64) (h0 : 0 < ref.toNat) (href : ref.toNat ≤ 128) (count : ℕ)
    (hi : i + 16 * count ≤ pageSize) :
    (List.range' i count 16).foldlM (checkPageStep addr data shadow id ref) h =
      (List.range' i (16 * count)).foldlM (byteCheck addr data shadow id ref) h := by
  induction count generalizing i h with
  | zero => simp
  | succ count ih =>
      have hks : ∀ k ∈ List.range' i 16, k < pageSize := by
        intro k hk
        have hlt := (List.mem_range'_1.1 hk).2
        omega
      have hsplit : List.range' i (16 * (count + 1)) =
          List.range' i 16 ++ List.range' (i + 16) (16 * count) := by
        rw [List.range'_append_1]
        congr 1
        ring
      rw [List.range'_succ, List.foldlM_cons, hsplit, List.foldlM_append,
        checkPageStep_eq hc hl h0 href (by omega),
        foldlM_byteCheck hc List.nodup_range' hks]
      by_cases hf : ∃ k ∈ List.range' i 16, Fails addr shadow ref h k
      · simp only [if_pos hf, Option.bind_eq_bind, Option.bind_none]
      · simp only [if_neg hf, Option.bind_eq_bind, Option.bind_some]
        exact ih (hl.updated hc hid hks) (by omega)

/-- The first byte of a word, as the loops over a word take it. -/
theorem low_byte (w : BitVec 64) : UInt8.ofNat (w &&& 0xff).toNat = byteOf w.toNat 0 := by
  rw [byteOf_zero, BitVec.toNat_and]
  exact congrArg UInt8.ofNat (Nat.and_two_pow_sub_one_eq_mod _ 8)

theorem and_bit_ne_zero_iff {w m : BitVec 64} {j : ℕ} (hj : j < 8)
    (hm : ∀ b < 64, m.getLsbD b = decide (b = j)) :
    w &&& m ≠ 0 ↔ (byteOf w.toNat 0).toNat.testBit j = true := by
  rw [testBit_byteOf hj, Nat.mul_zero, Nat.zero_add, ← BitVec.getLsbD]
  constructor
  · intro hne
    by_contra hbit
    apply hne
    apply BitVec.eq_of_getLsbD_eq
    intro b hb
    refine Eq.trans ?_ BitVec.getLsbD_zero.symm
    rw [BitVec.getLsbD_and, hm b hb]
    by_cases hbj : b = j
    · rw [hbj, Bool.eq_false_iff.2 hbit, Bool.false_and]
    · rw [decide_eq_false hbj, Bool.and_false]
  · intro hbit hzero
    have hand := congrArg (fun v => v.getLsbD j) hzero
    simp only [BitVec.getLsbD_and, hbit, hm j (by omega), decide_true, Bool.and_true] at hand
    exact absurd hand (by simp)

end Blocks

/-! ## Packets -/

section Packets

variable {addr : ℕ} {data shadow h : Heap} {id ref : UInt8} {i k n p : ℕ} {d s : BitVec 64}

def HoldsBytes (w : BitVec 64) (page : Heap) (p n : ℕ) : Prop :=
  ∀ k < n, byteOf w.toNat k = page (p + k)

theorem holdsBytes_loadWord (page : Heap) (p : ℕ) : HoldsBytes (loadWord 8 page p) page p 8 := by
  intro k hk
  apply byte_ext
  intro b hb
  rw [testBit_byteOf hb, ← BitVec.getLsbD, getLsbD_loadWord hk hb]

theorem HoldsBytes.ushiftRight (hw : HoldsBytes d data p (n + 1)) :
    HoldsBytes (d >>> 8) data (p + 1) n := by
  intro k hk
  have hbyte := hw (k + 1) (by omega)
  rw [byteOf_succ] at hbyte
  rw [BitVec.toNat_ushiftRight, Nat.shiftRight_eq_div_pow, Nat.add_assoc, Nat.add_comm 1 k]
  exact hbyte

theorem HoldsBytes.sshiftRight (hw : HoldsBytes d data p (n + 1)) (hn : n + 1 ≤ 8) :
    HoldsBytes (d.sshiftRight 8) data (p + 1) n := by
  intro k hk
  have hbyte := hw (k + 1) (by omega)
  rw [Nat.add_assoc, Nat.add_comm 1 k, ← hbyte]
  apply byte_ext
  intro b hb
  rw [testBit_byteOf hb, testBit_byteOf hb, ← BitVec.getLsbD, ← BitVec.getLsbD,
    BitVec.getLsbD_sshiftRight, decide_eq_false (by omega), if_pos (by omega), Bool.not_false,
    Bool.true_and]
  congr 1
  ring

theorem HoldsBytes.bit_iff (hw : HoldsBytes s shadow p (n + 1)) {m : BitVec 64} {j : ℕ} (hj : j < 8)
    (hm : ∀ b < 64, m.getLsbD b = decide (b = j)) :
    s &&& m ≠ 0 ↔ (shadow p).toNat.testBit j = true := by
  rw [and_bit_ne_zero_iff hj hm, hw 0 (Nat.succ_pos n), Nat.add_zero]

theorem HoldsBytes.low (hw : HoldsBytes d data p (n + 1)) :
    UInt8.ofNat (d &&& 0xff).toNat = data p := by
  rw [low_byte, hw 0 (Nat.succ_pos n), Nat.add_zero]

theorem checkPacketLoop_eq (hd : HoldsBytes d data (p + i) n) (hs : HoldsBytes s shadow (p + i) n) :
    checkPacketLoop id ref (addr + p) n i d s h =
      (List.range' (p + i) n).foldlM (byteCheck addr data shadow id ref) h := by
  induction n generalizing i d s h with
  | zero => simp [checkPacketLoop]
  | succ n ih =>
      have hread := hs.bit_iff (m := 0x1) (j := 0) (by decide) (by decide)
      have hwrite := hs.bit_iff (m := 0x2) (j := 1) (by decide) (by decide)
      have hnext := fun h => ih (i := i + 1) (h := h) hd.ushiftRight hs.ushiftRight
      have hfails : (s &&& 0x1 ≠ 0 ∧ ref ≤ h (getShadowOf (addr + p + i))) ↔
          Fails addr shadow ref h (p + i) := by
        rw [hread, Nat.add_assoc, Fails]
      rw [checkPacketLoop, List.range'_succ, List.foldlM_cons, byteCheck]
      dsimp only
      by_cases hf : Fails addr shadow ref h (p + i)
      · rw [if_pos (hfails.2 hf), if_pos hf, Option.bind_eq_bind, Option.bind_none]
      · rw [if_neg (fun hc => hf (hfails.1 hc)), if_neg hf, Option.bind_eq_bind, Option.bind_some,
          byteUpdate]
        simp only [hwrite, hd.low, Nat.add_assoc addr]
        exact hnext _

theorem updatePacketLoop_eq (hn : n ≤ 8) (hd : HoldsBytes d data (p + i) n)
    (hs : HoldsBytes s shadow (p + i) n) :
    updatePacketLoop (addr + p) n i d s h =
      (List.range' (p + i) n).foldl (byteStore addr data shadow) h := by
  induction n generalizing i d s h with
  | zero => simp [updatePacketLoop]
  | succ n ih =>
      have hwrite := hs.bit_iff (m := 0x2) (j := 1) (by decide) (by decide)
      have hnext := fun h => ih (i := i + 1) (h := h) (by omega) (hd.sshiftRight hn)
        (hs.sshiftRight hn)
      rw [updatePacketLoop, List.range'_succ, List.foldl_cons, byteStore]
      simp only [hwrite, hd.low, Nat.add_assoc addr]
      exact hnext _

/-- Blocks of `w` bytes, one after another. -/
theorem flatMap_range' (i w count : ℕ) :
    (List.range' i count w).flatMap (fun j => List.range' j w) = List.range' i (w * count) := by
  induction count generalizing i with
  | zero => simp
  | succ count ih =>
      rw [List.range'_succ, List.flatMap_cons, ih, List.range'_append_1]
      congr 1
      ring

theorem wordPair_of_zero (hz : loadWord 8 shadow i = 0) : wordPair addr data shadow i = none :=
  if_neg (not_not.2 hz)

theorem wordPair_of_ne (hz : loadWord 8 shadow i ≠ 0) : wordPair addr data shadow i =
    some (.normal (addr + i) (loadWord 8 data i) (loadWord 8 shadow i) 8) := if_pos hz

theorem word_unmarked (hz : loadWord 8 shadow i = 0) : ∀ k ∈ List.range' i 8, shadow k = 0 := by
  intro k hk
  obtain ⟨hle, hlt⟩ := List.mem_range'_1.1 hk
  have hk0 := word_eq_zero_iff.1 hz (k - i) (by omega)
  rwa [Nat.add_sub_cancel' hle] at hk0

theorem checkPairs_wordPairs (stage replicationFactor : ℕ) :
    checkPairs stage replicationFactor (wordPairs addr data shadow) h =
      (List.range' 0 pageSize).foldlM
        (byteCheck addr data shadow (newStageId stage) (refOf stage replicationFactor)) h := by
  have hlen : List.range' 0 pageSize = (List.range' 0 (pageSize / 8) 8).flatMap
      (fun j => List.range' j 8) := (flatMap_range' 0 8 512).symm
  rw [hlen, wordPairs]
  generalize List.range' 0 (pageSize / 8) 8 = is
  induction is generalizing h with
  | nil => rfl
  | cons i is ih =>
      rw [List.flatMap_cons, List.foldlM_append]
      by_cases hz : loadWord 8 shadow i = 0
      · rw [List.filterMap_cons_none (wordPair_of_zero hz),
          foldlM_byteCheck_unmarked (word_unmarked hz), Option.bind_eq_bind, Option.bind_some]
        exact ih
      · have hword : checkPacketLoop (newStageId stage) (refOf stage replicationFactor) (addr + i) 8 0
            (loadWord 8 data i) (loadWord 8 shadow i) h = _ :=
          checkPacketLoop_eq (i := 0) (holdsBytes_loadWord data i) (holdsBytes_loadWord shadow i)
        rw [Nat.add_zero] at hword
        rw [List.filterMap_cons_some (wordPair_of_ne hz), checkPairs, List.foldlM_cons, PacketPair.check,
          checkPacket, hword]
        cases hrest : (List.range' i 8).foldlM (byteCheck addr data shadow (newStageId stage)
            (refOf stage replicationFactor)) h with
        | none => rfl
        | some h' => exact ih

theorem byteStore_unmarked {ks : List ℕ} (hks : ∀ k ∈ ks, shadow k = 0) :
    ks.foldl (byteStore addr data shadow) h = h := by
  funext x
  rw [foldl_byteStore_apply, if_neg]
  rintro ⟨k, hk, hbit, -⟩
  rw [hks k hk] at hbit
  exact absurd hbit (by decide)

theorem updatePairs_wordPairs :
    updatePairs (wordPairs addr data shadow) h =
      (List.range' 0 pageSize).foldl (byteStore addr data shadow) h := by
  have hlen : List.range' 0 pageSize = (List.range' 0 (pageSize / 8) 8).flatMap
      (fun j => List.range' j 8) := (flatMap_range' 0 8 512).symm
  rw [hlen, wordPairs]
  generalize List.range' 0 (pageSize / 8) 8 = is
  induction is generalizing h with
  | nil => rfl
  | cons i is ih =>
      rw [List.flatMap_cons, List.foldl_append]
      by_cases hz : loadWord 8 shadow i = 0
      · rw [List.filterMap_cons_none (wordPair_of_zero hz), ih,
          byteStore_unmarked (word_unmarked hz)]
      · have hword : updatePacketLoop (addr + i) 8 0 (loadWord 8 data i) (loadWord 8 shadow i) h = _ :=
          updatePacketLoop_eq (i := 0) le_rfl (holdsBytes_loadWord data i) (holdsBytes_loadWord shadow i)
        rw [Nat.add_zero] at hword
        rw [List.filterMap_cons_some (wordPair_of_ne hz), updatePairs, List.foldl_cons, PacketPair.update,
          updateNormalPacket, hword]
        exact ih

/-- The masked store of a block is the stores of its bytes. -/
theorem maskmove_eq_foldl_byteStore :
    maskmoveuSi128 (packWords (loadWord 8 data (i + 8)) (loadWord 8 data i))
        (packWords (loadWord 8 shadow (i + 8) <<< 6) (loadWord 8 shadow i <<< 6)) h (addr + i) =
      (List.range' i 16).foldl (byteStore addr data shadow) h := by
  have hmem : ∀ k, i ≤ k → k < i + 16 → addr + k = addr + i + (k - i) := by
    intro k hle hlt
    omega
  funext x
  rw [foldl_byteStore_apply]
  simp only [maskmoveuSi128, lane_stored_iff hmem]
  split_ifs with hin
  · have hlane := (lane_stored_iff hmem).2 hin
    rw [packWords_load _ _ (by omega)]
    congr 1
    omega
  · rfl

theorem updatePage_eq :
    updatePage addr data shadow h =
      (List.range' 0 pageSize).foldl (byteStore addr data shadow) h := by
  have hlen : List.range' 0 pageSize = (List.range' 0 (pageSize / 16) 16).flatMap
      (fun j => List.range' j 16) := (flatMap_range' 0 16 256).symm
  rw [hlen, updatePage, List.foldl_flatMap]
  simp only [maskmove_eq_foldl_byteStore]

end Packets

/-! ## Either way -/

section Paths

variable {addr stage replicationFactor : ℕ} {data shadow h : Heap}

theorem contiguous_of_page (hpage : addr % pageSize = 0) : Contiguous addr pageSize := by
  unfold Contiguous
  unfold pageSize at *
  unfold shadowMask
  omega

theorem newStageId_toNat (hstage : stage < 64) : (newStageId stage).toNat = stage + 1 := by
  rw [newStageId, UInt8.toNat_ofNat']
  omega

theorem refOf_toNat (hstage : stage < 64) :
    (refOf stage replicationFactor).toNat = stage + 1 + (if replicationFactor = 1 then 1 else 0) := by
  have hid := newStageId_toNat hstage
  unfold refOf
  split_ifs
  · rw [UInt8.toNat_add, hid]
    have hone : (1 : UInt8).toNat = 1 := rfl
    omega
  · rw [hid, Nat.add_zero]

theorem checkPage_eq (hpage : addr % pageSize = 0) (hstage : stage < 64) (hl : LocalOk addr h) :
    checkPage addr data shadow stage replicationFactor h =
      checkPairs stage replicationFactor (wordPairs addr data shadow) h := by
  have hid := newStageId_toNat hstage
  have href : (refOf stage replicationFactor).toNat = _ := refOf_toNat hstage
  rw [checkPairs_wordPairs, checkPage]
  refine foldlM_checkPageStep (contiguous_of_page hpage) hl ?_ ?_ ?_ 256 (by decide)
  · omega
  · omega
  · split_ifs at href <;> omega

theorem checkPairs_forwardPair (hpage : addr % pageSize = 0) (hstage : stage < 64)
    (hl : LocalOk addr h) {nonzero marks : ℕ} (hn : nonzero ≠ 0) (sender : Heap) :
    checkPairs stage replicationFactor (forwardPair nonzero addr marks sender).pairs h =
      checkPairs stage replicationFactor
        (wordPairs addr (chunkAt sender addr) (chunkAt sender marks)) h := by
  unfold forwardPair
  dsimp only
  by_cases h8 : 8 < nonzero
  · rw [if_pos h8, ← checkPage_eq hpage hstage hl, checkPairs, List.foldlM_cons]
    simp only [List.foldlM_nil, bind_pure, PacketPair.check]
  · rw [if_neg h8, if_pos hn]

theorem updatePairs_forwardPair {nonzero marks : ℕ} (hn : nonzero ≠ 0) (sender : Heap) :
    updatePairs (forwardPair nonzero addr marks sender).pairs h =
      updatePairs (wordPairs addr (chunkAt sender addr) (chunkAt sender marks)) h := by
  unfold forwardPair
  dsimp only
  by_cases h8 : 8 < nonzero
  · rw [if_pos h8, updatePairs_wordPairs, ← updatePage_eq, updatePairs, List.foldl_cons,
      List.foldl_nil, PacketPair.update]
  · rw [if_neg h8, if_pos hn]

/-- The page path and the word path check and update alike, so that the count of non-zero words
that chooses between them does not matter. -/
theorem page_path_agrees (hpage : addr % pageSize = 0) (hstage : stage < 64)
    (hl : ∀ k < pageSize, (h (getShadowOf (addr + k))).toNat ≤ 64) :
    (∀ data shadow, checkPage addr data shadow stage replicationFactor h =
      checkPairs stage replicationFactor (wordPairs addr data shadow) h) ∧
    (∀ data shadow g, updatePage addr data shadow g =
      updatePairs (wordPairs addr data shadow) g) ∧
    ∀ sender marks m n, m ≠ 0 → n ≠ 0 →
      checkPairs stage replicationFactor (forwardPair m addr marks sender).pairs h =
        checkPairs stage replicationFactor (forwardPair n addr marks sender).pairs h ∧
      (∀ g, updatePairs (forwardPair m addr marks sender).pairs g =
        updatePairs (forwardPair n addr marks sender).pairs g) ∧
      (forwardPair m addr marks sender).readOnly = (forwardPair n addr marks sender).readOnly ∧
      (forwardPair m addr marks sender).heap = (forwardPair n addr marks sender).heap := by
  refine ⟨fun data shadow => checkPage_eq hpage hstage hl,
    fun data shadow g => updatePage_eq.trans updatePairs_wordPairs.symm,
    fun sender marks m n hm hn => ⟨?_, fun g => ?_, ?_, rfl⟩⟩
  · rw [checkPairs_forwardPair hpage hstage hl hm, checkPairs_forwardPair hpage hstage hl hn]
  · rw [updatePairs_forwardPair hm, updatePairs_forwardPair hn]
  · simp only [forwardPair, if_neg hm, if_neg hn]

theorem page_path_agrees_sparse :
    checkPage 4096 (fun _ => 7) (fun k => if k = 5 then 3 else 0) 0 1 (fun _ => 0) =
      checkPairs 0 1 (wordPairs 4096 (fun _ => 7) (fun k => if k = 5 then 3 else 0))
        (fun _ => 0) :=
  (page_path_agrees (by decide) (by decide) (fun _ _ => Nat.zero_le _)).1 _ _

end Paths

end Cpf.Smtx
