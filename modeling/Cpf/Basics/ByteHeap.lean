import Mathlib.Data.List.Nodup
import Mathlib.Tactic

/-!
# Byte heaps and little-endian words

A heap gives every address its byte. `load` and `store` move words of `n` bytes in little-endian
order, `byteOf` extracts one byte of a word by shifting and masking, and `splat n b` is the word
all of whose bytes are `b`. `memchr` and `memset` are the library functions of these names.
-/

namespace Cpf

abbrev Heap := ℕ → UInt8

namespace Heap

def load : ℕ → Heap → ℕ → ℕ
  | 0, _, _ => 0
  | n + 1, h, p => (h p).toNat + 256 * load n h (p + 1)

def store : ℕ → Heap → ℕ → ℕ → Heap
  | 0, h, _, _ => h
  | n + 1, h, p, m => Function.update (store n h (p + 1) (m / 256)) p (UInt8.ofNat (m % 256))

/-- Does a byte `b` occur among the `len` bytes at `p`? -/
def memchr (h : Heap) (p : ℕ) (b : UInt8) (len : ℕ) : Bool :=
  (List.range len).any (fun i => h (p + i) = b)

def memset (h : Heap) (p : ℕ) (b : UInt8) (len : ℕ) : Heap :=
  fun k => if p ≤ k ∧ k < p + len then b else h k

end Heap

open Heap

def byteOf (m i : ℕ) : UInt8 := UInt8.ofNat ((m >>> (8 * i)) % 256)

def splat (n : ℕ) (b : UInt8) : ℕ := load n (fun _ => b) 0

theorem memchr_eq_true_iff {h : Heap} {p len : ℕ} {b : UInt8} :
    memchr h p b len = true ↔ ∃ k, p ≤ k ∧ k < p + len ∧ h k = b := by
  simp only [memchr, List.any_eq_true, List.mem_range, decide_eq_true_eq]
  constructor
  · rintro ⟨i, hi, hb⟩
    exact ⟨p + i, by omega, by omega, hb⟩
  · rintro ⟨k, hle, hlt, hb⟩
    refine ⟨k - p, by omega, ?_⟩
    rwa [Nat.add_sub_cancel' hle]

theorem memset_apply_of_mem {h : Heap} {p len k : ℕ} {b : UInt8} (hle : p ≤ k) (hlt : k < p + len) :
    memset h p b len k = b := if_pos ⟨hle, hlt⟩

theorem memset_apply_of_not_mem {h : Heap} {p len k : ℕ} {b : UInt8}
    (hk : ¬ (p ≤ k ∧ k < p + len)) : memset h p b len k = h k := if_neg hk

theorem byteOf_zero (m : ℕ) : byteOf m 0 = UInt8.ofNat (m % 256) := rfl

theorem byteOf_succ (m i : ℕ) : byteOf m (i + 1) = byteOf (m / 256) i := by
  have hs : m >>> (8 * (i + 1)) = (m / 256) >>> (8 * i) := by
    have h8 : m / 256 = m >>> 8 := by rw [Nat.shiftRight_eq_div_pow]
    rw [h8, ← Nat.shiftRight_add]
    congr 1
    ring
  rw [byteOf, byteOf, hs]

theorem load_succ_mod (n : ℕ) (h : Heap) (p : ℕ) : load (n + 1) h p % 256 = (h p).toNat := by
  have hb := (h p).toNat_lt
  rw [load]
  omega

theorem load_succ_div (n : ℕ) (h : Heap) (p : ℕ) : load (n + 1) h p / 256 = load n h (p + 1) := by
  have hb := (h p).toNat_lt
  rw [load]
  omega

theorem byteOf_load {n i : ℕ} (hi : i < n) (h : Heap) (p : ℕ) :
    byteOf (load n h p) i = h (p + i) := by
  induction n generalizing p i with
  | zero => omega
  | succ n ih =>
      cases i with
      | zero => rw [byteOf_zero, load_succ_mod, UInt8.ofNat_toNat, Nat.add_zero]
      | succ i =>
          rw [byteOf_succ, load_succ_div, ih (by omega)]
          congr 1
          omega

theorem load_congr {n : ℕ} {h h' : Heap} {p p' : ℕ} (he : ∀ i < n, h (p + i) = h' (p' + i)) :
    load n h p = load n h' p' := by
  induction n generalizing p p' with
  | zero => rfl
  | succ n ih =>
      have hhead : h p = h' p' := he 0 (by omega)
      have htail : load n h (p + 1) = load n h' (p' + 1) := ih (fun i hi => by
        have := he (i + 1) (by omega)
        rwa [show p + (i + 1) = p + 1 + i by omega, show p' + (i + 1) = p' + 1 + i by omega] at this)
      rw [load, load, hhead, htail]

/-- A word equals the splat of `b` exactly when each of its bytes is `b`. -/
theorem load_eq_splat_iff {n : ℕ} {h : Heap} {p : ℕ} {b : UInt8} :
    load n h p = splat n b ↔ ∀ i < n, h (p + i) = b := by
  constructor
  · intro he i hi
    have hbyte : byteOf (load n h p) i = byteOf (splat n b) i := by rw [he]
    rwa [byteOf_load hi, splat, byteOf_load hi] at hbyte
  · intro hall
    exact load_congr hall

theorem splat_succ_mod (n : ℕ) (b : UInt8) : splat (n + 1) b % 256 = b.toNat := load_succ_mod n _ 0

theorem splat_succ_div (n : ℕ) (b : UInt8) : splat (n + 1) b / 256 = splat n b := by
  rw [splat, load_succ_div]
  exact load_congr (fun _ _ => rfl)

theorem store_splat (n : ℕ) (h : Heap) (p : ℕ) (b : UInt8) :
    store n h p (splat n b) = memset h p b n := by
  induction n generalizing p with
  | zero =>
      funext k
      rw [memset_apply_of_not_mem (by omega)]
      rfl
  | succ n ih =>
      funext k
      rw [store, splat_succ_mod, splat_succ_div, ih, UInt8.ofNat_toNat]
      by_cases hk : k = p
      · subst k
        rw [Function.update_self, memset_apply_of_mem (le_refl p) (by omega)]
      · rw [Function.update_of_ne hk]
        by_cases hin : p ≤ k ∧ k < p + (n + 1)
        · rw [memset_apply_of_mem (by omega) (by omega), memset_apply_of_mem hin.1 hin.2]
        · rw [memset_apply_of_not_mem (by omega), memset_apply_of_not_mem hin]

/-- A loop that overwrites the bytes with the property `q`. -/
theorem foldl_update_if (q : ℕ → Prop) [DecidablePred q] (f h : Heap) (is : List ℕ) (k : ℕ) :
    is.foldl (fun h i => if q i then Function.update h i (f i) else h) h k =
      if k ∈ is ∧ q k then f k else h k := by
  induction is generalizing h with
  | nil => simp
  | cons i is ih =>
      rw [List.foldl_cons, ih]
      by_cases hq : q k
      · by_cases hk : k ∈ is
        · simp [hq, hk]
        · by_cases hki : k = i
          · subst k
            simp [hq, hk]
          · simp only [hk, hki, List.mem_cons, false_and, or_self, if_false]
            split_ifs
            · exact Function.update_of_ne hki _ _
            · rfl
      · by_cases hki : k = i
        · subst k
          simp [hq]
        · simp only [hq, and_false, if_false]
          split_ifs
          · exact Function.update_of_ne hki _ _
          · rfl

end Cpf
