import Cpf.Executive.SizedAccess

/-!
# Reads by whole words

A read that compares several bytes at once accepts them when all are live-in, all are marked as
read or all have the code of the iteration. A sequence of such units does what the byte automaton
does on some of its bytes exactly when a byte of these misspeculates, or when every unit has one
mark at its turn and no other byte is live-in.
-/

namespace Cpf.Executive
open Heap

/-- Some bytes that are compared at once: where they start and how many they are. -/
structure ReadUnit where
  start : ℕ
  len : ℕ

namespace ReadUnit

def bytes (u : ReadUnit) : List ℕ := List.range' u.start u.len

theorem mem_bytes {u : ReadUnit} {k : ℕ} : k ∈ u.bytes ↔ u.start ≤ k ∧ k < u.start + u.len :=
  mem_range'_one

/-- All bytes have the same mark, one that a read accepts. -/
def Uniform (code : UInt8) (h : Heap) (u : ReadUnit) : Prop :=
  (∀ k ∈ u.bytes, h k = liveIn) ∨ (∀ k ∈ u.bytes, h k = readLiveIn) ∨ ∀ k ∈ u.bytes, h k = code

instance (code : UInt8) (h : Heap) (u : ReadUnit) : Decidable (u.Uniform code h) :=
  inferInstanceAs (Decidable (_ ∨ _ ∨ _))

end ReadUnit

/-- The marks once the bytes `ks` have been read and none of them has misspeculated. -/
def marked (ks : List ℕ) (h : Heap) : Heap :=
  fun k => if k ∈ ks ∧ h k = liveIn then readLiveIn else h k

def readUnit (code : UInt8) (h : Heap) (u : ReadUnit) : Option Heap :=
  if u.Uniform code h then some (marked u.bytes h) else none

def Bad (code b : UInt8) : Prop := b ≠ liveIn ∧ b ≠ readLiveIn ∧ b ≠ code

instance (code b : UInt8) : Decidable (Bad code b) := inferInstanceAs (Decidable (_ ∧ _ ∧ _))

def unitBytes (us : List ReadUnit) : List ℕ := us.flatMap ReadUnit.bytes

def AllUniform (code : UInt8) (us : List ReadUnit) (h : Heap) : Prop :=
  ∀ as u bs, us = as ++ u :: bs → u.Uniform code (marked (unitBytes as) h)

section Marked

variable {code : UInt8} {ks ls : List ℕ} {us : List ReadUnit} {u : ReadUnit} {h : Heap} {k : ℕ}

theorem marked_of_mem (hk : k ∈ ks) (hl : h k = liveIn) : marked ks h k = readLiveIn :=
  if_pos ⟨hk, hl⟩

theorem marked_of_not_liveIn (hl : h k ≠ liveIn) : marked ks h k = h k :=
  if_neg (fun hc => hl hc.2)

theorem marked_of_not_mem (hk : k ∉ ks) : marked ks h k = h k := if_neg (fun hc => hk hc.1)

@[simp] theorem marked_nil : marked [] h = h := funext (fun _ => marked_of_not_mem List.not_mem_nil)

theorem marked_marked : marked ls (marked ks h) = marked (ks ++ ls) h := by
  funext k
  by_cases hl : h k = liveIn
  · by_cases hk : k ∈ ks
    · rw [marked_of_mem (List.mem_append_left _ hk) hl, marked_of_not_liveIn,
        marked_of_mem hk hl]
      rw [marked_of_mem hk hl]
      decide
    · by_cases hk' : k ∈ ls
      · rw [marked_of_mem (List.mem_append_right _ hk') hl,
          marked_of_mem hk' (by rwa [marked_of_not_mem hk])]
      · rw [marked_of_not_mem hk', marked_of_not_mem hk, marked_of_not_mem (by simp [hk, hk'])]
  · rw [marked_of_not_liveIn (by rwa [marked_of_not_liveIn hl]), marked_of_not_liveIn hl,
      marked_of_not_liveIn hl]

theorem readMark_eq_none_iff_bad {b : UInt8} : readMark code b = none ↔ Bad code b :=
  readMark_eq_none_iff

/-- The byte automaton misspeculates at a bad byte, and else marks what is live-in. -/
theorem markBytes_read_eq : markBytes (readMark code) ks h =
    if ∃ k ∈ ks, Bad code (h k) then none else some (marked ks h) := by
  split_ifs with hbad
  · obtain ⟨k, hk, hb⟩ := hbad
    exact (markBytes_eq_none_iff (readMark_settles code)).2 ⟨k, hk, readMark_eq_none_iff_bad.2 hb⟩
  · refine (markBytes_eq_some_iff (readMark_settles code)).2
      ⟨fun k hk => ?_, fun k hk => marked_of_not_mem hk⟩
    by_cases hl : h k = liveIn
    · rw [marked_of_mem hk hl, hl, readMark_liveIn]
    · obtain ⟨b, hb⟩ := Option.ne_none_iff_exists'.1
        (fun hn => hbad ⟨k, hk, readMark_eq_none_iff_bad.1 hn⟩)
      rcases readMark_eq_some hb with ⟨hc, _⟩ | ⟨_, _, rfl⟩
      · exact absurd hc hl
      · rw [marked_of_not_liveIn hl, hb]

theorem ReadUnit.Uniform.not_bad (hu : u.Uniform code h) (hk : k ∈ u.bytes) : ¬ Bad code (h k) := by
  rintro ⟨hl, hr, hc⟩
  rcases hu with hall | hall | hall
  · exact hl (hall k hk)
  · exact hr (hall k hk)
  · exact hc (hall k hk)

theorem unitBytes_append (us vs : List ReadUnit) :
    unitBytes (us ++ vs) = unitBytes us ++ unitBytes vs := List.flatMap_append

theorem unitBytes_cons (u : ReadUnit) (us : List ReadUnit) :
    unitBytes (u :: us) = u.bytes ++ unitBytes us := List.flatMap_cons

theorem mem_unitBytes : k ∈ unitBytes us ↔ ∃ u ∈ us, k ∈ u.bytes := List.mem_flatMap

theorem allUniform_nil : AllUniform code [] h := fun _ _ _ hs => by simp at hs

theorem allUniform_cons : AllUniform code (u :: us) h ↔
    u.Uniform code h ∧ AllUniform code us (marked u.bytes h) := by
  constructor
  · intro hall
    refine ⟨by simpa [unitBytes] using hall [] u us rfl, fun as v bs hs => ?_⟩
    have hv := hall (u :: as) v bs (by rw [hs, List.cons_append])
    rwa [unitBytes_cons, ← marked_marked] at hv
  · rintro ⟨hu, hall⟩ as v bs hs
    cases as with
    | nil =>
        obtain ⟨rfl, rfl⟩ := List.cons.inj hs
        simpa [unitBytes] using hu
    | cons a as =>
        obtain ⟨rfl, hs'⟩ := List.cons.inj hs
        rw [unitBytes_cons, ← marked_marked]
        exact hall as v bs hs'

theorem AllUniform.not_bad (hall : AllUniform code us h) (hk : k ∈ unitBytes us) :
    ¬ Bad code (h k) := by
  intro hbad
  obtain ⟨u, hu, hku⟩ := mem_unitBytes.1 hk
  obtain ⟨as, bs, hs⟩ := List.append_of_mem hu
  refine (hall as u bs hs).not_bad hku ?_
  rwa [marked_of_not_liveIn hbad.1]

/-- A sequence of units is read exactly when each of them has one mark at its turn. -/
theorem foldlM_readUnit_eq_some {h' : Heap} : us.foldlM (readUnit code) h = some h' ↔
    AllUniform code us h ∧ h' = marked (unitBytes us) h := by
  induction us generalizing h with
  | nil =>
      rw [show unitBytes [] = [] from rfl, marked_nil]
      exact ⟨fun he => ⟨allUniform_nil, (Option.some.inj he).symm⟩, fun he => congrArg some he.2.symm⟩
  | cons u us ih =>
      rw [List.foldlM_cons, allUniform_cons, unitBytes_cons, ← marked_marked]
      by_cases hu : u.Uniform code h
      · rw [readUnit, if_pos hu]
        exact ih.trans ⟨fun he => ⟨⟨hu, he.1⟩, he.2⟩, fun he => ⟨he.1.2, he.2⟩⟩
      · rw [readUnit, if_neg hu]
        exact ⟨fun he => (by cases he), fun he => absurd he.1.1 hu⟩

/-- Units that cover the bytes `ks` do what reading these one after another does exactly when one of
them misspeculates, or all units have one mark at their turn and no other byte is live-in. -/
theorem foldlM_readUnit_eq_markBytes_iff (hks : ∀ k ∈ ks, k ∈ unitBytes us) :
    us.foldlM (readUnit code) h = markBytes (readMark code) ks h ↔
      (∃ k ∈ ks, Bad code (h k)) ∨
        AllUniform code us h ∧ ∀ k ∈ unitBytes us, k ∉ ks → h k ≠ liveIn := by
  rw [markBytes_read_eq]
  by_cases hbad : ∃ k ∈ ks, Bad code (h k)
  · rw [if_pos hbad]
    obtain ⟨k, hk, hb⟩ := hbad
    refine ⟨fun _ => .inl ⟨k, hk, hb⟩, fun _ => ?_⟩
    by_contra hne
    obtain ⟨h', hh'⟩ := Option.ne_none_iff_exists'.1 hne
    exact (foldlM_readUnit_eq_some.1 hh').1.not_bad (hks k hk) hb
  · rw [if_neg hbad, foldlM_readUnit_eq_some, or_iff_right hbad]
    refine and_congr_right (fun _ => ?_)
    constructor
    · intro he k hk hout hl
      have hcell := congrFun he k
      rw [marked_of_mem hk hl, marked_of_not_mem hout, hl] at hcell
      exact absurd hcell (by decide)
    · intro hout
      funext k
      by_cases hl : h k = liveIn
      · by_cases hk : k ∈ ks
        · rw [marked_of_mem hk hl, marked_of_mem (hks k hk) hl]
        · rw [marked_of_not_mem hk, marked_of_not_mem (fun hc => hout k hc hk hl)]
      · rw [marked_of_not_liveIn hl, marked_of_not_liveIn hl]

theorem uniform_marked_of_disjoint (hd : ∀ k ∈ u.bytes, k ∉ ks) :
    u.Uniform code (marked ks h) ↔ u.Uniform code h := by
  have hsame : ∀ b, (∀ k ∈ u.bytes, marked ks h k = b) ↔ ∀ k ∈ u.bytes, h k = b :=
    fun b => forall₂_congr (fun k hk => by rw [marked_of_not_mem (hd k hk)])
  rw [ReadUnit.Uniform, hsame, hsame, hsame, ReadUnit.Uniform]

/-- Units without common bytes can be looked at in any order. -/
theorem allUniform_iff_of_pairwise
    (hd : us.Pairwise (fun u v => u.start + u.len ≤ v.start)) :
    AllUniform code us h ↔ ∀ u ∈ us, u.Uniform code h := by
  induction us generalizing h with
  | nil => exact ⟨fun _ u hu => absurd hu List.not_mem_nil, fun _ => allUniform_nil⟩
  | cons u us ih =>
      obtain ⟨hu, hd'⟩ := List.pairwise_cons.1 hd
      rw [allUniform_cons, ih hd', List.forall_mem_cons]
      refine and_congr_right (fun _ => forall₂_congr (fun v hv => ?_))
      refine uniform_marked_of_disjoint (fun k hk hku => ?_)
      have hle := hu v hv
      have hlt := (ReadUnit.mem_bytes.1 hku).2
      have hge := (ReadUnit.mem_bytes.1 hk).1
      omega

end Marked

namespace Worker

variable {code8 : UInt8} {s : Heap} {p n : ℕ}

theorem uniform_iff : (⟨p, n⟩ : ReadUnit).Uniform code8 s ↔ load n s p = splat n liveIn ∨
    load n s p = splat n readLiveIn ∨ load n s p = splat n code8 := by
  have hall : ∀ b, (∀ k ∈ (⟨p, n⟩ : ReadUnit).bytes, s k = b) ↔ load n s p = splat n b := by
    intro b
    rw [load_eq_splat_iff]
    constructor
    · exact fun h i hi => h _ (ReadUnit.mem_bytes.2 ⟨Nat.le_add_right p i, by dsimp only; omega⟩)
    · intro h k hk
      obtain ⟨hle, hlt⟩ := ReadUnit.mem_bytes.1 hk
      dsimp only at hle hlt
      have hk' := h (k - p) (by omega)
      rwa [Nat.add_sub_cancel' hle] at hk'
  rw [ReadUnit.Uniform, hall, hall, hall]

theorem marked_of_load (hl : load n s p = splat n liveIn) :
    marked (List.range' p n) s = memset s p readLiveIn n := by
  have hm : markBytes (readMark liveIn) (List.range' p n) s = some (memset s p readLiveIn n) :=
    markBytes_of_liveIn hl
  rw [markBytes_read_eq] at hm
  split_ifs at hm
  exact Option.some.inj hm

theorem marked_of_same {b : UInt8} (hl : load n s p = splat n b) (hb : b ≠ liveIn) :
    marked (List.range' p n) s = s := by
  funext k
  by_cases hk : k ∈ List.range' p n
  · refine marked_of_not_liveIn ?_
    obtain ⟨hle, hlt⟩ := mem_range'_one.1 hk
    have hk' := load_eq_splat_iff.1 hl (k - p) (by omega)
    rw [Nat.add_sub_cancel' hle] at hk'
    rwa [hk']
  · exact marked_of_not_mem hk

theorem toOption_readWord {v : UInt8 → ℕ} (hv : ∀ b, v b = splat n b) (name : String) :
    (readWord n (splat n code8) v name s p).toOption = readUnit code8 s ⟨p, n⟩ := by
  simp only [readWord, hv, store_splat, readUnit, uniform_iff]
  by_cases hl : load n s p = splat n liveIn
  · rw [if_pos hl, if_pos (.inl hl), ReadUnit.bytes, marked_of_load hl]
    rfl
  · rw [if_neg hl]
    by_cases hr : load n s p = splat n readLiveIn
    · rw [if_neg (fun hc => hc.2 hr), if_pos (.inr (.inl hr)), ReadUnit.bytes,
        marked_of_same hr (by decide)]
      rfl
    · by_cases hc : load n s p = splat n code8
      · rw [if_neg (fun hcc => hcc.1 hc), if_pos (.inr (.inr hc)), ReadUnit.bytes,
          marked_of_same hc (fun he => hl (he ▸ hc))]
        rfl
      · rw [if_pos ⟨hc, hr⟩, if_neg (by tauto)]
        rfl

theorem toOption_readByte_eq (name : String) (i : ℕ) :
    (readByte code8 name s i).toOption = readUnit code8 s ⟨i, 1⟩ := by
  rw [toOption_readByte, markBytes_read_eq, readUnit]
  have hsame : (∃ k ∈ [i], Bad code8 (s k)) ↔ ¬ (⟨i, 1⟩ : ReadUnit).Uniform code8 s := by
    simp only [List.mem_singleton, exists_eq_left, Bad, ReadUnit.Uniform, ReadUnit.bytes,
      List.range'_one, forall_eq]
    tauto
  by_cases hu : (⟨i, 1⟩ : ReadUnit).Uniform code8 s
  · rw [if_pos hu, if_neg (fun hc => hsame.1 hc hu)]
    rfl
  · rw [if_neg hu, if_pos (hsame.2 hu)]

theorem toOption_units {ι : Type*} {g : Heap → ι → Except String Heap} {us : ι → List ReadUnit}
    {is : List ι} (hg : ∀ i ∈ is, ∀ s, (g s i).toOption = (us i).foldlM (readUnit code8) s)
    (s : Heap) : (is.foldlM g s).toOption = (is.flatMap us).foldlM (readUnit code8) s := by
  induction is generalizing s with
  | nil => rfl
  | cons i is ih =>
      rw [List.foldlM_cons, List.flatMap_cons, List.foldlM_append, ← hg i List.mem_cons_self]
      cases g s i with
      | error e => rfl
      | ok t => exact ih (fun j hj => hg j (List.mem_cons_of_mem i hj)) t

theorem toOption_map_units {ι : Type*} {g : Heap → ι → Except String Heap} {u : ι → ReadUnit}
    (hg : ∀ s i, (g s i).toOption = readUnit code8 s (u i)) (is : List ι) (s : Heap) :
    (is.foldlM g s).toOption = (is.map u).foldlM (readUnit code8) s := by
  induction is generalizing s with
  | nil => rfl
  | cons i is ih =>
      rw [List.foldlM_cons, List.map_cons, List.foldlM_cons, ← hg s i]
      cases g s i with
      | error e => rfl
      | ok t => exact ih t

end Worker
end Cpf.Executive
