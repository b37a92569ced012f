import Cpf.Executive.RangeReads

/-!
# Strided reads and repeated reads

`__specpriv_private_read_range_stride` reads words of four or eight bytes, two words of eight, or
the range of any other length. A read of 16 bytes puts the mark of its second word behind the
stride, so that a live-in second word is never marked unless a later stride starts with it.
-/

namespace Cpf.Executive
open Heap

namespace Worker

variable {code8 : UInt8} {s s' h : Heap} {p k : ℕ}

def strideUnits (len p : ℕ) : List ReadUnit :=
  if len = 4 then [⟨p, 4⟩]
  else if len = 8 then [⟨p, 8⟩]
  else if len = 16 then [⟨p, 8⟩, ⟨p + 8, 8⟩]
  else rangeUnits p (p + len)

def LiveIn (h : Heap) (u : ReadUnit) : Prop := ∀ k ∈ u.bytes, h k = liveIn

instance (h : Heap) (u : ReadUnit) : Decidable (LiveIn h u) :=
  inferInstanceAs (Decidable (∀ k ∈ u.bytes, h k = liveIn))

/-- No stride of 16 bytes has a live-in second word at its turn. -/
def Placed : List ℕ → Heap → Prop
  | [], _ => True
  | p :: ps, h => ¬ LiveIn h ⟨p + 8, 8⟩ ∧ Placed ps (marked (unitBytes (strideUnits 16 p)) h)

/-- The marks when the eight bytes behind every stride of 16 bytes whose second word is live-in, one
stride after the other, are `READ_LIVE_IN`. -/
def covered : List ℕ → Heap → Heap
  | [], h => h
  | p :: ps, h => covered ps (if LiveIn h ⟨p + 8, 8⟩ then memset h (p + 16) readLiveIn 8 else h)

def stride16Step (code8 : UInt8) (s : Heap) (p : ℕ) : Option Heap :=
  (readUnit code8 s ⟨p, 8⟩).bind (fun s =>
    if LiveIn s ⟨p + 8, 8⟩ then some (memset s (p + 16) readLiveIn 8)
    else readUnit code8 s ⟨p + 8, 8⟩)

theorem liveIn_iff {n : ℕ} : LiveIn s ⟨p, n⟩ ↔ load n s p = splat n liveIn := by
  rw [load_eq_splat_iff]
  constructor
  · exact fun hall i hi => hall _ (ReadUnit.mem_bytes.2 ⟨Nat.le_add_right p i, by dsimp only; omega⟩)
  · intro hall k hk
    obtain ⟨hle, hlt⟩ := ReadUnit.mem_bytes.1 hk
    dsimp only at hle hlt
    have hk' := hall (k - p) (by omega)
    rwa [Nat.add_sub_cancel' hle] at hk'

theorem toOption_readStride16 (message : String) (s : Heap) (p : ℕ) :
    (readStride16 (splat 8 code8) message s p).toOption = stride16Step code8 s p := by
  have hbind : ∀ (x : Except String Heap) (f : Heap → Except String Heap),
      (x >>= f).toOption = x.toOption.bind (fun t => (f t).toOption) := by
    rintro (e | t) f <;> rfl
  simp only [readStride16, hbind, toOption_readWord V64_eq_splat, stride16Step]
  refine congrArg _ (funext fun t => ?_)
  have hsecond : (readWord 8 (splat 8 code8) V64 message t (p + 8)).toOption =
      readUnit code8 t ⟨p + 8, 8⟩ := toOption_readWord V64_eq_splat message
  rw [readWord, V64_eq_splat, V64_eq_splat] at hsecond
  rw [V64_eq_splat, V64_eq_splat, store_splat]
  by_cases hl : LiveIn t ⟨p + 8, 8⟩
  · rw [if_pos hl, if_pos (liveIn_iff.1 hl)]
    rfl
  · rw [if_neg (fun hc => hl (liveIn_iff.2 hc))] at hsecond ⊢
    rw [if_neg hl]
    exact hsecond

theorem marked_disjoint {ks : List ℕ} {u : ReadUnit} (hd : ∀ k ∈ u.bytes, k ∉ ks) :
    LiveIn (marked ks h) u ↔ LiveIn h u :=
  forall₂_congr (fun k hk => by rw [marked_of_not_mem (hd k hk)])

theorem stride16Step_of_not_liveIn (hl : ¬ LiveIn s ⟨p + 8, 8⟩) :
    stride16Step code8 s p = (strideUnits 16 p).foldlM (readUnit code8) s := by
  rw [stride16Step, show strideUnits 16 p = [⟨p, 8⟩, ⟨p + 8, 8⟩] from rfl, List.foldlM_cons]
  by_cases hu : (⟨p, 8⟩ : ReadUnit).Uniform code8 s
  · have hl' : ¬ LiveIn (marked (⟨p, 8⟩ : ReadUnit).bytes s) ⟨p + 8, 8⟩ := by
      rwa [marked_disjoint]
      intro k hk hk'
      have hge := (ReadUnit.mem_bytes.1 hk).1
      have hlt := (ReadUnit.mem_bytes.1 hk').2
      dsimp only at hge hlt
      omega
    rw [readUnit, if_pos hu, Option.bind_some, if_neg hl']
    simp
  · rw [readUnit, if_neg hu]
    rfl

/-- When every mark is placed right, the strides of 16 bytes are read word by word. -/
theorem foldlM_stride16 {ps : List ℕ} (hplaced : Placed ps s) :
    ps.foldlM (stride16Step code8) s =
      (ps.flatMap (strideUnits 16)).foldlM (readUnit code8) s := by
  induction ps generalizing s with
  | nil => rfl
  | cons p ps ih =>
      obtain ⟨hl, hrest⟩ := hplaced
      rw [List.foldlM_cons, List.flatMap_cons, List.foldlM_append, stride16Step_of_not_liveIn hl]
      cases hf : (strideUnits 16 p).foldlM (readUnit code8) s with
      | none => rfl
      | some t =>
          rw [← (foldlM_readUnit_eq_some.1 hf).2] at hrest
          exact ih hrest

theorem readUnit_eq_some {u : ReadUnit} :
    readUnit code8 s u = some s' ↔ u.Uniform code8 s ∧ s' = marked u.bytes s := by
  unfold readUnit
  split_ifs with hu
  · rw [Option.some.injEq, eq_comm]
    exact (and_iff_right hu).symm
  · exact ⟨fun he => (by cases he), fun he => absurd he.1 hu⟩

theorem unitBytes_stride16 (p : ℕ) : unitBytes (strideUnits 16 p) = List.range' p 16 := by
  change List.range' p 8 ++ (List.range' (p + 8) 8 ++ []) = List.range' p 16
  rw [List.append_nil, List.range'_append_1]

theorem uniform_congr {u : ReadUnit} {t : Heap} (hst : ∀ k ∈ u.bytes, s k = t k) :
    u.Uniform code8 s ↔ u.Uniform code8 t := by
  have hsame : ∀ b, (∀ k ∈ u.bytes, s k = b) ↔ ∀ k ∈ u.bytes, t k = b :=
    fun b => forall₂_congr (fun k hk => by rw [hst k hk])
  rw [ReadUnit.Uniform, hsame, hsame, hsame, ReadUnit.Uniform]

theorem liveIn_congr {u : ReadUnit} {t : Heap} (hst : ∀ k ∈ u.bytes, s k = t k) :
    LiveIn s u ↔ LiveIn t u :=
  forall₂_congr (fun k hk => by rw [hst k hk])

theorem strides_succ (base n width : ℕ) :
    strides base (n + 1) width = base :: strides (base + width) n width := by
  rw [strides, List.range_succ_eq_map, List.map_cons, List.map_map, Nat.zero_mul, Nat.add_zero,
    strides]
  congr 1
  refine List.map_congr_left (fun i _ => ?_)
  simp only [Function.comp_apply, Nat.succ_eq_add_one]
  ring

theorem le_of_mem_strides {base n width c : ℕ} (hc : c ≤ base) :
    ∀ p ∈ strides base n width, c ≤ p := by
  intro p hp
  obtain ⟨i, _, rfl⟩ := List.mem_map.1 hp
  omega

section Covered

variable {ps ks : List ℕ} {c : ℕ}

theorem covered_or (ps : List ℕ) (s : Heap) (k : ℕ) :
    covered ps s k = s k ∨ covered ps s k = readLiveIn := by
  induction ps generalizing s with
  | nil => exact .inl rfl
  | cons p ps ih =>
      rw [covered]
      refine (ih _).elim (fun heq => ?_) .inr
      split_ifs at heq ⊢ with hl
      · by_cases hk : p + 16 ≤ k ∧ k < p + 16 + 8
        · exact .inr (heq.trans (memset_apply_of_mem hk.1 hk.2))
        · exact .inl (heq.trans (memset_apply_of_not_mem (by omega)))
      · exact .inl heq

/-- Nothing before the second stride's end is covered. -/
theorem covered_of_lt (hps : ∀ p ∈ ps, c ≤ p) (hk : k < c + 16) : covered ps s k = s k := by
  induction ps generalizing s with
  | nil => rfl
  | cons p ps ih =>
      rw [covered, ih (fun q hq => hps q (List.mem_cons_of_mem p hq))]
      have hp := hps p List.mem_cons_self
      split_ifs
      · exact memset_apply_of_not_mem (by omega)
      · rfl

theorem covered_congr {t : Heap} (hps : ∀ p ∈ ps, c ≤ p) (hst : ∀ k, c ≤ k → s k = t k) :
    ∀ k, c ≤ k → covered ps s k = covered ps t k := by
  induction ps generalizing s t with
  | nil => exact hst
  | cons p ps ih =>
      have hp := hps p List.mem_cons_self
      have hl : LiveIn s ⟨p + 8, 8⟩ ↔ LiveIn t ⟨p + 8, 8⟩ := by
        refine liveIn_congr (fun k hk => hst k ?_)
        have hge := (ReadUnit.mem_bytes.1 hk).1
        dsimp only at hge
        omega
      refine ih (fun q hq => hps q (List.mem_cons_of_mem p hq)) (fun k hk => ?_)
      simp only [hl]
      split_ifs
      · by_cases hin : p + 16 ≤ k ∧ k < p + 16 + 8
        · rw [memset_apply_of_mem hin.1 hin.2, memset_apply_of_mem hin.1 hin.2]
        · rw [memset_apply_of_not_mem (by omega), memset_apply_of_not_mem (by omega), hst k hk]
      · exact hst k hk

theorem covered_marked (hps : ∀ p ∈ ps, c ≤ p) (hks : ∀ k ∈ ks, k < c) :
    covered ps (marked ks s) = marked ks (covered ps s) := by
  funext k
  rcases Nat.lt_or_ge k c with hlt | hge
  · have hsame : covered ps s k = s k := covered_of_lt hps (by omega)
    rw [covered_of_lt hps (by omega)]
    simp only [marked, hsame]
  · have hout : k ∉ ks := fun hc => absurd (hks k hc) (by omega)
    rw [marked_of_not_mem hout]
    refine covered_congr hps (fun j hj => marked_of_not_mem (fun hc => ?_)) k hge
    exact absurd (hks j hc) (by omega)

/-- One stride of 16 bytes looks at its two words, marks the first and covers what lies behind it
if the second is live-in. -/
theorem stride16Step_eq_some : stride16Step code8 s p = some s' ↔
    ((⟨p, 8⟩ : ReadUnit).Uniform code8 s ∧ (⟨p + 8, 8⟩ : ReadUnit).Uniform code8 s) ∧
      s' = marked (List.range' p 8) (covered [p] s) := by
  have hsecond : ∀ k ∈ (⟨p + 8, 8⟩ : ReadUnit).bytes, k ∉ (⟨p, 8⟩ : ReadUnit).bytes := by
    intro k hk hk'
    have hge := (ReadUnit.mem_bytes.1 hk).1
    have hlt := (ReadUnit.mem_bytes.1 hk').2
    dsimp only at hge hlt
    omega
  by_cases hu : (⟨p, 8⟩ : ReadUnit).Uniform code8 s
  · rw [stride16Step, readUnit, if_pos hu, Option.bind_some, covered, covered,
      and_iff_right hu]
    by_cases hl : LiveIn s ⟨p + 8, 8⟩
    · rw [if_pos ((marked_disjoint hsecond).2 hl), if_pos hl, and_iff_right (.inl hl),
        Option.some.injEq, eq_comm]
      suffices hcomm : memset (marked (⟨p, 8⟩ : ReadUnit).bytes s) (p + 16) readLiveIn 8 =
          marked (List.range' p 8) (memset s (p + 16) readLiveIn 8) by rw [hcomm]
      funext k
      by_cases hk : p + 16 ≤ k ∧ k < p + 16 + 8
      · rw [memset_apply_of_mem hk.1 hk.2, marked_of_not_liveIn] <;>
          rw [memset_apply_of_mem hk.1 hk.2]
        decide
      · have hsame : memset s (p + 16) readLiveIn 8 k = s k := memset_apply_of_not_mem (by omega)
        rw [memset_apply_of_not_mem (by omega)]
        simp only [marked, hsame]
        rfl
    · rw [if_neg (fun hc => hl ((marked_disjoint hsecond).1 hc)), if_neg hl, readUnit_eq_some,
        uniform_marked_of_disjoint hsecond]
      refine and_congr_right (fun hv => ?_)
      -- A second word with one mark that is not live-in has nothing to mark.
      suffices hid : marked (⟨p + 8, 8⟩ : ReadUnit).bytes (marked (⟨p, 8⟩ : ReadUnit).bytes s) =
          marked (List.range' p 8) s by rw [hid]
      funext k
      by_cases hk : k ∈ (⟨p + 8, 8⟩ : ReadUnit).bytes
      · refine marked_of_not_liveIn ?_
        rw [marked_of_not_mem (hsecond k hk)]
        intro hlive
        refine hl (fun j hj => ?_)
        rcases hv with hall | hall | hall
        · exact hall j hj
        · exact absurd (hlive.symm.trans (hall k hk)) (by decide)
        · exact (hall j hj).trans ((hall k hk).symm.trans hlive)
      · rw [marked_of_not_mem hk, ReadUnit.bytes]
  · rw [stride16Step, readUnit, if_neg hu]
    exact ⟨fun he => (by cases he), fun he => absurd he.1.1 hu⟩

/-- Strides of 16 bytes that are eight or at least 16 bytes apart are read exactly when every word
has one mark once the covered bytes are `READ_LIVE_IN`, and then the first words are marked. -/
theorem foldlM_stride16_eq_some {base n width : ℕ} (hw : width = 8 ∨ 16 ≤ width) :
    (strides base n width).foldlM (stride16Step code8) s = some s' ↔
      (∀ u ∈ (strides base n width).flatMap (strideUnits 16),
        u.Uniform code8 (covered (strides base n width) s)) ∧
      s' = marked ((strides base n width).flatMap (fun p => List.range' p 8))
        (covered (strides base n width) s) := by
  induction n generalizing base s with
  | zero =>
      rw [show strides base 0 width = [] from rfl]
      simp only [List.foldlM_nil, List.flatMap_nil, List.not_mem_nil, false_implies, implies_true,
        true_and, marked_nil, covered]
      exact ⟨fun he => (Option.some.inj he).symm, fun he => congrArg some he.symm⟩
  | succ n ih =>
      have hge : ∀ p ∈ strides (base + width) n width, base + 8 ≤ p := le_of_mem_strides (by omega)
      have ih := @ih (marked (List.range' base 8) (covered [base] s)) (base + width)
      rw [strides_succ]
      generalize strides (base + width) n width = ps at ih hge ⊢
      have hcov : covered (base :: ps) s = covered ps (covered [base] s) := rfl
      have hfirst : ∀ k ∈ List.range' base 8, k < base + 8 := fun k hk => (mem_range'_one.1 hk).2
      have hsame : ∀ k, k < base + 16 → covered (base :: ps) s k = s k := by
        intro k hk
        rw [hcov, covered_of_lt hge (by omega),
          covered_of_lt (c := base) (fun p hp => (List.mem_singleton.1 hp).ge) hk]
      have hword : ∀ q, q + 8 ≤ base + 16 → ((⟨q, 8⟩ : ReadUnit).Uniform code8 s ↔
          (⟨q, 8⟩ : ReadUnit).Uniform code8 (covered (base :: ps) s)) := by
        intro q hq
        refine uniform_congr (fun k hk => (hsame k ?_).symm)
        have hlt := (ReadUnit.mem_bytes.1 hk).2
        dsimp only at hlt
        omega
      have hrest : (∀ u ∈ ps.flatMap (strideUnits 16),
            u.Uniform code8 (marked (List.range' base 8) (covered (base :: ps) s))) ↔
          ∀ u ∈ ps.flatMap (strideUnits 16), u.Uniform code8 (covered (base :: ps) s) := by
        refine forall₂_congr (fun u hu => uniform_marked_of_disjoint (fun k hk hc => ?_))
        obtain ⟨p, hp, hu⟩ := List.mem_flatMap.1 hu
        have hle := hge p hp
        have hlt := hfirst k hc
        have hk' := mem_range'_one.1 (unitBytes_stride16 p ▸ mem_unitBytes.2 ⟨u, hu, hk⟩)
        omega
      have hstep : (base :: ps).foldlM (stride16Step code8) s = some s' ↔
          ((⟨base, 8⟩ : ReadUnit).Uniform code8 s ∧ (⟨base + 8, 8⟩ : ReadUnit).Uniform code8 s) ∧
            ps.foldlM (stride16Step code8) (marked (List.range' base 8) (covered [base] s)) =
              some s' := by
        rw [List.foldlM_cons]
        refine Option.bind_eq_some_iff.trans
          ⟨?_, fun ⟨hu, hf⟩ => ⟨_, stride16Step_eq_some.2 ⟨hu, rfl⟩, hf⟩⟩
        rintro ⟨t, ht, hf⟩
        obtain ⟨hu, rfl⟩ := stride16Step_eq_some.1 ht
        exact ⟨hu, hf⟩
      rw [hstep, ih, covered_marked hge hfirst, ← hcov, hrest, marked_marked, List.flatMap_cons,
        List.flatMap_cons, List.forall_mem_append, hword base (by omega), hword (base + 8) (by omega),
        ← and_assoc]
      refine and_congr_left (fun _ => and_congr_left (fun _ => ?_))
      rw [show strideUnits 16 base = [⟨base, 8⟩, ⟨base + 8, 8⟩] from rfl, List.forall_mem_cons,
        List.forall_mem_singleton]

end Covered

/-- Behind a second word that was not marked, a stride that overlaps it without starting with it
misspeculates: its first word mixes live-in bytes with others. -/
theorem stride16Step_overlapping {b width : ℕ} (hpos : 0 < width) (hlt : width < 16) (hw : width ≠ 8)
    (hfirst : ∀ k, b ≤ k → k < b + 8 → s k ≠ liveIn)
    (hsecond : ∀ k, b + 8 ≤ k → k < b + 16 → s k = liveIn)
    (hthird : ∀ k, b + 16 ≤ k → k < b + 24 → s k ≠ liveIn) :
    stride16Step code8 s (b + width) = none := by
  have hmix : ∃ i j, i ∈ (⟨b + width, 8⟩ : ReadUnit).bytes ∧
      j ∈ (⟨b + width, 8⟩ : ReadUnit).bytes ∧ s i = liveIn ∧ s j ≠ liveIn := by
    simp only [ReadUnit.mem_bytes]
    rcases Nat.lt_or_ge width 8 with h8 | h8
    · exact ⟨b + 8, b + 7, by omega, by omega, hsecond _ (by omega) (by omega),
        hfirst _ (by omega) (by omega)⟩
    · exact ⟨b + 15, b + 16, by omega, by omega, hsecond _ (by omega) (by omega),
        hthird _ (by omega) (by omega)⟩
  obtain ⟨i, j, hi, hj, hli, hlj⟩ := hmix
  rw [stride16Step, readUnit, if_neg, Option.bind_none]
  rintro (hall | hall | hall)
  · exact hlj (hall j hj)
  · exact absurd (hli.symm.trans (hall i hi)) (by decide)
  · exact hlj ((hall j hj).trans ((hall i hi).symm.trans hli))

/-- The marks that a stride with a live-in second word leaves. -/
theorem stride16Step_liveIn (hl : LiveIn s ⟨p + 8, 8⟩) (hstep : stride16Step code8 s p = some s') :
    (∀ k, p ≤ k → k < p + 8 → s' k ≠ liveIn) ∧ (∀ k, p + 8 ≤ k → k < p + 16 → s' k = liveIn) ∧
      ∀ k, p + 16 ≤ k → k < p + 24 → s' k ≠ liveIn := by
  obtain ⟨_, rfl⟩ := stride16Step_eq_some.1 hstep
  have hcov : covered [p] s = memset s (p + 16) readLiveIn 8 := by
    rw [covered, if_pos hl, covered]
  have hsame : ∀ k, k < p + 16 → memset s (p + 16) readLiveIn 8 k = s k :=
    fun k hk => memset_apply_of_not_mem (by omega)
  rw [hcov]
  refine ⟨fun k h1 h2 => ?_, fun k h1 h2 => ?_, fun k h1 h2 => ?_⟩
  · by_cases hk : s k = liveIn
    · rw [marked_of_mem (mem_range'_one.2 ⟨h1, h2⟩) (by rwa [hsame k (by omega)])]
      decide
    · rw [← hsame k (by omega)] at hk
      rwa [marked_of_not_liveIn hk]
  · rw [marked_of_not_mem (fun hc => absurd (mem_range'_one.1 hc).2 (by omega)), hsame k h2]
    exact hl k (ReadUnit.mem_bytes.2 ⟨h1, h2⟩)
  · rw [marked_of_not_mem (fun hc => absurd (mem_range'_one.1 hc).2 (by omega)),
      memset_apply_of_mem h1 h2]
    decide

/-- Strides that overlap but are not eight bytes apart end with a second word that was not marked,
if they end at all. -/
theorem foldlM_stride16_stuck {b n width : ℕ} (hw : width ≠ 8) (hlt : width < 16)
    (hfirst : ∀ k, b ≤ k → k < b + 8 → s k ≠ liveIn)
    (hsecond : ∀ k, b + 8 ≤ k → k < b + 16 → s k = liveIn)
    (hthird : ∀ k, b + 16 ≤ k → k < b + 24 → s k ≠ liveIn)
    (hfold : (strides (b + width) n width).foldlM (stride16Step code8) s = some s') :
    (0 < n → width = 0) ∧ s' (b + 15) = liveIn := by
  induction n generalizing s with
  | zero =>
      cases hfold
      exact ⟨fun h => absurd h (lt_irrefl 0), hsecond _ (by omega) (by omega)⟩
  | succ n ih =>
      rw [strides_succ, List.foldlM_cons] at hfold
      obtain ⟨t, ht, hrest⟩ := Option.bind_eq_some_iff.1 hfold
      rcases Nat.eq_zero_or_pos width with rfl | hpos
      · obtain ⟨h1, h2, h3⟩ := stride16Step_liveIn
          (fun k hk => hsecond k (ReadUnit.mem_bytes.1 hk).1 (ReadUnit.mem_bytes.1 hk).2) ht
        exact ⟨fun _ => rfl, (ih h1 h2 h3 hrest).2⟩
      · rw [stride16Step_overlapping hpos hlt hw hfirst hsecond hthird] at ht
        cases ht

/-- If strides of 16 bytes that overlap but are not eight bytes apart are all marked, no second word
was live-in at its turn. -/
theorem placed_of_foldlM {base n width : ℕ} (hw : width ≠ 8) (hlt : width < 16)
    (hfold : (strides base n width).foldlM (stride16Step code8) h =
      some (marked ((strides base n width).flatMap (fun p => List.range' p 16)) h)) :
    Placed (strides base n width) h := by
  induction n generalizing base h with
  | zero => trivial
  | succ n ih =>
      rw [strides_succ] at hfold ⊢
      rw [List.foldlM_cons, List.flatMap_cons] at hfold
      obtain ⟨t, ht, hrest⟩ := Option.bind_eq_some_iff.1 hfold
      by_cases hl : LiveIn h ⟨base + 8, 8⟩
      · exfalso
        obtain ⟨h1, h2, h3⟩ := stride16Step_liveIn hl ht
        have hstuck := (foldlM_stride16_stuck hw hlt h1 h2 h3 hrest).2
        have hmem : base + 15 ∈ List.range' base 16 ++
            (strides (base + width) n width).flatMap (fun p => List.range' p 16) :=
          List.mem_append_left _ (mem_range'_one.2 ⟨by omega, by omega⟩)
        have hlast : h (base + 15) = liveIn :=
          hl _ (ReadUnit.mem_bytes.2 (by dsimp only; omega))
        rw [marked_of_mem hmem hlast] at hstuck
        exact absurd hstuck (by decide)
      · rw [stride16Step_of_not_liveIn hl] at ht
        obtain ⟨_, rfl⟩ := foldlM_readUnit_eq_some.1 ht
        rw [← marked_marked, ← unitBytes_stride16] at hrest
        exact ⟨hl, ih hrest⟩

/-- Strides of 16 bytes that overlap but are not eight bytes apart misspeculate if a byte of them
does. -/
theorem not_bad_of_foldlM {base n width : ℕ} (hw : width ≠ 8) (hlt : width < 16)
    (hfold : (strides base n width).foldlM (stride16Step code8) h = some s') :
    ∀ k ∈ (strides base n width).flatMap (fun p => List.range' p 16), ¬ Bad code8 (h k) := by
  induction n generalizing base h with
  | zero => exact fun k hk => absurd hk List.not_mem_nil
  | succ n ih =>
      rw [strides_succ] at hfold ⊢
      rw [List.foldlM_cons] at hfold
      obtain ⟨t, ht, hrest⟩ := Option.bind_eq_some_iff.1 hfold
      obtain ⟨⟨hu, hv⟩, heq⟩ := stride16Step_eq_some.1 ht
      have hstride : ∀ k ∈ List.range' base 16, ¬ Bad code8 (h k) := by
        intro k hk
        obtain ⟨hle, hlt'⟩ := mem_range'_one.1 hk
        rcases Nat.lt_or_ge k (base + 8) with h8 | h8
        · exact hu.not_bad (ReadUnit.mem_bytes.2 ⟨hle, h8⟩)
        · exact hv.not_bad (ReadUnit.mem_bytes.2 ⟨h8, by dsimp only; omega⟩)
      intro k hk
      rw [List.flatMap_cons] at hk
      refine (List.mem_append.1 hk).elim (hstride k) (fun hk => ?_)
      by_cases hl : LiveIn h ⟨base + 8, 8⟩
      · -- Only the same stride can follow one whose second word was not marked.
        obtain ⟨h1, h2, h3⟩ := stride16Step_liveIn hl ht
        obtain ⟨p, hp, hk⟩ := List.mem_flatMap.1 hk
        obtain ⟨i, hi, rfl⟩ := List.mem_map.1 hp
        have hn : 0 < n := by
          have hlt := List.mem_range.1 hi
          omega
        obtain rfl := (foldlM_stride16_stuck hw hlt h1 h2 h3 hrest).1 hn
        exact hstride k (by simpa using hk)
      · rw [stride16Step_of_not_liveIn hl] at ht
        obtain ⟨_, rfl⟩ := foldlM_readUnit_eq_some.1 ht
        intro hbad
        refine ih hrest k hk ?_
        rwa [marked_of_not_liveIn hbad.1]

theorem shadowAfter_loop {w : Worker} {g : Heap → ℕ → Except String Heap} {ps : List ℕ} :
    shadowAfter (do
      let s ← ps.foldlM g w.shadow
      return { w with shadow := s }) = (ps.foldlM g w.shadow).toOption := by
  cases ps.foldlM g w.shadow <;> rfl

theorem toOption_foldlM_option {g : Heap → ℕ → Except String Heap} {f : Heap → ℕ → Option Heap}
    (hg : ∀ s p, (g s p).toOption = f s p) (ps : List ℕ) (s : Heap) :
    (ps.foldlM g s).toOption = ps.foldlM f s := by
  induction ps generalizing s with
  | nil => rfl
  | cons p ps ih =>
      rw [List.foldlM_cons, List.foldlM_cons, ← hg s p]
      cases g s p with
      | error e => rfl
      | ok t => exact ih t

end Worker

namespace Access

variable {w : Worker} {base n width len : ℕ} {message : String}

/-- The call has the verdict and leaves the marks that reading its bytes one after another does. -/
def MatchesBytes (a : Access) (w : Worker) : Prop :=
  Worker.shadowAfter (a.call w) = markBytes (readMark w.code8) a.bytes w.shadow

theorem code8_touch (n : ℕ) (w : Worker) (p l : ℕ) :
    (if n = 0 then w else Worker.touch p l w).code8 = w.code8 ∧
      (if n = 0 then w else Worker.touch p l w).shadow = w.shadow := by
  split_ifs <;> exact ⟨rfl, rfl⟩

theorem shadowAfter_stride16 : Worker.shadowAfter ((readRangeStride base n width 16 message).call w) =
    (Worker.strides base n width).foldlM (Worker.stride16Step w.code8) w.shadow := by
  obtain ⟨hcode, hshadow⟩ := code8_touch n w base ((n - 1) * width + 16)
  rw [call, Worker.privateReadRangeStride]
  refine Worker.shadowAfter_loop.trans ?_
  rw [Worker.code64_eq, hcode, hshadow]
  exact Worker.toOption_foldlM_option (Worker.toOption_readStride16 message) _ _

theorem shadowAfter_stride (h16 : len ≠ 16) :
    Worker.shadowAfter ((readRangeStride base n width len message).call w) =
      ((Worker.strides base n width).flatMap (Worker.strideUnits len)).foldlM
        (readUnit w.code8) w.shadow := by
  obtain ⟨hcode, hshadow⟩ := code8_touch n w base ((n - 1) * width + len)
  rw [call]
  unfold Worker.privateReadRangeStride
  refine Worker.shadowAfter_loop.trans ?_
  rw [hshadow]
  generalize (if n = 0 then w else Worker.touch base ((n - 1) * width + len) w) = v at hcode
  split
  · refine Worker.toOption_units (fun p _ s => ?_) _
    rw [Worker.code32_eq, hcode, Worker.toOption_readWord V32_eq_splat, Worker.strideUnits, if_pos rfl]
    simp
  · refine Worker.toOption_units (fun p _ s => ?_) _
    rw [Worker.code64_eq, hcode, Worker.toOption_readWord V64_eq_splat, Worker.strideUnits,
      if_neg (by decide), if_pos rfl]
    simp
  · exact absurd rfl h16
  · next h4 h8 _ =>
    refine Worker.toOption_units (fun p _ s => ?_) _
    rw [Worker.strideUnits, if_neg h4, if_neg h8, if_neg h16]
    have hinner := Worker.shadowAfter_privateReadRangeInternal p (p + len) message
      { v with shadow := s }
    rw [← hcode]
    exact hinner

/-- The condition for strides of 16 bytes that are eight or at least 16 bytes apart. A byte
misspeculates exactly when some word has no single mark once the covered bytes are `READ_LIVE_IN`; and
if none does, no word that is only a second word is live-in, and what is covered is live-in in the
strides or marked as read anyway. -/
def CoveredOk (base n width : ℕ) (w : Worker) : Prop :=
  ((∃ k ∈ (readRangeStride base n width 16 "").bytes, Bad w.code8 (w.shadow k)) ↔
    ∃ u ∈ (Worker.strides base n width).flatMap (Worker.strideUnits 16),
      ¬ u.Uniform w.code8 (Worker.covered (Worker.strides base n width) w.shadow)) ∧
  ((∀ k ∈ (readRangeStride base n width 16 "").bytes, ¬ Bad w.code8 (w.shadow k)) →
    (∀ k ∈ (readRangeStride base n width 16 "").bytes,
      k ∉ (Worker.strides base n width).flatMap (fun p => List.range' p 8) →
        Worker.covered (Worker.strides base n width) w.shadow k ≠ liveIn) ∧
    ∀ k, Worker.covered (Worker.strides base n width) w.shadow k ≠ w.shadow k →
      k ∈ (readRangeStride base n width 16 "").bytes ∧ w.shadow k = liveIn)

/-- The condition for all other strides: a byte misspeculates, or every word has one mark at its turn
and the code looks at no live-in byte beside the strides; and no second word of a stride of 16 bytes
is live-in at its turn. -/
def UnitsOk (base n width len : ℕ) (w : Worker) : Prop :=
  (∃ k ∈ (readRangeStride base n width len "").bytes, Bad w.code8 (w.shadow k)) ∨
    AllUniform w.code8 ((Worker.strides base n width).flatMap (Worker.strideUnits len)) w.shadow ∧
    (∀ k ∈ unitBytes ((Worker.strides base n width).flatMap (Worker.strideUnits len)),
      k ∉ (readRangeStride base n width len "").bytes → w.shadow k ≠ liveIn) ∧
    (len = 16 → Worker.Placed (Worker.strides base n width) w.shadow)

/-- The condition under which a strided read is the repeated read. -/
def StrideOk (base n width len : ℕ) (w : Worker) : Prop :=
  if len = 16 ∧ (width = 8 ∨ 16 ≤ width) then CoveredOk base n width w
  else UnitsOk base n width len w

theorem mem_unitBytes_strideUnits {p k : ℕ} (hk : k ∈ List.range' p len) :
    k ∈ unitBytes (Worker.strideUnits len p) := by
  obtain ⟨hle, hlt⟩ := mem_range'_one.1 hk
  unfold Worker.strideUnits
  split_ifs with h4 h8 h16
  · subst h4
    exact mem_unitBytes.2 ⟨_, List.mem_singleton.2 rfl, ReadUnit.mem_bytes.2 ⟨hle, hlt⟩⟩
  · subst h8
    exact mem_unitBytes.2 ⟨_, List.mem_singleton.2 rfl, ReadUnit.mem_bytes.2 ⟨hle, hlt⟩⟩
  · subst h16
    change k ∈ unitBytes (Worker.strideUnits 16 p)
    rwa [Worker.unitBytes_stride16]
  · exact Worker.mem_rangeUnits_of_mem hle hlt

theorem mem_unitBytes_strides {k : ℕ} (hk : k ∈ (readRangeStride base n width len message).bytes) :
    k ∈ unitBytes ((Worker.strides base n width).flatMap (Worker.strideUnits len)) := by
  obtain ⟨p, hp, hk⟩ := List.mem_flatMap.1 hk
  obtain ⟨u, hu, hku⟩ := mem_unitBytes.1 (mem_unitBytes_strideUnits hk)
  exact mem_unitBytes.2 ⟨u, List.mem_flatMap.2 ⟨p, hp, hu⟩, hku⟩

theorem unitBytes_strides16 (message : String) : unitBytes ((Worker.strides base n width).flatMap
    (Worker.strideUnits 16)) = (readRangeStride base n width 16 message).bytes := by
  change _ = (Worker.strides base n width).flatMap (fun p => List.range' p 16)
  rw [unitBytes, List.flatMap_assoc]
  exact List.flatMap_congr (fun p _ => Worker.unitBytes_stride16 p)

theorem matchesBytes_iff_of_length (h16 : len ≠ 16) :
    (readRangeStride base n width len message).MatchesBytes w ↔ UnitsOk base n width len w := by
  rw [MatchesBytes, shadowAfter_stride h16,
    foldlM_readUnit_eq_markBytes_iff (fun k hk => mem_unitBytes_strides hk), UnitsOk]
  exact or_congr_right (and_congr_right (fun _ => (and_iff_left (fun h => absurd h h16)).symm))

/-- Strides of 16 bytes that overlap but are not eight bytes apart. -/
theorem matchesBytes_iff_of_overlapping (hw : width ≠ 8) (hlt : width < 16) :
    (readRangeStride base n width 16 message).MatchesBytes w ↔ UnitsOk base n width 16 w := by
  rw [MatchesBytes, shadowAfter_stride16, markBytes_read_eq, UnitsOk]
  by_cases hbad : ∃ k ∈ (readRangeStride base n width 16 message).bytes, Bad w.code8 (w.shadow k)
  · rw [if_pos hbad]
    refine ⟨fun _ => .inl hbad, fun _ => ?_⟩
    obtain ⟨k, hk, hb⟩ := hbad
    by_contra hne
    obtain ⟨s, hs⟩ := Option.ne_none_iff_exists'.1 hne
    exact Worker.not_bad_of_foldlM hw hlt hs k hk hb
  · rw [if_neg hbad]
    refine Iff.trans ?_ (or_iff_right hbad).symm
    constructor
    · intro hfold
      have hplaced := Worker.placed_of_foldlM hw hlt hfold
      rw [Worker.foldlM_stride16 hplaced, foldlM_readUnit_eq_some] at hfold
      exact ⟨hfold.1, fun k hk hout => absurd (unitBytes_strides16 message ▸ hk) hout, fun _ => hplaced⟩
    · rintro ⟨hall, _, hplaced⟩
      rw [Worker.foldlM_stride16 (hplaced rfl), foldlM_readUnit_eq_some,
        unitBytes_strides16 message]
      exact ⟨hall, rfl⟩

/-- Marking the bytes `fs` of marks with some bytes changed to `READ_LIVE_IN` is marking all of
`ks`. -/
theorem marked_eq_marked_iff {fs ks : List ℕ} {s c : Heap} (hsub : ∀ k ∈ fs, k ∈ ks)
    (hor : ∀ k, c k = s k ∨ c k = readLiveIn) :
    marked fs c = marked ks s ↔
      (∀ k ∈ ks, k ∉ fs → c k ≠ liveIn) ∧ ∀ k, c k ≠ s k → k ∈ ks ∧ s k = liveIn := by
  constructor
  · intro heq
    refine ⟨fun k hk hout hl => ?_, fun k hne => ?_⟩
    · have hcell := congrFun heq k
      have hs : s k = liveIn := (hor k).elim (fun h => h.symm.trans hl)
        (fun h => absurd (h.symm.trans hl) (by decide))
      rw [marked_of_not_mem hout, hl, marked_of_mem hk hs] at hcell
      exact absurd hcell (by decide)
    · have hread := (hor k).resolve_left hne
      have hcell := congrFun heq k
      rw [marked_of_not_liveIn (by rw [hread]; decide)] at hcell
      by_contra hc
      rw [marked, if_neg hc] at hcell
      exact hne hcell
  · rintro ⟨hsecond, hcov⟩
    funext k
    by_cases hne : c k = s k
    · by_cases hl : s k = liveIn
      · by_cases hk : k ∈ fs
        · rw [marked_of_mem hk (hne.trans hl), marked_of_mem (hsub k hk) hl]
        · by_cases hk' : k ∈ ks
          · exact absurd (hne.trans hl) (hsecond k hk' hk)
          · rw [marked_of_not_mem hk, marked_of_not_mem hk', hne]
      · rw [marked_of_not_liveIn hl, marked_of_not_liveIn (by rwa [hne]), hne]
    · obtain ⟨hk, hl⟩ := hcov k hne
      have hread := (hor k).resolve_left hne
      rw [marked_of_not_liveIn (by rw [hread]; decide), hread, marked_of_mem hk hl]

/-- Strides of 16 bytes that are eight or at least 16 bytes apart. -/
theorem matchesBytes_iff_of_covered (hw : width = 8 ∨ 16 ≤ width) :
    (readRangeStride base n width 16 message).MatchesBytes w ↔ CoveredOk base n width w := by
  have hsub : ∀ k ∈ (Worker.strides base n width).flatMap (fun p => List.range' p 8),
      k ∈ (readRangeStride base n width 16 message).bytes := by
    intro k hk
    obtain ⟨p, hp, hk⟩ := List.mem_flatMap.1 hk
    obtain ⟨hle, hlt⟩ := mem_range'_one.1 hk
    change k ∈ (Worker.strides base n width).flatMap (fun p => List.range' p 16)
    exact List.mem_flatMap.2 ⟨p, hp, mem_range'_one.2 ⟨hle, by omega⟩⟩
  rw [MatchesBytes, shadowAfter_stride16, markBytes_read_eq, CoveredOk]
  by_cases hbad : ∃ k ∈ (readRangeStride base n width 16 message).bytes, Bad w.code8 (w.shadow k)
  · have hgood : ¬ ∀ k ∈ (readRangeStride base n width 16 message).bytes,
        ¬ Bad w.code8 (w.shadow k) := fun hall => hbad.elim (fun k hk => hall k hk.1 hk.2)
    rw [if_pos hbad]
    refine Iff.trans ?_ (and_iff_left (fun hall => absurd hall hgood)).symm
    refine Iff.trans ?_ (iff_true_left hbad).symm
    rw [← not_iff_not, ← ne_eq, Option.ne_none_iff_exists']
    simp only [Worker.foldlM_stride16_eq_some hw, exists_and_left, exists_eq, and_true]
    push Not
    rfl
  · have hgood : ∀ k ∈ (readRangeStride base n width 16 message).bytes,
        ¬ Bad w.code8 (w.shadow k) := fun k hk hb => hbad ⟨k, hk, hb⟩
    rw [if_neg hbad, Worker.foldlM_stride16_eq_some hw, eq_comm,
      marked_eq_marked_iff hsub (Worker.covered_or _ _)]
    refine and_congr ?_ (imp_iff_right hgood).symm
    refine Iff.trans ?_ (iff_false_left hbad).symm
    push Not
    rfl

/-- A strided read has the verdict and the marks of repeated reads exactly under this condition. -/
theorem strided_reads_iff (w : Worker) (base n width len : ℕ) (message : String) :
    (readRangeStride base n width len message).MatchesBytes w ↔ StrideOk base n width len w := by
  rw [StrideOk]
  split_ifs with hcase
  · obtain ⟨rfl, hw⟩ := hcase
    exact matchesBytes_iff_of_covered hw
  · by_cases h16 : len = 16
    · subst h16
      obtain ⟨hw, hlt⟩ := not_or.1 (not_and.1 hcase rfl)
      exact matchesBytes_iff_of_overlapping hw (Nat.lt_of_not_le hlt)
    · exact matchesBytes_iff_of_length h16

/-- Two strides of 16 live-in bytes: the second word of the first stride stays live-in; and a
stride of four bytes misspeculates because only half of it is live-in. -/
theorem strided_reads_differ :
    (∃ v, (readRangeStride 0 2 16 16 "read").call (workerWith (fun _ => liveIn)) = .ok v ∧
      v.shadow 8 = liveIn ∧
      ¬ (readRangeStride 0 2 16 16 "read").MatchesBytes (workerWith (fun _ => liveIn))) ∧
    ∃ w : Worker, w.code8 = 3 ∧ (∀ k < 4, w.shadow k = if k < 2 then liveIn else w.code8) ∧
      (∃ e, (readRangeStride 0 1 4 4 "read").call w = .error e) ∧
      ¬ (readRangeStride 0 1 4 4 "read").MatchesBytes w := by
  refine ⟨⟨_, rfl, by decide, fun h => ?_⟩, workerWith (fun k => if k < 2 then liveIn else 3), rfl,
    by decide, ⟨"read", rfl⟩, fun h => ?_⟩
  · have hcell := congrArg (fun o => o.map (fun s => s 8)) h
    exact absurd hcell (by decide)
  · have hverdict := congrArg Option.isSome h
    exact absurd hverdict (by decide)

end Access
end Cpf.Executive
