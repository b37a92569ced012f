import Cpf.Executive.CallMarks

/-!
# The byte automaton of the shadow marks

A read or a write moves the mark of every byte it covers, one byte after another, or misspeculates
at a byte. The calls of `private.c` that work on two, four or eight bytes at a time do the same.
-/

namespace Cpf.Executive
open Heap

def writeMark (code b : UInt8) : Option UInt8 := if b = readLiveIn then none else some code

/-- The bytes `ks` are marked by `f` one after another, until one of them misspeculates. -/
def markBytes (f : UInt8 → Option UInt8) (ks : List ℕ) (h : Heap) : Option Heap :=
  ks.foldlM (fun h k => (f (h k)).map (Function.update h k)) h

def Settles (f : UInt8 → Option UInt8) : Prop := ∀ b c, f b = some c → f c = some c

theorem readMark_settles (code : UInt8) : Settles (readMark code) := fun _ _ => readMark_idem

theorem writeMark_settles {code : UInt8} (hc : code ≠ readLiveIn) : Settles (writeMark code) := by
  intro b c h
  unfold writeMark at h ⊢
  split_ifs at h
  cases h
  exact if_neg hc

theorem readMark_eq_none_iff {code b : UInt8} :
    readMark code b = none ↔ b ≠ liveIn ∧ b ≠ readLiveIn ∧ b ≠ code := by
  unfold readMark
  split_ifs with hl hn
  · simp [hl]
  · simp [hl, hn.1, hn.2]
  · refine ⟨fun h => (by cases h), fun h => absurd ⟨h.2.2, h.2.1⟩ hn⟩

section MarkBytes

variable {f : UInt8 → Option UInt8} {ks ls : List ℕ} {h h' : Heap}

@[simp] theorem markBytes_nil : markBytes f [] h = some h := rfl

theorem markBytes_cons_eq_some {k : ℕ} : markBytes f (k :: ks) h = some h' ↔
    ∃ b, f (h k) = some b ∧ markBytes f ks (Function.update h k b) = some h' := by
  rw [markBytes, List.foldlM_cons]
  cases f (h k) with
  | none => simp [bind, Option.bind]
  | some b => simp [bind, Option.bind, markBytes]

theorem markBytes_append :
    markBytes f (ks ++ ls) h = (markBytes f ks h).bind (markBytes f ls) := by
  rw [markBytes, List.foldlM_append]
  rfl

/-- The marks of a sequence are those of its bytes, each marked once. -/
theorem markBytes_eq_some_iff (hf : Settles f) : markBytes f ks h = some h' ↔
    (∀ k ∈ ks, f (h k) = some (h' k)) ∧ ∀ k ∉ ks, h' k = h k := by
  induction ks generalizing h with
  | nil =>
      rw [markBytes_nil, Option.some.injEq]
      exact ⟨fun he => he ▸ ⟨by simp, fun _ _ => rfl⟩,
        fun he => (funext fun k => he.2 k List.not_mem_nil).symm⟩
  | cons k ks ih =>
      rw [markBytes_cons_eq_some]
      constructor
      · rintro ⟨b, hb, hrest⟩
        obtain ⟨hin, hout⟩ := ih.1 hrest
        have hk : h' k = b := by
          by_cases hmem : k ∈ ks
          · have hagain := hin k hmem
            rw [Function.update_self, hf _ _ hb] at hagain
            exact (Option.some.inj hagain).symm
          · rw [hout k hmem, Function.update_self]
        refine ⟨fun j hj => ?_, fun j hj => ?_⟩
        · by_cases hjk : j = k
          · rw [hjk, hk, hb]
          · have hcell := hin j ((List.mem_cons.1 hj).resolve_left hjk)
            rwa [Function.update_of_ne hjk] at hcell
        · obtain ⟨hjk, hj'⟩ := not_or.1 (fun hc => hj (List.mem_cons.2 hc))
          rw [hout j hj', Function.update_of_ne hjk]
      · rintro ⟨hin, hout⟩
        refine ⟨h' k, hin k List.mem_cons_self, ih.2 ⟨fun j hj => ?_, fun j hj => ?_⟩⟩
        · by_cases hjk : j = k
          · rw [hjk, Function.update_self]
            exact hf _ _ (hin k List.mem_cons_self)
          · rw [Function.update_of_ne hjk]
            exact hin j (List.mem_cons_of_mem k hj)
        · by_cases hjk : j = k
          · rw [hjk, Function.update_self]
          · rw [Function.update_of_ne hjk]
            exact hout j (fun hc => (List.mem_cons.1 hc).elim hjk hj)

theorem markBytes_eq_none_iff (hf : Settles f) :
    markBytes f ks h = none ↔ ∃ k ∈ ks, f (h k) = none := by
  rw [← not_iff_not]
  constructor
  · intro hne
    obtain ⟨h', hh'⟩ := Option.ne_none_iff_exists'.1 hne
    rintro ⟨k, hk, hnone⟩
    rw [((markBytes_eq_some_iff hf).1 hh').1 k hk] at hnone
    cases hnone
  · intro hall hnone
    have hok : markBytes f ks h = some (fun k => if k ∈ ks then (f (h k)).getD 0 else h k) := by
      refine (markBytes_eq_some_iff hf).2 ⟨fun k hk => ?_, fun k hk => if_neg hk⟩
      obtain ⟨b, hb⟩ := Option.ne_none_iff_exists'.1 (fun hn => hall ⟨k, hk, hn⟩)
      rw [if_pos hk, hb]
      rfl
    rw [hnone] at hok
    cases hok

end MarkBytes

theorem toOption_foldlM {ι : Type*} {f : UInt8 → Option UInt8} {g : Heap → ι → Except String Heap}
    {ks : ι → List ℕ} {is : List ι}
    (hg : ∀ i ∈ is, ∀ h, (g h i).toOption = markBytes f (ks i) h) (h : Heap) :
    (is.foldlM g h).toOption = markBytes f (is.flatMap ks) h := by
  induction is generalizing h with
  | nil => rfl
  | cons i is ih =>
      rw [List.foldlM_cons, List.flatMap_cons, markBytes_append, ← hg i List.mem_cons_self]
      cases g h i with
      | error e => rfl
      | ok s => exact ih (fun j hj => hg j (List.mem_cons_of_mem i hj)) s

theorem mem_range'_one {p n k : ℕ} : k ∈ List.range' p n ↔ p ≤ k ∧ k < p + n :=
  List.mem_range'_1

section Words

variable {code b : UInt8} {n p : ℕ} {h : Heap}

theorem markBytes_of_same {f : UInt8 → Option UInt8} {ks : List ℕ} (hf : Settles f)
    (hsame : ∀ k ∈ ks, f (h k) = some (h k)) : markBytes f ks h = some h :=
  (markBytes_eq_some_iff hf).2 ⟨hsame, fun _ _ => rfl⟩

theorem markBytes_of_liveIn (hl : load n h p = splat n liveIn) :
    markBytes (readMark code) (List.range' p n) h = some (memset h p readLiveIn n) := by
  refine (markBytes_eq_some_iff (readMark_settles code)).2 ⟨fun k hk => ?_, fun k hk => ?_⟩
  · have hin := mem_range'_one.1 hk
    have hb := load_eq_splat_iff.1 hl (k - p) (by omega)
    rw [Nat.add_sub_cancel' hin.1] at hb
    rw [memset_apply_of_mem hin.1 hin.2, hb, readMark_liveIn]
  · exact memset_apply_of_not_mem (fun hin => hk (mem_range'_one.2 hin))

theorem markBytes_of_splat (hl : load n h p = splat n b) (hb : readMark code b = some b) :
    markBytes (readMark code) (List.range' p n) h = some h := by
  refine markBytes_of_same (readMark_settles code) (fun k hk => ?_)
  have hin := mem_range'_one.1 hk
  have hk' := load_eq_splat_iff.1 hl (k - p) (by omega)
  rw [Nat.add_sub_cancel' hin.1] at hk'
  rw [hk', hb]

theorem markBytes_write (hc : code ≠ readLiveIn) (hfresh : ∀ k ∈ List.range' p n, h k ≠ readLiveIn) :
    markBytes (writeMark code) (List.range' p n) h = some (memset h p code n) := by
  refine (markBytes_eq_some_iff (writeMark_settles hc)).2 ⟨fun k hk => ?_, fun k hk => ?_⟩
  · have hin := mem_range'_one.1 hk
    rw [memset_apply_of_mem hin.1 hin.2]
    exact if_neg (hfresh k hk)
  · exact memset_apply_of_not_mem (fun hin => hk (mem_range'_one.2 hin))

end Words

namespace Worker

variable {w : Worker} {ptr : ℕ}

def shadowAfter (x : Except String Worker) : Option Heap := (x.map Worker.shadow).toOption

theorem toOption_readByte (code8 : UInt8) (name : String) (s : Heap) (i : ℕ) :
    (readByte code8 name s i).toOption = markBytes (readMark code8) [i] s := by
  unfold readByte
  by_cases hl : s i = liveIn
  · rw [if_pos hl]
    refine (markBytes_cons_eq_some.2 ⟨readLiveIn, ?_, rfl⟩).symm
    rw [hl, readMark_liveIn]
  · rw [if_neg hl]
    by_cases hn : s i ≠ code8 ∧ s i ≠ readLiveIn
    · rw [if_pos hn]
      refine ((markBytes_eq_none_iff (readMark_settles code8)).2 ⟨i, List.mem_singleton.2 rfl, ?_⟩).symm
      exact readMark_eq_none_iff.2 ⟨hl, hn.2, hn.1⟩
    · rw [if_neg hn]
      refine (markBytes_of_same (readMark_settles code8) (fun k hk => ?_)).symm
      rw [List.mem_singleton.1 hk, readMark, if_neg hl, if_neg hn]

theorem toOption_readBytes (code8 : UInt8) (name : String) (lo hi : ℕ) (s : Heap) :
    ((forRange lo hi 1).foldlM (readByte code8 name) s).toOption =
      markBytes (readMark code8) (forRange lo hi 1) s := by
  rw [toOption_foldlM (fun i _ s => toOption_readByte code8 name s i)]
  simp

theorem shadowAfter_readMixed (n : ℕ) (name : String) :
    shadowAfter (readMixed n ptr name w) =
      markBytes (readMark w.code8) (List.range' ptr n) w.shadow := by
  have hr : forRange ptr (ptr + n) 1 = List.range' ptr n := by
    rw [forRange]
    congr 1
    omega
  rw [readMixed_eq, ← hr, ← toOption_readBytes w.code8 name]
  cases (forRange ptr (ptr + n) 1).foldlM (readByte w.code8 name) w.shadow <;> rfl

theorem shadowAfter_privateRead2b (hc : w.code8 ≠ liveIn) (name : String) :
    shadowAfter (privateRead2b ptr name w) =
      markBytes (readMark w.code8) (List.range' ptr 2) w.shadow := by
  simp only [privateRead2b, code16_eq, V16_eq_splat, store_splat]
  split_ifs with hcode hlive hread
  · exact (markBytes_of_splat hcode (readMark_code hc)).symm
  · exact (markBytes_of_liveIn hlive).symm
  · exact (markBytes_of_splat hread (readMark_readLiveIn _)).symm
  · exact shadowAfter_readMixed 2 name

theorem shadowAfter_growWindow (n : ℕ) (v : Worker) :
    shadowAfter (.ok (growWindow ptr n v)) = some v.shadow :=
  congrArg some (growWindow_shadow ptr n v)

theorem shadowAfter_privateRead4b (hc : w.code8 ≠ liveIn) (name : String) :
    shadowAfter (privateRead4b ptr name w) =
      markBytes (readMark w.code8) (List.range' ptr 4) w.shadow := by
  simp only [privateRead4b, code32_eq, V32_eq_splat, store_splat]
  split_ifs with hcode hlive hread
  · exact (markBytes_of_splat hcode (readMark_code hc)).symm
  · rw [shadowAfter_growWindow]
    exact (markBytes_of_liveIn hlive).symm
  · exact (markBytes_of_splat hread (readMark_readLiveIn _)).symm
  · exact shadowAfter_readMixed 4 name

theorem shadowAfter_privateRead8b (hc : w.code8 ≠ liveIn) (name : String) :
    shadowAfter (privateRead8b ptr name w) =
      markBytes (readMark w.code8) (List.range' ptr 8) w.shadow := by
  simp only [privateRead8b, code64_eq, V64_eq_splat, store_splat]
  split_ifs with hlive hsame
  · rw [shadowAfter_growWindow]
    exact (markBytes_of_liveIn hlive).symm
  · rcases hsame with hcode | hread
    · exact (markBytes_of_splat hcode (readMark_code hc)).symm
    · exact (markBytes_of_splat hread (readMark_readLiveIn _)).symm
  · exact shadowAfter_readMixed 8 name

theorem toOption_checked {code : UInt8} (hc : code ≠ readLiveIn) {s : Heap} {p n : ℕ} {c : Prop}
    [Decidable c] (hcheck : c ↔ ∃ k, p ≤ k ∧ k < p + n ∧ s k = readLiveIn) (reason : String) :
    ((if c then .error reason else .ok (memset s p code n) : Except String Heap)).toOption =
      markBytes (writeMark code) (List.range' p n) s := by
  split_ifs with hbad
  · obtain ⟨k, hle, hlt, hk⟩ := hcheck.1 hbad
    refine ((markBytes_eq_none_iff (writeMark_settles hc)).2 ⟨k, mem_range'_one.2 ⟨hle, hlt⟩, ?_⟩).symm
    exact if_pos hk
  · refine (markBytes_write hc (fun k hk hread => hbad (hcheck.2 ⟨k, ?_⟩))).symm
    obtain ⟨hle, hlt⟩ := mem_range'_one.1 hk
    exact ⟨hle, hlt, hread⟩

theorem toOption_writeStrideWord {n : ℕ} {v : UInt8 → ℕ} {code8 : UInt8} (hc : code8 ≠ readLiveIn)
    (hv : ∀ b, v b = splat n b) (reason : String) (s : Heap) (p : ℕ) :
    (writeStrideWord n (splat n code8) v reason s p).toOption =
      markBytes (writeMark code8) (List.range' p n) s := by
  unfold writeStrideWord
  rw [hv, store_splat]
  refine toOption_checked hc ?_ reason
  constructor
  · rintro ⟨_, hany⟩
    obtain ⟨i, hi, hb⟩ := List.any_eq_true.1 hany
    have hlt := List.mem_range.1 hi
    have hread := of_decide_eq_true hb
    rw [byteOf_load hlt] at hread
    exact ⟨p + i, by omega, by omega, hread⟩
  · rintro ⟨k, hle, hlt, hk⟩
    have hi : k - p < n := by omega
    refine ⟨fun hl => ?_, List.any_eq_true.2 ⟨k - p, List.mem_range.2 hi, ?_⟩⟩
    · have hzero := load_eq_splat_iff.1 hl (k - p) hi
      rw [Nat.add_sub_cancel' hle, hk] at hzero
      exact absurd hzero (by decide)
    · rw [byteOf_load hi, Nat.add_sub_cancel' hle, hk]
      exact decide_eq_true rfl

theorem toOption_writeStrideBytes {len : ℕ} {code8 : UInt8} (hc : code8 ≠ readLiveIn) (s : Heap)
    (p : ℕ) : (writeStrideBytes len code8 s p).toOption =
      markBytes (writeMark code8) (List.range' p len) s := by
  unfold writeStrideBytes
  exact toOption_checked hc memchr_eq_true_iff _

end Worker
end Cpf.Executive
