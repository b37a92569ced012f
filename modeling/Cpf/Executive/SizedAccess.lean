import Cpf.Executive.AccessSpec
import Cpf.Executive.ByteAutomaton

/-!
# Sized accesses and the byte automaton

The two-, four- and eight-byte reads and all writes that make their check do to the marks what the
byte automaton does on the bytes that they touch, in the order in which they touch them.
-/

namespace Cpf.Executive
open Heap

namespace Access

variable {a : Access} {w : Worker} {k : ℕ}

/-- The bytes accessed, one part after another. -/
def bytes (a : Access) : List ℕ :=
  (Worker.strides a.shape.1 a.shape.2.1 a.shape.2.2.1).flatMap
    (fun p => List.range' p a.shape.2.2.2)

theorem mem_bytes : k ∈ a.bytes ↔ a.Touches k := by
  simp only [bytes, List.mem_flatMap, mem_range'_one]
  exact Worker.exists_mem_strides

theorem bytes_single {ptr len : ℕ} (hs : a.shape = (ptr, 1, 0, len)) :
    a.bytes = List.range' ptr len := by
  simp [bytes, hs, Worker.strides]

/-- The call does what reading its bytes one after another does, and covers them. -/
structure ReadsBytewise (a : Access) (w : Worker) : Prop where
  misspec : (∃ e, a.call w = .error e) ↔
    ∃ k, a.Touches k ∧ w.shadow k ≠ liveIn ∧ w.shadow k ≠ readLiveIn ∧ w.shadow k ≠ w.code8
  marks : ∀ v, a.call w = .ok v → ∀ k, v.shadow k =
    if a.Touches k ∧ w.shadow k = liveIn then readLiveIn else w.shadow k
  covers : ∀ v, a.call w = .ok v → ∀ k, a.Touches k → v.range.Covers k

/-- The call does what writing its bytes one after another does, and covers them. -/
structure WritesBytewise (a : Access) (w : Worker) : Prop where
  misspec : (∃ e, a.call w = .error e) ↔ markBytes (writeMark w.code8) a.bytes w.shadow = none
  marks : ∀ v, a.call w = .ok v → ∀ k, v.shadow k =
    if a.Touches k then w.code8 else w.shadow k
  covers : ∀ v, a.call w = .ok v → ∀ k, a.Touches k → v.range.Covers k

theorem call_covers {v : Worker} (h : a.call w = .ok v) (ht : a.Touches k) : v.range.Covers k := by
  rw [(call_keeps h).range]
  exact touchedRange_covers ht

theorem exists_error_iff {x : Except String Worker} :
    (∃ e, x = .error e) ↔ Worker.shadowAfter x = none := by
  cases x with
  | error e => exact ⟨fun _ => rfl, fun _ => ⟨e, rfl⟩⟩
  | ok v => exact ⟨fun ⟨e, he⟩ => (by cases he), fun h => (by cases h)⟩

theorem shadowAfter_eq_some {x : Except String Worker} {v : Worker} (h : x = .ok v) :
    Worker.shadowAfter x = some v.shadow := by
  rw [h]
  rfl

theorem readsBytewise_of_shadowAfter
    (h : Worker.shadowAfter (a.call w) = markBytes (readMark w.code8) a.bytes w.shadow) :
    a.ReadsBytewise w where
  misspec := by
    rw [exists_error_iff, h, markBytes_eq_none_iff (readMark_settles _)]
    simp only [mem_bytes, readMark_eq_none_iff]
  marks v hv k := by
    rw [shadowAfter_eq_some hv] at h
    obtain ⟨hin, hout⟩ := (markBytes_eq_some_iff (readMark_settles _)).1 h.symm
    by_cases hk : a.Touches k
    · rcases readMark_eq_some (hin k (mem_bytes.2 hk)) with ⟨hl, hm⟩ | ⟨hl, _, hm⟩
      · rw [if_pos ⟨hk, hl⟩, hm]
      · rw [if_neg (fun hc => hl hc.2), hm]
    · rw [if_neg (fun hc => hk hc.1), hout k (fun hc => hk (mem_bytes.1 hc))]
  covers _ hv _ hk := call_covers hv hk

theorem writesBytewise_of_shadowAfter (hc : w.code8 ≠ readLiveIn)
    (h : Worker.shadowAfter (a.call w) = markBytes (writeMark w.code8) a.bytes w.shadow) :
    a.WritesBytewise w where
  misspec := by rw [exists_error_iff, h]
  marks v hv k := by
    rw [shadowAfter_eq_some hv] at h
    obtain ⟨hin, hout⟩ := (markBytes_eq_some_iff (writeMark_settles hc)).1 h.symm
    by_cases hk : a.Touches k
    · have hmark := hin k (mem_bytes.2 hk)
      unfold writeMark at hmark
      split_ifs at hmark
      rw [if_pos hk, ← Option.some.inj hmark]
    · rw [if_neg hk, hout k (fun hc => hk (mem_bytes.1 hc))]
  covers _ hv _ hk := call_covers hv hk

section Writes

variable (hc : w.code8 ≠ readLiveIn)

include hc

theorem shadowAfter_write1b (ptr : ℕ) : Worker.shadowAfter ((write1b ptr).call w) =
    markBytes (writeMark w.code8) (write1b ptr).bytes w.shadow := by
  rw [bytes_single rfl]
  have hset : memset w.shadow ptr w.code8 1 = Function.update w.shadow ptr w.code8 := by
    funext k
    by_cases hk : k = ptr
    · rw [hk, Function.update_self, memset_apply_of_mem le_rfl (Nat.lt_succ_self ptr)]
    · rw [Function.update_of_ne hk, memset_apply_of_not_mem (by omega)]
  rw [← Worker.toOption_checked hc (c := w.shadow ptr = readLiveIn) ?_ "", hset]
  · simp only [call, Worker.privateWrite1b]
    split_ifs <;> rfl
  · constructor
    · exact fun hread => ⟨ptr, le_rfl, Nat.lt_succ_self ptr, hread⟩
    · rintro ⟨k, hle, hlt, hread⟩
      rwa [show ptr = k by omega]

theorem shadowAfter_write2b (ptr : ℕ) : Worker.shadowAfter ((write2b ptr).call w) =
    markBytes (writeMark w.code8) (write2b ptr).bytes w.shadow := by
  rw [bytes_single rfl]
  rw [← Worker.toOption_checked hc (n := 2)
    (c := w.shadow (ptr + 1) = readLiveIn ∨ w.shadow ptr = readLiveIn) ?_ ""]
  · simp only [call, Worker.privateWrite2b, Worker.code16_eq, store_splat,
      byteOf_load (show 1 < 2 by decide), byteOf_load (show 0 < 2 by decide), Nat.add_zero]
    by_cases h1 : w.shadow (ptr + 1) = readLiveIn
    · simp [h1, Worker.shadowAfter, Except.map, Except.toOption]
    · by_cases h0 : w.shadow ptr = readLiveIn
      · simp [h1, h0, Worker.shadowAfter, Except.map, Except.toOption]
      · simp [h1, h0, Worker.shadowAfter, Except.map, Except.toOption, Worker.touch]
  · constructor
    · rintro (hread | hread)
      · exact ⟨ptr + 1, by omega, by omega, hread⟩
      · exact ⟨ptr, le_rfl, by omega, hread⟩
    · rintro ⟨k, hle, hlt, hread⟩
      rcases (show k = ptr + 1 ∨ k = ptr by omega) with rfl | rfl
      · exact .inl hread
      · exact .inr hread

theorem shadowAfter_writeRange (ptr len : ℕ) : Worker.shadowAfter ((writeRange ptr len).call w) =
    markBytes (writeMark w.code8) (writeRange ptr len).bytes w.shadow := by
  rw [bytes_single rfl, ← Worker.toOption_checked hc memchr_eq_true_iff ""]
  simp only [call, Worker.privateWriteRange]
  split_ifs <;> rfl

theorem shadowAfter_writeRangeStride (base n width len : ℕ) :
    Worker.shadowAfter ((writeRangeStride base n width len).call w) =
      markBytes (writeMark w.code8) (writeRangeStride base n width len).bytes w.shadow := by
  simp only [call, Worker.privateWriteRangeStride]
  split_ifs with hn
  · subst hn
    rfl
  · have hloop : ∀ g : Heap → ℕ → Except String Heap,
        (∀ s p, (g s p).toOption = markBytes (writeMark w.code8) (List.range' p len) s) →
        Worker.shadowAfter (do
          let s ← (Worker.strides base n width).foldlM g w.shadow
          return { Worker.touch base ((n - 1) * width + len) w with shadow := s }) =
        markBytes (writeMark w.code8) (writeRangeStride base n width len).bytes w.shadow := by
      intro g hg
      have hfold : ((Worker.strides base n width).foldlM g w.shadow).toOption =
          markBytes (writeMark w.code8) (writeRangeStride base n width len).bytes w.shadow :=
        toOption_foldlM (fun p _ s => hg s p) w.shadow
      refine Eq.trans ?_ hfold
      cases (Worker.strides base n width).foldlM g w.shadow <;> rfl
    split
    · exact hloop _ (fun s p => by
        rw [show (Worker.touch base ((n - 1) * width + 4) w).code32 = splat 4 w.code8 from
          Worker.code32_eq w]
        exact Worker.toOption_writeStrideWord hc V32_eq_splat _ s p)
    · exact hloop _ (fun s p => by
        rw [show (Worker.touch base ((n - 1) * width + 8) w).code64 = splat 8 w.code8 from
          Worker.code64_eq w]
        exact Worker.toOption_writeStrideWord hc V64_eq_splat _ s p)
    · exact hloop _ (fun s p => Worker.toOption_writeStrideBytes hc s p)

end Writes

/-- Every sized read and every write that checks all of its bytes is the byte automaton on the
bytes that it touches. -/
theorem sized_accesses_bytewise (w : Worker) (hcode : numReservedShadowValues ≤ w.code8.toNat) :
    (∀ ptr name, (read2b ptr name).ReadsBytewise w ∧ (read4b ptr name).ReadsBytewise w ∧
      (read8b ptr name).ReadsBytewise w) ∧
    (∀ ptr, (write1b ptr).WritesBytewise w ∧ (write2b ptr).WritesBytewise w) ∧
    (∀ ptr len, (writeRange ptr len).WritesBytewise w) ∧
    ∀ base n width len, (writeRangeStride base n width len).WritesBytewise w := by
  have hlive : w.code8 ≠ liveIn := by
    rintro h
    rw [h] at hcode
    exact absurd hcode (by decide)
  have hread : w.code8 ≠ readLiveIn := by
    rintro h
    rw [h] at hcode
    exact absurd hcode (by decide)
  refine ⟨fun ptr name => ⟨?_, ?_, ?_⟩, fun ptr => ⟨?_, ?_⟩, fun ptr len => ?_,
    fun base n width len => ?_⟩
  · refine readsBytewise_of_shadowAfter ?_
    rw [bytes_single rfl]
    exact Worker.shadowAfter_privateRead2b hlive name
  · refine readsBytewise_of_shadowAfter ?_
    rw [bytes_single rfl]
    exact Worker.shadowAfter_privateRead4b hlive name
  · refine readsBytewise_of_shadowAfter ?_
    rw [bytes_single rfl]
    exact Worker.shadowAfter_privateRead8b hlive name
  · exact writesBytewise_of_shadowAfter hread (shadowAfter_write1b hread ptr)
  · exact writesBytewise_of_shadowAfter hread (shadowAfter_write2b hread ptr)
  · exact writesBytewise_of_shadowAfter hread (shadowAfter_writeRange hread ptr len)
  · exact writesBytewise_of_shadowAfter hread (shadowAfter_writeRangeStride hread base n width len)

def readWorker : Worker :=
  ⟨fun _ => 0, Function.update (fun _ => liveIn) 0 readLiveIn, ShadowRange.reset, 0,
    checkpointGranularity 1, 3, 0, 0⟩

theorem sized_accesses_bytewise_read : (write2b 0).WritesBytewise readWorker ∧
    (read2b 0 "").ReadsBytewise readWorker :=
  ⟨((sized_accesses_bytewise readWorker (by decide)).2.1 0).2,
    ((sized_accesses_bytewise readWorker (by decide)).1 0 "").1⟩

end Access
end Cpf.Executive
