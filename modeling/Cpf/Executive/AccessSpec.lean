import Cpf.Executive.CallMarks

/-!
# What the instrumentation calls do

One statement for all of the calls of `private.c`: which fields they leave alone, how they widen
the touched range, and what they do to the marks. The two calls that differ from their siblings
are named: the write that skips its check inside the window of live-in reads, and the read of
16-byte strides that misplaces half of its marks.
-/

namespace Cpf.Executive
open Heap

namespace Access

variable {a : Access} {w w' : Worker}

def touchedRange (a : Access) (r : ShadowRange) : ShadowRange :=
  if a.shape.2.1 = 0 then r
  else r.update a.shape.1 ((a.shape.2.1 - 1) * a.shape.2.2.1 + a.shape.2.2.2)

/-- A call changes nothing but the shadow, the touched range and the window of live-in reads. -/
structure Keeps (a : Access) (w w' : Worker) : Prop where
  priv : w'.priv = w.priv
  firstIteration : w'.firstIteration = w.firstIteration
  checkpointGranularity : w'.checkpointGranularity = w.checkpointGranularity
  code8 : w'.code8 = w.code8
  range : w'.range = a.touchedRange w.range

/-- A read of 16-byte strides, whose marks are misplaced. -/
def isStride16 : Access → Bool
  | readRangeStride _ _ _ 16 _ => true
  | _ => false

/-- A four- or eight-byte write that finds its bytes in the window and skips the check. -/
def skipsCheck : Access → Worker → Bool
  | write4b ptr, w => !w.outsideWindow ptr 4
  | write8b ptr, w => !w.outsideWindow ptr 8
  | _, _ => false

theorem keeps_of_fields {ptr len : ℕ} (hs : a.shape = (ptr, 1, 0, len)) {s : Heap} {lo hi : ℕ} :
    a.Keeps w { w with
      shadow := s
      range := w.range.update ptr len
      lastReadLiveInPtrStart := lo
      lastReadLiveInPtrEnd := hi } := by
  refine ⟨rfl, rfl, rfl, rfl, ?_⟩
  simp [touchedRange, hs]

theorem keeps_growWindow {ptr n : ℕ} {v : Worker} (h : a.Keeps w v) :
    a.Keeps w (Worker.growWindow ptr n v) := by
  unfold Worker.growWindow
  split_ifs
  · exact ⟨h.priv, h.firstIteration, h.checkpointGranularity, h.code8, h.range⟩
  · exact ⟨h.priv, h.firstIteration, h.checkpointGranularity, h.code8, h.range⟩

theorem keeps_readMixed {ptr n : ℕ} {name : String} (hs : a.shape = (ptr, 1, 0, n))
    (h : Worker.readMixed n ptr name (Worker.touch ptr n w) = .ok w') : a.Keeps w w' := by
  obtain ⟨s, rfl, _⟩ := Worker.readMixed_ok h
  exact keeps_of_fields hs

theorem call_keeps (h : a.call w = .ok w') : a.Keeps w w' := by
  cases a with
  | write1b ptr =>
      simp only [call, Worker.privateWrite1b] at h
      split_ifs at h
      cases h
      exact keeps_of_fields rfl
  | write2b ptr =>
      simp only [call, Worker.privateWrite2b] at h
      split_ifs at h
      cases h
      exact keeps_of_fields rfl
  | write4b ptr =>
      simp only [call, Worker.privateWrite4b, Worker.privateWriteSized] at h
      split_ifs at h
      cases h
      exact keeps_of_fields rfl
  | write8b ptr =>
      simp only [call, Worker.privateWrite8b, Worker.privateWriteSized] at h
      split_ifs at h
      cases h
      exact keeps_of_fields rfl
  | writeRange ptr len =>
      simp only [call, Worker.privateWriteRange] at h
      split_ifs at h
      cases h
      exact keeps_of_fields rfl
  | writeRangeStride base n width len =>
      simp only [call, Worker.privateWriteRangeStride] at h
      split_ifs at h with hn
      · cases h
        exact ⟨rfl, rfl, rfl, rfl, (if_pos hn).symm⟩
      · obtain ⟨s, _, h⟩ := bind_eq_ok.1 h
        cases h
        exact ⟨rfl, rfl, rfl, rfl, (if_neg hn).symm⟩
  | read1b ptr name =>
      obtain ⟨v, hv, h⟩ := bind_eq_ok.1 h
      cases h
      obtain ⟨s, rfl, _⟩ := Worker.privateReadRangeInternal_ok (Nat.le_add_right ptr 1) hv
      exact keeps_of_fields rfl
  | read2b ptr name =>
      simp only [call, Worker.privateRead2b] at h
      split_ifs at h
      · cases h
        exact keeps_of_fields rfl
      · cases h
        exact keeps_of_fields rfl
      · cases h
        exact keeps_of_fields rfl
      · exact keeps_readMixed rfl h
  | read4b ptr name =>
      simp only [call, Worker.privateRead4b] at h
      split_ifs at h
      · cases h
        exact keeps_of_fields rfl
      · cases h
        exact keeps_growWindow (keeps_of_fields rfl)
      · cases h
        exact keeps_of_fields rfl
      · exact keeps_readMixed rfl h
  | read8b ptr name =>
      simp only [call, Worker.privateRead8b] at h
      split_ifs at h
      · cases h
        exact keeps_growWindow (keeps_of_fields rfl)
      · cases h
        exact keeps_of_fields rfl
      · exact keeps_readMixed rfl h
  | readRange ptr len name =>
      obtain ⟨v, hv, h⟩ := bind_eq_ok.1 h
      cases h
      obtain ⟨s, rfl, _⟩ := Worker.privateReadRangeInternal_ok (Nat.le_add_right ptr len) hv
      exact keeps_of_fields rfl
  | readRangeStride base n width len name =>
      obtain ⟨s, rfl⟩ := Worker.privateReadRangeStride_ok h
      exact ⟨rfl, rfl, rfl, rfl, rfl⟩

theorem touches_single {ptr len k : ℕ} (hs : a.shape = (ptr, 1, 0, len)) :
    a.Touches k ↔ ptr ≤ k ∧ k < ptr + len := by
  simp [Touches, hs]

theorem touchedRange_covers {r : ShadowRange} {k : ℕ} (ht : a.Touches k) :
    (a.touchedRange r).Covers k := by
  obtain ⟨i, hi, hlo, hhi⟩ := ht
  have hmul : i * a.shape.2.2.1 ≤ (a.shape.2.1 - 1) * a.shape.2.2.1 :=
    Nat.mul_le_mul_right _ (by omega)
  rw [touchedRange, if_neg (by omega)]
  exact ShadowRange.covers_update (by omega) (by omega)

theorem coversWord_touchedRange {r : ShadowRange} {k : ℕ} (hk : r.CoversWord k) :
    (a.touchedRange r).CoversWord k := by
  unfold touchedRange
  split_ifs
  · exact hk
  · exact hk.update _ _

theorem within_touchedRange {r : ShadowRange} {size : ℕ} (hr : r.Within size)
    (hsize : size < 2 ^ 32) (ha : a.InHeap size) : (a.touchedRange r).Within size := by
  unfold touchedRange
  split_ifs with hn
  · exact hr
  · exact hr.update hsize (ha (by omega))

theorem reads_single {ptr len : ℕ} {code : UInt8} {s s' : Heap} {r : ShadowRange}
    (hs : a.shape = (ptr, 1, 0, len))
    (hr : ReadsAs code (fun k => ptr ≤ k ∧ k < ptr + len) (fun k => ptr ≤ k ∧ k < ptr + len) s s') :
    ReadsAs code a.Touches (a.touchedRange r).CoversWord s s' :=
  hr.mono (fun _ hk => (touches_single hs).1 hk)
    (fun _ hk => (touchedRange_covers ((touches_single hs).2 hk)).coversWord)

theorem reads_internal {ptr len : ℕ} {code : UInt8} {s s' : Heap} {r : ShadowRange}
    (hs : a.shape = (ptr, 1, 0, len))
    (hr : ReadsAs code (fun k => ptr ≤ k ∧ k < ptr + len) (fun k =>
      roundDown ptr bytesPerWord ≤ k ∧ k < roundUp (ptr + len) bytesPerWord) s s') :
    ReadsAs code a.Touches (a.touchedRange r).CoversWord s s' := by
  refine hr.mono (fun _ hk => (touches_single hs).1 hk) (fun k hk => ?_)
  have hu : (r.update ptr len).CoversWord k := ShadowRange.coversWord_update hk.1 hk.2
  simpa [touchedRange, hs] using hu

/-- A read that returns has moved the mark of every byte it reads. -/
theorem call_reads (hread : a.isWrite = false) (h16 : a.isStride16 = false)
    (hc : w.code8 ≠ liveIn) (h : a.call w = .ok w') :
    ReadsAs w.code8 a.Touches w'.range.CoversWord w.shadow w'.shadow := by
  rw [(call_keeps h).range]
  cases a with
  | read1b ptr name =>
      obtain ⟨v, hv, h⟩ := bind_eq_ok.1 h
      cases h
      obtain ⟨s, rfl, hr⟩ := Worker.privateReadRangeInternal_ok (Nat.le_add_right ptr 1) hv
      exact reads_internal rfl hr
  | read2b ptr name => exact reads_single rfl (Worker.privateRead2b_reads hc h)
  | read4b ptr name => exact reads_single rfl (Worker.privateRead4b_reads hc h)
  | read8b ptr name => exact reads_single rfl (Worker.privateRead8b_reads hc h)
  | readRange ptr len name =>
      obtain ⟨v, hv, h⟩ := bind_eq_ok.1 h
      cases h
      obtain ⟨s, rfl, hr⟩ := Worker.privateReadRangeInternal_ok (Nat.le_add_right ptr len) hv
      exact reads_internal rfl hr
  | readRangeStride base n width len name =>
      have hlen : len ≠ 16 := by
        rintro rfl
        cases h16
      refine (Worker.privateReadRangeStride_reads hlen h).mono (fun _ hk => hk) ?_
      rintro k ⟨i, hi, hlo, hhi⟩
      have hmul : i * width ≤ (n - 1) * width := Nat.mul_le_mul_right _ (by omega)
      change (if n = 0 then w.range else
        w.range.update base ((n - 1) * width + len)).CoversWord k
      rw [if_neg (by omega)]
      have hle : roundDown base bytesPerWord ≤ roundDown (base + i * width) bytesPerWord := by
        simp only [roundDown, bytesPerWord]
        omega
      have hge : roundUp (base + i * width + len) bytesPerWord ≤
          roundUp (base + ((n - 1) * width + len)) bytesPerWord := by
        simp only [roundUp, roundDown, bytesPerWord]
        omega
      exact ShadowRange.coversWord_update (hle.trans hlo) (lt_of_lt_of_le hhi hge)
  | write1b ptr => cases hread
  | write2b ptr => cases hread
  | write4b ptr => cases hread
  | write8b ptr => cases hread
  | writeRange ptr len => cases hread
  | writeRangeStride base n width len => cases hread

theorem overwrites_single {ptr len : ℕ} {code : UInt8} {s : Heap}
    (hs : a.shape = (ptr, 1, 0, len)) : Overwrites code a.Touches s (memset s ptr code len) :=
  (Overwrites.memset s ptr len code).congr (fun _ => (touches_single hs).symm)

theorem update_eq_memset (s : Heap) (ptr : ℕ) (b : UInt8) :
    Function.update s ptr b = memset s ptr b 1 := by
  funext k
  by_cases hk : k = ptr
  · subst k
    rw [Function.update_self, memset_apply_of_mem (le_refl ptr) (by omega)]
  · rw [Function.update_of_ne hk, memset_apply_of_not_mem (by omega)]

/-- A write that returns has given its bytes the code of the iteration, and no other byte. -/
theorem call_writes (hwrite : a.isWrite = true) (h : a.call w = .ok w') :
    Overwrites w.code8 a.Touches w.shadow w'.shadow := by
  cases a with
  | write1b ptr =>
      simp only [call, Worker.privateWrite1b, update_eq_memset] at h
      split_ifs at h
      cases h
      exact overwrites_single rfl
  | write2b ptr =>
      simp only [call, Worker.privateWrite2b, Worker.code16_eq, store_splat] at h
      split_ifs at h
      cases h
      exact overwrites_single rfl
  | write4b ptr =>
      simp only [call, Worker.privateWrite4b, Worker.privateWriteSized, Worker.code32_eq, store_splat] at h
      split_ifs at h
      cases h
      exact overwrites_single rfl
  | write8b ptr =>
      simp only [call, Worker.privateWrite8b, Worker.privateWriteSized, Worker.code64_eq, store_splat] at h
      split_ifs at h
      cases h
      exact overwrites_single rfl
  | writeRange ptr len =>
      simp only [call, Worker.privateWriteRange] at h
      split_ifs at h
      cases h
      exact overwrites_single rfl
  | writeRangeStride base n width len => exact (Worker.privateWriteRangeStride_ok h).1
  | read1b ptr name => cases hwrite
  | read2b ptr name => cases hwrite
  | read4b ptr name => cases hwrite
  | read8b ptr name => cases hwrite
  | readRange ptr len name => cases hwrite
  | readRangeStride base n width len name => cases hwrite

theorem fresh_single {ptr len : ℕ} {s : Heap} (hs : a.shape = (ptr, 1, 0, len))
    (hm : memchr s ptr readLiveIn len = false) : Fresh a.Touches s :=
  fun k hk => Worker.fresh_of_memchr hm k ((touches_single hs).1 hk)

/-- A write that makes its check and returns has found no live-in read. -/
theorem call_fresh (hwrite : a.isWrite = true) (hskip : a.skipsCheck w = false)
    (h : a.call w = .ok w') : Fresh a.Touches w.shadow := by
  cases a with
  | write1b ptr =>
      simp only [call, Worker.privateWrite1b] at h
      split_ifs at h with hm
      intro k hk
      rw [touches_single rfl] at hk
      obtain rfl : k = ptr := by omega
      exact hm
  | write2b ptr =>
      simp only [call, Worker.privateWrite2b, byteOf_load (show 1 < 2 by omega),
        byteOf_load (show 0 < 2 by omega)] at h
      split_ifs at h with hm₁ hm₀
      intro k hk
      rw [touches_single rfl] at hk
      obtain rfl | rfl : k = ptr + 0 ∨ k = ptr + 1 := by omega
      · exact hm₀
      · exact hm₁
  | write4b ptr =>
      simp only [skipsCheck, Bool.not_eq_false'] at hskip
      simp only [call, Worker.privateWrite4b, Worker.privateWriteSized, hskip, Bool.true_and] at h
      split_ifs at h with hm
      exact fresh_single rfl (by simpa using hm)
  | write8b ptr =>
      simp only [skipsCheck, Bool.not_eq_false'] at hskip
      simp only [call, Worker.privateWrite8b, Worker.privateWriteSized, hskip, Bool.true_and] at h
      split_ifs at h with hm
      exact fresh_single rfl (by simpa using hm)
  | writeRange ptr len =>
      simp only [call, Worker.privateWriteRange] at h
      split_ifs at h with hm
      exact fresh_single rfl (by simpa using hm)
  | writeRangeStride base n width len => exact (Worker.privateWriteRangeStride_ok h).2
  | read1b ptr name => cases hwrite
  | read2b ptr name => cases hwrite
  | read4b ptr name => cases hwrite
  | read8b ptr name => cases hwrite
  | readRange ptr len name => cases hwrite
  | readRangeStride base n width len name => cases hwrite

end Access
end Cpf.Executive
