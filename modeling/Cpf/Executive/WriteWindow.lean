import Cpf.Executive.GroupSoundness

/-!
# The window of the four- and eight-byte writes

A four- or eight-byte write skips the search for live-in reads when its bytes lie in the window of
the last live-in reads. The window is exactly where such marks are, so the write then replaces a
`readLiveIn` by the code of its iteration.
-/

namespace Cpf.Executive
open Heap

namespace Worker

def ReadInWindow (ptr n : ℕ) (w : Worker) : Prop :=
  w.outsideWindow ptr n = false ∧ memchr w.shadow ptr readLiveIn n = true

/-- The outcome `x` of a write of `n` bytes is that of `__specpriv_private_write_range`, and it
takes the mark from no byte that is marked as read. -/
structure AgreesWithRange (x : Except String Worker) (ptr n : ℕ) (w : Worker) : Prop where
  outcome : ∀ v, x = .ok v ↔ privateWriteRange ptr n w = .ok v
  keeps : ∀ v, x = .ok v → ∀ k, w.shadow k = readLiveIn → v.shadow k = readLiveIn

variable {n ptr : ℕ} {reason : String} {w : Worker}

theorem privateWriteRange_eq_ok {v : Worker} :
    privateWriteRange ptr n w = .ok v ↔ memchr w.shadow ptr readLiveIn n = false ∧
      v = touch ptr n { w with shadow := memset w.shadow ptr w.code8 n } := by
  unfold privateWriteRange
  split_ifs with hm
  · simp [hm]
  · rw [Except.ok.injEq, eq_comm]
    exact (and_iff_right (Bool.eq_false_iff.2 hm)).symm

theorem privateWriteSized_eq_ok {v : Worker} :
    privateWriteSized n (splat n w.code8) reason ptr w = .ok v ↔
      (w.outsideWindow ptr n = true → memchr w.shadow ptr readLiveIn n = false) ∧
      v = touch ptr n { w with shadow := memset w.shadow ptr w.code8 n } := by
  unfold privateWriteSized
  rw [store_splat]
  split_ifs with hm
  · obtain ⟨hout, hread⟩ := Bool.and_eq_true_iff.1 hm
    simp [hout, hread]
  · rw [Except.ok.injEq, eq_comm]
    refine (and_iff_right (fun hout => ?_)).symm
    exact Bool.eq_false_iff.2 (fun hread => hm (Bool.and_eq_true_iff.2 ⟨hout, hread⟩))

/-- The fast path agrees with the general one exactly outside of read bytes in the window. -/
theorem privateWriteSized_agrees_iff :
    AgreesWithRange (privateWriteSized n (splat n w.code8) reason ptr w) ptr n w ↔
      ¬ ReadInWindow ptr n w := by
  constructor
  · rintro hagree ⟨hwin, hread⟩
    have hok := (hagree.outcome _).1 (privateWriteSized_eq_ok.2
      ⟨fun hout => absurd (hwin.symm.trans hout) (by decide), rfl⟩)
    have hno := (privateWriteRange_eq_ok.1 hok).1
    rw [hread] at hno
    cases hno
  · intro hno
    have hmem : (w.outsideWindow ptr n = true → memchr w.shadow ptr readLiveIn n = false) →
        memchr w.shadow ptr readLiveIn n = false := by
      intro himp
      by_contra hread
      rw [Bool.not_eq_false] at hread
      refine hno ⟨?_, hread⟩
      by_contra hout
      rw [Bool.not_eq_false] at hout
      rw [himp hout] at hread
      cases hread
    refine ⟨fun v => ?_, fun v hv k hk => ?_⟩
    · rw [privateWriteSized_eq_ok, privateWriteRange_eq_ok]
      exact and_congr_left (fun _ => ⟨hmem, fun h _ => h⟩)
    · obtain ⟨himp, rfl⟩ := privateWriteSized_eq_ok.1 hv
      have hfresh := fresh_of_memchr (hmem himp)
      exact (memset_apply_of_not_mem (fun hin => hfresh k hin hk)).trans hk

/-- The four- and eight-byte writes agree with the general write exactly where no byte marked as
read lies in the window; in a group all of whose writes meet this, no flow into a read is lost. -/
theorem sized_writes_agree_iff (w : Worker) (ptr : ℕ) :
    (AgreesWithRange (privateWrite4b ptr w) ptr 4 w ↔ ¬ ReadInWindow ptr 4 w) ∧
    (AgreesWithRange (privateWrite8b ptr w) ptr 8 w ↔ ¬ ReadInWindow ptr 8 w) ∧
    ∀ (size : HeapLen) (g : Group size.val), g.NoStride16 → g.WritesChecked →
      ∀ ws : Fin g.numWorkers → Worker, (∀ w, g.run w = .ok (ws w)) →
      ∀ order : List (Fin g.numWorkers), order.Perm (List.finRange g.numWorkers) →
      ∀ chkpt p : Image, Image.mergeAll size.val (chkpt.initializePartial size.val)
        (order.map (fun w => (ws w).image)) = .ok p → g.ReadsSeeStart := by
  refine ⟨?_, ?_, ?_⟩
  · rw [privateWrite4b, code32_eq]
    exact privateWriteSized_agrees_iff
  · rw [privateWrite8b, code64_eq]
    exact privateWriteSized_agrees_iff
  · intro size g h16 hchk ws hrun order horder chkpt p hmerge
    exact Group.readsSeeStart_of_merge h16 hchk hrun
      (fun w => horder.mem_iff.2 (List.mem_finRange w)) hmerge

end Worker

/-- What a worker calls between two checkpoints. -/
inductive Call
  | access (a : Access)
  | advanceIter (i : ℕ)

namespace Call

def step (w : Worker) : Call → Except String Worker
  | access a => a.call w
  | advanceIter i => .ok (w.advanceIter i 1)

def freshWorker : Worker :=
  ⟨fun _ => 0, fun _ => liveIn, ShadowRange.reset, 0, checkpointGranularity 2, 3, 0, 0⟩

end Call

/-- Iteration 0 writes four bytes that iteration 1, on another worker, reads and then writes. -/
def readThenWrite : Group sixteen.val where
  numWorkers := 2
  workers_pos := twoWorkers_pos
  workers_le := twoWorkers_le
  firstIteration := 0
  base := 0
  stop := 2
  first_le := zero_le_zero
  base_aligned := zero_aligned
  stop_le := two_le_granularity
  owner i := if i % 2 = 0 then 0 else 1
  body
    | 0 => [⟨.write4b 0, fun _ => 1⟩]
    | 1 => [⟨.read4b 0 "read of four bytes", fun _ => 0⟩, ⟨.write4b 0, fun _ => 2⟩]
    | _ => []
  inHeap i o ho := by
    match i with
    | 0 =>
        obtain rfl := List.mem_singleton.1 ho
        decide
    | 1 =>
        rcases List.mem_pair.1 ho with rfl | rfl
        · decide
        · decide
    | i + 2 => cases ho
  start := fun _ => 0
  initial _ := Call.freshWorker
  initial_priv _ := rfl
  initial_shadow _ _ := rfl
  initial_range _ := Or.inl rfl
  initial_first _ := rfl
  initial_granularity _ := rfl

/-- After one four-byte read a four-byte write of the same bytes goes through where the general
write misspeculates, and a flow from another worker into the read is not found by the merge. -/
theorem sized_write_loses_read :
    (¬ ∀ (calls : List Call) (w : Worker), calls.foldlM Call.step Call.freshWorker = .ok w →
      ∀ ptr, Worker.AgreesWithRange (w.privateWrite4b ptr) ptr 4 w) ∧
    ∃ (ws : Fin 2 → Worker) (p : Image), (∀ w, readThenWrite.run w = .ok (ws w)) ∧
      Image.mergeAll 16 (Image.initializePartial 16 ⟨fun _ => 0, fun _ => 0, ShadowRange.reset⟩)
        [(ws 0).image, (ws 1).image] = .ok p ∧ ¬ readThenWrite.ReadsSeeStart := by
  refine ⟨fun hall => ?_, ?_⟩
  · have hagree := hall [.access (.read4b 0 "read of four bytes")] _ rfl 0
    have hread := Worker.privateWriteRange_eq_ok.1 ((hagree.outcome _).1 rfl)
    exact absurd hread.1 (by decide)
  · refine ⟨fun w => (readThenWrite.run w).toOption.getD (readThenWrite.initial w), _,
      Fin.forall_fin_two.2 ⟨rfl, rfl⟩, rfl, fun hsee => ?_⟩
    exact (hsee 1 (by decide) (by decide) [] _ _ rfl 0 (by decide) (by simp)).1 0 (by decide)
      (by decide) (by decide) _ (List.mem_singleton.2 rfl) (by decide)

end Cpf.Executive
