import Cpf.Executive.Distill

/-!
# The merge loops, byte by byte

Each merge loop acts on every byte separately. The worker's merge visits the words that meet its
rounded range and are not all `liveIn`; a committed merge visits its range. Both update the range
of the checkpoint only when they report no conflict.
-/

namespace Cpf.Executive
open Heap

namespace Image

variable {src dst dst' : Image} {size : HeapLen} {k : ℕ}

def cell (img : Image) (k : ℕ) : UInt8 × UInt8 := (img.priv k, img.shadow k)

/-- The merge of a worker's byte `sp` with mark `ss` into a cell of a checkpoint. -/
def mergeCell (sp ss : UInt8) (c : UInt8 × UInt8) : Option (UInt8 × UInt8) :=
  if ss = readLiveIn then
    if c.2 = liveIn then some (c.1, readLiveIn) else if c.2 = readLiveIn then some c else none
  else if c.2 = readLiveIn then none
  else if ss > c.2 then some (sp, ss)
  else some c

/-- The merge of a committed byte `sp` with mark `ss` into a cell of a newer checkpoint. -/
def commitCell (sp ss : UInt8) (c : UInt8 × UInt8) : Option (UInt8 × UInt8) :=
  if c.2 = liveIn then if wasWrittenEver ss then some (sp, oldIteration) else some c
  else if c.2 = readLiveIn then if wasWrittenEver ss then none else some c
  else some c

theorem cell_set (dst : Image) (k : ℕ) (value mark : UInt8) :
    (dst.set k value mark).cell = Function.update dst.cell k (value, mark) := by
  funext j
  by_cases hj : j = k
  · subst j
    simp [cell, set]
  · simp [cell, set, hj]

theorem cell_mark (dst : Image) (k : ℕ) (mark : UInt8) :
    ({ dst with shadow := Function.update dst.shadow k mark } : Image).cell =
      Function.update dst.cell k (dst.priv k, mark) := by
  funext j
  by_cases hj : j = k
  · subst j
    simp [cell]
  · simp [cell, hj]

theorem update_cell_self (dst : Image) (k : ℕ) :
    dst.cell = Function.update dst.cell k (dst.priv k, dst.shadow k) :=
  (Function.update_eq_self k dst.cell).symm

theorem mergeCell_cell (src dst : Image) (k : ℕ) :
    mergeCell (src.priv k) (src.shadow k) (dst.cell k) =
      if src.shadow k = readLiveIn then
        if dst.shadow k = liveIn then some (dst.priv k, readLiveIn)
        else if dst.shadow k = readLiveIn then some (dst.cell k) else none
      else if dst.shadow k = readLiveIn then none
      else if src.shadow k > dst.shadow k then some (src.priv k, src.shadow k)
      else some (dst.cell k) := rfl

theorem commitCell_cell (src dst : Image) (k : ℕ) :
    commitCell (src.priv k) (src.shadow k) (dst.cell k) =
      if dst.shadow k = liveIn then
        if wasWrittenEver (src.shadow k) then some (src.priv k, oldIteration)
        else some (dst.cell k)
      else if dst.shadow k = readLiveIn then
        if wasWrittenEver (src.shadow k) then none else some (dst.cell k)
      else some (dst.cell k) := rfl

theorem mergeByte_local (src : Image) :
    LocalBody cell (fun k => mergeCell (src.priv k) (src.shadow k)) (mergeByte src) where
  ok dst k a ha := by
    rw [mergeCell_cell] at ha
    unfold mergeByte
    split_ifs at ha ⊢
    · cases ha
      exact ⟨_, rfl, cell_mark dst k readLiveIn⟩
    · cases ha
      exact ⟨_, rfl, update_cell_self dst k⟩
    · cases ha
      exact ⟨_, rfl, cell_set dst k _ _⟩
    · cases ha
      exact ⟨_, rfl, update_cell_self dst k⟩
  error dst k ha := by
    rw [mergeCell_cell] at ha
    unfold mergeByte
    split_ifs at ha ⊢
    · exact ⟨_, rfl⟩
    · exact ⟨_, rfl⟩

theorem commitByte_local (src : Image) :
    LocalBody cell (fun k => commitCell (src.priv k) (src.shadow k)) (commitByte src) where
  ok dst k a ha := by
    rw [commitCell_cell] at ha
    unfold commitByte
    split_ifs at ha ⊢
    · cases ha
      exact ⟨_, rfl, cell_set dst k _ _⟩
    · cases ha
      exact ⟨_, rfl, update_cell_self dst k⟩
    · cases ha
      exact ⟨_, rfl, update_cell_self dst k⟩
    · cases ha
      exact ⟨_, rfl, update_cell_self dst k⟩
  error dst k ha := by
    rw [commitCell_cell] at ha
    unfold commitByte
    split_ifs at ha ⊢
    exact ⟨_, rfl⟩

/-- Byte `k` lies in a word that the worker's merge looks into. -/
def Scanned (src : Image) (k : ℕ) : Prop :=
  src.range.CoversWord k ∧
    load bytesPerWord src.shadow (roundDown k bytesPerWord) ≠ V64 liveIn

instance (src : Image) (k : ℕ) : Decidable (src.Scanned k) := inferInstanceAs (Decidable (_ ∧ _))

/-- The bytes that the worker's merge looks at, in order. -/
def scan (src : Image) : List ℕ :=
  (src.words.filter (fun i => ¬ load bytesPerWord src.shadow i = V64 liveIn)).flatMap
    (fun i => (List.range bytesPerWord).map (fun j => i + j))

theorem mem_words (hr : src.range.Within size.val) {i : ℕ} :
    i ∈ src.words ↔ i % bytesPerWord = 0 ∧ src.range.CoversWord i := by
  have h16 := size.aligned
  have hlt := size.lt
  have hreset : ShadowRange.reset = ⟨2 ^ 43, 0⟩ := rfl
  unfold words
  rw [mem_forRange (by decide)]
  simp only [unsigned, roundDown, roundUp, bytesPerWord, ShadowRange.CoversWord]
  rcases hr with hr | ⟨hle, hhi⟩
  · simp only [hr, hreset]
    constructor
    · rintro ⟨m, rfl, hm⟩
      omega
    · rintro ⟨_, hi⟩
      omega
  · constructor
    · rintro ⟨m, rfl, hm⟩
      omega
    · rintro ⟨hi, hlo, hup⟩
      exact ⟨(i - src.range.lowestInclusive / 8 * 8) / 8, by omega, by omega⟩

theorem mem_scan (hr : src.range.Within size.val) : k ∈ src.scan ↔ src.Scanned k := by
  simp only [scan, List.mem_flatMap, List.mem_filter, List.mem_map, List.mem_range,
    mem_words hr, decide_eq_true_eq]
  simp only [Scanned, ShadowRange.CoversWord, roundDown, roundUp, bytesPerWord]
  constructor
  · rintro ⟨i, ⟨⟨hi, hlo, hup⟩, hz⟩, j, hj, rfl⟩
    have hround : i + j - (i + j) % 8 = i := by omega
    rw [hround]
    exact ⟨⟨by omega, by omega⟩, hz⟩
  · rintro ⟨⟨hlo, hup⟩, hz⟩
    exact ⟨k - k % 8, ⟨⟨by omega, by omega, by omega⟩, hz⟩, k % 8, by omega, by omega⟩

theorem nodup_scan (src : Image) : src.scan.Nodup := by
  unfold scan
  rw [List.nodup_flatMap]
  refine ⟨fun i _ => ?_, ?_⟩
  · exact List.nodup_range.map (fun a b hab => Nat.add_left_cancel hab)
  · have hnd : src.words.Nodup := nodup_forRange (by decide)
    refine (hnd.filter _).pairwise_of_forall_ne ?_
    intro a ha b hb hab
    have hmem : ∀ c ∈ src.words.filter
        (fun i => ¬ load bytesPerWord src.shadow i = V64 liveIn), ∃ m,
        c = unsigned (roundDown src.range.lowestInclusive bytesPerWord) + bytesPerWord * m := by
      intro c hc
      obtain ⟨m, hm, _⟩ := (mem_forRange (by decide)).1 (List.mem_of_mem_filter hc)
      exact ⟨m, hm⟩
    obtain ⟨m, hm⟩ := hmem a ha
    obtain ⟨n, hn⟩ := hmem b hb
    intro x hx hx'
    simp only [List.mem_map, List.mem_range, bytesPerWord] at hx hx' hm hn
    omega

theorem distillWorkerPrivateIntoPartial_eq (hr : src.range.Within size.val) :
    distillWorkerPrivateIntoPartial size.val src dst =
      (src.scan.foldlM (mergeByte src) dst).map
        (fun d => { d with range := d.range.widen src.range }) := by
  have hloop : src.words.foldlM (mergeWord src) dst = src.scan.foldlM (mergeByte src) dst :=
    foldlM_skip_flatMap _ _ _ _ _
  rw [distillWorkerPrivateIntoPartial, ← hloop]
  split_ifs with hz
  · cases src.words.foldlM (mergeWord src) dst with
    | error e => rfl
    | ok d => rfl
  · have hempty : src.words = [] := by
      refine List.eq_nil_iff_forall_not_mem.2 (fun i hi => ?_)
      have hlt := ShadowRange.CoversWord.lt_size ((mem_words hr).1 hi).2 hr size.aligned
      have hsize := size.lt
      simp only [unsigned] at hz
      omega
    rw [hempty]
    rfl

theorem mem_bytes (hr : src.range.Within size.val) : k ∈ src.bytes ↔ src.range.Covers k := by
  have hlt := size.lt
  have hreset : ShadowRange.reset = ⟨2 ^ 43, 0⟩ := rfl
  rw [bytes, mem_forRange_one]
  simp only [unsigned, ShadowRange.Covers]
  rcases hr with hr | ⟨hle, hhi⟩
  · simp only [hr, hreset]
    omega
  · omega

theorem nodup_bytes (src : Image) : src.bytes.Nodup := nodup_forRange Nat.one_pos

theorem bytes_eq_nil (hr : src.range.Within size.val) (hz : ¬ 0 < unsigned size.val) :
    src.bytes = [] := by
  refine List.eq_nil_iff_forall_not_mem.2 (fun i hi => ?_)
  have hc := ((mem_bytes hr).1 hi).coversWord
  have hlt := ShadowRange.CoversWord.lt_size hc hr size.aligned
  have hsize := size.lt
  simp only [unsigned] at hz
  omega

theorem distillCommittedPrivateIntoPartial_eq (hr : src.range.Within size.val) :
    distillCommittedPrivateIntoPartial size.val src dst =
      (src.bytes.foldlM (commitByte src) dst).map
        (fun d => { d with range := d.range.widen src.range }) := by
  rw [distillCommittedPrivateIntoPartial]
  split_ifs with hz
  · cases src.bytes.foldlM (commitByte src) dst with
    | error e => rfl
    | ok d => rfl
  · rw [bytes_eq_nil hr hz]
    rfl

theorem map_eq_ok {f : Image → Image} {x : Except Image Image} :
    x.map f = .ok dst' ↔ ∃ d, x = .ok d ∧ f d = dst' := by
  cases x with
  | error e => simp [Except.map]
  | ok d => simp [Except.map]

theorem mergeByte_range {d d' : Image} (h : mergeByte src d k = .ok d') : d'.range = d.range := by
  unfold mergeByte at h
  split_ifs at h <;> cases h <;> rfl

theorem commitByte_range {d d' : Image} (h : commitByte src d k = .ok d') :
    d'.range = d.range := by
  unfold commitByte at h
  split_ifs at h <;> cases h <;> rfl

/-- What a worker's merge that reports no conflict has done. -/
structure Merged (src dst dst' : Image) : Prop where
  scanned : ∀ k, src.Scanned k →
    mergeCell (src.priv k) (src.shadow k) (dst.cell k) = some (dst'.cell k)
  frame : ∀ k, ¬ src.Scanned k → dst'.cell k = dst.cell k
  range : dst'.range = dst.range.widen src.range

theorem distillWorkerPrivateIntoPartial_merged (hr : src.range.Within size.val)
    (h : distillWorkerPrivateIntoPartial size.val src dst = .ok dst') : Merged src dst dst' := by
  rw [distillWorkerPrivateIntoPartial_eq hr, map_eq_ok] at h
  obtain ⟨d, hd, rfl⟩ := h
  obtain ⟨hin, hout⟩ := (mergeByte_local src).foldlM_ok (nodup_scan src) hd
  have hrange : d.range = dst.range :=
    foldlM_invariant (fun e => e.range = dst.range)
      (fun k _ e e' he hstep => (mergeByte_range hstep).trans he) rfl hd
  refine ⟨fun k hk => hin k ((mem_scan hr).2 hk), fun k hk => ?_, ?_⟩
  · exact hout k (fun hm => hk ((mem_scan hr).1 hm))
  · rw [hrange]

theorem exists_distillWorkerPrivateIntoPartial (hr : src.range.Within size.val) :
    (∃ d, distillWorkerPrivateIntoPartial size.val src dst = .ok d) ↔
      ∀ k, src.Scanned k → mergeCell (src.priv k) (src.shadow k) (dst.cell k) ≠ none := by
  have hloop := (mergeByte_local src).exists_foldlM_ok (nodup_scan src) dst
  rw [distillWorkerPrivateIntoPartial_eq hr]
  simp only [map_eq_ok]
  constructor
  · rintro ⟨_, d, hd, _⟩ k hk
    exact hloop.1 ⟨d, hd⟩ k ((mem_scan hr).2 hk)
  · intro hall
    obtain ⟨d, hd⟩ := hloop.2 (fun k hk => hall k ((mem_scan hr).1 hk))
    exact ⟨_, d, hd, rfl⟩

/-- What a committed merge that reports no conflict has done. -/
structure Committed (src dst dst' : Image) : Prop where
  covered : ∀ k, src.range.Covers k →
    commitCell (src.priv k) (src.shadow k) (dst.cell k) = some (dst'.cell k)
  frame : ∀ k, ¬ src.range.Covers k → dst'.cell k = dst.cell k
  range : dst'.range = dst.range.widen src.range

theorem distillCommittedPrivateIntoPartial_committed (hr : src.range.Within size.val)
    (h : distillCommittedPrivateIntoPartial size.val src dst = .ok dst') :
    Committed src dst dst' := by
  rw [distillCommittedPrivateIntoPartial_eq hr, map_eq_ok] at h
  obtain ⟨d, hd, rfl⟩ := h
  obtain ⟨hin, hout⟩ := (commitByte_local src).foldlM_ok (nodup_bytes src) hd
  have hrange : d.range = dst.range :=
    foldlM_invariant (fun e => e.range = dst.range)
      (fun k _ e e' he hstep => (commitByte_range hstep).trans he) rfl hd
  refine ⟨fun k hk => hin k ((mem_bytes hr).2 hk), fun k hk => ?_, ?_⟩
  · exact hout k (fun hm => hk ((mem_bytes hr).1 hm))
  · rw [hrange]

theorem exists_distillCommittedPrivateIntoPartial (hr : src.range.Within size.val) :
    (∃ d, distillCommittedPrivateIntoPartial size.val src dst = .ok d) ↔
      ∀ k, src.range.Covers k → commitCell (src.priv k) (src.shadow k) (dst.cell k) ≠ none := by
  have hloop := (commitByte_local src).exists_foldlM_ok (nodup_bytes src) dst
  rw [distillCommittedPrivateIntoPartial_eq hr]
  simp only [map_eq_ok]
  constructor
  · rintro ⟨_, d, hd, _⟩ k hk
    exact hloop.1 ⟨d, hd⟩ k ((mem_bytes hr).2 hk)
  · intro hall
    obtain ⟨d, hd⟩ := hloop.2 (fun k hk => hall k ((mem_bytes hr).1 hk))
    exact ⟨_, d, hd, rfl⟩

/-- The main process takes the bytes that were ever written. -/
theorem distillCommittedPrivateIntoMain_apply (hr : src.range.Within size.val) (main : Heap) :
    distillCommittedPrivateIntoMain size.val src main k =
      if src.range.Covers k ∧ wasWrittenEver (src.shadow k) then src.priv k else main k := by
  have hloop : distillCommittedPrivateIntoMain size.val src main =
      src.bytes.foldl (fun dst i =>
        if wasWrittenEver (src.shadow i) then Function.update dst i (src.priv i) else dst) main := by
    rw [distillCommittedPrivateIntoMain]
    split_ifs with hz
    · rfl
    · rw [bytes_eq_nil hr hz]
      rfl
  rw [hloop, foldl_update_if]
  simp only [mem_bytes hr]

end Image
end Cpf.Executive
