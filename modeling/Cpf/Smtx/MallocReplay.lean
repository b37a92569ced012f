import Cpf.Smtx.VerMalloc

/-!
# Replay of versioned allocations

As long as each call needs at most one more chunk, `ver_malloc` and `update_ver_malloc` change an entry in the
same way. The records that were sent and those in the buffer are then the calls of the worker, and a process
that has processed some of the records has the entry that the worker had after as many calls.
-/

namespace Cpf.Smtx.VerMalloc

/-! ### One call -/

/-- The entry after a call that needs at most one more chunk. -/
def grow (c : VerMallocChunk) (size : ℕ) : VerMallocChunk :=
  { c with
    next := c.next + roundUp size alignment
    nextChunk := if c.nextChunk < c.next + roundUp size alignment then c.nextChunk + verMallocChunkSize
      else c.nextChunk }

theorem roundUp_roundUp (n : ℕ) : roundUp (roundUp n alignment) alignment = roundUp n alignment := by
  simp only [roundUp, alignment]
  omega

/-- The range is mapped up to the chunk that holds its next address. -/
structure ChunkOk (c : VerMallocChunk) : Prop where
  begin_pos : 0 < c.begin
  begin_aligned : pageSize ∣ c.begin
  aligned : pageSize ∣ c.nextChunk
  begin_le : c.begin ≤ c.next
  le : c.next ≤ c.nextChunk
  lt : c.nextChunk < c.next + verMallocChunkSize

theorem pageSize_dvd_rangeOf (wid : ℕ) : pageSize ∣ rangeOf wid := by
  refine Nat.dvd_add (Nat.dvd_mul_left _ _) ?_
  split_ifs
  · exact Nat.dvd_refl _
  · exact Nat.dvd_zero _

theorem pageSize_dvd_beginOf : ∀ wid, pageSize ∣ beginOf wid
  | 0 => ⟨2 ^ 32, rfl⟩
  | wid + 1 => Nat.dvd_add (pageSize_dvd_beginOf wid) (pageSize_dvd_rangeOf wid)

theorem beginOf_pos : ∀ wid, 0 < beginOf wid
  | 0 => by decide
  | wid + 1 => Nat.add_pos_left (beginOf_pos wid) _

theorem chunkOk_init (wid : ℕ) : ChunkOk (verMallocInit wid) where
  begin_pos := beginOf_pos wid
  begin_aligned := pageSize_dvd_beginOf wid
  aligned := pageSize_dvd_beginOf wid
  begin_le := Nat.le_refl _
  le := Nat.le_refl _
  lt := Nat.lt_add_of_pos_right (by decide)

namespace ChunkOk

variable {c : VerMallocChunk} {size : ℕ}

theorem grow (h : ChunkOk c) (hone : OneChunk c size) : ChunkOk (grow c size) := by
  have hle := h.le
  have hlt := h.lt
  have hbegin := h.begin_le
  simp only [OneChunk] at hone
  refine ⟨h.begin_pos, h.begin_aligned, ?_, ?_, ?_, ?_⟩
  · simp only [VerMalloc.grow]
    split_ifs
    · exact Nat.dvd_add h.aligned (Nat.dvd_refl _)
    · exact h.aligned
  · simp only [VerMalloc.grow]
    omega
  · simp only [VerMalloc.grow]
    split_ifs with hmap <;> omega
  · simp only [VerMalloc.grow]
    split_ifs with hmap <;> omega

theorem roundUp_lt (h : ChunkOk c) (hone : OneChunk c size) : roundUp size alignment < 2 ^ 32 := by
  have hlt := h.lt
  simp only [OneChunk, verMallocChunkSize] at hone hlt
  omega

end ChunkOk

namespace Process

variable {p : Process} {wid size : ℕ}

/-- All pages of the worker's range that its entry says are mapped. -/
def Covers (p : Process) (wid : ℕ) : Prop :=
  ∀ a, pageSize ∣ a → (p.chunks wid).begin ≤ a → a < (p.chunks wid).nextChunk →
    a ∈ p.mapped ∧ getShadowOf a ∈ p.mapped

/-- The process after a call that needs at most one more chunk. -/
def grown (wid size : ℕ) (p : Process) : Process :=
  (if (p.chunks wid).nextChunk < (p.chunks wid).next + roundUp size alignment then p.mapChunk wid
    else p).setNext wid ((p.chunks wid).next + roundUp size alignment)

theorem grown_chunks : (p.grown wid size).chunks = Function.update p.chunks wid (grow (p.chunks wid) size) := by
  by_cases hmap : (p.chunks wid).nextChunk < (p.chunks wid).next + roundUp size alignment <;>
    simp [grown, hmap, setNext, mapChunk, grow]

theorem mapped_grown : p.mapped ⊆ (p.grown wid size).mapped := by
  intro a ha
  by_cases hmap : (p.chunks wid).nextChunk < (p.chunks wid).next + roundUp size alignment <;>
    simp [grown, hmap, setNext, mapChunk, ha]

theorem Covers.grown {u : ℕ} (h : p.Covers u) (hok : ChunkOk (p.chunks wid)) : (p.grown wid size).Covers u := by
  intro a haligned hbegin hlt
  have hold : a < (p.chunks u).nextChunk → a ∈ (p.grown wid size).mapped ∧
      getShadowOf a ∈ (p.grown wid size).mapped := by
    intro ha
    have hb : (p.chunks u).begin ≤ a := by
      by_cases hu : u = wid
      · subst hu
        simpa [grown_chunks, VerMalloc.grow] using hbegin
      · simpa [grown_chunks, hu] using hbegin
    exact ⟨mapped_grown (h a haligned hb ha).1, mapped_grown (h a haligned hb ha).2⟩
  by_cases hu : u = wid
  · subst hu
    by_cases hmap : (p.chunks u).nextChunk < (p.chunks u).next + roundUp size alignment
    · simp only [grown_chunks, Function.update_self, VerMalloc.grow, hmap, if_true] at hlt
      by_cases ha : a < (p.chunks u).nextChunk
      · exact hold ha
      · -- both are multiples of the page size, so that the new page is the only one left
        have heq : a = (p.chunks u).nextChunk := by
          obtain ⟨x, hx⟩ := haligned
          obtain ⟨y, hy⟩ := hok.aligned
          simp only [verMallocChunkSize, pageSize] at hlt hx hy
          omega
        simp [Process.grown, hmap, setNext, mapChunk, heq]
    · refine hold ?_
      simpa [grown_chunks, VerMalloc.grow, hmap] using hlt
  · refine hold ?_
    simpa [grown_chunks, hu] using hlt

theorem mapUntil_of_le {next : ℕ} (h : next ≤ (p.chunks wid).nextChunk) : ∀ fuel, p.mapUntil wid next fuel = p
  | 0 => rfl
  | fuel + 1 => by rw [mapUntil, if_neg (Nat.not_lt.2 h)]

/-- Here the loop of `ver_malloc` makes at most one round. -/
theorem verMalloc_eq (hone : OneChunk (p.chunks wid) size) : p.verMalloc wid size =
    if (p.chunks wid).next + roundUp size alignment < (p.chunks wid).bound then .ok (p.grown wid size)
    else .error .outOfRange := by
  simp only [OneChunk] at hone
  have hloop : p.mapUntil wid ((p.chunks wid).next + roundUp size alignment)
      ((p.chunks wid).next + roundUp size alignment - (p.chunks wid).nextChunk) =
      if (p.chunks wid).nextChunk < (p.chunks wid).next + roundUp size alignment then p.mapChunk wid
      else p := by
    split_ifs with hmap
    · obtain ⟨fuel, hfuel⟩ := Nat.exists_eq_add_of_lt hmap
      rw [hfuel, show (p.chunks wid).nextChunk + fuel + 1 - (p.chunks wid).nextChunk = fuel + 1 by omega,
        mapUntil, if_pos (by omega)]
      refine mapUntil_of_le ?_ fuel
      simp only [mapChunk, Function.update_self]
      omega
    · exact mapUntil_of_le (Nat.not_lt.1 hmap) _
  simp only [verMalloc, hloop, grown]

theorem updateVerMalloc_eq (hbound : (p.chunks wid).next + roundUp size alignment < (p.chunks wid).bound) :
    p.updateVerMalloc wid (roundUp size alignment) (p.chunks wid).next = .ok (p.grown wid size) := by
  simp only [updateVerMalloc, roundUp_roundUp, ne_eq, not_true_eq_false, if_false, hbound, if_true, grown]

end Process

/-! ### Many calls -/

def recordsFrom : VerMallocChunk → List ℕ → List VerMallocInstance
  | _, [] => []
  | c, size :: calls => ⟨c.next, roundUp size alignment, -1⟩ :: recordsFrom (grow c size) calls

/-- Each call needs at most one more chunk and stays in the range. -/
def Fits : VerMallocChunk → List ℕ → Prop
  | _, [] => True
  | c, size :: calls =>
      (OneChunk c size ∧ c.next + roundUp size alignment < c.bound) ∧ Fits (grow c size) calls

theorem recordsFrom_append {c : VerMallocChunk} {l m : List ℕ} :
    recordsFrom c (l ++ m) = recordsFrom c l ++ recordsFrom (l.foldl grow c) m := by
  induction l generalizing c with
  | nil => rfl
  | cons size l ih => simp only [List.cons_append, recordsFrom, List.foldl_cons, ih]

theorem length_recordsFrom {c : VerMallocChunk} {l : List ℕ} : (recordsFrom c l).length = l.length := by
  induction l generalizing c with
  | nil => rfl
  | cons size l ih => simp only [recordsFrom, List.length_cons, ih]

theorem fits_append {c : VerMallocChunk} {l m : List ℕ} :
    Fits c (l ++ m) ↔ Fits c l ∧ Fits (l.foldl grow c) m := by
  induction l generalizing c with
  | nil => simp [Fits]
  | cons size l ih => simp only [List.cons_append, Fits, List.foldl_cons, ih, and_assoc]

theorem ChunkOk.foldl {c : VerMallocChunk} {l : List ℕ} (h : ChunkOk c) (hfits : Fits c l) :
    ChunkOk (l.foldl VerMalloc.grow c) := by
  induction l generalizing c with
  | nil => exact h
  | cons size l ih => exact ih (h.grow hfits.1.1) hfits.2

theorem begin_foldl {c : VerMallocChunk} {l : List ℕ} : (l.foldl grow c).begin = c.begin := by
  induction l generalizing c with
  | nil => rfl
  | cons size l ih => rw [List.foldl_cons, ih, grow]

theorem next_le_foldl {c : VerMallocChunk} {l : List ℕ} : c.next ≤ (l.foldl grow c).next := by
  induction l generalizing c with
  | nil => exact Nat.le_refl _
  | cons size l ih => exact (Nat.le_add_right _ _).trans (ih (c := grow c size))

theorem mem_recordsFrom {c : VerMallocChunk} {l : List ℕ} {r : VerMallocInstance} (h : r ∈ recordsFrom c l) :
    r.heap = -1 ∧ c.next ≤ r.ptr ∧ r.ptr + r.size ≤ (l.foldl grow c).next := by
  induction l generalizing c with
  | nil => cases h
  | cons size l ih =>
    rcases List.mem_cons.1 h with rfl | h
    · exact ⟨rfl, Nat.le_refl _, next_le_foldl (c := grow c size)⟩
    · obtain ⟨hheap, hptr, hlast⟩ := ih h
      exact ⟨hheap, (Nat.le_add_right _ _).trans hptr, hlast⟩

theorem exists_of_prefix_recordsFrom {c : VerMallocChunk} {l : List ℕ} {rs : List VerMallocInstance}
    (h : rs <+: recordsFrom c l) : ∃ l₁, l₁ <+: l ∧ rs = recordsFrom c l₁ := by
  refine ⟨l.take rs.length, List.take_prefix _ _, ?_⟩
  have happ := recordsFrom_append (c := c) (l := l.take rs.length) (m := l.drop rs.length)
  rw [List.take_append_drop] at happ
  have hlen : (recordsFrom c (l.take rs.length)).length = rs.length := by
    rw [length_recordsFrom, List.length_take, ← length_recordsFrom (c := c)]
    exact Nat.min_eq_left h.length_le
  have hpre : recordsFrom c (l.take rs.length) <+: recordsFrom c l := ⟨_, happ.symm⟩
  exact (List.prefix_of_prefix_length_le h hpre hlen.ge).eq_of_length hlen.symm

def chunkAfter (wid : ℕ) (calls : List ℕ) : VerMallocChunk := calls.foldl grow (verMallocInit wid)

namespace Process

variable {p : Process} {wid : ℕ}

/-- The records are processed one after the other. -/
def replay (wid : ℕ) (rs : List VerMallocInstance) (p : Process) : Except Failure Process :=
  rs.foldlM (fun p r => if r.heap = -1 then p.updateVerMalloc wid r.size r.ptr else .ok p) p

theorem processAlloc_eq {page : Page} {n k : ℕ} : p.processAlloc wid page n k =
    p.replay wid (((List.range' k n).map page).takeWhile fun r => r.ptr ≠ 0) := by
  induction n generalizing k p with
  | zero => rfl
  | succ n ih =>
    rw [processAlloc, List.range'_succ, List.map_cons, List.takeWhile_cons]
    by_cases hptr : (page k).ptr = 0
    · rw [if_pos hptr, if_neg (by simpa using hptr)]
      rfl
    · have hdecide : decide ((page k).ptr ≠ 0) = true := by simpa using hptr
      rw [if_neg hptr, if_pos hdecide, replay, List.foldlM_cons]
      by_cases hheap : (page k).heap = -1
      · rw [if_pos hheap, if_pos hheap]
        simp only [ih]
        rfl
      · rw [if_neg hheap, if_neg hheap, ih]
        rfl

theorem processAlloc_page {page : Page} :
    p.processAlloc wid page instancesPerPage 0 = p.replay wid (recordsOf page) := by
  rw [processAlloc_eq, recordsOf, List.range_eq_range']

/-- The records of calls from the process's own entry on are processed without a failed assertion. -/
theorem replay_recordsFrom {calls : List ℕ} (hok : ChunkOk (p.chunks wid)) (hfits : Fits (p.chunks wid) calls)
    (hcovers : ∀ u, p.Covers u) : ∃ q, p.replay wid (recordsFrom (p.chunks wid) calls) = .ok q ∧
      q.chunks = Function.update p.chunks wid (calls.foldl grow (p.chunks wid)) ∧ ∀ u, q.Covers u := by
  induction calls generalizing p with
  | nil => exact ⟨p, rfl, (Function.update_eq_self _ _).symm, hcovers⟩
  | cons size calls ih =>
    have hchunk : (p.grown wid size).chunks wid = grow (p.chunks wid) size := by
      rw [grown_chunks, Function.update_self]
    obtain ⟨q, hq, hchunks, hcov⟩ := ih (p := p.grown wid size) (by rw [hchunk]; exact hok.grow hfits.1.1)
      (by rw [hchunk]; exact hfits.2) (fun u => (hcovers u).grown hok)
    refine ⟨q, ?_, ?_, hcov⟩
    · rw [← hq, hchunk]
      simp only [recordsFrom, replay, List.foldlM_cons, if_true, updateVerMalloc_eq hfits.1.2]
      rfl
    · rw [hchunks, hchunk, grown_chunks, Function.update_idem, List.foldl_cons]

end Process

/-! ### Pages of records -/

namespace VerMallocBuffer

def records (buf : VerMallocBuffer) : List VerMallocInstance := (List.range buf.index).map buf.elem

/-- The records have a pointer, the entries behind them have none. -/
structure Ok (buf : VerMallocBuffer) : Prop where
  le : buf.index ≤ pageSize
  ptr_ne : ∀ k < buf.index, (buf.elem k).ptr ≠ 0
  ptr_eq : ∀ k, buf.index ≤ k → (buf.elem k).ptr = 0

theorem ok_cleared : cleared.Ok := ⟨Nat.zero_le _, fun _ h => absurd h (Nat.not_lt_zero _), fun _ _ => rfl⟩

variable {buf : VerMallocBuffer}

theorem Ok.recordsOf_page (h : buf.Ok) (c : ℕ) : recordsOf (fun k => buf.elem (c * instancesPerPage + k)) =
    (List.range' (c * instancesPerPage) (min instancesPerPage (buf.index - c * instancesPerPage))).map
    buf.elem := by
  set n := min instancesPerPage (buf.index - c * instancesPerPage) with hn
  have hmap : (List.range instancesPerPage).map (fun k => buf.elem (c * instancesPerPage + k)) =
      (List.range' (c * instancesPerPage) n).map buf.elem ++
        (List.range' (c * instancesPerPage + n) (instancesPerPage - n)).map buf.elem := by
    rw [← List.map_append, List.range'_append_1, Nat.add_sub_of_le (Nat.min_le_left _ _),
      List.range'_eq_map_range, List.map_map]
    rfl
  have hblank : ((List.range' (c * instancesPerPage + n) (instancesPerPage - n)).map buf.elem).takeWhile
      (fun r => r.ptr ≠ 0) = [] := by
    cases hlen : instancesPerPage - n with
    | zero => rfl
    | succ m =>
      have hptr : (buf.elem (c * instancesPerPage + n)).ptr = 0 := h.ptr_eq _ (by omega)
      rw [List.range'_succ, List.map_cons, List.takeWhile_cons, if_neg (by simpa using hptr)]
  rw [recordsOf, hmap, List.takeWhile_append_of_pos, hblank, List.append_nil]
  · intro r hr
    obtain ⟨k, hk, rfl⟩ := List.mem_map.1 hr
    rw [List.mem_range'_1] at hk
    simpa using h.ptr_ne k (by omega)

theorem Ok.flatMap_pages (h : buf.Ok) : ∀ n, ((List.range n).map fun c k =>
    buf.elem (c * instancesPerPage + k)).flatMap recordsOf =
      (List.range (min buf.index (n * instancesPerPage))).map buf.elem
  | 0 => by simp
  | n + 1 => by
    rw [List.range_succ, List.map_append, List.flatMap_append, h.flatMap_pages n, List.map_singleton,
      List.flatMap_singleton, h.recordsOf_page, ← List.map_append]
    congr 1
    rw [List.range_eq_range', List.range_eq_range']
    by_cases hle : n * instancesPerPage ≤ buf.index
    · have hsum := List.range'_append_1 (s := 0) (m := n * instancesPerPage)
        (n := min instancesPerPage (buf.index - n * instancesPerPage))
      rw [Nat.zero_add] at hsum
      rw [Nat.min_eq_right hle, hsum]
      congr 1
      rw [Nat.add_one_mul]
      omega
    · rw [Nat.sub_eq_zero_of_le (Nat.le_of_not_le hle), Nat.min_zero, List.range'_zero, List.append_nil,
        Nat.min_eq_left (Nat.le_of_not_le hle), Nat.min_eq_left]
      rw [Nat.add_one_mul]
      omega

/-- The pages that are sent hold the records of the buffer. -/
theorem Ok.flatMap_broadcast (h : buf.Ok) :
    (broadcastMallocChunk buf.elem (buf.index * instanceSize)).flatMap recordsOf = buf.records := by
  rw [broadcastMallocChunk, h.flatMap_pages, records, Nat.min_eq_left]
  split_ifs with hrem
  · simp only [pageSize, instanceSize, instancesPerPage] at hrem ⊢
    omega
  · simp only [pageSize, instanceSize, instancesPerPage] at hrem ⊢
    omega

theorem Ok.put_records (h : buf.Ok) {ptr size : ℕ} {heap : ℤ} (hptr : ptr ≠ 0) (hsize : size < 2 ^ 32) :
    (buf.put ptr size heap).Ok ∧
      buf.flush.flatMap recordsOf ++ (buf.put ptr size heap).records = buf.records ++ [⟨ptr, size, heap⟩] := by
  have hput : ∀ b : VerMallocBuffer, b.Ok → b.index < pageSize →
      Ok ⟨Function.update b.elem b.index ⟨ptr, size % 2 ^ 32, heap⟩, b.index + 1⟩ ∧
      records ⟨Function.update b.elem b.index ⟨ptr, size % 2 ^ 32, heap⟩, b.index + 1⟩ =
        b.records ++ [⟨ptr, size, heap⟩] := by
    intro b hb hlt
    refine ⟨⟨hlt, fun k hk => ?_, fun k hk => ?_⟩, ?_⟩
    · have hle : k ≤ b.index := Nat.le_of_lt_succ hk
      by_cases hlast : k = b.index
      · simp [hlast, hptr]
      · simpa [hlast] using hb.ptr_ne k (lt_of_le_of_ne hle hlast)
    · have hle : b.index < k := hk
      simpa [hle.ne'] using hb.ptr_eq k hle.le
    · simp only [records, List.range_succ, List.map_append, List.map_singleton, Function.update_self,
        Nat.mod_eq_of_lt hsize]
      congr 1
      refine List.map_congr_left fun k hk => Function.update_of_ne ?_ _ _
      exact (List.mem_range.1 hk).ne
  by_cases hfull : buf.index = pageSize
  · obtain ⟨hok, hrecords⟩ := hput cleared ok_cleared (by decide)
    have hflush : buf.flush.flatMap recordsOf = buf.records := by
      rw [flush, if_pos hfull, ← hfull, h.flatMap_broadcast]
    simp only [put, hfull, if_true]
    exact ⟨hok, by rw [hflush, hrecords]; rfl⟩
  · have hlt : buf.index < pageSize := lt_of_le_of_ne h.le hfull
    simp only [put, flush, hfull, if_false]
    exact ⟨(hput buf h hlt).1, (hput buf h hlt).2⟩

end VerMallocBuffer

end Cpf.Smtx.VerMalloc
