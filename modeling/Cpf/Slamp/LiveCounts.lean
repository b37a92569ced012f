import Cpf.Slamp.PageCounts

/-!
# Live objects and page counters

The invariant of a session lists the live objects by address, each with the rounding behind it
below `heap_next`, and says that the counter of every page is the number of live objects on it. It
is kept by every call whose sizes do not wrap and whose object stays on its pages.
-/

namespace Cpf.Slamp

section Arithmetic

variable {n k size alignment : ℕ}

theorem wrap64_of_lt (h : n < 2 ^ 64) : wrap64 n = n := Nat.mod_eq_of_lt h

theorem roundUp_spec (hk : 0 < k) (h : n + k ≤ 2 ^ 64) :
    n ≤ roundUp n k ∧ k ∣ roundUp n k ∧ roundUp n k < n + k := by
  have hwrap : roundUp n k = (n + (k - 1)) / k * k := by
    rw [roundUp, wrap64_of_lt (by omega)]
  have hsplit := Nat.div_add_mod (n + (k - 1)) k
  have hmod := Nat.mod_lt (n + (k - 1)) hk
  rw [hwrap, Nat.mul_comm]
  refine ⟨by omega, Nat.dvd_mul_right _ _, by omega⟩

/-- The rounding of an object ends on the object's last page or at the end of a page. -/
theorem rounding_aligned {a ptr sz : ℕ} (hptr : 2 ^ a ∣ ptr) (hsz : 2 ^ a ∣ sz) (hle : size ≤ sz)
    (hlt : sz < size + 2 ^ a) (hpos : 0 < ptr) :
    (ptr + size - 1) / pagesize = (ptr + sz - 1) / pagesize ∨ pagesize ∣ ptr + sz := by
  by_cases ha : a ≤ 12
  · left
    have hpage : 2 ^ a ∣ pagesize := pow_dvd_pow 2 ha
    by_contra hne
    -- a page boundary strictly inside the rounding would be a multiple of the alignment
    have hlast : (ptr + size - 1) / pagesize < (ptr + sz - 1) / pagesize :=
      lt_of_le_of_ne (Nat.div_le_div_right (by omega)) hne
    have hbound : pagesize * ((ptr + sz - 1) / pagesize) < ptr + sz := by
      have := Nat.mul_div_le (ptr + sz - 1) pagesize
      omega
    have hinside : ptr + size ≤ pagesize * ((ptr + sz - 1) / pagesize) := by
      have hnext := Nat.lt_mul_div_succ (ptr + size - 1) (show 0 < pagesize by decide)
      have hmul := Nat.mul_le_mul_left pagesize (Nat.succ_le_of_lt hlast)
      rw [Nat.succ_eq_add_one] at hmul
      omega
    have hdvd : 2 ^ a ∣ ptr + sz - pagesize * ((ptr + sz - 1) / pagesize) :=
      Nat.dvd_sub (Dvd.dvd.add hptr hsz) (hpage.mul_right _)
    have hge := Nat.le_of_dvd (by omega) hdvd
    omega
  · right
    have hpage : pagesize ∣ 2 ^ a := pow_dvd_pow 2 (show 12 ≤ a by omega)
    exact Dvd.dvd.add (hpage.trans hptr) (hpage.trans hsz)

end Arithmetic

/-- What `bound_malloc` returns when nothing wraps around. -/
structure Allocated (h : BoundHeap) (size ptr : ℕ) (h' : BoundHeap) : Prop where
  heapBegin : h'.heapBegin = h.heapBegin
  heapEnd : h'.heapEnd = h.heapEnd
  low : h.heapNext + 8 ≤ ptr
  next : h'.heapNext = ptr + h'.sizes ptr
  inside : h'.heapNext < h.heapEnd
  fits : size ≤ h'.sizes ptr
  rounding : (ptr + size - 1) / pagesize = (ptr + h'.sizes ptr - 1) / pagesize ∨
    pagesize ∣ ptr + h'.sizes ptr
  below : (ptr - 16) / pagesize = (ptr - 8) / pagesize
  sizes : ∀ p ≠ ptr, h'.sizes p = h.sizes p
  alive : h'.alive =
    (pagesFrom (pageOf (ptr - 8)) (pageOf (ptr + size - 1))).foldl countPage h.alive

theorem boundMalloc_spec {h h' : BoundHeap} {size alignment ptr : ℕ}
    (hfit : Session.MallocFits h size alignment) (hal : ∃ a < 64, alignment = 2 ^ a)
    (hlow : 8 ≤ h.heapNext) (hm : boundMalloc h size alignment = some (ptr, h')) :
    Allocated h size ptr h' := by
  obtain ⟨a, ha, rfl⟩ := hal
  have hpos : 0 < 2 ^ a := Nat.two_pow_pos a
  obtain ⟨hle, hdvd, hlt⟩ := roundUp_spec hpos hfit.rounds
  obtain ⟨hle', hdvd', hlt'⟩ := roundUp_spec hpos hfit.next
  have hlast := hfit.last
  have hbelow := hfit.below
  have hwrap : wrap64 (h.heapNext + 8) = h.heapNext + 8 := wrap64_of_lt (by
    have := hfit.next
    omega)
  unfold boundMalloc at hm
  rw [hwrap] at hm
  dsimp only at hm
  generalize hret : roundUp (h.heapNext + 8) (2 ^ a) = ret at *
  generalize hsz : roundUp size (2 ^ a) = sz at *
  have hback : wrap64 (wrap64 (ret + 2 ^ 64 - 8) + (8 + sz)) = ret + sz := by
    have hfirst : wrap64 (ret + 2 ^ 64 - 8) = ret - 8 := by
      unfold wrap64
      omega
    rw [hfirst, wrap64_of_lt (by omega)]
    omega
  have hbegin : objBegin ret = ret - 16 := by
    unfold objBegin wrap64
    omega
  have hend : objEnd ret size = ret + size - 1 := by
    unfold objEnd wrap64
    omega
  rw [hback, hbegin, hend] at hm
  split_ifs at hm with hpow hfull
  cases hm
  have hpages : pageOf (ptr - 16) = pageOf (ptr - 8) := by
    rw [pageOf, hbelow, pageOf]
  exact {
    heapBegin := rfl
    heapEnd := rfl
    low := hle'
    next := by simp
    inside := not_le.1 hfull
    fits := by simpa using hle
    rounding := by
      simp only [Function.update_self]
      exact rounding_aligned hdvd' hdvd hle hlt (by omega)
    below := hbelow
    sizes := fun p hp => Function.update_of_ne hp _ _
    alive := by rw [hpages] }

/-! ## The invariant -/

/-- A live object below `heap_next`, with its size and its rounding. -/
structure ObjOk (h : BoundHeap) (o : Obj) : Prop where
  low : h.heapBegin + 8 ≤ o.ptr
  high : o.ptr < h.heapEnd
  fits : o.size ≤ h.sizes o.ptr
  next : o.ptr + h.sizes o.ptr ≤ h.heapNext
  below : (o.ptr - 16) / pagesize = (o.ptr - 8) / pagesize
  rounding : (o.ptr + o.size - 1) / pagesize = (o.ptr + h.sizes o.ptr - 1) / pagesize ∨
    pagesize ∣ o.ptr + h.sizes o.ptr

/-- The header of the second object lies behind the first with its rounding. -/
def Before (h : BoundHeap) (o o' : Obj) : Prop := o.ptr + h.sizes o.ptr + 8 ≤ o'.ptr

structure SessionOk (s : Session) : Prop where
  low : 16 ≤ s.heap.heapBegin
  start : s.heap.heapBegin ≤ s.heap.heapNext
  top : s.heap.heapEnd < 2 ^ 64
  next : s.heap.heapNext ≤ s.heap.heapEnd
  objects : ∀ o ∈ s.live, ObjOk s.heap o
  apart : s.live.Pairwise (Before s.heap)
  counts : s.CountsLive
  counted : ∀ page, s.heap.alive page ≠ none → pagesize ∣ page ∧ page < s.heap.heapNext
  rounding : ∀ o ∈ s.live, ∀ page, pagesize ∣ page → pageOf (o.ptr + o.size - 1) < page →
    page ≤ pageOf (o.ptr + s.heap.sizes o.ptr - 1) → s.heap.alive page = none
  passed : ∀ page ∈ s.unmapped, pagesize ∣ page ∧ page + pagesize ≤ s.heap.heapNext
  dead : s.NothingLivePurged

section Invariant

variable {s : Session} {h : BoundHeap} {o o' : Obj} {page : ℕ}

theorem sessionOk_start {heapBegin heapEnd : ℕ} {sizes : ℕ → ℕ} (hlow : 16 ≤ heapBegin)
    (hle : heapBegin ≤ heapEnd) (htop : heapEnd < 2 ^ 64) :
    SessionOk (Session.start heapBegin heapEnd sizes) where
  low := hlow
  start := le_rfl
  top := htop
  next := hle
  objects := fun _ ho => absurd ho List.not_mem_nil
  apart := .nil
  counts := fun _ _ => rfl
  counted := fun _ hp => absurd rfl hp
  rounding := fun _ ho => absurd ho List.not_mem_nil
  passed := fun _ hp => absurd hp List.not_mem_nil
  dead := fun _ hp => absurd hp List.not_mem_nil

/-- Objects whose headers are 8 bytes apart are few. -/
theorem length_le_of_apart {l : List Obj} {lo hi : ℕ}
    (happ : l.Pairwise (fun o o' => o.ptr + 8 ≤ o'.ptr))
    (hl : ∀ o ∈ l, lo ≤ o.ptr ∧ o.ptr < hi) : 8 * l.length ≤ hi - lo + 7 := by
  induction l generalizing lo with
  | nil => exact Nat.zero_le _
  | cons o l ih =>
      obtain ⟨hfirst, hrest⟩ := List.pairwise_cons.1 happ
      obtain ⟨hle, hlt⟩ := hl o List.mem_cons_self
      have hlen : 8 * l.length ≤ hi - (o.ptr + 8) + 7 := ih hrest (fun o' ho' =>
        ⟨hfirst o' ho', (hl o' (List.mem_cons_of_mem _ ho')).2⟩)
      rw [List.length_cons]
      cases l with
      | nil =>
          rw [List.length_nil]
          omega
      | cons o' l =>
          have hnext := hfirst o' List.mem_cons_self
          have hlt' := (hl o' (List.mem_cons_of_mem _ List.mem_cons_self)).2
          omega

/-- The objects on one page are few, so that its counter does not wrap around. -/
theorem SessionOk.countP_lt (hs : SessionOk s) (page : ℕ) :
    s.live.countP (fun o => o.Overlaps page) < 1000 := by
  rw [List.countP_eq_length_filter]
  have hmem : ∀ o ∈ s.live.filter (fun o => o.Overlaps page), o ∈ s.live ∧ o.Overlaps page := by
    intro o ho
    simpa using List.mem_filter.1 ho
  have happ : (s.live.filter (fun o => o.Overlaps page)).Pairwise (Before s.heap) :=
    hs.apart.filter _
  cases hf : s.live.filter (fun o => o.Overlaps page) with
  | nil => decide
  | cons o rest =>
      rw [hf] at hmem happ
      obtain ⟨hfirst, hrest⟩ := List.pairwise_cons.1 happ
      obtain ⟨hlive, -, hover⟩ := hmem o List.mem_cons_self
      have hfits := (hs.objects o hlive).fits
      have hlen : 8 * rest.length ≤ page + pagesize + 8 - page + 7 := length_le_of_apart
        (hrest.imp (fun {o o'} hb => by
          unfold Before at hb
          omega))
        (fun o' ho' => by
          have hb := hfirst o' ho'
          have hover' := (hmem o' (List.mem_cons_of_mem _ ho')).2.1
          unfold Before at hb
          exact ⟨by omega, hover'⟩)
      rw [List.length_cons]
      unfold pagesize at hlen
      omega

/-- Distinct places in the list are distinct pointers. -/
theorem SessionOk.split (hs : SessionOk s) (ho : o ∈ s.live) : ∃ pre post,
    s.live = pre ++ o :: post ∧ s.live.filter (fun o' => o'.ptr ≠ o.ptr) = pre ++ post ∧
    (∀ o' ∈ pre ++ post, o'.ptr ≠ o.ptr) := by
  obtain ⟨pre, post, heq⟩ := List.append_of_mem ho
  have happ := hs.apart
  rw [heq, List.pairwise_append] at happ
  obtain ⟨-, hpost, hpre⟩ := happ
  have hne : ∀ o' ∈ pre ++ post, o'.ptr ≠ o.ptr := by
    intro o' ho'
    rcases List.mem_append.1 ho' with hin | hin
    · have hb := hpre o' hin o List.mem_cons_self
      unfold Before at hb
      omega
    · have hb := (List.pairwise_cons.1 hpost).1 o' hin
      unfold Before at hb
      omega
  refine ⟨pre, post, heq, ?_, hne⟩
  rw [heq, List.filter_append, List.filter_cons_of_neg (by simp), ← List.filter_append]
  exact List.filter_eq_self.2 (fun o' ho' => by simpa using hne o' ho')

end Invariant

/-! ## Allocation -/

section Malloc

variable {s : Session} {h h' : BoundHeap} {o : Obj} {size ptr page : ℕ}

theorem getD_increment {c : Option ℕ} (hc : c.getD 0 < 1000) :
    (some ((c.map increment).getD 1)).getD 0 = c.getD 0 + 1 := by
  cases c with
  | none => rfl
  | some c => exact Nat.mod_eq_of_lt (by rw [Option.getD_some] at hc; omega)

theorem Allocated.alive_eq (ha : Allocated s.heap size ptr h') (hs : SessionOk s)
    (hpage : pagesize ∣ page) : (h'.alive page).getD 0 =
      (s.heap.alive page).getD 0 + if (Obj.mk ptr size).Overlaps page then 1 else 0 := by
  have hlow := ha.low
  have hsmall := hs.countP_lt page
  rw [← hs.counts page hpage] at hsmall
  have hmem : page ∈ pagesFrom (pageOf (ptr - 8)) (pageOf (ptr + size - 1)) ↔
      (Obj.mk ptr size).Overlaps page := by
    rw [mem_pagesFrom, overlaps_iff (o := ⟨ptr, size⟩) (show 8 ≤ ptr by omega) hpage]
    exact and_iff_right hpage
  rw [ha.alive, foldl_countPage nodup_pagesFrom]
  by_cases hover : (Obj.mk ptr size).Overlaps page
  · rw [if_pos (hmem.2 hover), if_pos hover, getD_increment hsmall]
  · rw [if_neg (fun hc => hover (hmem.1 hc)), if_neg hover, Nat.add_zero]

theorem Allocated.objOk (ha : Allocated s.heap size ptr h') (ho : ObjOk s.heap o) :
    ObjOk h' o ∧ h'.sizes o.ptr = s.heap.sizes o.ptr := by
  have hlow := ha.low
  have hnext := ho.next
  have hnext' := ha.next
  have hne : o.ptr ≠ ptr := by omega
  have hsize := ha.sizes o.ptr hne
  refine ⟨⟨?_, ?_, ?_, ?_, ho.below, ?_⟩, hsize⟩
  · rw [ha.heapBegin]
    exact ho.low
  · rw [ha.heapEnd]
    exact ho.high
  · rw [hsize]
    exact ho.fits
  · rw [hsize]
    omega
  · rw [hsize]
    exact ho.rounding

theorem Allocated.sessionOk (ha : Allocated s.heap size ptr h') (hs : SessionOk s) :
    SessionOk ⟨h', s.live ++ [⟨ptr, size⟩], s.unmapped⟩ := by
  have hlow := ha.low
  have hnext := ha.next
  have hinside := ha.inside
  have hfits := ha.fits
  have hstart := hs.start
  have hmem : ∀ page ∈ pagesFrom (pageOf (ptr - 8)) (pageOf (ptr + size - 1)),
      pagesize ∣ page ∧ page < h'.heapNext ∧ pageOf (ptr - 8) ≤ page ∧
        page ≤ pageOf (ptr + size - 1) := by
    intro page hp
    obtain ⟨hdvd, hle, hge⟩ := mem_pagesFrom.1 hp
    refine ⟨hdvd, ?_, hle, hge⟩
    unfold pageOf pagesize at hge
    omega
  have halive : ∀ page, page ∉ pagesFrom (pageOf (ptr - 8)) (pageOf (ptr + size - 1)) →
      h'.alive page = s.heap.alive page := by
    intro page hp
    rw [ha.alive, foldl_countPage nodup_pagesFrom, if_neg hp]
  have hnew : ObjOk h' ⟨ptr, size⟩ := by
    refine ⟨?_, ?_, hfits, hnext.ge, ha.below, ha.rounding⟩
    · rw [ha.heapBegin]
      show s.heap.heapBegin + 8 ≤ ptr
      omega
    · rw [ha.heapEnd]
      show ptr < s.heap.heapEnd
      omega
  constructor
  · exact ha.heapBegin ▸ hs.low
  · show h'.heapBegin ≤ h'.heapNext
    rw [ha.heapBegin]
    omega
  · exact ha.heapEnd ▸ hs.top
  · show h'.heapNext ≤ h'.heapEnd
    rw [ha.heapEnd]
    omega
  · intro o ho
    rcases List.mem_append.1 ho with ho | ho
    · exact (ha.objOk (hs.objects o ho)).1
    · rw [List.mem_singleton.1 ho]
      exact hnew
  · refine List.pairwise_append.2 ⟨hs.apart.imp_of_mem ?_, List.pairwise_singleton _ _, ?_⟩
    · intro o o' ho _ hb
      unfold Before at *
      rwa [(ha.objOk (hs.objects o ho)).2]
    · intro o ho o' ho'
      rw [List.mem_singleton.1 ho']
      have hobj := (hs.objects o ho).next
      unfold Before
      rw [(ha.objOk (hs.objects o ho)).2]
      show _ ≤ ptr
      omega
  · intro page hpage
    have hcount := hs.counts page hpage
    show (h'.alive page).getD 0 = _
    rw [ha.alive_eq hs hpage, hcount, List.countP_append, List.countP_singleton]
    simp only [decide_eq_true_eq]
  · intro page hp
    by_cases hin : page ∈ pagesFrom (pageOf (ptr - 8)) (pageOf (ptr + size - 1))
    · exact ⟨(hmem page hin).1, (hmem page hin).2.1⟩
    · have hold := hs.counted page (by rwa [← halive page hin])
      exact ⟨hold.1, show page < h'.heapNext by omega⟩
  · intro o ho page hdvd hgt hle
    rcases List.mem_append.1 ho with ho | ho
    · have hobj := hs.objects o ho
      obtain ⟨-, hsize⟩ := ha.objOk hobj
      rw [show (Session.mk h' (s.live ++ [⟨ptr, size⟩]) s.unmapped).heap = h' from rfl, hsize] at hle
      have hnone := hs.rounding o ho page hdvd hgt hle
      have hbehind := hobj.next
      have hround := hobj.rounding
      refine (halive page (fun hin => ?_)).trans hnone
      have hge := (hmem page hin).2.2.1
      unfold pageOf pagesize at *
      omega
    · rw [List.mem_singleton.1 ho] at hgt
      have hout : page ∉ pagesFrom (pageOf (ptr - 8)) (pageOf (ptr + size - 1)) := by
        intro hin
        have hle' := (hmem page hin).2.2.2
        exact absurd hgt (not_lt.2 hle')
      show h'.alive page = none
      rw [halive page hout]
      by_contra hsome
      have hlt := (hs.counted page hsome).2
      unfold pageOf pagesize at *
      dsimp only at hgt
      omega
  · intro page hp
    obtain ⟨hdvd, hle⟩ := hs.passed page hp
    exact ⟨hdvd, show page + pagesize ≤ h'.heapNext by omega⟩
  · intro page hp o ho
    rcases List.mem_append.1 ho with ho | ho
    · exact hs.dead page hp o ho
    · rw [List.mem_singleton.1 ho]
      have hle := (hs.passed page hp).2
      rintro ⟨hlt, -⟩
      dsimp only at hlt
      omega

end Malloc

/-! ## Deallocation -/

section Free

variable {s : Session} {o : Obj} {ptr page : ℕ}

theorem boundFree_outside {h : BoundHeap} (hout : ptr = 0 ∨ ptr < h.heapBegin ∨ h.heapEnd ≤ ptr) :
    boundFree h ptr = ⟨h.alive, false, none, 0, []⟩ := if_pos hout

theorem consistent_nil {alive : ℕ → Option ℕ} :
    (FreeResult.mk alive false none 0 []).Consistent := ⟨rfl, rfl, rfl⟩

theorem boundFree_live (hs : SessionOk s) (ho : o ∈ s.live) : boundFree s.heap o.ptr =
    (pagesFrom (pageOf (o.ptr - 8)) (pageOf (o.ptr + s.heap.sizes o.ptr - 1))).foldl
      (freePage s.heap.heapNext) ⟨s.heap.alive, false, none, 0, []⟩ := by
  obtain ⟨hlow, hhigh, -, hnext, hbelow, -⟩ := hs.objects o ho
  have htop := hs.top
  have hend := hs.next
  have hstart := hs.low
  have hbegin : objBegin o.ptr = o.ptr - 16 := by
    unfold objBegin wrap64
    omega
  have hlast : objEnd o.ptr (s.heap.sizes o.ptr) = o.ptr + s.heap.sizes o.ptr - 1 := by
    unfold objEnd wrap64
    omega
  have hpages : pageOf (o.ptr - 16) = pageOf (o.ptr - 8) := by
    rw [pageOf, hbelow, pageOf]
  rw [boundFree, if_neg (by omega)]
  dsimp only
  rw [hbegin, hlast, hpages]

/-- A page of the range that `bound_free` visits is a page of the object or has no counter. -/
theorem SessionOk.visited (hs : SessionOk s) (ho : o ∈ s.live) (hpage : pagesize ∣ page) :
    page ∈ pagesFrom (pageOf (o.ptr - 8)) (pageOf (o.ptr + s.heap.sizes o.ptr - 1)) ↔
      o.Overlaps page ∨ (s.heap.alive page = none ∧
        page ∈ pagesFrom (pageOf (o.ptr - 8)) (pageOf (o.ptr + s.heap.sizes o.ptr - 1))) := by
  have hobj := hs.objects o ho
  have hstart := hs.low
  have hlow := hobj.low
  have hfits := hobj.fits
  have hover := overlaps_iff (o := o) (show 8 ≤ o.ptr by omega) hpage
  constructor
  · intro hin
    by_cases ho' : o.Overlaps page
    · exact .inl ho'
    · obtain ⟨-, hle, hge⟩ := mem_pagesFrom.1 hin
      refine .inr ⟨hs.rounding o ho page hpage ?_ hge, hin⟩
      by_contra hlt
      exact ho' (hover.2 ⟨hle, not_lt.1 hlt⟩)
  · rintro (ho' | ⟨-, hin⟩)
    · obtain ⟨hle, hge⟩ := hover.1 ho'
      refine mem_pagesFrom.2 ⟨hpage, hle, hge.trans ?_⟩
      exact Nat.mul_le_mul_right _ (Nat.div_le_div_right (by omega))
    · exact hin

theorem SessionOk.countP_split (hs : SessionOk s) (ho : o ∈ s.live) (page : ℕ) :
    s.live.countP (fun o' => o'.Overlaps page) =
      (s.live.filter (fun o' => o'.ptr ≠ o.ptr)).countP (fun o' => o'.Overlaps page) +
        if o.Overlaps page then 1 else 0 := by
  obtain ⟨pre, post, heq, hfilter, -⟩ := hs.split ho
  rw [hfilter, heq, List.countP_append, List.countP_cons, List.countP_append]
  simp only [decide_eq_true_eq]
  ring

theorem getD_decrement {c : Option ℕ} (h0 : 0 < c.getD 0) (hc : c.getD 0 < 1000) :
    c.getD 0 = (c.map decrement).getD 0 + 1 := by
  cases c with
  | none => exact absurd h0 (Nat.lt_irrefl 0)
  | some c =>
      rw [Option.getD_some] at h0 hc
      have hdec : decrement c = c - 1 := by
        unfold decrement
        omega
      rw [Option.map_some, Option.getD_some, Option.getD_some, hdec]
      omega

/-- A freed object is taken off exactly its pages. -/
theorem SessionOk.freed_alive (hs : SessionOk s) (ho : o ∈ s.live) (hpage : pagesize ∣ page) :
    (s.heap.alive page).getD 0 =
      ((s.heap.freed o.ptr).alive page).getD 0 + if o.Overlaps page then 1 else 0 := by
  have hcount := hs.counts page hpage
  have hsplit := hs.countP_split ho page
  have hsmall := hs.countP_lt page
  have hvisited := hs.visited ho hpage
  rw [← hcount] at hsplit hsmall
  rw [BoundHeap.freed, boundFree_live hs ho]
  dsimp only
  rw [foldl_freePage_alive nodup_pagesFrom]
  by_cases hover : o.Overlaps page
  · rw [if_pos (hvisited.2 (.inl hover)), if_pos hover]
    rw [if_pos hover] at hsplit
    exact getD_decrement (by omega) hsmall
  · rw [if_neg hover, Nat.add_zero]
    by_cases hin : page ∈ pagesFrom (pageOf (o.ptr - 8))
        (pageOf (o.ptr + s.heap.sizes o.ptr - 1))
    · have hnone := ((hvisited.1 hin).resolve_left hover).1
      simp only [if_pos hin, hnone, Option.map_none]
    · rw [if_neg hin]

theorem SessionOk.dead_iff (hs : SessionOk s) (hpage : pagesize ∣ page) :
    Dead s.heap.alive s.heap.heapNext page ↔
      s.live.countP (fun o => o.Overlaps page) = 1 ∧ page + pagesize ≤ s.heap.heapNext := by
  have hcount := hs.counts page hpage
  have hsmall := hs.countP_lt page
  unfold Dead
  refine and_congr_left (fun _ => ?_)
  rw [← hcount] at hsmall ⊢
  cases hc : s.heap.alive page with
  | none => simp
  | some c =>
      rw [hc, Option.getD_some] at hsmall
      rw [Option.map_some, Option.getD_some, Option.some.injEq]
      unfold decrement
      omega

theorem freed_unmapped (hs : SessionOk s) (ho : o ∈ s.live) : (boundFree s.heap o.ptr).unmapped =
    (pagesFrom (pageOf (o.ptr - 8)) (pageOf (o.ptr + s.heap.sizes o.ptr - 1))).filter
      (fun page => Dead s.heap.alive s.heap.heapNext page) := by
  rw [boundFree_live hs ho, foldl_freePage_unmapped nodup_pagesFrom]
  rfl

/-- What is unmapped is a page of the freed object and of no other live object. -/
theorem SessionOk.unmapped_spec (hs : SessionOk s) (ho : o ∈ s.live)
    (hp : page ∈ (boundFree s.heap o.ptr).unmapped) :
    pagesize ∣ page ∧ page + pagesize ≤ s.heap.heapNext ∧ o.Overlaps page ∧
      ∀ o' ∈ s.live.filter (fun o' => o'.ptr ≠ o.ptr), ¬ o'.Overlaps page := by
  rw [freed_unmapped hs ho, List.mem_filter, decide_eq_true_eq] at hp
  obtain ⟨hin, hdead⟩ := hp
  have hpage := (mem_pagesFrom.1 hin).1
  obtain ⟨hone, hle⟩ := (hs.dead_iff hpage).1 hdead
  have hover : o.Overlaps page := by
    refine ((hs.visited ho hpage).1 hin).resolve_right (fun hnone => ?_)
    have hcount := hs.counts page hpage
    rw [hnone.1, hone] at hcount
    exact absurd hcount (by decide)
  have hsplit := hs.countP_split ho page
  rw [hone, if_pos hover] at hsplit
  have hzero := List.countP_eq_zero.1 (Nat.add_eq_right.1 hsplit.symm)
  exact ⟨hpage, hle, hover, fun o' ho' => by simpa using hzero o' ho'⟩

theorem SessionOk.inner_dead (hs : SessionOk s) (ho : o ∈ s.live) (hpage : pagesize ∣ page)
    (hlow : pageOf (o.ptr - 8) < page) (hhigh : page + pagesize ≤ pageOf (o.ptr + o.size - 1)) :
    Dead s.heap.alive s.heap.heapNext page := by
  have hobj := hs.objects o ho
  have hfits := hobj.fits
  have hnext := hobj.next
  have hptr := hobj.low
  have hstart := hs.low
  have hfirst : o.ptr < page + 8 := by
    unfold pageOf pagesize at *
    omega
  have hlast : page + pagesize ≤ o.ptr + o.size - 1 := hhigh.trans (Nat.div_mul_le_self _ _)
  obtain ⟨pre, post, heq, -, -⟩ := hs.split ho
  have happ := hs.apart
  rw [heq, List.pairwise_append] at happ
  obtain ⟨-, hpost, hpre⟩ := happ
  have hover : o.Overlaps page := ⟨by omega, by omega⟩
  have hzero : ∀ l : List Obj, (∀ o' ∈ l, o' ∈ pre ∨ o' ∈ post) →
      l.countP (fun o' => o'.Overlaps page) = 0 := by
    intro l hl
    refine List.countP_eq_zero.2 (fun o' ho' => ?_)
    rw [decide_eq_true_eq]
    rintro ⟨hlt, hgt⟩
    rcases hl o' ho' with hin | hin
    · have hb := hpre o' hin o List.mem_cons_self
      have hfits' := (hs.objects o' (by rw [heq]; exact List.mem_append_left _ hin)).fits
      unfold Before at hb
      omega
    · have hb := (List.pairwise_cons.1 hpost).1 o' hin
      unfold Before at hb
      omega
  refine (hs.dead_iff hpage).2 ⟨?_, by omega⟩
  rw [heq, List.countP_append, List.countP_cons, hzero pre (fun _ h => .inl h),
    hzero post (fun _ h => .inr h), if_pos (by simpa using hover)]

theorem SessionOk.unmapped_range (hs : SessionOk s) (ho : o ∈ s.live) : ∃ start m,
    (boundFree s.heap o.ptr).unmapped = List.range' start m pagesize := by
  have hobj := hs.objects o ho
  have hfits := hobj.fits
  have hptr := hobj.low
  have hstart := hs.low
  rw [freed_unmapped hs ho, pagesFrom]
  generalize hb : pageOf (o.ptr - 8) = b
  generalize he : pageOf (o.ptr + o.size - 1) = e
  generalize he' : pageOf (o.ptr + s.heap.sizes o.ptr - 1) = e'
  have hbdvd : pagesize ∣ b := hb ▸ pageOf_dvd _
  have hedvd : pagesize ∣ e := he ▸ pageOf_dvd _
  have hle : e ≤ e' := by
    rw [← he, ← he']
    exact Nat.mul_le_mul_right _ (Nat.div_le_div_right (by omega))
  have hbe : b ≤ e := by
    rw [← hb, ← he]
    exact Nat.mul_le_mul_right _ (Nat.div_le_div_right (by omega))
  -- behind the object's last page there is only rounding, which has no counters
  have hsplit : List.range' b ((e' + pagesize - b) / pagesize) pagesize =
      List.range' b ((e + pagesize - b) / pagesize) pagesize ++
        List.range' (b + pagesize * ((e + pagesize - b) / pagesize))
          ((e' + pagesize - b) / pagesize - (e + pagesize - b) / pagesize) pagesize := by
    rw [List.range'_append]
    congr 1
    unfold pagesize
    omega
  have hrest : (List.range' (b + pagesize * ((e + pagesize - b) / pagesize))
      ((e' + pagesize - b) / pagesize - (e + pagesize - b) / pagesize) pagesize).filter
        (fun page => Dead s.heap.alive s.heap.heapNext page) = [] := by
    refine List.filter_eq_nil_iff.2 (fun page hpage => ?_)
    obtain ⟨i, hi, rfl⟩ := List.mem_range'.1 hpage
    have hnone := hs.rounding o ho (b + pagesize * ((e + pagesize - b) / pagesize) + pagesize * i)
      (by unfold pagesize at *; omega) (by rw [he]; unfold pagesize at *; omega)
      (by rw [he']; unfold pagesize at *; omega)
    rw [decide_eq_true_eq, Dead, hnone]
    exact fun hc => absurd hc.1 (by decide)
  rw [hsplit, List.filter_append, hrest, List.append_nil]
  refine filter_range' (fun i h0 hi => hs.inner_dead ho ?_ ?_ ?_)
  · exact Dvd.dvd.add hbdvd (Nat.dvd_mul_right _ _)
  · rw [hb]
    unfold pagesize
    omega
  · rw [he]
    unfold pagesize at *
    omega

theorem SessionOk.freeExact (hs : SessionOk s)
    (hvalid : s.Valid (.free ptr)) :
    s.FreeExact ptr := by
  constructor
  · by_cases hlive : ∃ o ∈ s.live, o.ptr = ptr
    · obtain ⟨o, ho, rfl⟩ := hlive
      obtain ⟨start, m, hrange⟩ := hs.unmapped_range ho
      have hcons : (boundFree s.heap o.ptr).Consistent := by
        rw [boundFree_live hs ho]
        exact foldl_freePage_consistent consistent_nil
      exact hcons.reports hrange
    · rw [boundFree_outside (hvalid.resolve_right hlive)]
      exact consistent_nil.reports (rfl : _ = List.range' 0 0 pagesize)
  · rintro o ho rfl page hpage
    exact hs.freed_alive ho hpage

theorem SessionOk.freed (hs : SessionOk s) (ho : o ∈ s.live) : SessionOk (s.free o.ptr) := by
  have halive : ∀ page, s.heap.alive page = none → (s.heap.freed o.ptr).alive page = none := by
    intro page hnone
    rw [BoundHeap.freed, boundFree_live hs ho]
    dsimp only
    rw [foldl_freePage_alive nodup_pagesFrom]
    split_ifs
    · simp only [hnone, Option.map_none]
    · exact hnone
  have hsub : ∀ o' ∈ (s.free o.ptr).live, o' ∈ s.live := fun o' ho' => (List.mem_filter.1 ho').1
  constructor
  · exact hs.low
  · exact hs.start
  · exact hs.top
  · exact hs.next
  · intro o' ho'
    obtain ⟨hlow, hhigh, hfits, hnext, hbelow, hround⟩ := hs.objects o' (hsub o' ho')
    exact ⟨hlow, hhigh, hfits, hnext, hbelow, hround⟩
  · exact hs.apart.filter _
  · intro page hpage
    have hfreed := hs.freed_alive ho hpage
    have hsplit := hs.countP_split ho page
    rw [← hs.counts page hpage] at hsplit
    show ((s.heap.freed o.ptr).alive page).getD 0 =
      (s.live.filter (fun o' => o'.ptr ≠ o.ptr)).countP (fun o' => o'.Overlaps page)
    omega
  · intro page hp
    exact hs.counted page (fun hnone => hp (halive page hnone))
  · intro o' ho' page hdvd hgt hle
    exact halive page (hs.rounding o' (hsub o' ho') page hdvd hgt hle)
  · intro page hp
    rcases List.mem_append.1 hp with hp | hp
    · exact hs.passed page hp
    · have hspec := hs.unmapped_spec ho hp
      exact ⟨hspec.1, hspec.2.1⟩
  · intro page hp o' ho'
    rcases List.mem_append.1 hp with hp | hp
    · exact hs.dead page hp o' (hsub o' ho')
    · exact (hs.unmapped_spec ho hp).2.2.2 o' ho'

theorem SessionOk.free (hs : SessionOk s)
    (hvalid : s.Valid (.free ptr)) :
    SessionOk (s.free ptr) := by
  by_cases hlive : ∃ o ∈ s.live, o.ptr = ptr
  · obtain ⟨o, ho, rfl⟩ := hlive
    exact hs.freed ho
  · have hres := boundFree_outside (hvalid.resolve_right hlive)
    have hall : s.live.filter (fun o => o.ptr ≠ ptr) = s.live :=
      List.filter_eq_self.2 (fun o ho => by simpa using fun he => hlive ⟨o, ho, he⟩)
    have hsame : s.free ptr = s := by
      rw [Session.free, BoundHeap.freed, hall, hres, List.append_nil]
    rw [hsame]
    exact hs

end Free

/-! ## Reallocation -/

section Resize

variable {s : Session} {h h' : BoundHeap} {o : Obj} {size page : ℕ}

theorem overlaps_congr {o o' : Obj} (hpage : pagesize ∣ page) (hptr : 8 ≤ o.ptr) (hptr' : 8 ≤ o'.ptr)
    (hfirst : (o.ptr - 8) / pagesize = (o'.ptr - 8) / pagesize)
    (hlast : (o.ptr + o.size - 1) / pagesize = (o'.ptr + o'.size - 1) / pagesize) :
    o.Overlaps page ↔ o'.Overlaps page := by
  rw [overlaps_iff hptr hpage, overlaps_iff hptr' hpage]
  simp only [pageOf, hfirst, hlast]

/-- The live object that is resized in place. -/
def shrunk (ptr size : ℕ) (o : Obj) : Obj := if o.ptr = ptr then ⟨ptr, size⟩ else o

theorem shrunk_ptr (ptr size : ℕ) (o : Obj) : (shrunk ptr size o).ptr = o.ptr := by
  unfold shrunk
  split_ifs with h
  · exact h.symm
  · rfl

theorem SessionOk.shrunk (hs : SessionOk s) {ptr : ℕ} (hle : size ≤ s.heap.sizes ptr)
    (hfit : ∀ o ∈ s.live, o.ptr = ptr →
      (o.ptr + size - 1) / pagesize = (o.ptr + o.size - 1) / pagesize) :
    SessionOk ⟨{ s.heap with sizes := Function.update s.heap.sizes ptr size },
      s.live.map (shrunk ptr size), s.unmapped⟩ := by
  have hsizes : ∀ p, Function.update s.heap.sizes ptr size p ≤ s.heap.sizes p := by
    intro p
    by_cases hp : p = ptr
    · rw [hp, Function.update_self]
      exact hle
    · rw [Function.update_of_ne hp]
  have hover : ∀ o ∈ s.live, ∀ page, pagesize ∣ page →
      ((Slamp.shrunk ptr size o).Overlaps page ↔ o.Overlaps page) := by
    intro o ho page hpage
    have hlow := (hs.objects o ho).low
    have hstart := hs.low
    by_cases hp : o.ptr = ptr
    · refine overlaps_congr hpage ?_ (by omega) ?_ ?_
      · rw [shrunk_ptr]
        omega
      · rw [shrunk_ptr]
      · rw [shrunk_ptr, Slamp.shrunk, if_pos hp]
        exact hfit o ho hp
    · rw [Slamp.shrunk, if_neg hp]
  constructor
  · exact hs.low
  · exact hs.start
  · exact hs.top
  · exact hs.next
  · intro o' ho'
    obtain ⟨o, ho, rfl⟩ := List.mem_map.1 ho'
    obtain ⟨hlow, hhigh, hfits, hnext, hbelow, hround⟩ := hs.objects o ho
    by_cases hp : o.ptr = ptr
    · subst hp
      rw [Slamp.shrunk, if_pos rfl]
      refine ⟨hlow, hhigh, ?_, ?_, hbelow, .inl ?_⟩
      · simp
      · simp only [Function.update_self]
        omega
      · simp only [Function.update_self]
    · rw [Slamp.shrunk, if_neg hp]
      have hsize : Function.update s.heap.sizes ptr size o.ptr = s.heap.sizes o.ptr :=
        Function.update_of_ne hp _ _
      refine ⟨hlow, hhigh, ?_, ?_, hbelow, ?_⟩ <;> simpa only [hsize]
  · refine List.pairwise_map.2 (hs.apart.imp (fun {o o'} hb => ?_))
    unfold Before at *
    rw [shrunk_ptr, shrunk_ptr]
    have hsize := hsizes o.ptr
    dsimp only
    omega
  · intro page hpage
    have hcongr : s.live.countP (fun o => (Slamp.shrunk ptr size o).Overlaps page) =
        s.live.countP (fun o => o.Overlaps page) :=
      List.countP_congr (fun o ho => by simpa using hover o ho page hpage)
    show (s.heap.alive page).getD 0 = _
    rw [hs.counts page hpage, List.countP_map]
    exact hcongr.symm
  · exact hs.counted
  · intro o' ho' page hdvd hgt hle'
    obtain ⟨o, ho, rfl⟩ := List.mem_map.1 ho'
    by_cases hp : o.ptr = ptr
    · rw [Slamp.shrunk, if_pos hp] at hgt hle'
      rw [show (Session.mk { s.heap with sizes := Function.update s.heap.sizes ptr size }
        (s.live.map (Slamp.shrunk ptr size)) s.unmapped).heap.sizes ptr = size from
          Function.update_self _ _ _] at hle'
      exact absurd hgt (not_lt.2 hle')
    · rw [Slamp.shrunk, if_neg hp] at hgt hle'
      rw [show (Session.mk { s.heap with sizes := Function.update s.heap.sizes ptr size }
        (s.live.map (Slamp.shrunk ptr size)) s.unmapped).heap.sizes o.ptr = s.heap.sizes o.ptr from
          Function.update_of_ne hp _ _] at hle'
      exact hs.rounding o ho page hdvd hgt hle'
  · exact hs.passed
  · intro page hp o' ho'
    obtain ⟨o, ho, rfl⟩ := List.mem_map.1 ho'
    rw [hover o ho page (hs.passed page hp).1]
    exact hs.dead page hp o ho

/-- A header written behind `heap_next` belongs to no live object. -/
theorem SessionOk.scribbled (hs : SessionOk s) {ptr : ℕ} (sz : ℕ) (hptr : s.heap.heapNext < ptr) :
    SessionOk ⟨{ s.heap with sizes := Function.update s.heap.sizes ptr sz }, s.live, s.unmapped⟩ := by
  have hsizes : ∀ o ∈ s.live, Function.update s.heap.sizes ptr sz o.ptr = s.heap.sizes o.ptr := by
    intro o ho
    have hnext := (hs.objects o ho).next
    exact Function.update_of_ne (by omega) _ _
  constructor
  · exact hs.low
  · exact hs.start
  · exact hs.top
  · exact hs.next
  · intro o ho
    obtain ⟨hlow, hhigh, hfits, hnext, hbelow, hround⟩ := hs.objects o ho
    refine ⟨hlow, hhigh, ?_, ?_, hbelow, ?_⟩ <;> simpa only [hsizes o ho]
  · refine hs.apart.imp_of_mem (fun {o o'} ho _ hb => ?_)
    unfold Before at *
    simpa only [hsizes o ho]
  · exact hs.counts
  · exact hs.counted
  · intro o ho page hdvd hgt hle
    refine hs.rounding o ho page hdvd hgt ?_
    rwa [← hsizes o ho]
  · exact hs.passed
  · exact hs.dead

/-- The object moves behind all others, on the page of the old one. -/
theorem SessionOk.moved (hs : SessionOk s) (ho : o ∈ s.live) (hgrow : s.heap.sizes o.ptr < size)
    (hfit : Session.ResizeFits s.heap o size)
    (hroom : s.heap.heapNext + 16 + roundUp size 16 ≤ s.heap.heapEnd) :
    SessionOk ⟨{ s.heap with
        heapNext := s.heap.heapNext + 16 + roundUp size 16
        sizes := Function.update s.heap.sizes (s.heap.heapNext + 16) (roundUp size 16) },
      s.live.filter (fun o' => o'.ptr ≠ o.ptr) ++ [⟨s.heap.heapNext + 16, size⟩], s.unmapped⟩ := by
  obtain ⟨hold, hlast, hnew⟩ := hfit.moved hgrow hroom
  obtain ⟨hsz, -, -⟩ := roundUp_spec (by decide) (hfit.rounds hgrow)
  have hlow := (hs.objects o ho).low
  have hstart := hs.start
  have hlow' := hs.low
  generalize roundUp size 16 = sz at *
  have hscrib := hs.scribbled sz (show s.heap.heapNext < s.heap.heapNext + 16 by omega)
  have hsub : ∀ o' ∈ s.live.filter (fun o' => o'.ptr ≠ o.ptr), o' ∈ s.live :=
    fun o' ho' => (List.mem_filter.1 ho').1
  have hover : ∀ page, pagesize ∣ page →
      ((Obj.mk (s.heap.heapNext + 16) size).Overlaps page ↔ o.Overlaps page) := by
    intro page hpage
    refine overlaps_congr hpage (Nat.le_add_left _ _) (by omega) ?_ ?_
    · dsimp only
      rw [hold]
      unfold pagesize at *
      omega
    · dsimp only
      rw [hlast]
      unfold pagesize at *
      omega
  constructor
  · exact hs.low
  · show s.heap.heapBegin ≤ s.heap.heapNext + 16 + sz
    omega
  · exact hs.top
  · exact hroom
  · intro o' ho'
    rcases List.mem_append.1 ho' with ho' | ho'
    · obtain ⟨hl, hh, hf, hn, hb, hr⟩ := hscrib.objects o' (hsub o' ho')
      refine ⟨hl, hh, hf, hn.trans ?_, hb, hr⟩
      show s.heap.heapNext ≤ s.heap.heapNext + 16 + sz
      omega
    · rw [List.mem_singleton.1 ho']
      refine ⟨?_, ?_, ?_, ?_, ?_, .inl ?_⟩
      · show s.heap.heapBegin + 8 ≤ s.heap.heapNext + 16
        omega
      · show s.heap.heapNext + 16 < s.heap.heapEnd
        omega
      · simpa only [Function.update_self]
      · simp only [Function.update_self, le_refl]
      · show (s.heap.heapNext + 16 - 16) / pagesize = (s.heap.heapNext + 16 - 8) / pagesize
        unfold pagesize at *
        omega
      · simp only [Function.update_self]
        unfold pagesize at *
        omega
  · refine List.pairwise_append.2 ⟨hscrib.apart.filter _, List.pairwise_singleton _ _, ?_⟩
    intro o' ho' o'' ho''
    rw [List.mem_singleton.1 ho'']
    have hnext := (hscrib.objects o' (hsub o' ho')).next
    unfold Before
    dsimp only at hnext ⊢
    omega
  · intro page hpage
    have hcount := hs.counts page hpage
    have hsplit := hs.countP_split ho page
    show (s.heap.alive page).getD 0 = _
    rw [hcount, hsplit, List.countP_append, List.countP_singleton]
    simp only [decide_eq_true_eq, hover page hpage]
  · intro page hp
    obtain ⟨hdvd, hlt⟩ := hs.counted page hp
    exact ⟨hdvd, show page < s.heap.heapNext + 16 + sz by omega⟩
  · intro o' ho' page hdvd hgt hle
    rcases List.mem_append.1 ho' with ho' | ho'
    · exact hscrib.rounding o' (hsub o' ho') page hdvd hgt hle
    · rw [List.mem_singleton.1 ho'] at hgt hle
      dsimp only at hgt hle
      rw [Function.update_self] at hle
      unfold pageOf pagesize at *
      omega
  · intro page hp
    obtain ⟨hdvd, hle⟩ := hs.passed page hp
    exact ⟨hdvd, show page + pagesize ≤ s.heap.heapNext + 16 + sz by omega⟩
  · intro page hp o' ho'
    rcases List.mem_append.1 ho' with ho' | ho'
    · exact hs.dead page hp o' (hsub o' ho')
    · rw [List.mem_singleton.1 ho']
      have hle := (hs.passed page hp).2
      rintro ⟨hlt, -⟩
      dsimp only at hlt
      omega

theorem SessionOk.resized (hs : SessionOk s) (ho : o ∈ s.live)
    (hfit : Session.ResizeFits s.heap o size) : SessionOk (s.resized o.ptr size) := by
  have hnext := (hs.objects o ho).next
  by_cases hle : size ≤ s.heap.sizes o.ptr
  · have hok := hs.shrunk hle (fun o' ho' he => by
      have hsame : o' = o := by
        by_contra hne
        obtain ⟨pre, post, heq, -, hother⟩ := hs.split ho
        rw [heq] at ho'
        rcases List.mem_append.1 ho' with hin | hin
        · exact hother o' (List.mem_append_left _ hin) he
        · rcases List.mem_cons.1 hin with rfl | hin
          · exact hne rfl
          · exact hother o' (List.mem_append_right _ hin) he
      rw [hsame]
      exact hfit.inPlace hle)
    have heq : s.resized o.ptr size =
        ⟨{ s.heap with sizes := Function.update s.heap.sizes o.ptr size },
          s.live.map (Slamp.shrunk o.ptr size), s.unmapped⟩ := by
      simp only [Session.resized, resize, if_pos hle]
      rfl
    rw [heq]
    exact hok
  · have hgrow : s.heap.sizes o.ptr < size := not_le.1 hle
    have hlast := hfit.last hgrow
    have hptr : wrap64 (s.heap.heapNext + 8 + 8) = s.heap.heapNext + 16 :=
      wrap64_of_lt (by omega)
    have hwrap : wrap64 (s.heap.heapNext + 16 + roundUp size 16) =
        s.heap.heapNext + 16 + roundUp size 16 := wrap64_of_lt hlast
    by_cases hroom : s.heap.heapEnd < s.heap.heapNext + 16 + roundUp size 16
    · have heq : s.resized o.ptr size =
          ⟨{ s.heap with sizes :=
              Function.update s.heap.sizes (s.heap.heapNext + 16) (roundUp size 16) },
            s.live, s.unmapped⟩ := by
        simp only [Session.resized, resize, if_neg hle, hptr, hwrap, if_pos hroom, if_true]
      rw [heq]
      exact hs.scribbled (roundUp size 16) (by omega)
    · have hne : s.heap.heapNext + 16 ≠ o.ptr := by omega
      have heq : s.resized o.ptr size = ⟨{ s.heap with
            heapNext := s.heap.heapNext + 16 + roundUp size 16
            sizes := Function.update s.heap.sizes (s.heap.heapNext + 16) (roundUp size 16) },
          s.live.filter (fun o' => o'.ptr ≠ o.ptr) ++ [⟨s.heap.heapNext + 16, size⟩],
          s.unmapped⟩ := by
        simp only [Session.resized, resize, if_neg hle, hptr, hwrap, if_neg hroom, if_neg hne]
      rw [heq]
      exact hs.moved ho hgrow hfit (not_lt.1 hroom)

end Resize

/-! ## Runs -/

section Runs

variable {s s' t : Session} {c : Call} {calls : List Call}

theorem SessionOk.malloc (hs : SessionOk s) {size alignment : ℕ}
    (hal : ∃ a < 64, alignment = 2 ^ a) (hfit : Session.MallocFits s.heap size alignment)
    (hm : s.malloc size alignment = some s') : SessionOk s' := by
  obtain ⟨⟨ptr, h'⟩, hres, rfl⟩ := Option.map_eq_some_iff.1 hm
  have hstart := hs.start
  have hlow := hs.low
  exact (boundMalloc_spec hfit hal (by omega) hres).sessionOk hs

theorem SessionOk.mallocExact (hs : SessionOk s) {size alignment : ℕ}
    (hal : ∃ a < 64, alignment = 2 ^ a) (hfit : Session.MallocFits s.heap size alignment) :
    s.MallocExact size alignment := by
  intro ptr h' hres page hpage
  have hstart := hs.start
  have hlow := hs.low
  exact (boundMalloc_spec hfit hal (by omega) hres).alive_eq hs hpage

theorem sixteen_pow : ∃ a < 64, 16 = 2 ^ a := ⟨4, by decide, by decide⟩

theorem SessionOk.step (hs : SessionOk s) (hvalid : s.Valid c) (hfit : s.Fits c)
    (hstep : s.step c = some s') : SessionOk s' := by
  cases c with
  | malloc size alignment => exact hs.malloc hvalid hfit hstep
  | free ptr =>
      cases hstep
      exact hs.free hvalid
  | realloc ptr size =>
      unfold Session.step at hstep
      unfold Session.Fits at hfit
      dsimp only at hstep hfit
      by_cases h0 : ptr = 0
      · rw [if_pos h0] at hstep hfit
        exact hs.malloc sixteen_pow hfit hstep
      · rw [if_neg h0] at hstep hfit
        obtain ⟨o, ho, rfl⟩ := hvalid.resolve_left h0
        by_cases hz : size = 0
        · rw [if_pos hz] at hstep
          cases hstep
          exact hs.freed ho
        · rw [if_neg hz] at hstep
          cases hstep
          exact hs.resized ho (hfit.resolve_left hz o ho rfl)

theorem SessionOk.run (hs : SessionOk s) (hrun : s.run calls t) : SessionOk t := by
  induction calls generalizing s with
  | nil => exact hrun ▸ hs
  | cons c calls ih =>
      obtain ⟨hvalid, hfit, s', hstep, hrest⟩ := hrun
      exact ih (hs.step hvalid hfit hstep) hrest

theorem SessionOk.callExact (hs : SessionOk s) (hvalid : s.Valid c) (hfit : s.Fits c) :
    s.CallExact c := by
  cases c with
  | malloc size alignment => exact hs.mallocExact hvalid hfit
  | free ptr => exact hs.freeExact hvalid
  | realloc ptr size =>
      refine ⟨fun h0 => ?_, fun h0 _ => hs.freeExact (.inr (hvalid.resolve_left h0))⟩
      unfold Session.Fits at hfit
      dsimp only at hfit
      rw [if_pos h0] at hfit
      exact hs.mallocExact sixteen_pow hfit

/-- In a run whose calls keep their objects on the pages they were counted on, every counter is the
number of live objects on its page, nothing live is ever unmapped, and each call counts or uncounts
exactly the pages of its object and reports exactly what it unmaps. -/
theorem bound_malloc_runs {heapBegin heapEnd : ℕ} {sizes : ℕ → ℕ} (hlow : 16 ≤ heapBegin)
    (hle : heapBegin ≤ heapEnd) (htop : heapEnd < 2 ^ 64)
    (hrun : (Session.start heapBegin heapEnd sizes).run calls t) :
    t.CountsLive ∧ t.NothingLivePurged ∧ ∀ c, t.Valid c → t.Fits c → t.CallExact c := by
  have ht := SessionOk.run (sessionOk_start hlow hle htop) hrun
  exact ⟨ht.counts, ht.dead, fun c hvalid hfit => ht.callExact hvalid hfit⟩

theorem bound_malloc_runs_twoPages : ∃ t,
    (Session.start 0x100000000 0x10000000000 (fun _ => 0)).run
      [.malloc 5000 16, .free 0x100000010] t ∧ t.CountsLive := by
  have hrun : (Session.start 0x100000000 0x10000000000 (fun _ => 0)).run
      [.malloc 5000 16, .free 0x100000010] _ :=
    ⟨⟨4, by decide, rfl⟩, ⟨by decide, by decide, by decide, by decide⟩, _, rfl,
      .inr ⟨⟨0x100000010, 5000⟩, List.mem_singleton.2 rfl, rfl⟩, trivial, _, rfl, rfl⟩
  exact ⟨_, hrun, (bound_malloc_runs (by decide) (by decide) (by decide) hrun).1⟩

/-- A moved object is counted on no page. -/
theorem realloc_uncounted : ∃ s,
    ((Session.start 0x100000000 0x10000000000 (fun _ => 0)).step (.malloc 16 16)).bind
      (fun s => s.step (.realloc 0x100000010 8192)) = some s ∧ ¬ s.CountsLive := by
  refine ⟨_, rfl, fun hcounts => ?_⟩
  have hpage := hcounts 0x100001000 (by decide)
  exact absurd hpage (by decide)

end Runs

end Cpf.Slamp
