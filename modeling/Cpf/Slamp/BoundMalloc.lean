import Mathlib.Data.List.Nodup
import Mathlib.Tactic

/-!
# The page-counting allocator of SLAMP

`bound_malloc` hands out the next piece of one large heap, with the size of the object in the word
in front of it, and counts the object on every page from 16 bytes below it to its last byte.
`bound_free` takes it off the pages again, unmaps those on which no object is left, and reports them
so that their shadow can be unmapped too. `bound_realloc` shrinks in place or moves the object.
-/

namespace Cpf.Slamp

abbrev pagesize : ℕ := 4096

def pageOf (a : ℕ) : ℕ := a / pagesize * pagesize

def wrap64 (a : ℕ) : ℕ := a % 2 ^ 64

def roundUp (n k : ℕ) : ℕ := wrap64 (n + (k - 1)) / k * k

def objBegin (ptr : ℕ) : ℕ := wrap64 (ptr + 2 ^ 64 - 16)

def objEnd (ptr size : ℕ) : ℕ := wrap64 (ptr + size + 2 ^ 64 - 1)

/-- `for (page = pagebegin; page <= pageend; page += pagesize)`. -/
def pagesFrom (pagebegin pageend : ℕ) : List ℕ :=
  List.range' pagebegin ((pageend + pagesize - pagebegin) / pagesize) pagesize

/-- `sizes` is the word in front of a pointer and `alive` is `page_alive_ptr_count`. -/
structure BoundHeap where
  heapBegin : ℕ
  heapEnd : ℕ
  heapNext : ℕ
  sizes : ℕ → ℕ
  alive : ℕ → Option ℕ

def increment (c : ℕ) : ℕ := (c + 1) % 2 ^ 32

def decrement (c : ℕ) : ℕ := (c + (2 ^ 32 - 1)) % 2 ^ 32

def countPage (alive : ℕ → Option ℕ) (page : ℕ) : ℕ → Option ℕ :=
  Function.update alive page
    (match alive page with
      | none => some 1
      | some c => some (increment c))

def boundMalloc (h : BoundHeap) (size alignment : ℕ) : Option (ℕ × BoundHeap) :=
  let sz := roundUp size alignment
  if alignment &&& (alignment - 1) ≠ 0 then none
  else
    let ret := roundUp (wrap64 (h.heapNext + 8)) alignment
    let heapNext := wrap64 (wrap64 (ret + 2 ^ 64 - 8) + (8 + sz))
    if h.heapEnd ≤ heapNext then none
    else
      let pages := pagesFrom (pageOf (objBegin ret)) (pageOf (objEnd ret size))
      some (ret, { h with
        heapNext := heapNext
        sizes := Function.update h.sizes ret sz
        alive := pages.foldl countPage h.alive })

/-- What a call of `bound_free` has done so far; `unmapped` are the pages given to `munmap`. -/
structure FreeResult where
  alive : ℕ → Option ℕ
  purge : Bool
  startingPage : Option ℕ
  purgeCnt : ℕ
  unmapped : List ℕ

def freePage (heapNext : ℕ) (f : FreeResult) (page : ℕ) : FreeResult :=
  match f.alive page with
  | none => f
  | some c =>
      let f := { f with alive := Function.update f.alive page (some (decrement c)) }
      if decrement c = 0 ∧ page + pagesize ≤ heapNext then
        { f with
          purge := true
          startingPage := if f.purge then f.startingPage else some page
          purgeCnt := f.purgeCnt + 1
          unmapped := f.unmapped ++ [page] }
      else f

def boundFree (h : BoundHeap) (ptr : ℕ) : FreeResult :=
  if ptr = 0 ∨ ptr < h.heapBegin ∨ h.heapEnd ≤ ptr then ⟨h.alive, false, none, 0, []⟩
  else
    let size := h.sizes ptr
    (pagesFrom (pageOf (objBegin ptr)) (pageOf (objEnd ptr size))).foldl (freePage h.heapNext)
      ⟨h.alive, false, none, 0, []⟩

/-- The heap after the pages of an object have been taken off. -/
def BoundHeap.freed (h : BoundHeap) (ptr : ℕ) : BoundHeap := { h with alive := (boundFree h ptr).alive }

/-- `bound_realloc` of an object that stays allocated. -/
def resize (h : BoundHeap) (ptr size : ℕ) : ℕ × BoundHeap :=
  let oldSz := h.sizes ptr
  if size ≤ oldSz then (ptr, { h with sizes := Function.update h.sizes ptr size })
  else
    let sz := roundUp size 16
    let newPtr := wrap64 (h.heapNext + 8 + 8)
    let sizes := Function.update h.sizes newPtr sz
    let heapNext := wrap64 (newPtr + sz)
    if h.heapEnd < heapNext then (ptr, { h with sizes := sizes })
    else (newPtr, { h with heapNext := heapNext, sizes := sizes })

/-- The page table of the shadow memory after `deallocate_pages`. -/
def deallocatePages : ℕ → ℕ → Finset ℕ → Finset ℕ
  | 0, _, pages => pages
  | cnt + 1, page, pages => deallocatePages cnt (page + pagesize) (pages.erase page)

/-! ## Sessions -/

structure Obj where
  ptr : ℕ
  size : ℕ
  deriving DecidableEq

/-- A byte of the object or of the word in front of it is on the page. -/
def Obj.Overlaps (o : Obj) (page : ℕ) : Prop := o.ptr < page + pagesize + 8 ∧ page < o.ptr + o.size

instance (o : Obj) (page : ℕ) : Decidable (o.Overlaps page) :=
  inferInstanceAs (Decidable (o.ptr < page + pagesize + 8 ∧ page < o.ptr + o.size))

/-- The heap, the live objects and every page unmapped so far. -/
structure Session where
  heap : BoundHeap
  live : List Obj
  unmapped : List ℕ

inductive Call where
  | malloc (size alignment : ℕ)
  | free (ptr : ℕ)
  | realloc (ptr size : ℕ)

namespace Session

def malloc (s : Session) (size alignment : ℕ) : Option Session :=
  (boundMalloc s.heap size alignment).map (fun r => ⟨r.2, s.live ++ [⟨r.1, size⟩], s.unmapped⟩)

def free (s : Session) (ptr : ℕ) : Session where
  heap := s.heap.freed ptr
  live := s.live.filter (fun o => o.ptr ≠ ptr)
  unmapped := s.unmapped ++ (boundFree s.heap ptr).unmapped

/-- The user's object becomes the one that is returned; where the heap is full the old one stays. -/
def resized (s : Session) (ptr size : ℕ) : Session where
  heap := (resize s.heap ptr size).2
  live :=
    if size ≤ s.heap.sizes ptr then
      s.live.map (fun o => if o.ptr = ptr then ⟨ptr, size⟩ else o)
    else if (resize s.heap ptr size).1 = ptr then s.live
    else s.live.filter (fun o => o.ptr ≠ ptr) ++ [⟨(resize s.heap ptr size).1, size⟩]
  unmapped := s.unmapped

def step (s : Session) : Call → Option Session
  | .malloc size alignment => s.malloc size alignment
  | .free ptr => some (s.free ptr)
  | .realloc ptr size =>
      if ptr = 0 then s.malloc size 16
      else if size = 0 then some (s.free ptr)
      else some (s.resized ptr size)

/-- Alignments are powers of two, and what is freed or moved is live, or null or outside the heap
for `bound_free`. -/
def Valid (s : Session) : Call → Prop
  | .malloc _ alignment => ∃ a < 64, alignment = 2 ^ a
  | .free ptr =>
      (ptr = 0 ∨ ptr < s.heap.heapBegin ∨ s.heap.heapEnd ≤ ptr) ∨ ∃ o ∈ s.live, o.ptr = ptr
  | .realloc ptr _ => ptr = 0 ∨ ∃ o ∈ s.live, o.ptr = ptr

/-- No size wraps around, and the 16 bytes below the new object are on one page. -/
structure MallocFits (h : BoundHeap) (size alignment : ℕ) : Prop where
  rounds : size + alignment ≤ 2 ^ 64
  next : h.heapNext + 8 + alignment ≤ 2 ^ 64
  last : roundUp (h.heapNext + 8) alignment + roundUp size alignment < 2 ^ 64
  below : (roundUp (h.heapNext + 8) alignment - 16) / pagesize =
    (roundUp (h.heapNext + 8) alignment - 8) / pagesize

/-- An object that moves stays on the single page of the old one; one that shrinks, or grows into
its rounding, keeps its last page. -/
structure ResizeFits (h : BoundHeap) (o : Obj) (size : ℕ) : Prop where
  inPlace : size ≤ h.sizes o.ptr →
    (o.ptr + size - 1) / pagesize = (o.ptr + o.size - 1) / pagesize
  rounds : h.sizes o.ptr < size → size + 16 ≤ 2 ^ 64
  last : h.sizes o.ptr < size → h.heapNext + 16 + roundUp size 16 < 2 ^ 64
  moved : h.sizes o.ptr < size → h.heapNext + 16 + roundUp size 16 ≤ h.heapEnd →
    (o.ptr - 8) / pagesize = h.heapNext / pagesize ∧
    (o.ptr + o.size - 1) / pagesize = h.heapNext / pagesize ∧
    (h.heapNext + 16 + roundUp size 16 - 1) / pagesize = h.heapNext / pagesize

/-- The call does what it does on the pages of its object only. -/
def Fits (s : Session) : Call → Prop
  | .malloc size alignment => MallocFits s.heap size alignment
  | .free _ => True
  | .realloc ptr size =>
      if ptr = 0 then MallocFits s.heap size 16
      else size = 0 ∨ ∀ o ∈ s.live, o.ptr = ptr → ResizeFits s.heap o size

/-- A run of valid calls that meet the condition. -/
def run : Session → List Call → Session → Prop
  | s, [], t => s = t
  | s, c :: cs, t => s.Valid c ∧ s.Fits c ∧ ∃ s', s.step c = some s' ∧ run s' cs t

def start (heapBegin heapEnd : ℕ) (sizes : ℕ → ℕ) : Session :=
  ⟨⟨heapBegin, heapEnd, heapBegin, sizes, fun _ => none⟩, [], []⟩

def CountsLive (s : Session) : Prop :=
  ∀ page, pagesize ∣ page →
    (s.heap.alive page).getD 0 = s.live.countP (fun o => o.Overlaps page)

def NothingLivePurged (s : Session) : Prop := ∀ page ∈ s.unmapped, ∀ o ∈ s.live, ¬ o.Overlaps page

end Session

structure FreeResult.Reports (r : FreeResult) : Prop where
  purge : r.purge = true ↔ r.unmapped ≠ []
  pages : r.unmapped = List.range' (r.startingPage.getD 0) r.purgeCnt pagesize
  shadow : ∀ pages, deallocatePages r.purgeCnt (r.startingPage.getD 0) pages =
    pages.filter (fun page => page ∉ r.unmapped)

namespace Session

/-- A new object is counted on exactly its pages. -/
def MallocExact (s : Session) (size alignment : ℕ) : Prop :=
  ∀ ptr h', boundMalloc s.heap size alignment = some (ptr, h') → ∀ page, pagesize ∣ page →
    (h'.alive page).getD 0 =
      (s.heap.alive page).getD 0 + if (Obj.mk ptr size).Overlaps page then 1 else 0

/-- A freed object is taken off exactly its pages, and what is unmapped is reported. -/
def FreeExact (s : Session) (ptr : ℕ) : Prop :=
  (boundFree s.heap ptr).Reports ∧
  ∀ o ∈ s.live, o.ptr = ptr → ∀ page, pagesize ∣ page →
    (s.heap.alive page).getD 0 =
      ((s.heap.freed ptr).alive page).getD 0 + if o.Overlaps page then 1 else 0

def CallExact (s : Session) : Call → Prop
  | .malloc size alignment => s.MallocExact size alignment
  | .free ptr => s.FreeExact ptr
  | .realloc ptr size =>
      (ptr = 0 → s.MallocExact size 16) ∧ (ptr ≠ 0 → size = 0 → s.FreeExact ptr)

end Session

end Cpf.Slamp
