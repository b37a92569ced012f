import Mathlib.Tactic

/-!
# Shadow memory of the memory profiler

The profiler keeps an item for each byte of the program, in pages that are created when they are first touched.
A bit for each byte tells if it has an item. Each instruction remembers the page that it touched last. Seen from
outside the shadow memory is a function from addresses to optional items.
-/

namespace Cpf.Lamp

def offsetMask : UInt64 := 0xfff

def amPageAddr (addr : UInt64) : UInt64 := addr &&& ~~~offsetMask

def amOffset (addr : UInt64) : ℕ := (addr &&& offsetMask).toNat

theorem amPageAddr_or_and (addr : UInt64) : amPageAddr addr ||| (addr &&& offsetMask) = addr := by
  rw [amPageAddr]
  apply UInt64.toBitVec_inj.1
  simp only [UInt64.toBitVec_or, UInt64.toBitVec_and, UInt64.toBitVec_not]
  rw [← BitVec.and_or_distrib_left, BitVec.not_or_self, BitVec.and_allOnes]

theorem addr_ext {a b : UInt64} (hpage : amPageAddr a = amPageAddr b) (hoffset : amOffset a = amOffset b) :
    a = b := by
  rw [← amPageAddr_or_and a, ← amPageAddr_or_and b, hpage, UInt64.toNat_inj.1 hoffset]

theorem toNat_amPageAddr (addr : UInt64) : (amPageAddr addr).toNat = addr.toNat / 4096 * 4096 := by
  have hshift : addr.toNat / 4096 * 4096 = addr.toNat >>> 12 <<< 12 := by
    rw [Nat.shiftLeft_eq, Nat.shiftRight_eq_div_pow]
  have hmask : offsetMask.toBitVec = BitVec.ofNat 64 (2 ^ 12 - 1) := rfl
  rw [hshift, ← UInt64.toNat_toBitVec, ← UInt64.toNat_toBitVec, amPageAddr, UInt64.toBitVec_and,
    UInt64.toBitVec_not]
  apply Nat.eq_of_testBit_eq
  intro i
  rw [← BitVec.getLsbD, BitVec.getLsbD_and, BitVec.getLsbD_not, hmask, BitVec.getLsbD_ofNat,
    Nat.testBit_two_pow_sub_one,
    Nat.testBit_shiftLeft, Nat.testBit_shiftRight, BitVec.getLsbD]
  by_cases hi : i < 12
  · simp [hi, Nat.not_le.2 hi]
  · by_cases hlt : i < 64
    · simp [hi, hlt, Nat.le_of_not_lt hi, Nat.add_sub_cancel' (Nat.le_of_not_lt hi)]
    · have hzero : addr.toNat.testBit i = false := BitVec.getLsbD_of_ge addr.toBitVec i (Nat.le_of_not_lt hlt)
      simp [hi, hzero, Nat.le_of_not_lt hi, Nat.add_sub_cancel' (Nat.le_of_not_lt hi)]

/-- The bytes of an aligned access lie in one page. -/
theorem amPageAddr_add {addr : UInt64} {size i : ℕ} (hsize : size ∣ 4096) (haligned : addr.toNat % size = 0)
    (hi : i < size) : amPageAddr (addr + UInt64.ofNat i) = amPageAddr addr := by
  obtain ⟨k, hk⟩ := hsize
  have hlt := addr.toNat_lt
  have hpage : addr.toNat % 4096 + i < 4096 := by
    obtain ⟨m, hm⟩ : size ∣ addr.toNat % 4096 := (Nat.dvd_mod_iff ⟨k, hk⟩).2 (Nat.dvd_of_mod_eq_zero haligned)
    have hmk : m < k := by
      have hmod : addr.toNat % 4096 < 4096 := Nat.mod_lt _ (by decide)
      rw [hm, hk] at hmod
      exact Nat.lt_of_mul_lt_mul_left hmod
    calc addr.toNat % 4096 + i < size * m + size := by omega
      _ = size * (m + 1) := by ring
      _ ≤ size * k := Nat.mul_le_mul_left size hmk
      _ = 4096 := hk.symm
  apply UInt64.toNat_inj.1
  have hsum : (addr + UInt64.ofNat i).toNat = addr.toNat + i := by
    rw [UInt64.toNat_add, UInt64.toNat_ofNat']
    omega
  rw [toNat_amPageAddr, toNat_amPageAddr, hsum]
  omega

/-! ### Pages -/

variable {T : Type*}

/-- `MemoryPage`; `valid` has a bit for each value. -/
structure MemoryPage (T : Type*) where
  pageAddr : UInt64
  values : ℕ → T
  valid : ℕ → BitVec 8

namespace MemoryPage

variable (page : MemoryPage T)

def bitMask (offset : ℕ) : BitVec 8 := 1 <<< (offset % 8)

def isOffsetValid (offset : ℕ) : Bool :=
  page.valid (offset / 8) &&& bitMask offset = bitMask offset

def setOffsetValid (offset : ℕ) : MemoryPage T :=
  { page with valid := Function.update page.valid (offset / 8) (page.valid (offset / 8) ||| bitMask offset) }

def setOffsetInvalid (offset : ℕ) : MemoryPage T :=
  { page with valid := Function.update page.valid (offset / 8) (page.valid (offset / 8) &&& ~~~bitMask offset) }

def inPage (addr : UInt64) : Bool := amPageAddr addr = page.pageAddr

def getOffset (offset : ℕ) : Option T := if page.isOffsetValid offset then some (page.values offset) else none

def new [Inhabited T] (pageAddr : UInt64) : MemoryPage T := ⟨pageAddr, fun _ => default, fun _ => 0⟩

/-- `getItem`, which aborts if the address is not in the page. -/
def getItem (addr : UInt64) : Option (Option T) :=
  if page.inPage addr then some (page.getOffset (amOffset addr)) else none

def setItem (addr : UInt64) (item : T) : Option (MemoryPage T) :=
  if page.inPage addr then
    some ({ page with values := Function.update page.values (amOffset addr) item }.setOffsetValid
      (amOffset addr))
  else none

def setInvalid (addr : UInt64) : Option (MemoryPage T) :=
  if page.inPage addr then some (page.setOffsetInvalid (amOffset addr)) else none

theorem isOffsetValid_eq (offset : ℕ) : page.isOffsetValid offset = (page.valid (offset / 8)).getLsbD
    (offset % 8) := by
  have htwo : bitMask offset = BitVec.twoPow 8 (offset % 8) := rfl
  have hlt : offset % 8 < 8 := Nat.mod_lt _ (by decide)
  have hne : (0#8 = BitVec.twoPow 8 (offset % 8)) = False := by
    refine eq_false fun h => ?_
    have := congrArg (fun b => b.getLsbD (offset % 8)) h
    simp [hlt] at this
  rw [isOffsetValid, htwo, BitVec.and_twoPow]
  cases (page.valid (offset / 8)).getLsbD (offset % 8) <;> simp [hne]

theorem div_mod_eight_inj {a b : ℕ} (hdiv : a / 8 = b / 8) (hmod : a % 8 = b % 8) : a = b := by omega

theorem isOffsetValid_setOffsetValid (a b : ℕ) :
    (page.setOffsetValid a).isOffsetValid b = (decide (b = a) || page.isOffsetValid b) := by
  have hlt : b % 8 < 8 := Nat.mod_lt _ (by decide)
  rw [isOffsetValid_eq, isOffsetValid_eq, setOffsetValid]
  by_cases hdiv : b / 8 = a / 8
  · have htwo : bitMask a = BitVec.twoPow 8 (a % 8) := rfl
    have hiff : b % 8 = a % 8 ↔ b = a := ⟨div_mod_eight_inj hdiv, fun h => by rw [h]⟩
    simp [hdiv, htwo, hlt, hiff, Bool.or_comm]
  · have hne : b ≠ a := fun h => hdiv (by rw [h])
    simp [hdiv, hne]

theorem isOffsetValid_setOffsetInvalid (a b : ℕ) :
    (page.setOffsetInvalid a).isOffsetValid b = (!decide (b = a) && page.isOffsetValid b) := by
  have hlt : b % 8 < 8 := Nat.mod_lt _ (by decide)
  rw [isOffsetValid_eq, isOffsetValid_eq, setOffsetInvalid]
  by_cases hdiv : b / 8 = a / 8
  · have htwo : bitMask a = BitVec.twoPow 8 (a % 8) := rfl
    have hiff : b % 8 = a % 8 ↔ b = a := ⟨div_mod_eight_inj hdiv, fun h => by rw [h]⟩
    simp [hdiv, htwo, hlt, hiff, Bool.and_comm]
  · have hne : b ≠ a := fun h => hdiv (by rw [h])
    simp [hdiv, hne]

theorem getOffset_set (a b : ℕ) (item : T) :
    ({ page with values := Function.update page.values a item }.setOffsetValid a).getOffset b =
      if b = a then some item else page.getOffset b := by
  have hvalid : ({ page with values := Function.update page.values a item } : MemoryPage T).isOffsetValid b =
      page.isOffsetValid b := rfl
  rw [getOffset, isOffsetValid_setOffsetValid, hvalid]
  by_cases hab : b = a
  · simp [hab, setOffsetValid]
  · simp [hab, getOffset, setOffsetValid]

theorem getOffset_setInvalid (a b : ℕ) :
    (page.setOffsetInvalid a).getOffset b = if b = a then none else page.getOffset b := by
  rw [getOffset, isOffsetValid_setOffsetInvalid]
  by_cases hab : b = a
  · simp [hab]
  · simp [hab, getOffset, setOffsetInvalid]

theorem getOffset_new [Inhabited T] (pageAddr : UInt64) (offset : ℕ) :
    (new pageAddr : MemoryPage T).getOffset offset = none := by
  rw [getOffset, isOffsetValid_eq]
  simp [new]

end MemoryPage

/-! ### The map of the pages and the page of each instruction -/

/-- `memory_stamp` and `pageCache`. A pointer to a page is the page's address, as pages are never deleted. -/
structure Shadow (T : Type*) where
  pageMap : UInt64 → Option (MemoryPage T)
  pageCache : ℕ → UInt64

namespace Shadow

variable (s : Shadow T)

/-- `get_or_create_node`, which gives the page with the address of `addr`. -/
def getOrCreateNode [Inhabited T] (addr : UInt64) : Shadow T :=
  match s.pageMap (amPageAddr addr) with
  | some _ => s
  | none => { s with
      pageMap := Function.update s.pageMap (amPageAddr addr) (some (MemoryPage.new (amPageAddr addr))) }

/-- All instructions start with the page of address 0. -/
def init [Inhabited T] : Shadow T := (⟨fun _ => none, fun _ => amPageAddr 0⟩ : Shadow T).getOrCreateNode 0

def setStampPage [Inhabited T] (instr : ℕ) (addr : UInt64) : Option (Shadow T) := do
  let page ← s.pageMap (s.pageCache instr)
  if page.inPage addr then pure s
  else
    let s := s.getOrCreateNode addr
    pure { s with pageCache := Function.update s.pageCache instr (amPageAddr addr) }

def getItem (instr : ℕ) (addr : UInt64) : Option (Option T) := do
  let page ← s.pageMap (s.pageCache instr)
  page.getItem addr

def setItem (instr : ℕ) (addr : UInt64) (item : T) : Option (Shadow T) := do
  let page ← s.pageMap (s.pageCache instr)
  let page ← page.setItem addr item
  pure { s with pageMap := Function.update s.pageMap (s.pageCache instr) (some page) }

def setInvalid (addr : UInt64) : Option (Shadow T) :=
  match s.pageMap (amPageAddr addr) with
  | none => some s
  | some page => do
      let page ← page.setInvalid addr
      pure { s with pageMap := Function.update s.pageMap (amPageAddr addr) (some page) }

def item (addr : UInt64) : Option T := (s.pageMap (amPageAddr addr)).bind fun page => page.getOffset
    (amOffset addr)

/-- The pages are where the map says, and the pointers of the instructions are not null. -/
structure Wf : Prop where
  addr_eq : ∀ p page, s.pageMap p = some page → page.pageAddr = p
  cached : ∀ instr, (s.pageMap (s.pageCache instr)).isSome

variable {s} {s' : Shadow T} {instr : ℕ} {addr : UInt64}

theorem getOrCreateNode_spec [Inhabited T] (h : s.Wf) (addr : UInt64) :
    (s.getOrCreateNode addr).Wf ∧ (s.getOrCreateNode addr).item = s.item ∧
      ((s.getOrCreateNode addr).pageMap (amPageAddr addr)).isSome ∧
        (s.getOrCreateNode addr).pageCache = s.pageCache := by
  rw [getOrCreateNode]
  cases hnode : s.pageMap (amPageAddr addr) with
  | some page => exact ⟨h, rfl, by rw [hnode]; rfl, rfl⟩
  | none =>
    refine ⟨⟨fun p page hp => ?_, fun instr => ?_⟩, ?_, ?_, rfl⟩
    · dsimp only at hp
      by_cases hpa : p = amPageAddr addr
      · subst hpa
        rw [Function.update_self] at hp
        cases hp
        rfl
      · rw [Function.update_of_ne hpa] at hp
        exact h.addr_eq p page hp
    · by_cases hpa : s.pageCache instr = amPageAddr addr
      · simp [hpa]
      · simpa [hpa] using h.cached instr
    · funext b
      simp only [item]
      by_cases hpa : amPageAddr b = amPageAddr addr
      · rw [hpa, Function.update_self, hnode]
        exact MemoryPage.getOffset_new _ _
      · rw [Function.update_of_ne hpa]
    · simp

theorem wf_init [Inhabited T] : (init : Shadow T).Wf ∧ (init : Shadow T).item = fun _ => none := by
  refine ⟨⟨fun p page hp => ?_, fun instr => ?_⟩, ?_⟩
  · simp only [init, getOrCreateNode] at hp
    by_cases hpa : p = amPageAddr 0
    · subst hpa
      rw [Function.update_self] at hp
      cases hp
      rfl
    · rw [Function.update_of_ne hpa] at hp
      cases hp
  · simp [init, getOrCreateNode]
  · funext b
    simp only [init, getOrCreateNode, item]
    by_cases hpa : amPageAddr b = amPageAddr 0
    · rw [hpa, Function.update_self]
      exact MemoryPage.getOffset_new _ _
    · rw [Function.update_of_ne hpa]
      rfl

/-- After `setStampPage` the page of the instruction is that of the address. -/
theorem setStampPage_spec [Inhabited T] (h : s.Wf) (instr : ℕ) (addr : UInt64) :
    ∃ s', s.setStampPage instr addr = some s' ∧ s'.Wf ∧ s'.item = s.item ∧
    s'.pageCache instr = amPageAddr addr := by
  obtain ⟨page, hpage⟩ := Option.isSome_iff_exists.1 (h.cached instr)
  by_cases hin : page.inPage addr = true
  · refine ⟨s, ?_, h, rfl, ?_⟩
    · simp [setStampPage, hpage, hin]
    · rw [← h.addr_eq _ _ hpage]
      exact (of_decide_eq_true hin).symm
  · obtain ⟨hwf, hitem, hsome, hcache⟩ := getOrCreateNode_spec h addr
    refine ⟨{ s.getOrCreateNode addr with
      pageCache := Function.update (s.getOrCreateNode addr).pageCache instr (amPageAddr addr) }, ?_,
      ⟨hwf.addr_eq, fun j => ?_⟩, hitem, Function.update_self _ _ _⟩
    · simp [setStampPage, hpage, hin]
    · dsimp only
      by_cases hj : j = instr
      · rw [hj, Function.update_self]
        exact hsome
      · rw [Function.update_of_ne hj]
        exact hwf.cached j

theorem getItem_eq (h : s.Wf) (hcache : s.pageCache instr = amPageAddr addr) :
    s.getItem instr addr = some (s.item addr) := by
  obtain ⟨page, hpage⟩ := Option.isSome_iff_exists.1 (h.cached instr)
  have hin : page.inPage addr = true := decide_eq_true (by rw [h.addr_eq _ _ hpage, hcache])
  rw [getItem, item, ← hcache, hpage]
  simp [MemoryPage.getItem, hin]

/-- A page is replaced by one with the same address. -/
theorem Wf.update (h : s.Wf) {p : UInt64} {page : MemoryPage T} (hpage : page.pageAddr = p) :
    ({ s with pageMap := Function.update s.pageMap p (some page) } : Shadow T).Wf := by
  refine ⟨fun q page' hq => ?_, fun instr => ?_⟩
  · dsimp only at hq
    by_cases hqp : q = p
    · rw [hqp, Function.update_self] at hq
      cases hq
      rw [hpage, hqp]
    · rw [Function.update_of_ne hqp] at hq
      exact h.addr_eq q page' hq
  · by_cases hqp : s.pageCache instr = p
    · simp [hqp]
    · simpa [hqp] using h.cached instr

theorem item_update {page page' : MemoryPage T} {v : Option T} (hpage : s.pageMap (amPageAddr addr) = some page)
    (hpage' : ∀ b, page'.getOffset b = if b = amOffset addr then v else page.getOffset b) :
    ({ s with pageMap := Function.update s.pageMap (amPageAddr addr) (some page') } : Shadow T).item =
      Function.update s.item addr v := by
  funext b
  by_cases hb : b = addr
  · rw [hb, Function.update_self]
    simp [item, hpage']
  · rw [Function.update_of_ne hb]
    simp only [item]
    by_cases hpa : amPageAddr b = amPageAddr addr
    · have hoffset : amOffset b ≠ amOffset addr := fun ho => hb (addr_ext hpa ho)
      rw [hpa, Function.update_self, hpage]
      simp [hpage', hoffset]
    · rw [Function.update_of_ne hpa]

theorem setItem_spec (h : s.Wf) (hcache : s.pageCache instr = amPageAddr addr) (v : T) :
    ∃ s', s.setItem instr addr v = some s' ∧ s'.Wf ∧ s'.item = Function.update s.item addr (some v) ∧
      s'.pageCache = s.pageCache := by
  obtain ⟨page, hpage⟩ := Option.isSome_iff_exists.1 (h.cached instr)
  have hin : page.inPage addr = true := decide_eq_true (by rw [h.addr_eq _ _ hpage, hcache])
  have haddr := h.addr_eq _ _ hpage
  rw [hcache] at hpage haddr
  set page' := ({ page with values := Function.update page.values (amOffset addr) v } :
      MemoryPage T).setOffsetValid
    (amOffset addr) with hpage'
  refine ⟨{ s with pageMap := Function.update s.pageMap (amPageAddr addr) (some page') }, ?_, h.update haddr,
    item_update hpage fun b => MemoryPage.getOffset_set page (amOffset addr) b v, rfl⟩
  simp [setItem, hcache, hpage, MemoryPage.setItem, hin, hpage']

theorem setInvalid_spec (h : s.Wf) (addr : UInt64) :
    ∃ s', s.setInvalid addr = some s' ∧ s'.Wf ∧ s'.item = Function.update s.item addr none := by
  rw [setInvalid]
  cases hpage : s.pageMap (amPageAddr addr) with
  | none =>
    refine ⟨s, rfl, h, ?_⟩
    have hitem : s.item addr = none := by rw [item, hpage]; rfl
    rw [← hitem, Function.update_eq_self]
  | some page =>
    have haddr := h.addr_eq _ _ hpage
    have hin : page.inPage addr = true := decide_eq_true haddr.symm
    refine ⟨{ s with
      pageMap := Function.update s.pageMap (amPageAddr addr)
        (some (page.setOffsetInvalid (amOffset addr))) }, ?_,
      h.update haddr, item_update hpage fun b => MemoryPage.getOffset_setInvalid page (amOffset addr) b⟩
    simp [MemoryPage.setInvalid, hin]

end Shadow

end Cpf.Lamp
