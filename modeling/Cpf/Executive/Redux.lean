import Cpf.Executive.Shadow

/-!
# Reductions

The reductions of `redux.c` over 32-bit sums and unsigned 64-bit maxima. A reduction heap holds
one accumulator per reduction; `reduceI32Add` and `reduceU64Max` fold the source accumulator into
the destination and reset the source as far as the code does.
-/

namespace Cpf.Executive

inductive ReductionType
  | addI32
  | maxU64
  deriving DecidableEq

structure ReductionInfo where
  au : ℕ
  elems : ℕ
  type : ReductionType
  reg : Bool

structure ReduxHeap where
  i32 : ℕ → ℕ → UInt32
  u64 : ℕ → ℕ → UInt64

def intsPerVec : ℕ := 4

def vecIsZero (src : ℕ → UInt32) (v : ℕ) : Bool :=
  (List.range intsPerVec).all (fun j => src (intsPerVec * v + j) = 0)

/-- The last of the first `n` vectors that is not zero. -/
def lastVec (src : ℕ → UInt32) : ℕ → Option ℕ
  | 0 => none
  | v + 1 => if vecIsZero src v then lastVec src v else some v

/-- The first vector up to `hi` that is not zero. -/
def firstVec (src : ℕ → UInt32) (hi : ℕ) : ℕ :=
  ((List.range hi).find? (fun v => !vecIsZero src v)).getD hi

/-- `__specpriv_reduce_i32_add`: the source and the destination afterwards. A single int is not
reset, and of the last vector only the first int is. -/
def reduceI32Add (elems : ℕ) (src dst : ℕ → UInt32) : (ℕ → UInt32) × (ℕ → UInt32) :=
  if elems = 1 then (src, Function.update dst 0 (dst 0 + src 0))
  else
    match lastVec src ((elems + intsPerVec - 1) / intsPerVec) with
    | none => (src, dst)
    | some hi =>
        (fun e => if intsPerVec * firstVec src hi ≤ e ∧ e < intsPerVec * hi + 1 then 0 else src e,
          fun e => if intsPerVec * firstVec src hi ≤ e ∧ e < intsPerVec * hi + intsPerVec then
            dst e + src e else dst e)

/-- `__specpriv_reduce_u64_max`, without a dependent reduction. -/
def reduceU64Max (elems : ℕ) (src dst : ℕ → UInt64) : (ℕ → UInt64) × (ℕ → UInt64) :=
  if elems = 1 then
    (Function.update src 0 0, if src 0 > dst 0 then Function.update dst 0 (src 0) else dst)
  else
    (fun e => if e < roundUp elems 2 then 0 else src e,
      fun e => if e < roundUp elems 2 ∧ src e > dst e then src e else dst e)

namespace ReductionInfo

def doReduction (info : ReductionInfo) (src dst : ReduxHeap) : ReduxHeap × ReduxHeap :=
  match info.type with
  | .addI32 =>
      let r := reduceI32Add info.elems (src.i32 info.au) (dst.i32 info.au)
      ({ src with i32 := Function.update src.i32 info.au r.1 },
        { dst with i32 := Function.update dst.i32 info.au r.2 })
  | .maxU64 =>
      let r := reduceU64Max info.elems (src.u64 info.au) (dst.u64 info.au)
      ({ src with u64 := Function.update src.u64 info.au r.1 },
        { dst with u64 := Function.update dst.u64 info.au r.2 })

def initializeReductions (info : ReductionInfo) (h : ReduxHeap) : ReduxHeap :=
  match info.type with
  | .addI32 =>
      let zeroed := fun e => if e < info.elems then 0 else h.i32 info.au e
      { h with i32 := Function.update h.i32 info.au zeroed }
  | .maxU64 =>
      let zeroed := fun e => if e < info.elems then 0 else h.u64 info.au e
      { h with u64 := Function.update h.u64 info.au zeroed }

def value (info : ReductionInfo) (h : ReduxHeap) (e : ℕ) : ℕ :=
  match info.type with
  | .addI32 => (h.i32 info.au e).toNat
  | .maxU64 => (h.u64 info.au e).toNat

end ReductionInfo

def ReductionType.join : ReductionType → ℕ → ℕ → ℕ
  | .addI32, a, b => (a + b) % 2 ^ 32
  | .maxU64, a, b => max a b

/-- The list of reductions; each has its own accumulator. -/
structure Reductions where
  infos : List ReductionInfo
  distinct : (infos.map ReductionInfo.au).Nodup

namespace Reductions

/-- The loop of `__specpriv_distill_worker_redux_into_partial` and of its two siblings, which differ
in the heaps they map. -/
def distill (r : Reductions) (src dst : ReduxHeap) : ReduxHeap × ReduxHeap :=
  r.infos.foldl (fun p info => info.doReduction p.1 p.2) (src, dst)

def initializeCheckpointRedux (r : Reductions) (combine : Bool) (h : ReduxHeap) : ReduxHeap :=
  r.infos.foldl (fun h info => if combine && !info.reg then h else info.initializeReductions h) h

end Reductions

theorem lastVec_spec {src : ℕ → UInt32} {n v : ℕ} (hv : v < n) (hne : vecIsZero src v = false) :
    ∃ hi, lastVec src n = some hi ∧ v ≤ hi := by
  induction n with
  | zero => omega
  | succ n ih =>
      rw [lastVec]
      by_cases hz : vecIsZero src n = true
      · rw [if_pos hz]
        have hvn : v ≠ n := by
          rintro rfl
          rw [hz] at hne
          cases hne
        exact ih (by omega)
      · rw [if_neg hz]
        exact ⟨n, rfl, by omega⟩

theorem firstVec_le {src : ℕ → UInt32} {hi v : ℕ} (hne : vecIsZero src v = false) (hv : v ≤ hi) :
    firstVec src hi ≤ v := by
  unfold firstVec
  cases hf : (List.range hi).find? (fun v => !vecIsZero src v) with
  | none =>
      rcases Nat.lt_or_ge v hi with hlt | hge
      · have hno := List.find?_eq_none.1 hf v (List.mem_range.2 hlt)
        rw [hne] at hno
        exact absurd rfl hno
      · exact hge
  | some lo =>
      change lo ≤ v
      by_contra hlt
      have hlo : lo < hi := List.mem_range.1 (List.mem_of_find?_eq_some hf)
      obtain ⟨_, as, bs, hsplit, has⟩ := List.find?_eq_some_iff_append.1 hf
      have hmem : v ∈ List.range hi := List.mem_range.2 (by omega)
      have hpair : (List.range hi).Pairwise (· < ·) := List.pairwise_lt_range
      rw [hsplit] at hmem hpair
      rcases List.mem_append.1 hmem with hin | hin
      · have := has v hin
        simp [hne] at this
      · rcases List.mem_cons.1 hin with rfl | hin
        · omega
        · have := (List.pairwise_cons.1 (List.pairwise_append.1 hpair).2.1).1 v hin
          omega

/-- The vectorised sum adds the source to every element of the destination. -/
theorem reduceI32Add_snd {elems e : ℕ} (he : e < elems) (src dst : ℕ → UInt32) :
    (reduceI32Add elems src dst).2 e = dst e + src e := by
  unfold reduceI32Add
  split_ifs with h1
  · obtain rfl : e = 0 := by omega
    simp
  · by_cases hz : vecIsZero src (e / intsPerVec) = true
    · have hse : src e = 0 := by
        have hall := List.all_eq_true.1 hz (e % intsPerVec)
          (List.mem_range.2 (Nat.mod_lt e (by decide)))
        simpa [Nat.div_add_mod] using hall
      cases lastVec src ((elems + intsPerVec - 1) / intsPerVec) with
      | none => simp [hse]
      | some hi =>
          dsimp only
          split_ifs
          · rfl
          · simp [hse]
    · rw [Bool.not_eq_true] at hz
      have hv : e / intsPerVec < (elems + intsPerVec - 1) / intsPerVec := by
        simp only [intsPerVec]
        omega
      obtain ⟨hi, hhi, hle⟩ := lastVec_spec hv hz
      have hlo := firstVec_le hz hle
      rw [hhi]
      dsimp only
      rw [if_pos]
      simp only [intsPerVec] at *
      omega

theorem reduceU64Max_snd {elems e : ℕ} (he : e < elems) (src dst : ℕ → UInt64) :
    ((reduceU64Max elems src dst).2 e).toNat = max (dst e).toNat (src e).toNat := by
  have hmax : (if src e > dst e then src e else dst e).toNat = max (dst e).toNat (src e).toNat := by
    split_ifs with hgt
    · exact (max_eq_right (UInt64.le_iff_toNat_le.1 (UInt64.le_of_lt hgt))).symm
    · exact (max_eq_left (UInt64.le_iff_toNat_le.1 (UInt64.not_lt.1 hgt))).symm
  unfold reduceU64Max
  split_ifs with h1 hgt
  · obtain rfl : e = 0 := by omega
    rw [if_pos hgt] at hmax
    dsimp only
    rw [Function.update_self]
    exact hmax
  · obtain rfl : e = 0 := by omega
    rw [if_neg hgt] at hmax
    exact hmax
  · have hN : e < roundUp elems 2 := by
      simp only [roundUp, roundDown]
      omega
    dsimp only
    rw [← hmax]
    congr 1
    simp [hN]

/-- The maximum leaves every element of the source at zero. -/
theorem reduceU64Max_fst {elems e : ℕ} (he : e < elems) (src dst : ℕ → UInt64) :
    (reduceU64Max elems src dst).1 e = 0 := by
  unfold reduceU64Max
  by_cases h1 : elems = 1
  · obtain rfl : e = 0 := by omega
    rw [if_pos h1]
    simp only [Function.update_self]
  · have hN : e < roundUp elems 2 := by
      simp only [roundUp, roundDown]
      omega
    rw [if_neg h1]
    exact if_pos hN

namespace ReductionInfo

variable {info other : ReductionInfo} {src dst h : ReduxHeap} {e : ℕ}

theorem value_doReduction_snd (he : e < info.elems) (src dst : ReduxHeap) :
    info.value (info.doReduction src dst).2 e =
      info.type.join (info.value dst e) (info.value src e) := by
  cases ht : info.type with
  | addI32 =>
      simp only [value, doReduction, ht, Function.update_self, reduceI32Add_snd he,
        UInt32.toNat_add, ReductionType.join]
  | maxU64 =>
      simp only [value, doReduction, ht, Function.update_self, reduceU64Max_snd he,
        ReductionType.join]

/-- A reduction leaves the accumulators of the others alone. -/
theorem value_doReduction_of_ne (hne : other.au ≠ info.au) (src dst : ReduxHeap) (e : ℕ) :
    other.value (info.doReduction src dst).1 e = other.value src e ∧
      other.value (info.doReduction src dst).2 e = other.value dst e := by
  cases ht : info.type <;> cases ho : other.type <;> simp [value, doReduction, ht, ho, hne]

theorem value_initializeReductions (he : e < info.elems) (h : ReduxHeap) :
    info.value (info.initializeReductions h) e = 0 := by
  cases ht : info.type <;> simp [value, initializeReductions, ht, he]

theorem value_initializeReductions_of_ne (hne : other.au ≠ info.au) (h : ReduxHeap) (e : ℕ) :
    other.value (info.initializeReductions h) e = other.value h e := by
  cases ht : info.type <;> cases ho : other.type <;> simp [value, initializeReductions, ht, ho, hne]

theorem value_lt (hadd : info.type = .addI32) (h : ReduxHeap) (e : ℕ) : info.value h e < 2 ^ 32 := by
  simp only [value, hadd]
  exact (h.i32 info.au e).toNat_lt

end ReductionInfo

namespace Reductions

variable {r : Reductions} {info : ReductionInfo} {e : ℕ}

theorem value_foldl_doReduction_of_not_mem {is : List ReductionInfo}
    (hno : info.au ∉ is.map ReductionInfo.au) (p : ReduxHeap × ReduxHeap) :
    info.value (is.foldl (fun p i => i.doReduction p.1 p.2) p).2 e = info.value p.2 e := by
  induction is generalizing p with
  | nil => rfl
  | cons i is ih =>
      simp only [List.map_cons, List.mem_cons, not_or] at hno
      rw [List.foldl_cons, ih hno.2]
      exact (ReductionInfo.value_doReduction_of_ne hno.1 p.1 p.2 e).2

theorem value_foldl_initialize_of_not_mem {is : List ReductionInfo}
    (hno : info.au ∉ is.map ReductionInfo.au) (combine : Bool) (h : ReduxHeap) :
    info.value (is.foldl
      (fun h i => if combine && !i.reg then h else i.initializeReductions h) h) e =
      info.value h e := by
  induction is generalizing h with
  | nil => rfl
  | cons i is ih =>
      simp only [List.map_cons, List.mem_cons, not_or] at hno
      rw [List.foldl_cons, ih hno.2]
      split_ifs
      · rfl
      · exact ReductionInfo.value_initializeReductions_of_ne hno.1 h e

theorem exists_split (hi : info ∈ r.infos) : ∃ as bs, r.infos = as ++ info :: bs ∧
    info.au ∉ as.map ReductionInfo.au ∧ info.au ∉ bs.map ReductionInfo.au := by
  obtain ⟨as, bs, hsplit⟩ := List.append_of_mem hi
  have hd := r.distinct
  rw [hsplit, List.map_append, List.map_cons, List.nodup_append, List.nodup_cons] at hd
  obtain ⟨_, ⟨hbs, _⟩, has⟩ := hd
  exact ⟨as, bs, hsplit, fun hmem => has _ hmem _ List.mem_cons_self rfl, hbs⟩

theorem value_foldl_doReduction_fst_of_not_mem {is : List ReductionInfo}
    (hno : info.au ∉ is.map ReductionInfo.au) (p : ReduxHeap × ReduxHeap) :
    info.value (is.foldl (fun p i => i.doReduction p.1 p.2) p).1 e = info.value p.1 e := by
  induction is generalizing p with
  | nil => rfl
  | cons i is ih =>
      simp only [List.map_cons, List.mem_cons, not_or] at hno
      rw [List.foldl_cons, ih hno.2]
      exact (ReductionInfo.value_doReduction_of_ne hno.1 p.1 p.2 e).1

/-- Every reduction of the list is folded into the destination exactly once. -/
theorem value_distill (hi : info ∈ r.infos) (he : e < info.elems) (src dst : ReduxHeap) :
    info.value (r.distill src dst).2 e = info.type.join (info.value dst e) (info.value src e) := by
  obtain ⟨as, bs, hsplit, has, hbs⟩ := exists_split hi
  rw [distill, hsplit, List.foldl_append, List.foldl_cons, value_foldl_doReduction_of_not_mem hbs,
    info.value_doReduction_snd he, value_foldl_doReduction_of_not_mem has,
    value_foldl_doReduction_fst_of_not_mem has]

theorem value_initializeCheckpointRedux (hi : info ∈ r.infos) (he : e < info.elems) (combine : Bool)
    (h : ReduxHeap) : info.value (r.initializeCheckpointRedux combine h) e =
      if combine && !info.reg then info.value h e else 0 := by
  obtain ⟨as, bs, hsplit, has, hbs⟩ := exists_split hi
  rw [initializeCheckpointRedux, hsplit, List.foldl_append, List.foldl_cons,
    value_foldl_initialize_of_not_mem hbs]
  split_ifs
  · exact value_foldl_initialize_of_not_mem has combine h
  · exact info.value_initializeReductions he _

end Reductions
end Cpf.Executive
