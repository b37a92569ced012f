import Cpf.Executive.Redux

/-!
# The list of reductions

The runtime's list of reduction objects with 32-bit sums, unsigned 64-bit maxima and maxima of
floats, where a 64-bit object may depend on a float: it is the payload of the greatest value. All
of them share one iteration of the last update for each heap. The floats are a linear order with
the value `lowest` of an initialised object.
-/

namespace Cpf.Executive

inductive ReduxType
  | addI32
  | maxU64
  | maxF32
  deriving DecidableEq

/-- A `ReductionInfo`. `dep` is the object of the float that it depends on (`depSize` 4, `depType`
2); the code asserts that only a single 64-bit maximum does. -/
structure ReduxInfo where
  au : ℕ
  elems : ℕ
  type : ReduxType
  reg : Bool
  dep : Option ℕ
  dep_ok : ∀ k ∈ dep, type = .maxU64 ∧ elems = 1

structure ReduxMem (F : Type*) extends ReduxHeap where
  f32 : ℕ → ℕ → F

/-- A reduction heap with the iteration of its last update. -/
structure ReduxSide (F : Type*) where
  mem : ReduxMem F
  lastUp : ℕ

def floatsPerVec : ℕ := 4

variable {F : Type*}

section Reduce

variable [LinearOrder F]

/-- `__specpriv_reduce_f32_max`: the destination and its last update afterwards. The source is not
reset. -/
def reduceF32Max (elems : ℕ) (src dst : ℕ → F) (srcLastUp dstLastUp : ℕ) : (ℕ → F) × ℕ :=
  if elems = 1 then
    if src 0 > dst 0 then (Function.update dst 0 (src 0), srcLastUp)
    else (dst, if src 0 = dst 0 ∧ srcLastUp < dstLastUp then srcLastUp else dstLastUp)
  else (fun e => if e < roundUp elems floatsPerVec then max (dst e) (src e) else dst e, dstLastUp)

/-- `src` beats `dst`: its value is greater, or it is equal and older. -/
def Beats (src dst : F) (srcLastUp dstLastUp : ℕ) : Prop :=
  src > dst ∨ src = dst ∧ srcLastUp < dstLastUp

instance (src dst : F) (srcLastUp dstLastUp : ℕ) : Decidable (Beats src dst srcLastUp dstLastUp) :=
  inferInstanceAs (Decidable (_ ∨ _))

/-- `__specpriv_reduce_u64_max` with a dependence: the source and the destination afterwards. -/
def reduceU64MaxDep (src dst : ℕ → UInt64) (srcDep dstDep : F) (srcLastUp dstLastUp : ℕ) :
    (ℕ → UInt64) × (ℕ → UInt64) :=
  (Function.update src 0 0,
    if Beats srcDep dstDep srcLastUp dstLastUp then Function.update dst 0 (src 0) else dst)

end Reduce

namespace ReduxMem

def setI32 (m : ReduxMem F) (au : ℕ) (f : ℕ → UInt32) : ReduxMem F :=
  { m with i32 := Function.update m.i32 au f }

def setU64 (m : ReduxMem F) (au : ℕ) (f : ℕ → UInt64) : ReduxMem F :=
  { m with u64 := Function.update m.u64 au f }

def setF32 (m : ReduxMem F) (au : ℕ) (f : ℕ → F) : ReduxMem F :=
  { m with f32 := Function.update m.f32 au f }

def SameAt (m m' : ReduxMem F) (au : ℕ) : Prop :=
  m.i32 au = m'.i32 au ∧ m.u64 au = m'.u64 au ∧ m.f32 au = m'.f32 au

variable {m m' m'' : ReduxMem F} {au : ℕ}

theorem SameAt.refl (m : ReduxMem F) (au : ℕ) : m.SameAt m au := ⟨rfl, rfl, rfl⟩

theorem SameAt.trans (h : m.SameAt m' au) (h' : m'.SameAt m'' au) : m.SameAt m'' au :=
  ⟨h.1.trans h'.1, h.2.1.trans h'.2.1, h.2.2.trans h'.2.2⟩

theorem SameAt.symm (h : m.SameAt m' au) : m'.SameAt m au := ⟨h.1.symm, h.2.1.symm, h.2.2.symm⟩

theorem sameAt_setI32 {k : ℕ} (h : au ≠ k) (f : ℕ → UInt32) : (m.setI32 k f).SameAt m au :=
  ⟨Function.update_of_ne h _ _, rfl, rfl⟩

theorem sameAt_setU64 {k : ℕ} (h : au ≠ k) (f : ℕ → UInt64) : (m.setU64 k f).SameAt m au :=
  ⟨rfl, Function.update_of_ne h _ _, rfl⟩

theorem sameAt_setF32 {k : ℕ} (h : au ≠ k) (f : ℕ → F) : (m.setF32 k f).SameAt m au :=
  ⟨rfl, rfl, Function.update_of_ne h _ _⟩

end ReduxMem

variable [LinearOrder F]

namespace ReduxInfo

/-- `__specpriv_do_reduction_pp`: the heaps of the source and of the destination afterwards. -/
def doReduction (info : ReduxInfo) (src dst : ReduxSide F) : ReduxMem F × ReduxSide F :=
  match info.type with
  | .addI32 =>
      let r := reduceI32Add info.elems (src.mem.i32 info.au) (dst.mem.i32 info.au)
      (src.mem.setI32 info.au r.1, ⟨dst.mem.setI32 info.au r.2, dst.lastUp⟩)
  | .maxU64 =>
      match info.dep with
      | none =>
          let r := reduceU64Max info.elems (src.mem.u64 info.au) (dst.mem.u64 info.au)
          let updates := info.elems = 1 ∧ src.mem.u64 info.au 0 > dst.mem.u64 info.au 0
          (src.mem.setU64 info.au r.1,
            ⟨dst.mem.setU64 info.au r.2, if updates then src.lastUp else dst.lastUp⟩)
      | some k =>
          let r := reduceU64MaxDep (src.mem.u64 info.au) (dst.mem.u64 info.au)
            (src.mem.f32 k 0) (dst.mem.f32 k 0) src.lastUp dst.lastUp
          (src.mem.setU64 info.au r.1, ⟨dst.mem.setU64 info.au r.2, dst.lastUp⟩)
  | .maxF32 =>
      let r := reduceF32Max info.elems (src.mem.f32 info.au) (dst.mem.f32 info.au)
        src.lastUp dst.lastUp
      (src.mem, ⟨dst.mem.setF32 info.au r.1, r.2⟩)

def initializeReductions (lowest : F) (info : ReduxInfo) (m : ReduxMem F) : ReduxMem F :=
  match info.type with
  | .addI32 => m.setI32 info.au (fun e => if e < info.elems then 0 else m.i32 info.au e)
  | .maxU64 => m.setU64 info.au (fun e => if e < info.elems then 0 else m.u64 info.au e)
  | .maxF32 =>
      let len := if info.elems = 1 then 1 else roundUp info.elems floatsPerVec
      m.setF32 info.au (fun e => if e < len then lowest else m.f32 info.au e)

end ReduxInfo

/-- The list as `__specpriv_alloc_redux` builds it: every object is in it once, and behind an object
that depends on another one comes that one. There is one float at most that others depend on, and
it is kept where they are kept. -/
structure ReduxList where
  infos : List ReduxInfo
  distinct : (infos.map ReduxInfo.au).Nodup
  deps : ∀ as info bs, infos = as ++ info :: bs → ∀ k ∈ info.dep,
    ∃ key ∈ bs, key.au = k ∧ key.type = .maxF32 ∧ key.elems = 1 ∧ key.reg = info.reg
  oneKey : ∀ info ∈ infos, ∀ info' ∈ infos, ∀ k ∈ info.dep, ∀ k' ∈ info'.dep, k = k'

namespace ReduxList

def empty : ReduxList := ⟨[], by simp, by simp, by simp⟩

/-- `__specpriv_alloc_redux`: the new object comes first. -/
def alloc (r : ReduxList) (info : ReduxInfo) (hnew : info.au ∉ r.infos.map ReduxInfo.au)
    (hdep : ∀ k ∈ info.dep, (∃ key ∈ r.infos, key.au = k ∧ key.type = .maxF32 ∧ key.elems = 1 ∧
      key.reg = info.reg) ∧ ∀ info' ∈ r.infos, ∀ k' ∈ info'.dep, k = k') : ReduxList where
  infos := info :: r.infos
  distinct := List.nodup_cons.2 ⟨hnew, r.distinct⟩
  deps := by
    intro as info' bs h k hk
    cases as with
    | nil =>
        obtain ⟨rfl, rfl⟩ := List.cons.inj h
        exact (hdep k hk).1
    | cons a as => exact r.deps as info' bs (List.cons.inj h).2 k hk
  oneKey := by
    intro i hi i' hi' k hk k' hk'
    rcases List.mem_cons.1 hi with he | hm
    · rcases List.mem_cons.1 hi' with he' | hm'
      · subst he he'
        exact Option.some.inj (hk.symm.trans hk')
      · subst he
        exact (hdep k hk).2 i' hm' k' hk'
    · rcases List.mem_cons.1 hi' with he' | hm'
      · subst he'
        exact ((hdep k' hk').2 i hm k hk).symm
      · exact r.oneKey i hm i' hm' k hk k' hk'

/-- The loop of `__specpriv_distill_worker_redux_into_partial` and of its two siblings. -/
def distill (r : ReduxList) (src dst : ReduxSide F) : ReduxMem F × ReduxSide F :=
  r.infos.foldl (fun p info => info.doReduction ⟨p.1, src.lastUp⟩ p.2) (src.mem, dst)

def initializeCheckpointRedux (r : ReduxList) (lowest : F) (combine : Bool) (m : ReduxMem F) :
    ReduxMem F :=
  r.infos.foldl (fun m info =>
    if combine && !info.reg then m
    else if info.dep.isSome then m
    else info.initializeReductions lowest m) m

end ReduxList

namespace ReduxInfo

variable {info : ReduxInfo} {au : ℕ}

/-- A reduction leaves the objects of the others alone. -/
theorem doReduction_sameAt (h : au ≠ info.au) (src dst : ReduxSide F) :
    (info.doReduction src dst).1.SameAt src.mem au ∧
      (info.doReduction src dst).2.mem.SameAt dst.mem au := by
  unfold doReduction
  cases info.type with
  | addI32 => exact ⟨ReduxMem.sameAt_setI32 h _, ReduxMem.sameAt_setI32 h _⟩
  | maxU64 =>
      cases info.dep with
      | none => exact ⟨ReduxMem.sameAt_setU64 h _, ReduxMem.sameAt_setU64 h _⟩
      | some k => exact ⟨ReduxMem.sameAt_setU64 h _, ReduxMem.sameAt_setU64 h _⟩
  | maxF32 => exact ⟨.refl _ _, ReduxMem.sameAt_setF32 h _⟩

omit [LinearOrder F] in
theorem initializeReductions_sameAt (h : au ≠ info.au) (lowest : F) (m : ReduxMem F) :
    (info.initializeReductions lowest m).SameAt m au := by
  unfold initializeReductions
  cases info.type with
  | addI32 => exact ReduxMem.sameAt_setI32 h _
  | maxU64 => exact ReduxMem.sameAt_setU64 h _
  | maxF32 => exact ReduxMem.sameAt_setF32 h _

end ReduxInfo

namespace ReduxList

variable {r : ReduxList} {info : ReduxInfo}

theorem exists_split (hi : info ∈ r.infos) : ∃ as bs, r.infos = as ++ info :: bs ∧
    (∀ i ∈ as, info.au ≠ i.au) ∧ ∀ i ∈ bs, info.au ≠ i.au := by
  obtain ⟨as, bs, hsplit⟩ := List.append_of_mem hi
  have hd := r.distinct
  rw [hsplit, List.map_append, List.map_cons, List.nodup_append, List.nodup_cons] at hd
  obtain ⟨_, ⟨hbs, _⟩, has⟩ := hd
  exact ⟨as, bs, hsplit,
    fun i hi he => has _ (List.mem_map_of_mem hi) _ List.mem_cons_self he.symm,
    fun i hi he => hbs (he ▸ List.mem_map_of_mem hi)⟩

theorem foldl_doReduction_sameAt {is : List ReduxInfo} {au : ℕ} (lastUp : ℕ)
    (h : ∀ i ∈ is, au ≠ i.au) (p : ReduxMem F × ReduxSide F) :
    (is.foldl (fun p i => i.doReduction ⟨p.1, lastUp⟩ p.2) p).1.SameAt p.1 au ∧
      (is.foldl (fun p i => i.doReduction ⟨p.1, lastUp⟩ p.2) p).2.mem.SameAt p.2.mem au := by
  induction is generalizing p with
  | nil => exact ⟨.refl _ _, .refl _ _⟩
  | cons i is ih =>
      have hi := i.doReduction_sameAt (h i List.mem_cons_self) ⟨p.1, lastUp⟩ p.2
      have hrest := ih (fun j hj => h j (List.mem_cons_of_mem _ hj))
        (i.doReduction ⟨p.1, lastUp⟩ p.2)
      exact ⟨hrest.1.trans hi.1, hrest.2.trans hi.2⟩

omit [LinearOrder F] in
theorem foldl_initialize_sameAt {is : List ReduxInfo} {au : ℕ} (h : ∀ i ∈ is, au ≠ i.au)
    (lowest : F) (combine : Bool) (m : ReduxMem F) :
    (is.foldl (fun m i =>
      if combine && !i.reg then m
      else if i.dep.isSome then m
      else i.initializeReductions lowest m) m).SameAt m au := by
  induction is generalizing m with
  | nil => exact .refl _ _
  | cons i is ih =>
      refine (ih (fun j hj => h j (List.mem_cons_of_mem _ hj)) _).trans ?_
      dsimp only
      split_ifs
      · exact .refl _ _
      · exact .refl _ _
      · exact i.initializeReductions_sameAt (h i List.mem_cons_self) lowest m

/-- An object of the list is reduced once, as it was in both heaps. -/
theorem distill_at (hi : info ∈ r.infos) (src dst : ReduxSide F) :
    ∃ src' dst' : ReduxSide F, src'.mem.SameAt src.mem info.au ∧ dst'.mem.SameAt dst.mem info.au ∧
      (r.distill src dst).1.SameAt (info.doReduction src' dst').1 info.au ∧
      (r.distill src dst).2.mem.SameAt (info.doReduction src' dst').2.mem info.au := by
  obtain ⟨as, bs, hsplit, has, hbs⟩ := exists_split hi
  have hbefore := foldl_doReduction_sameAt src.lastUp has (src.mem, dst)
  refine ⟨⟨_, src.lastUp⟩, _, hbefore.1, hbefore.2, ?_⟩
  have hafter := foldl_doReduction_sameAt src.lastUp hbs
    (info.doReduction ⟨(as.foldl (fun p i => i.doReduction ⟨p.1, src.lastUp⟩ p.2)
      (src.mem, dst)).1, src.lastUp⟩
      (as.foldl (fun p i => i.doReduction ⟨p.1, src.lastUp⟩ p.2) (src.mem, dst)).2)
  rw [distill, hsplit, List.foldl_append, List.foldl_cons]
  exact hafter

omit [LinearOrder F] in
theorem initializeCheckpointRedux_at (hi : info ∈ r.infos) (hdep : info.dep = none) (lowest : F)
    (combine : Bool) (m : ReduxMem F) :
    ∃ m' : ReduxMem F, m'.SameAt m info.au ∧
      (r.initializeCheckpointRedux lowest combine m).SameAt
        (if combine && !info.reg then m' else info.initializeReductions lowest m') info.au := by
  obtain ⟨as, bs, hsplit, has, hbs⟩ := exists_split hi
  refine ⟨_, foldl_initialize_sameAt has lowest combine m, ?_⟩
  rw [initializeCheckpointRedux, hsplit, List.foldl_append, List.foldl_cons]
  refine (foldl_initialize_sameAt hbs lowest combine _).trans ?_
  rw [hdep, Option.isSome_none, if_neg Bool.false_ne_true]
  exact .refl _ _

end ReduxList
end Cpf.Executive
