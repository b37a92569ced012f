import Cpf.Profile.Profiler
import Cpf.Basics.Trans

/-!
# The objects of the program

`Program` follows the objects of the profiled program without the tables of the profiler: a heap object lives
until it is freed, a stack object until it is freed or its function returns. A new object needs memory that
no live object and no constant occupies, and only the base of a live object is freed or reallocated. A
`realloc` to size zero frees the object and gives none. `System` runs the program and the profiler side by
side.
-/

namespace Cpf.Profile

variable {Name : Type} [DecidableEq Name]

structure Object (Name : Type) where
  type : AUType
  name : Name
  creation : Ctx Name
  extents : Interval
  deriving DecidableEq

def Object.site (o : Object Name) : Site Name := ⟨o.type, some o.name, o.creation⟩

def AllocationUnit.Describes (au : AllocationUnit Name) (o : Object Name) : Prop :=
  au.type = o.type ∧ au.name = some o.name ∧ au.creation = o.creation ∧ au.extents = o.extents ∧
    au.reallocShrinkExcess = false

instance (au : AllocationUnit Name) (o : Object Name) : Decidable (au.Describes o) :=
  inferInstanceAs (Decidable (_ ∧ _ ∧ _ ∧ _ ∧ _))

/-- The program: its active contexts, its live objects and its constants, and for every context that was
left the objects that were live then. -/
structure Program (Name : Type) where
  frames : Ctx Name
  live : List (Object Name)
  constants : List Interval
  started : Bool
  exits : List (Ctx Name × List (Object Name))

namespace Program

def initial : Program Name := ⟨[⟨.top, none⟩], [], [], false, []⟩

def Available (g : Program Name) (e : Interval) : Prop :=
  e.low ≠ 0 ∧ (∀ o ∈ g.live, o.extents.Disjoint e) ∧ ∀ c ∈ g.constants, c.Disjoint e

instance (g : Program Name) (e : Interval) : Decidable (g.Available e) :=
  inferInstanceAs (Decidable (_ ∧ _ ∧ _))

def allocate (g : Program Name) (type : AUType) (name : Name) (base size : ℕ) : Option (Program Name) :=
  if g.Available (rightOpen base size) then
    some { g with live := ⟨type, name, g.frames, rightOpen base size⟩ :: g.live, started := true }
  else none

/-- A live object of the kind begins at the address. -/
def release (g : Program Name) (type : AUType) (base : ℕ) : Option (Program Name) :=
  match g.live.find? fun o => o.type = type ∧ o.extents.low = base with
  | none => none
  | some o => some { g with live := g.live.erase o, started := true }

def returned (g : Program Name) : List (Object Name) :=
  g.live.filter fun o => ¬ (o.type = .stack ∧ innermostFunction o.creation = g.frames)

def leave (g : Program Name) (type : CtxType) (live : List (Object Name)) : Option (Program Name) :=
  match g.frames with
  | frame :: outer =>
      if frame.type = type ∧ outer ≠ [] then
        some { g with
          frames := outer, live := live, started := true, exits := g.exits ++ [(frame :: outer, live)] }
      else none
  | [] => none

def step (g : Program Name) : Event Name → Option (Program Name)
  | .malloc name ptr size => g.allocate .heap name ptr size
  | .realloc name oldPtr newPtr size => do
      let g ← if oldPtr = 0 then some g else g.release .heap oldPtr
      if size = 0 then some { g with started := true } else g.allocate .heap name newPtr size
  | .free ptr isAlloca =>
      if ptr = 0 then some { g with started := true }
      else g.release (if isAlloca then .stack else .heap) ptr
  | .constant _ base size =>
      if g.started then none else some { g with constants := rightOpen base size :: g.constants }
  | .stack name base arraySize eltSize =>
      g.allocate .stack name base ((if arraySize = 0 then 1 else arraySize) * eltSize % 2 ^ 64)
  | .beginFunction name => some { g with frames := ⟨.function, some name⟩ :: g.frames, started := true }
  | .endFunction => g.leave .function g.returned
  | .beginIter name => some { g with frames := ⟨.loop, some name⟩ :: g.frames, started := true }
  | .endIter => g.leave .loop g.live
  | .lookup _ => some { g with started := true }

end Program

structure System (Name : Type) where
  profiler : Except Failure (Profiler Name)
  program : Program Name

namespace System

def initial : System Name := ⟨.ok .initial, .initial⟩

def step (s : System Name) (e : Event Name) : Option (System Name) :=
  (s.program.step e).map fun program => ⟨s.profiler >>= fun p => p.step e, program⟩

end System

/-! ### Conditions on allocations -/

/-- At most one unit that is left over from a `realloc` overlaps a new object; it is of another site, and it
is not the one that was found last. -/
structure FewExcess (t : AllocationUnitTable Name) (site : Site Name) (e : Interval)
    (cached : Bool) : Prop where
  one : ∀ a ∈ t.temporaries, ∀ b ∈ t.temporaries, a.2.reallocShrinkExcess = true →
    b.2.reallocShrinkExcess = true → ¬ a.1.Disjoint e → ¬ b.1.Disjoint e → a = b
  site : ∀ a ∈ t.temporaries, a.2.reallocShrinkExcess = true → ¬ a.1.Disjoint e → a.2.site ≠ site
  cached : cached = true → ∀ au, t.mostRecentlyUsed = some au → au.reallocShrinkExcess = true →
    au.extents.Disjoint e

/-- The condition for a new object: it has a size, it does not meet what is left over from `realloc`, and,
for the kinds of objects in `S`, the current context has no unit of its site. -/
structure Careful (S : AUType → Prop) (p : Profiler Name) (type : AUType) (name : Name)
    (base size : ℕ) : Prop where
  nonempty : 0 < size
  excess : FewExcess p.liveObjects ⟨type, some name, chain p.contexts⟩ (rightOpen base size) true
  fresh : S type → ∀ ctx ∈ p.contexts.head?, ∀ au ∈ ctx.aus,
    au.site ≠ ⟨type, some name, chain p.contexts⟩

def CarefulEvent (S : AUType → Prop) (p : Profiler Name) : Event Name → Prop
  | .malloc name ptr size => Careful S p .heap name ptr size
  | .stack name base arraySize eltSize =>
      Careful S p .stack name base ((if arraySize = 0 then 1 else arraySize) * eltSize % 2 ^ 64)
  | .realloc name oldPtr newPtr size => ¬ S .heap ∧ (size ≠ 0 →
      FewExcess p.liveObjects ⟨.heap, some name, chain p.contexts⟩ (rightOpen newPtr size)
        (oldPtr = 0))
  | .constant _ _ size => 0 < size
  | _ => True

instance (t : AllocationUnitTable Name) (site : Site Name) (e : Interval) (cached : Bool) :
    Decidable (FewExcess t site e cached) :=
  decidable_of_iff
    ((∀ a ∈ t.temporaries, ∀ b ∈ t.temporaries, a.2.reallocShrinkExcess = true →
        b.2.reallocShrinkExcess = true → ¬ a.1.Disjoint e → ¬ b.1.Disjoint e → a = b) ∧
      (∀ a ∈ t.temporaries, a.2.reallocShrinkExcess = true → ¬ a.1.Disjoint e → a.2.site ≠ site) ∧
      (cached = true → ∀ au ∈ t.mostRecentlyUsed, au.reallocShrinkExcess = true → au.extents.Disjoint e))
    ⟨fun h => ⟨h.1, h.2.1, h.2.2⟩, fun h => ⟨h.one, h.site, h.cached⟩⟩

instance (S : AUType → Prop) [DecidablePred S] (p : Profiler Name) (type : AUType) (name : Name)
    (base size : ℕ) : Decidable (Careful S p type name base size) :=
  decidable_of_iff
    (0 < size ∧ FewExcess p.liveObjects ⟨type, some name, chain p.contexts⟩ (rightOpen base size) true ∧
      (S type → ∀ ctx ∈ p.contexts.head?, ∀ au ∈ ctx.aus, au.site ≠ ⟨type, some name, chain p.contexts⟩))
    ⟨fun h => ⟨h.1, h.2.1, h.2.2⟩, fun h => ⟨h.nonempty, h.excess, h.fresh⟩⟩

instance (S : AUType → Prop) [DecidablePred S] (p : Profiler Name) :
    (e : Event Name) → Decidable (CarefulEvent S p e)
  | .malloc name ptr size => inferInstanceAs (Decidable (Careful S p .heap name ptr size))
  | .stack name base arraySize eltSize => inferInstanceAs (Decidable (Careful S p .stack name base
      ((if arraySize = 0 then 1 else arraySize) * eltSize % 2 ^ 64)))
  | .realloc name oldPtr newPtr size => inferInstanceAs (Decidable (_ ∧ (size ≠ 0 →
      FewExcess p.liveObjects ⟨.heap, some name, chain p.contexts⟩ (rightOpen newPtr size)
        (oldPtr = 0))))
  | .constant _ _ size => inferInstanceAs (Decidable (0 < size))
  | .free .. => inferInstanceAs (Decidable True)
  | .beginFunction _ => inferInstanceAs (Decidable True)
  | .endFunction => inferInstanceAs (Decidable True)
  | .beginIter _ => inferInstanceAs (Decidable True)
  | .endIter => inferInstanceAs (Decidable True)
  | .lookup _ => inferInstanceAs (Decidable True)

/-- The condition on a step of the system, which looks at the profiler before the step. -/
def System.Careful (S : AUType → Prop) (s : System Name) (e : Event Name) : Prop :=
  match s.profiler with
  | .ok p => CarefulEvent S p e
  | .error _ => True

instance (S : AUType → Prop) [DecidablePred S] (s : System Name) (e : Event Name) :
    Decidable (s.Careful S e) :=
  match h : s.profiler with
  | .ok p => decidable_of_iff (CarefulEvent S p e) (by rw [System.Careful, h])
  | .error _ => decidable_of_iff True (by rw [System.Careful, h])

end Cpf.Profile
