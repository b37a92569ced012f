import Cpf.Basics.IntervalMap
import Cpf.Basics.Loop

/-!
# Allocation units

The points-to profiler keeps a record for every object: its kind, its addresses, its name, and the
context in which it was created. `AllocationUnitTable` finds the record for an address. It has an
ordered map for heap and stack objects, another one for constants and globals, and remembers the record
it has found last.
-/

namespace Cpf.Profile

inductive AUType
  | null
  | unknown
  | constant
  | global
  | stack
  | heap
  deriving DecidableEq

inductive CtxType
  | top
  | function
  | loop
  deriving DecidableEq

structure Frame (Name : Type) where
  type : CtxType
  name : Option Name
  deriving DecidableEq

/-- A context with its parents, as far as `Context::operator==` looks at them. -/
abbrev Ctx (Name : Type) := List (Frame Name)

def innermostFunction {Name : Type} (ctx : Ctx Name) : Ctx Name :=
  ctx.dropWhile fun f => f.type = .loop

/-- An allocation unit; `id` stands for the address of the record. -/
structure AllocationUnit (Name : Type) where
  id : ℕ
  type : AUType
  reallocShrinkExcess : Bool
  extents : Interval
  name : Option Name
  creation : Ctx Name
  deriving DecidableEq

/-- What `AllocationUnit::operator==` and `operator<` compare. -/
structure Site (Name : Type) where
  type : AUType
  name : Option Name
  creation : Ctx Name
  deriving DecidableEq

inductive Failure
  | assertion
  | badPointer
  | outOfFuel
  deriving DecidableEq

variable {Name : Type} [DecidableEq Name]

def AllocationUnit.site (au : AllocationUnit Name) : Site Name := ⟨au.type, au.name, au.creation⟩

def WhollyWithin (e f : Interval) : Prop := f.low ≤ e.low ∧ e.high ≤ f.high

instance (e f : Interval) : Decidable (WhollyWithin e f) := inferInstanceAs (Decidable (_ ∧ _))

def rightOpen (base size : ℕ) : Interval := ⟨base, base + size⟩

structure AllocationUnitTable (Name : Type) where
  permanents : IntervalMap (AllocationUnit Name)
  temporaries : IntervalMap (AllocationUnit Name)
  mostRecentlyUsed : Option (AllocationUnit Name)

inductive Found (Name : Type)
  | null
  | unknown
  | unit (au : AllocationUnit Name)
  deriving DecidableEq

namespace AllocationUnitTable

/-- The unit that ends just before the pointer, if there is another one behind it. -/
def justBeyond (m : IntervalMap (AllocationUnit Name)) (ptr : ℕ) : Option (AllocationUnit Name) :=
  match m.lowerBound (.point ptr), (m.below (.point ptr)).getLast? with
  | _ :: _, some e => if ptr - e.1.high < 16 then some e.2 else none
  | _, _ => none

def search (t : AllocationUnitTable Name) (ptr : ℕ) : Option (AllocationUnit Name) :=
  (t.temporaries.find (.point ptr)).map Prod.snd <|> (t.permanents.find (.point ptr)).map Prod.snd <|>
    justBeyond t.temporaries ptr <|> justBeyond t.permanents ptr

def lookupPointer (t : AllocationUnitTable Name) (ptr : ℕ) : Found Name × AllocationUnitTable Name :=
  if ptr = 0 then (.null, t)
  else
    match t.mostRecentlyUsed.filter fun au => au.extents.Includes ptr with
    | some au => (.unit au, t)
    | none =>
        match t.search ptr with
        | some au => (.unit au, { t with mostRecentlyUsed := some au })
        | none => if ptr < 1024 then (.null, t) else (.unknown, t)

def insertTemporary (t : AllocationUnitTable Name) (au : AllocationUnit Name) :
    Except Failure (AllocationUnit Name × AllocationUnitTable Name) :=
  if (t.permanents.find au.extents).isSome then .error .assertion
  else .ok (au, { t with temporaries := t.temporaries.assign au.extents au })

def addTemporary (t : AllocationUnitTable Name) (au : AllocationUnit Name) :
    Except Failure (AllocationUnit Name × AllocationUnitTable Name) :=
  match t.temporaries.find au.extents with
  | none => t.insertTemporary au
  | some (_, old) =>
      if au.site = old.site then .ok (old, t)
      else if old.reallocShrinkExcess then
        { t with temporaries := t.temporaries.eraseFound au.extents }.insertTemporary au
      else .error .assertion

/-- The loop of `add_permanent` for constants, which may overlap: the addresses are divided so that every
constant keeps its first one, unless it lies within another constant. -/
def splitConstants : ℕ → AllocationUnitTable Name → AllocationUnit Name →
    Except Failure (AllocationUnitTable Name)
  | 0, _, _ => .error .outOfFuel
  | fuel + 1, t, au =>
      match t.permanents.find au.extents with
      | none => .ok { t with permanents := t.permanents.assign au.extents au }
      | some (_, collision) =>
          if collision.type ≠ .constant then .error .assertion
          else if WhollyWithin au.extents collision.extents then .ok t
          else if WhollyWithin collision.extents au.extents then
            splitConstants fuel { t with permanents := t.permanents.eraseFound au.extents } au
          else if au.extents.low < collision.extents.low then
            splitConstants fuel t { au with extents := ⟨au.extents.low, collision.extents.low⟩ }
          else
            let chopped := { collision with extents := ⟨collision.extents.low, au.extents.low⟩ }
            splitConstants fuel
              { t with
                permanents := (t.permanents.eraseFound au.extents).assign chopped.extents chopped } au

def addPermanent (t : AllocationUnitTable Name) (au : AllocationUnit Name) :
    Except Failure (AllocationUnitTable Name) :=
  if (t.temporaries.find au.extents).isSome then .error .assertion
  else if au.type = .constant then splitConstants (t.permanents.length + 2) t au
  else if (t.permanents.find au.extents).isSome then .error .assertion
  else .ok { t with permanents := t.permanents.assign au.extents au }

def remove (t : AllocationUnitTable Name) (au : AllocationUnit Name) :
    Except Failure (AllocationUnitTable Name) :=
  match t.temporaries.find au.extents with
  | none => .error .assertion
  | some _ => .ok
      { t with
        mostRecentlyUsed := t.mostRecentlyUsed.filter fun last => last.site ≠ au.site
        temporaries := t.temporaries.eraseFound au.extents }

end AllocationUnitTable

end Cpf.Profile
