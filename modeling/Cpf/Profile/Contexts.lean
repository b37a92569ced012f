import Cpf.Profile.Constants

/-!
# The units of the active contexts

A unit is in the list of an active context that contains its creation, and it was reported as escaping from
all contexts below. A stack object stays within its function.
-/

namespace Cpf.Profile

variable {Name : Type}

/-! ### Where a unit is listed -/

/-- The unit may be listed in the context. -/
structure PlacedIn (escapes : List (Site Name × Ctx Name)) (ctx : Ctx Name) (au : AllocationUnit Name) :
    Prop where
  within : ctx <:+ au.creation
  stack : au.type = .stack → innermostFunction au.creation <:+ ctx
  escaped : ∀ c, c <:+ au.creation → ctx.length < c.length → (au.site, c) ∈ escapes

def Placed (escapes : List (Site Name × Ctx Name)) : List (Context Name) → Prop
  | [] => True
  | ctx :: rest => (∀ au ∈ ctx.aus, PlacedIn escapes (chain (ctx :: rest)) au) ∧ Placed escapes rest

def units (contexts : List (Context Name)) : List (AllocationUnit Name) := contexts.flatMap Context.aus

def Thinner (contexts' contexts : List (Context Name)) : Prop :=
  List.Forall₂ (fun c' c => c'.frame = c.frame ∧ ∀ au ∈ c'.aus, au ∈ c.aus) contexts' contexts

variable {escapes escapes' : List (Site Name × Ctx Name)} {contexts contexts' : List (Context Name)}
  {au : AllocationUnit Name}

theorem Thinner.refl (contexts : List (Context Name)) : Thinner contexts contexts :=
  List.forall₂_same.2 fun _ _ => ⟨rfl, fun _ h => h⟩

theorem Thinner.chain_eq (h : Thinner contexts' contexts) : chain contexts' = chain contexts := by
  induction h with
  | nil => rfl
  | cons hc _ ih =>
      unfold chain at *
      rw [List.map_cons, List.map_cons, hc.1, ih]

theorem PlacedIn.mono {ctx : Ctx Name} (h : PlacedIn escapes ctx au) (hsub : ∀ a ∈ escapes, a ∈ escapes') :
    PlacedIn escapes' ctx au :=
  ⟨h.within, h.stack, fun c hc hlt => hsub _ (h.escaped c hc hlt)⟩

theorem Placed.mono (h : Placed escapes contexts) (hthin : Thinner contexts' contexts)
    (hsub : ∀ a ∈ escapes, a ∈ escapes') : Placed escapes' contexts' := by
  induction hthin with
  | nil => trivial
  | @cons c' c rest' rest hc hrest ih =>
      refine ⟨fun au hau => ?_, ih h.2⟩
      have hchain : chain (c' :: rest') = chain (c :: rest) := Thinner.chain_eq (.cons hc hrest)
      rw [hchain]
      exact (h.1 au (hc.2 au hau)).mono hsub

/-- Every listed unit is listed in a context within which it was created. -/
theorem Placed.of_mem (h : Placed escapes contexts) (hau : au ∈ units contexts) :
    ∃ c, c <:+ chain contexts ∧ PlacedIn escapes c au := by
  induction contexts with
  | nil => cases hau
  | cons ctx rest ih =>
      rw [units, List.flatMap_cons, List.mem_append] at hau
      rcases hau with hau | hau
      · exact ⟨chain (ctx :: rest), List.suffix_refl _, h.1 au hau⟩
      · obtain ⟨c, hc, hplaced⟩ := ih h.2 hau
        exact ⟨c, hc.trans (List.suffix_cons _ _), hplaced⟩

theorem suffix_eq_of_length {α : Type} {a b l : List α} (ha : a <:+ l) (hb : b <:+ l)
    (hlength : a.length = b.length) : a = b := by
  obtain ⟨x, rfl⟩ := ha
  obtain ⟨y, hy⟩ := hb
  have hxy : x.length = y.length := by
    have := congrArg List.length hy
    rw [List.length_append, List.length_append] at this
    omega
  exact (List.append_inj hy hxy.symm).2.symm

theorem removeFrom_thinner (contexts : List (Context Name)) :
    Thinner (Profiler.removeFrom au contexts) contexts := by
  induction contexts with
  | nil => exact .nil
  | cons ctx rest ih =>
      unfold Profiler.removeFrom
      split
      · next i hi =>
        obtain ⟨hlt, -⟩ := List.findIdx?_eq_some_iff_getElem.1 hi
        refine .cons ⟨rfl, fun v hv => ?_⟩ (Thinner.refl rest)
        exact (swapRemove_perm (List.getElem?_eq_getElem hlt)).subset (List.mem_cons_of_mem _ hv)
      · exact .cons ⟨rfl, fun _ hv => hv⟩ ih

/-- A listed unit is removed; nothing happens for a unit that is not listed. -/
theorem units_removeFrom (hids : ∀ v ∈ units contexts, v.id = au.id → v = au) :
    (au :: units (Profiler.removeFrom au contexts)).Perm (units contexts) ∨
      au ∉ units contexts ∧ Profiler.removeFrom au contexts = contexts := by
  induction contexts with
  | nil => exact Or.inr ⟨List.not_mem_nil, rfl⟩
  | cons ctx rest ih =>
      have hctx : ∀ v ∈ ctx.aus, v.id = au.id → v = au := fun v hv =>
        hids v (List.mem_append_left _ hv)
      have hrest : ∀ v ∈ units rest, v.id = au.id → v = au := fun v hv =>
        hids v (List.mem_append_right _ hv)
      unfold Profiler.removeFrom
      split
      · next i hi =>
        obtain ⟨hlt, hid, -⟩ := List.findIdx?_eq_some_iff_getElem.1 hi
        have heq : ctx.aus[i] = au := hctx _ (List.getElem_mem hlt) (of_decide_eq_true hid)
        have hget : ctx.aus[i]? = some au := by rw [List.getElem?_eq_getElem hlt, heq]
        exact Or.inl ((swapRemove_perm hget).append_right (units rest))
      · next hnone =>
        have hnot : au ∉ ctx.aus := by
          intro hmem
          have := List.findIdx?_eq_none_iff.1 hnone au hmem
          simp at this
        rcases ih hrest with hperm | ⟨hmem, heq⟩
        · refine Or.inl ?_
          calc (au :: (ctx.aus ++ units (Profiler.removeFrom au rest))).Perm
                (ctx.aus ++ au :: units (Profiler.removeFrom au rest)) := List.perm_middle.symm
            _ |>.Perm (ctx.aus ++ units rest) := hperm.append_left _
        · refine Or.inr ⟨?_, by rw [heq]⟩
          intro h
          rcases List.mem_append.1 h with h | h
          · exact hnot h
          · exact hmem h

theorem findCommon_suffix [DecidableEq Name] (a b : Ctx Name) : findCommon a b <:+ a := List.drop_suffix _ _

end Cpf.Profile
