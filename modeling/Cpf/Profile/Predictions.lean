import Cpf.Basics.Tally
import Cpf.Profile.Units

/-!
# The tables of the points-to profiler

The profiler counts how often an object escapes a context and how often it is local to one, and samples the
integers, pointers and underlying objects that an instruction has had in a context. A set of samples holds a
few different values with their frequencies and is given up when one more turns up.
-/

set_option linter.unusedSectionVars false

namespace Cpf.Profile

/-- `MAX_INT_PREDICTION_OBSERVATIONS`, and the bounds for pointers and for underlying objects. -/
def maxIntPredictionObservations : ℕ := 3

def maxPointerPredictionObservations : ℕ := 3

def maxUnderlyingObjectObservations : ℕ := 5

structure Sample (α : Type) where
  value : α
  frequency : ℕ
  deriving DecidableEq

namespace Sample

variable {α : Type}

def empty (s : Sample α) : Bool := s.frequency = 0

def isWorthPrinting (s : Sample α) : Bool := 0 < s.frequency

def receive (s : Sample α) : Sample α := { s with frequency := (s.frequency + 1) % 2 ^ 64 }

end Sample

/-- `SampleSet`; the observations after the listed ones are empty. -/
structure SampleSet (α : Type) where
  bottom : Bool
  numSamples : ℕ
  observations : List (Sample α)
  deriving DecidableEq

namespace SampleSet

variable {α : Type} [DecidableEq α]

def initial : SampleSet α := ⟨false, 0, []⟩

/-- The loop of `receive` over the next `n` observations; `none` when it finds no place for the value. -/
def observe : ℕ → List (Sample α) → α → Option (List (Sample α))
  | 0, _, _ => none
  | _ + 1, [], v => some [⟨v, 1⟩]
  | n + 1, s :: rest, v =>
      if s.empty then some (⟨v, 1⟩ :: rest)
      else if s.value = v then some (s.receive :: rest)
      else (observe n rest v).map (s :: ·)

def receive (n : ℕ) (set : SampleSet α) (v : α) : SampleSet α :=
  let set := { set with numSamples := (set.numSamples + 1) % 2 ^ 32 }
  if set.bottom then set
  else
    match observe n set.observations v with
    | some observations => { set with observations := observations }
    | none => { set with bottom := true }

def isWorthPrinting (set : SampleSet α) : Bool := set.observations.any Sample.isWorthPrinting

end SampleSet

structure PtrResidueSet where
  numSamples : ℕ
  residueSet : ℕ
  deriving DecidableEq

/-- `receive`: the last hexadecimal digit of the pointer is added. -/
def PtrResidueSet.receive (s : PtrResidueSet) (ptr : ℕ) : PtrResidueSet :=
  ⟨(s.numSamples + 1) % 2 ^ 32, s.residueSet ||| 1 <<< (ptr % 16)⟩

inductive Report (Name : Type)
  | escape (au : Site Name) (ctx : Ctx Name)
  | localTo (au : Site Name) (ctx : Ctx Name)
  | predictInt (ctx : Ctx Name) (name : Name) (value : ℕ)
  | predictPtr (ctx : Ctx Name) (name : Name) (au : Site Name) (offset : ℕ)
  | findUnderlyingObject (ctx : Ctx Name) (name : Name) (au : Site Name) (offset : ℕ)
  | pointerResidue (ctx : Ctx Name) (name : Name) (ptr : ℕ)
  | possibleAllocationLeak (name : Name)
  deriving DecidableEq

abbrev Escape (Name : Type) := Site Name × Ctx Name

abbrev CtxValue (Name : Type) := Name × Ctx Name

/-- `EscapeTable`, `PredictionTable` and the possible leaks; a map is listed by the first use of its keys. -/
structure Tables (Name : Type) where
  escapeFrequencies : List (Escape Name × ℕ)
  localFrequencies : List (Escape Name × ℕ)
  intPredictions : List (CtxValue Name × SampleSet ℕ)
  ptrPredictions : List (CtxValue Name × SampleSet (Site Name × ℕ))
  objPredictions : List (CtxValue Name × SampleSet (Site Name × ℕ))
  ptrResidues : List (CtxValue Name × PtrResidueSet)
  possibleAllocationLeaks : List Name

variable {Name : Type} [DecidableEq Name]

namespace Tables

open Tally

def initial : Tables Name := ⟨[], [], [], [], [], [], []⟩

def countEscape (m : List (Escape Name × ℕ)) (key : Escape Name) : List (Escape Name × ℕ) :=
  update m key 0 fun n => (n + 1) % 2 ^ 32

/-- `report_local` counts for the context and all its parents. -/
def receive (t : Tables Name) : Report Name → Tables Name
  | .escape au ctx => { t with escapeFrequencies := countEscape t.escapeFrequencies (au, ctx) }
  | .localTo au ctx =>
      { t with
        localFrequencies := ((ctx.tails.filter (· ≠ [])).map fun c => (au, c)).foldl countEscape
          t.localFrequencies }
  | .predictInt ctx name value =>
      { t with
        intPredictions := update t.intPredictions (name, ctx) .initial fun set =>
          set.receive maxIntPredictionObservations value }
  | .predictPtr ctx name au offset =>
      { t with
        ptrPredictions := update t.ptrPredictions (name, ctx) .initial fun set =>
          set.receive maxPointerPredictionObservations (au, offset) }
  | .findUnderlyingObject ctx name au offset =>
      { t with
        objPredictions := update t.objPredictions (name, ctx) .initial fun set =>
          set.receive maxUnderlyingObjectObservations (au, offset) }
  | .pointerResidue ctx name ptr =>
      { t with ptrResidues := update t.ptrResidues (name, ctx) ⟨0, 0⟩ fun set => set.receive ptr }
  | .possibleAllocationLeak name =>
      { t with
        possibleAllocationLeaks :=
          if name ∈ t.possibleAllocationLeaks then t.possibleAllocationLeaks
          else t.possibleAllocationLeaks ++ [name] }

end Tables

/-! ### What a set of samples has seen -/

namespace SampleSet

open Tally

variable {α : Type} [DecidableEq α] {n : ℕ} {v : α}

def sampled (vs : List α) : List (Sample α) := (counted vs).map fun c => ⟨c.1, c.2⟩

theorem sampled_eq (vs : List α) : sampled vs = (firsts vs).map fun v => ⟨v, times vs v⟩ := by
  rw [sampled, counted, List.map_map]
  rfl

/-- The search for the place of a value, over observations with different values. -/
theorem observe_map {ks : List α} (hks : ks.Nodup) (f : α → ℕ) (hf : ∀ k ∈ ks, f k ≠ 0)
    (hlen : ks.length ≤ n) (v : α) :
    observe n (ks.map fun k => ⟨k, f k⟩) v =
      if v ∈ ks then some (ks.map fun k => ⟨k, if k = v then (f k + 1) % 2 ^ 64 else f k⟩)
      else if ks.length < n then some ((ks.map fun k => ⟨k, f k⟩) ++ [⟨v, 1⟩]) else none := by
  induction ks generalizing n with
  | nil =>
      cases n with
      | zero => rfl
      | succ n => simp [observe]
  | cons k ks ih =>
      obtain ⟨hk, hks⟩ := List.nodup_cons.1 hks
      obtain ⟨n, rfl⟩ : ∃ m, n = m + 1 := ⟨n - 1, by rw [List.length_cons] at hlen; omega⟩
      obtain ⟨hfk, hfks⟩ := List.forall_mem_cons.1 hf
      have ih := ih hks hfks (Nat.le_of_succ_le_succ hlen)
      rw [List.map_cons, observe, if_neg (by simpa [Sample.empty] using hfk)]
      by_cases hv : k = v
      · subst hv
        rw [if_pos rfl, if_pos List.mem_cons_self, List.map_cons, if_pos rfl]
        refine congrArg some (congrArg₂ List.cons rfl (List.map_congr_left fun j hj => ?_))
        rw [if_neg]
        rintro rfl
        exact hk hj
      · rw [if_neg hv, ih]
        by_cases hmem : v ∈ ks
        · rw [if_pos hmem, if_pos (List.mem_cons_of_mem _ hmem), List.map_cons, if_neg hv]
          rfl
        · rw [if_neg hmem, if_neg fun h => (List.mem_cons.1 h).elim (fun heq => hv heq.symm) hmem]
          by_cases hlt : ks.length < n
          · rw [if_pos hlt, if_pos (by rw [List.length_cons]; omega)]
            rfl
          · rw [if_neg hlt, if_neg (by rw [List.length_cons]; omega)]
            rfl

/-- A set of samples after any values: it has counted them, or it has seen too many different ones. -/
structure Has (n : ℕ) (vs : List α) (set : SampleSet α) : Prop where
  numSamples : set.numSamples = vs.length % 2 ^ 32
  bottom : set.bottom = true ↔ n < (firsts vs).length
  observations : set.bottom = false → set.observations = sampled vs
  worth : vs ≠ [] → 0 < n → set.isWorthPrinting = true

theorem isWorthPrinting_iff {set : SampleSet α} :
    set.isWorthPrinting = true ↔ ∃ s ∈ set.observations, 0 < s.frequency := by
  simp [isWorthPrinting, Sample.isWorthPrinting]

theorem length_sampled (vs : List α) : (sampled vs).length = (firsts vs).length := by
  rw [sampled_eq, List.length_map]

theorem sampled_ne_nil {vs : List α} (h : vs ≠ []) : sampled vs ≠ [] := by
  rw [sampled_eq, ne_eq, List.map_eq_nil_iff, firsts_eq_nil]
  exact h

theorem isWorthPrinting_of_mem_sampled {vs : List α} {s : Sample α} (h : s ∈ sampled vs) :
    s.isWorthPrinting = true := by
  rw [sampled_eq] at h
  obtain ⟨v, hv, rfl⟩ := List.mem_map.1 h
  exact decide_eq_true (times_pos.2 (mem_firsts.1 hv))

/-- One more of the values that have been observed. -/
theorem sampled_append_of_mem {vs : List α} (hlen : vs.length + 1 < 2 ^ 64) {v : α} (hv : v ∈ vs) :
    sampled (vs ++ [v]) =
      (firsts vs).map fun k => ⟨k, if k = v then (times vs k + 1) % 2 ^ 64 else times vs k⟩ := by
  rw [sampled_eq, firsts_append_singleton, if_pos hv]
  refine List.map_congr_left fun k _ => ?_
  have hlt : times vs k + 1 < 2 ^ 64 := lt_of_le_of_lt (Nat.add_le_add_right (times_le_length _ _) 1) hlen
  rw [times_append_singleton, Nat.mod_eq_of_lt hlt, if_congr eq_comm rfl rfl]

theorem sampled_append_of_not_mem {vs : List α} {v : α} (hv : v ∉ vs) :
    sampled (vs ++ [v]) = ((firsts vs).map fun k => ⟨k, times vs k⟩) ++ [⟨v, 1⟩] := by
  have hzero : times vs v = 0 := times_eq_zero.2 hv
  rw [sampled_eq, firsts_append_singleton, if_neg hv, List.map_append, List.map_singleton,
    times_append_singleton,
    if_pos rfl, hzero]
  congr 1
  refine List.map_congr_left fun k hk => ?_
  rw [times_append_singleton, if_neg]
  rintro rfl
  exact hv (mem_firsts.1 hk)

theorem isWorthPrinting_sampled {bottom : Bool} {m : ℕ} (vs : List α) (v : α) :
    (⟨bottom, m, sampled (vs ++ [v])⟩ : SampleSet α).isWorthPrinting = true := by
  refine isWorthPrinting_iff.2 ⟨⟨v, times (vs ++ [v]) v⟩, ?_, times_pos.2 (by simp)⟩
  rw [sampled_eq]
  exact List.mem_map_of_mem (mem_firsts.2 (by simp))

theorem Has.receive {vs : List α} {set : SampleSet α} (h : Has n vs set)
    (hlen : vs.length + 1 < 2 ^ 64) (v : α) :
    Has n (vs ++ [v]) (set.receive n v) := by
  have hnum : (set.numSamples + 1) % 2 ^ 32 = (vs ++ [v]).length % 2 ^ 32 := by
    rw [h.numSamples, List.length_append, List.length_singleton, Nat.mod_add_mod]
  have hfirsts := length_firsts_append_singleton vs v
  rw [SampleSet.receive]
  dsimp only
  by_cases hbottom : set.bottom = true
  · have hn := h.bottom.1 hbottom
    rw [if_pos hbottom]
    refine ⟨hnum, iff_of_true hbottom (by split_ifs at hfirsts <;> omega), fun hfalse => ?_, fun _ hpos => ?_⟩
    · rw [hbottom] at hfalse
      cases hfalse
    · refine h.worth ?_ hpos
      rintro rfl
      cases hn
  have hfalse := Bool.eq_false_of_not_eq_true hbottom
  have hle : (firsts vs).length ≤ n := Nat.le_of_not_lt fun hlt => hbottom (h.bottom.2 hlt)
  have hcount : ∀ k ∈ firsts vs, times vs k ≠ 0 := fun k hk =>
    (times_pos.2 (mem_firsts.1 hk)).ne'
  rw [if_neg hbottom, h.observations hfalse, sampled_eq,
    observe_map (nodup_firsts vs) (fun k => times vs k) hcount hle v]
  by_cases hv : v ∈ vs
  · rw [if_pos hv] at hfirsts
    rw [if_pos (mem_firsts.2 hv), ← sampled_append_of_mem hlen hv]
    exact ⟨hnum, iff_of_false hbottom (by omega), fun _ => rfl, fun _ _ => isWorthPrinting_sampled vs v⟩
  rw [if_neg hv] at hfirsts
  rw [if_neg fun hmem => hv (mem_firsts.1 hmem)]
  by_cases hlt : (firsts vs).length < n
  · rw [if_pos hlt, ← sampled_append_of_not_mem hv]
    exact ⟨hnum, iff_of_false hbottom (by omega), fun _ => rfl, fun _ _ => isWorthPrinting_sampled vs v⟩
  · rw [if_neg hlt]
    refine ⟨hnum, iff_of_true rfl (by omega), nofun, fun _ hpos => ?_⟩
    · have hne : vs ≠ [] := by
        rintro rfl
        exact hlt hpos
      have hw := h.worth hne hpos
      rw [isWorthPrinting_iff, h.observations hfalse, sampled_eq] at hw
      exact isWorthPrinting_iff.2 hw

/-- A set of samples counts what it receives. -/
theorem has_foldl {vs : List α} (hlen : vs.length < 2 ^ 64) : Has n vs (vs.foldl (receive n) .initial) := by
  induction vs using List.reverseRecOn with
  | nil => exact ⟨rfl, ⟨nofun, nofun⟩, fun _ => rfl, fun h => absurd rfl h⟩
  | append_singleton vs v ih =>
      rw [List.length_append, List.length_singleton] at hlen
      rw [List.foldl_append]
      exact (ih (by omega)).receive hlen v

theorem observe_mem {observations found : List (Sample α)} (h : observe n observations v = some found)
    {s : Sample α}
    (hs : s ∈ found) : s ∈ observations ∨ s.value = v ∧ s.frequency < 2 ^ 64 := by
  induction n generalizing observations found with
  | zero => cases h
  | succ n ih =>
      cases observations with
      | nil =>
          obtain rfl := Option.some.inj h
          rw [List.mem_singleton.1 hs]
          exact .inr ⟨rfl, (by decide : 1 < 2 ^ 64)⟩
      | cons t rest =>
          rw [observe] at h
          split_ifs at h with hempty hvalue
          · obtain rfl := Option.some.inj h
            rcases List.mem_cons.1 hs with rfl | hs
            · exact .inr ⟨rfl, (by decide : 1 < 2 ^ 64)⟩
            · exact .inl (List.mem_cons_of_mem _ hs)
          · obtain rfl := Option.some.inj h
            rcases List.mem_cons.1 hs with rfl | hs
            · exact .inr ⟨hvalue, Nat.mod_lt _ (by decide)⟩
            · exact .inl (List.mem_cons_of_mem _ hs)
          · obtain ⟨found', hfound', rfl⟩ := Option.map_eq_some_iff.1 h
            rcases List.mem_cons.1 hs with rfl | hs
            · exact .inl List.mem_cons_self
            · exact (ih hfound' hs).imp_left (List.mem_cons_of_mem _)

/-- The observations are of received values, also when the set has been given up. -/
theorem observations_foldl (vs : List α) : ∀ s ∈ (vs.foldl (receive n) .initial).observations,
    s.value ∈ vs ∧ s.frequency < 2 ^ 64 := by
  induction vs using List.reverseRecOn with
  | nil => exact nofun
  | append_singleton vs v ih =>
      intro s hs
      have hold : ∀ t ∈ (vs.foldl (receive n) .initial).observations, t.value ∈ vs ++ [v] ∧
          t.frequency < 2 ^ 64 :=
        fun t ht => (ih t ht).imp_left (List.mem_append_left _)
      rw [List.foldl_append, List.foldl_cons, List.foldl_nil, receive] at hs
      dsimp only at hs
      split_ifs at hs with hbottom
      · exact hold s hs
      · split at hs
        · next found hfound =>
            rcases observe_mem hfound hs with hmem | ⟨rfl, hfrequency⟩
            · exact hold s hmem
            · exact ⟨by simp, hfrequency⟩
        · exact hold s hs

end SampleSet
end Cpf.Profile
