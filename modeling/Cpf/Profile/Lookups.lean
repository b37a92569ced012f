import Cpf.Profile.ProfilerExits

/-!
# Pointers are resolved to live objects

In every run whose allocations meet the condition, the profiler survives, the keys of its map are disjoint, and
a pointer into a live object is resolved to the unit of that object. What is left over from `realloc` can
hide a new object otherwise.
-/

namespace Cpf.Profile

variable {Name : Type} [DecidableEq Name] {S : AUType → Prop} {s : System Name}

theorem profilerOk_of_run (hS : S .stack) (hrun : Run System.step (System.Careful S) .initial s) :
    ∃ p, s.profiler = .ok p ∧ ProfilerOk S p s.program := by
  apply hrun.invariant fun s => ∃ p, s.profiler = .ok p ∧ ProfilerOk S p s.program
  · exact ⟨.initial, rfl, initial_ok⟩
  · rintro s e s' ⟨p, hp, hok⟩ hcareful hstep
    unfold System.Careful at hcareful
    rw [hp] at hcareful
    obtain ⟨g, hg, rfl⟩ := Option.map_eq_some_iff.1 hstep
    obtain ⟨p', hp', hok'⟩ := hok.step hS hcareful hg
    refine ⟨p', ?_, hok'⟩
    rw [hp]
    exact hp'

/-- A pointer into a live object is resolved to its unit. -/
theorem lookupPointer_resolves
    (hrun : Run System.step (System.Careful fun type => type = .stack) .initial s) :
    ∃ p, s.profiler = .ok p ∧ p.liveObjects.temporaries.WF ∧
      (∀ e ∈ p.liveObjects.temporaries, e.1 = e.2.extents) ∧
      ∀ o ∈ s.program.live, ∀ ptr, o.extents.Includes ptr →
        ∃ au, (p.liveObjects.lookupPointer ptr).1 = .unit au ∧ au.Describes o := by
  obtain ⟨p, hp, hok⟩ := @profilerOk_of_run Name _ (fun type => type = .stack) s rfl hrun
  refine ⟨p, hp, hok.table.wf, hok.table.keys, fun o ho ptr hptr => ?_⟩
  obtain ⟨au, hfound, hdesc, -⟩ := hok.table.lookupPointer_live ho hptr
  exact ⟨au, hfound, hdesc⟩

/-- An object is shrunk, its end is looked up and given to another object. -/
def shrinkAndReuse : List (Event ℕ) :=
  [.malloc 1 100 100, .realloc 2 100 100 50, .lookup 120, .malloc 3 150 40]

theorem lookupPointer_resolves_shrinkAndReuse : ∃ s p,
    Run System.step (System.Careful fun type => type = .stack) (.initial : System ℕ) s ∧
      s.profiler = .ok p ∧ ⟨.heap, 3, [⟨.top, none⟩], ⟨150, 190⟩⟩ ∈ s.program.live ∧
      ∃ au, (p.liveObjects.lookupPointer 160).1 = .unit au ∧
        au.Describes ⟨.heap, 3, [⟨.top, none⟩], ⟨150, 190⟩⟩ := by
  have hreplay : (Run.replay System.step (System.Careful fun type => type = .stack) (.initial : System ℕ)
      shrinkAndReuse).any (fun s => decide
        (⟨.heap, 3, [⟨.top, none⟩], ⟨150, 190⟩⟩ ∈ s.program.live)) = true := by decide +kernel
  obtain ⟨s, hrun, hmem⟩ := Run.exists_of_any hreplay
  obtain ⟨p, hp, -, -, hlookup⟩ := lookupPointer_resolves hrun
  exact ⟨s, p, hrun, hp, of_decide_eq_true hmem,
    hlookup _ (of_decide_eq_true hmem) 160 (by decide)⟩

def Misses (s : System ℕ) (o : Object ℕ) (ptr : ℕ) : Bool :=
  match s.profiler with
  | .error _ => false
  | .ok p =>
      match (p.liveObjects.lookupPointer ptr).1 with
      | .unit au => !decide (au.Describes o)
      | _ => true

/-- What is left over from a `realloc` was found last, and hides the object that is allocated there. -/
theorem shrinkAndReuse_hides : ∃ s p, Run System.step (fun _ _ => True) (.initial : System ℕ) s ∧
    s.profiler = .ok p ∧ ∃ o ∈ s.program.live, o.extents.Includes 160 ∧
      ¬ ∃ au, (p.liveObjects.lookupPointer 160).1 = .unit au ∧ au.Describes o := by
  have hreplay : (Run.replay System.step (fun _ _ => True) (.initial : System ℕ)
      [.malloc 1 100 100, .realloc 2 100 100 50, .lookup 160, .malloc 3 150 40]).any (fun s => decide
        (⟨.heap, 3, [⟨.top, none⟩], ⟨150, 190⟩⟩ ∈ s.program.live) &&
          Misses s ⟨.heap, 3, [⟨.top, none⟩], ⟨150, 190⟩⟩ 160) = true := by decide +kernel
  obtain ⟨s, hrun, hs⟩ := Run.exists_of_any hreplay
  rw [Bool.and_eq_true, decide_eq_true_iff] at hs
  obtain ⟨hmem, hmiss⟩ := hs
  unfold Misses at hmiss
  cases hp : s.profiler with
  | error e =>
      rw [hp] at hmiss
      cases hmiss
  | ok p =>
      rw [hp] at hmiss
      refine ⟨s, p, hrun, hp, _, hmem, by decide, ?_⟩
      rintro ⟨au, hfound, hdesc⟩
      dsimp only at hmiss
      rw [hfound] at hmiss
      simp [hdesc] at hmiss

end Cpf.Profile
