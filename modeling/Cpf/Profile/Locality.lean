import Cpf.Profile.Lookups

/-!
# Objects that are local to a context

In every run without `realloc` in which no context allocates an object while a unit of the same site is in
its list, an object that is live when a context is left was reported as escaping from it, so no line of the
profile says that objects of its site are local there.
-/

namespace Cpf.Profile

variable {Name : Type} [DecidableEq Name] {s : System Name} {p : Profiler Name} {g g' : Program Name}

def NotListed (p : Profiler Name) (site : Site Name) : Prop :=
  ∀ ctx ∈ p.contexts.head?, ∀ au ∈ ctx.aus, au.site ≠ site

instance (p : Profiler Name) (site : Site Name) : Decidable (NotListed p site) :=
  inferInstanceAs (Decidable (∀ ctx ∈ p.contexts.head?, ∀ au ∈ ctx.aus, au.site ≠ site))

/-- The condition on an event: new objects have a size, and their site is not listed. -/
def FreshEvent (p : Profiler Name) : Event Name → Prop
  | .malloc name _ size => 0 < size ∧ NotListed p ⟨.heap, some name, chain p.contexts⟩
  | .stack name _ arraySize eltSize =>
      0 < (if arraySize = 0 then 1 else arraySize) * eltSize % 2 ^ 64 ∧
        NotListed p ⟨.stack, some name, chain p.contexts⟩
  | .realloc .. => False
  | .constant _ _ size => 0 < size
  | _ => True

instance (p : Profiler Name) : (e : Event Name) → Decidable (FreshEvent p e)
  | .malloc _ _ size => inferInstanceAs (Decidable (0 < size ∧ NotListed p _))
  | .stack .. => inferInstanceAs (Decidable (0 < _ ∧ NotListed p _))
  | .realloc .. => inferInstanceAs (Decidable False)
  | .constant _ _ size => inferInstanceAs (Decidable (0 < size))
  | .free .. => inferInstanceAs (Decidable True)
  | .beginFunction _ => inferInstanceAs (Decidable True)
  | .endFunction => inferInstanceAs (Decidable True)
  | .beginIter _ => inferInstanceAs (Decidable True)
  | .endIter => inferInstanceAs (Decidable True)
  | .lookup _ => inferInstanceAs (Decidable True)

def System.Fresh (s : System Name) (e : Event Name) : Prop :=
  match s.profiler with
  | .ok p => FreshEvent p e
  | .error _ => True

instance (s : System Name) (e : Event Name) : Decidable (s.Fresh e) :=
  match h : s.profiler with
  | .ok p => decidable_of_iff (FreshEvent p e) (by rw [System.Fresh, h])
  | .error _ => decidable_of_iff True (by rw [System.Fresh, h])

omit [DecidableEq Name] in
/-- Without `realloc` nothing is left over that a new object could meet. -/
theorem ProfilerOk.few_excess (h : ProfilerOk (fun _ => True) p g) {type : AUType} {name : Name}
    {base size : ℕ} (hg : g.allocate type name base size = some g') :
    FewExcess p.liveObjects ⟨type, some name, chain p.contexts⟩ (rightOpen base size) true := by
  have hnone := h.noExcess trivial
  refine ⟨fun a ha b _ hae => ?_, fun a ha hae => ?_, fun _ last hlast hex => ?_⟩
  · rw [hnone a ha] at hae
    cases hae
  · rw [hnone a ha] at hae
    cases hae
  · rcases h.table.cached last hlast with htemp | hperm
    · have hnot := hnone _ htemp
      dsimp only at hnot
      rw [hex] at hnot
      cases hnot
    · unfold Program.allocate at hg
      split_ifs at hg with havail
      obtain ⟨-, c, hc, hwithin⟩ := h.table.covered _ hperm
      have hdisjoint := havail.2.2 c hc
      have hnonempty := h.table.permanentsWf.nonempty _ hperm
      unfold WhollyWithin at hwithin
      unfold Interval.Disjoint Interval.Before at *
      dsimp only at hwithin hnonempty
      omega

theorem ProfilerOk.careful_of_fresh (h : ProfilerOk (fun _ => True) p g) {e : Event Name}
    (hfresh : FreshEvent p e) (hg : g.step e = some g') : CarefulEvent (fun _ => True) p e := by
  cases e with
  | malloc name ptr size => exact ⟨hfresh.1, h.few_excess hg, fun _ => hfresh.2⟩
  | stack name base arraySize eltSize => exact ⟨hfresh.1, h.few_excess hg, fun _ => hfresh.2⟩
  | realloc name oldPtr newPtr size => cases hfresh
  | constant name base size => exact hfresh
  | free ptr isAlloca => trivial
  | beginFunction name => trivial
  | endFunction => trivial
  | beginIter name => trivial
  | endIter => trivial
  | lookup ptr => trivial

def EndsInTop (ctx : Ctx Name) : Prop := ∃ inner, ctx = inner ++ [⟨.top, none⟩]

omit [DecidableEq Name] in
theorem EndsInTop.tail {frame : Frame Name} {outer : Ctx Name} (h : EndsInTop (frame :: outer))
    (houter : outer ≠ []) : EndsInTop outer := by
  obtain ⟨inner, hinner⟩ := h
  cases inner with
  | nil => exact absurd (List.cons.inj hinner).2 houter
  | cons f inner => exact ⟨inner, (List.cons.inj hinner).2⟩

theorem EndsInTop.step (h : EndsInTop g.frames) {e : Event Name} (hg : g.step e = some g') :
    EndsInTop g'.frames := by
  have hallocate : ∀ {g g' : Program Name} {type : AUType} {name : Name} {base size : ℕ},
      g.allocate type name base size = some g' → g'.frames = g.frames := by
    intro g g' type name base size hg
    unfold Program.allocate at hg
    split_ifs at hg
    cases hg
    rfl
  have hrelease : ∀ {g g' : Program Name} {type : AUType} {base : ℕ},
      g.release type base = some g' → g'.frames = g.frames := by
    intro g g' type base hg
    obtain ⟨o, -, -, -, rfl⟩ := release_eq hg
    rfl
  have hleave : ∀ type live, g.leave type live = some g' → EndsInTop g'.frames := by
    intro type live hg
    unfold Program.leave at hg
    split at hg
    · next frame outer hframes =>
      split_ifs at hg with hcond
      cases hg
      rw [hframes] at h
      exact h.tail hcond.2
    · cases hg
  have hcons : ∀ frame : Frame Name, EndsInTop (frame :: g.frames) := by
    intro frame
    obtain ⟨inner, hinner⟩ := h
    exact ⟨frame :: inner, by rw [hinner]; rfl⟩
  unfold Program.step at hg
  cases e with
  | malloc name ptr size => rwa [hallocate hg]
  | stack name base arraySize eltSize => rwa [hallocate hg]
  | realloc name oldPtr newPtr size =>
      have hrest : ∀ g₁ : Program Name, g₁.frames = g.frames → (if size = 0 then
          some { g₁ with started := true } else g₁.allocate .heap name newPtr size) = some g' →
          EndsInTop g'.frames := by
        intro g₁ hframes hg₁
        split_ifs at hg₁
        · cases hg₁
          exact hframes ▸ h
        · rw [hallocate hg₁, hframes]
          exact h
      change (if oldPtr = 0 then _ else _) = some g' at hg
      by_cases hptr : oldPtr = 0
      · rw [if_pos hptr] at hg
        exact hrest g rfl hg
      · rw [if_neg hptr] at hg
        obtain ⟨g₁, hg₁, hg₂⟩ := Option.bind_eq_some_iff.1 hg
        exact hrest g₁ (hrelease hg₁) hg₂
  | constant name base size =>
      dsimp only at hg
      split_ifs at hg
      cases hg
      exact h
  | free ptr isAlloca =>
      dsimp only at hg
      split_ifs at hg
      · cases hg
        exact h
      all_goals
        rw [hrelease hg]
        exact h
  | beginFunction name =>
      cases hg
      exact hcons _
  | endFunction => exact hleave _ _ hg
  | beginIter name =>
      cases hg
      exact hcons _
  | endIter => exact hleave _ _ hg
  | lookup ptr =>
      cases hg
      exact h

theorem fresh_run (hrun : Run System.step System.Fresh .initial s) :
    EndsInTop s.program.frames ∧
      ∃ p, s.profiler = .ok p ∧ ProfilerOk (fun _ => True) p s.program := by
  apply hrun.invariant fun s => EndsInTop s.program.frames ∧
    ∃ p, s.profiler = .ok p ∧ ProfilerOk (fun _ => True) p s.program
  · exact ⟨⟨[], rfl⟩, .initial, rfl, initial_ok⟩
  · rintro s e s' ⟨htop, p, hp, hok⟩ hfresh hstep
    unfold System.Fresh at hfresh
    rw [hp] at hfresh
    obtain ⟨g, hg, rfl⟩ := Option.map_eq_some_iff.1 hstep
    obtain ⟨p', hp', hok'⟩ := hok.step trivial (hok.careful_of_fresh hfresh hg) hg
    refine ⟨htop.step hg, p', ?_, hok'⟩
    rw [hp]
    exact hp'

omit [DecidableEq Name] in
/-- The profile is written: the units in `Top` are reported, too. -/
theorem ProfilerOk.finish (h : ProfilerOk (fun _ => True) p g) (hframes : g.frames = [⟨.top, none⟩]) :
    ∃ p', p.finish = .ok p' ∧ p'.locals = p.locals ∧
      ∀ x ∈ g.exits ++ [(g.frames, g.live)], ∀ o ∈ x.2, x.1 <:+ o.creation →
        p'.PrintsEscape o.site x.1 := by
  have hchain := h.frames
  rw [hframes] at hchain
  obtain ⟨top, hcontexts, htop⟩ : ∃ top, p.contexts = [top] ∧ top.frame = ⟨.top, none⟩ := by
    cases hc : p.contexts with
    | nil =>
        rw [hc] at hchain
        cases hchain
    | cons top rest =>
        rw [hc] at hchain
        obtain ⟨htop, hrest⟩ := List.cons.inj hchain
        refine ⟨top, ?_, htop⟩
        rw [List.map_eq_nil_iff.1 hrest]
  have hfinish : p.finish = .ok
      { p with
        escapes := p.escapes ++ ((top.aus.filter fun au => au.type ≠ .global ∧ au.type ≠ .constant).map
          fun au => (au.site, chain p.contexts))
        contexts := [{ top with aus := [] }] } := by
    unfold Profiler.finish
    rw [hcontexts]
    dsimp only
    rw [if_neg (by rw [htop]; exact fun hne => hne rfl)]
  refine ⟨_, hfinish, rfl, fun x hx o ho hwithin => ?_⟩
  unfold Profiler.PrintsEscape
  dsimp only
  rcases List.mem_append.1 hx with hx | hx
  · exact List.mem_append_left _ (h.exits x hx o ho trivial hwithin)
  · rw [List.mem_singleton.1 hx] at ho ⊢
    dsimp only at ho ⊢
    obtain ⟨au, hau, hdesc⟩ := h.listed o ho trivial
    have hmem : au ∈ top.aus := by
      rw [hcontexts] at hau
      simpa [units] using hau
    apply List.mem_append_right
    rw [← hdesc.site_eq, ← h.frames]
    apply List.mem_map_of_mem
    rw [List.mem_filter, decide_eq_true_iff, hdesc.1]
    refine ⟨hmem, ?_⟩
    rcases h.types o ho with htype | htype <;> rw [htype] <;> decide

/-- An object that is live when a context is left is reported as escaping from it, and what the profile says
to be local was never live then. -/
theorem locality_sound (hrun : Run System.step System.Fresh .initial s)
    (hend : s.program.frames.length = 1) :
    ∃ p p', s.profiler = .ok p ∧ p.finish = .ok p' ∧
      (∀ x ∈ s.program.exits ++ [(s.program.frames, s.program.live)], ∀ o ∈ x.2,
        x.1 <:+ o.creation → p'.PrintsEscape o.site x.1) ∧
      ∀ site ctx, p'.PrintsLocal site ctx →
        ∀ x ∈ s.program.exits ++ [(s.program.frames, s.program.live)], x.1 = ctx →
          ∀ o ∈ x.2, o.site ≠ site := by
  obtain ⟨⟨inner, hinner⟩, p, hp, hok⟩ := fresh_run hrun
  have hframes : s.program.frames = [⟨.top, none⟩] := by
    rw [hinner, List.length_append, List.length_singleton] at hend
    rw [hinner, List.length_eq_zero_iff.1 (by omega : inner.length = 0)]
    rfl
  obtain ⟨p', hp', hlocals, hescapes⟩ := hok.finish hframes
  refine ⟨p, p', hp, hp', hescapes, fun site ctx hlocal x hx hctx o ho hsite => ?_⟩
  have hsuffix := hok.locals (site, ctx) (hlocals ▸ hlocal.1)
  dsimp only at hsuffix
  rw [← hsite, ← hctx] at hsuffix
  apply hlocal.2
  rw [← hsite, ← hctx]
  exact hescapes x hx o ho hsuffix

/-- A function keeps one object and frees another one of another site. -/
def keepOne : List (Event ℕ) :=
  [.beginFunction 1, .malloc 2 100 8, .malloc 3 200 8, .free 100 false, .endFunction]

theorem locality_sound_keepOne : ∃ s p p', Run System.step System.Fresh (.initial : System ℕ) s ∧
    s.program.frames.length = 1 ∧ s.profiler = .ok p ∧ p.finish = .ok p' ∧
      p'.PrintsEscape ⟨.heap, some 3, [⟨.function, some 1⟩, ⟨.top, none⟩]⟩
        [⟨.function, some 1⟩, ⟨.top, none⟩] := by
  have hreplay : (Run.replay System.step System.Fresh (.initial : System ℕ) keepOne).any (fun s =>
      decide (s.program.frames.length = 1 ∧ s.program.exits =
        [([⟨.function, some 1⟩, ⟨.top, none⟩],
          [⟨.heap, 3, [⟨.function, some 1⟩, ⟨.top, none⟩], ⟨200, 208⟩⟩])])) = true := by decide +kernel
  obtain ⟨s, hrun, hs⟩ := Run.exists_of_any hreplay
  obtain ⟨hend, hexits⟩ := of_decide_eq_true hs
  obtain ⟨p, p', hp, hp', hescapes, -⟩ := locality_sound hrun hend
  refine ⟨s, p, p', hrun, hend, hp, hp', ?_⟩
  rw [hexits] at hescapes
  exact hescapes _ List.mem_cons_self _ List.mem_cons_self (List.suffix_refl _)

/-- Two objects of one site are live in a context: the second one is not in its list. It is not reported when
the context is left, and the profile says that the objects are local because the first one was freed. -/
theorem second_object_unreported : ∃ s p p', Run System.step (fun _ _ => True) (.initial : System ℕ) s ∧
    s.program.frames.length = 1 ∧ s.profiler = .ok p ∧ p.finish = .ok p' ∧
      ∃ x ∈ s.program.exits, ∃ o ∈ x.2, x.1 <:+ o.creation ∧ ¬ p'.PrintsEscape o.site x.1 ∧
        p'.PrintsLocal o.site x.1 := by
  have hreplay : (Run.replay System.step (fun _ _ => True) (.initial : System ℕ)
      [.beginFunction 1, .malloc 2 100 8, .malloc 2 200 8, .free 100 false, .endFunction]).any (fun s =>
      decide (s.program.frames.length = 1 ∧ s.program.exits =
        [([⟨.function, some 1⟩, ⟨.top, none⟩],
          [⟨.heap, 2, [⟨.function, some 1⟩, ⟨.top, none⟩], ⟨200, 208⟩⟩])]) &&
      (s.profiler.toOption.bind fun p => p.finish.toOption).any fun p' =>
        decide (p'.escapes = []) && decide ((⟨.heap, some 2, [⟨.function, some 1⟩, ⟨.top, none⟩]⟩,
          [⟨.function, some 1⟩, ⟨.top, none⟩]) ∈ p'.locals)) = true := by decide +kernel
  obtain ⟨s, hrun, hs⟩ := Run.exists_of_any hreplay
  rw [Bool.and_eq_true] at hs
  obtain ⟨hend, hexits⟩ := of_decide_eq_true hs.1
  obtain ⟨p', hp', hfacts⟩ := (Option.any_eq_true _ _).1 hs.2
  obtain ⟨p, hp, hfinish⟩ := Option.bind_eq_some_iff.1 hp'
  rw [Bool.and_eq_true, decide_eq_true_iff, decide_eq_true_iff] at hfacts
  have hok : s.profiler = .ok p := by
    cases hprof : s.profiler with
    | error e =>
        rw [hprof] at hp
        cases hp
    | ok q =>
        rw [hprof] at hp
        cases hp
        rfl
  have hok' : p.finish = .ok p' := by
    cases hfin : p.finish with
    | error e =>
        rw [hfin] at hfinish
        cases hfinish
    | ok q =>
        rw [hfin] at hfinish
        cases hfinish
        rfl
  have hnot : ∀ site ctx, ¬ p'.PrintsEscape site ctx := by
    intro site ctx hmem
    unfold Profiler.PrintsEscape at hmem
    rw [hfacts.1] at hmem
    cases hmem
  have hmem : ([⟨.function, some 1⟩, ⟨.top, none⟩],
      [⟨.heap, 2, [⟨.function, some 1⟩, ⟨.top, none⟩], ⟨200, 208⟩⟩]) ∈ s.program.exits := by
    rw [hexits]
    exact List.mem_cons_self
  exact ⟨s, p, p', hrun, hend, hok, hok', _, hmem, _, List.mem_cons_self, List.suffix_refl _, hnot _ _,
    hfacts.2, hnot _ _⟩

end Cpf.Profile
