import Cpf.Profile.ProfilerSteps

/-!
# Contexts that are entered and left

When a function returns, exactly its own stack objects are removed. The units that are left in a context are
reported as escaping from it.
-/

namespace Cpf.Profile

variable {Name : Type} [DecidableEq Name] {S : AUType → Prop} {p : Profiler Name}
  {g g' : Program Name} {au : AllocationUnit Name} {o : Object Name}

omit [DecidableEq Name] in
theorem ProfilerOk.enterCtx (h : ProfilerOk S p g) (type : CtxType) (name : Name) :
    ProfilerOk S (p.enterCtx type name)
      { g with frames := ⟨type, some name⟩ :: g.frames, started := true } := by
  have hunits : units (p.enterCtx type name).contexts = units p.contexts := rfl
  obtain ⟨t1, t2, t3, t4, t5, t6, t7, t8, t9, t10, t11⟩ := h.table
  refine ⟨⟨t1, t2, t3, t4, t5, t6, t7, t8, t9, t10, t11⟩, ?_, List.cons_ne_nil _ _, h.types, ?_, ?_, ?_, ?_,
    h.ids, h.next, (fun hn => by cases hn), h.locals, h.exits, h.noExcess⟩
  · change ⟨type, some name⟩ :: chain p.contexts = _
    rw [h.frames]
  · rw [hunits]
    exact h.listedLive
  · rw [hunits]
    exact h.nodup
  · exact ⟨(fun au hau => by cases hau), h.placed⟩
  · rw [hunits]
    exact h.listed

omit [DecidableEq Name] in
theorem innermostFunction_suffix_tail {frame : Frame Name} {outer ctx : Ctx Name}
    (h : innermostFunction ctx <:+ frame :: outer)
    (hne : frame.type = .loop ∨ innermostFunction ctx ≠ frame :: outer) :
    innermostFunction ctx <:+ outer := by
  rcases List.suffix_cons_iff.1 h with heq | hsuffix
  · rcases hne with hloop | hne
    · have hhead := List.head?_dropWhile_not (fun f : Frame Name => decide (f.type = .loop)) ctx
      rw [show List.dropWhile _ ctx = frame :: outer from heq] at hhead
      simp [hloop] at hhead
    · exact absurd heq hne
  · exact hsuffix

omit [DecidableEq Name] in
/-- A context is left; the stack objects of a function that returns are gone before. -/
theorem ProfilerOk.exitCtx (h : ProfilerOk S p g) {type : CtxType} {frame : Frame Name}
    {outer : Ctx Name} (hframes : g.frames = frame :: outer) (hframe : frame.type = type)
    (houter : outer ≠ [])
    (hgone : type = .loop ∨ ∀ o ∈ g.live, o.type = .stack → innermostFunction o.creation ≠ g.frames) :
    ∃ p', p.exitCtx type = .ok p' ∧ ProfilerOk S p'
      { g with frames := outer, started := true, exits := g.exits ++ [(frame :: outer, g.live)] } := by
  have hchain := h.frames
  rw [hframes] at hchain
  obtain ⟨current, rest, hcontexts, hcf, hrest⟩ :
      ∃ current rest, p.contexts = current :: rest ∧ current.frame = frame ∧ chain rest = outer := by
    cases hc : p.contexts with
    | nil =>
        rw [hc] at hchain
        cases hchain
    | cons current rest =>
        rw [hc] at hchain
        exact ⟨current, rest, rfl, (List.cons.inj hchain).1, (List.cons.inj hchain).2⟩
  obtain ⟨parent, ancestors, rfl⟩ : ∃ parent ancestors, rest = parent :: ancestors := by
    cases rest with
    | nil => exact absurd hrest.symm houter
    | cons parent ancestors => exact ⟨parent, ancestors, rfl⟩
  have hunits : units p.contexts = current.aus ++ (parent.aus ++ units ancestors) := by
    rw [hcontexts]
    rfl
  have hplaced := h.placed
  rw [hcontexts] at hplaced
  obtain ⟨hcur, hpar, hanc⟩ := hplaced
  have hchain' : chain (current :: parent :: ancestors) = frame :: outer := by
    rw [← hcontexts, h.frames, hframes]
  have hchainpar : chain (parent :: ancestors) = outer := hrest
  have hexit : p.exitCtx type = .ok
      { p with
        escapes := p.escapes ++ current.aus.map fun au => (au.site, chain p.contexts)
        contexts := { parent with aus := parent.aus ++ current.aus } :: ancestors } := by
    unfold Profiler.exitCtx
    rw [hcontexts]
    dsimp only
    rw [if_neg (fun hne => hne (hcf ▸ hframe))]
  have hescape : ∀ a ∈ p.escapes, a ∈ p.escapes ++ current.aus.map fun au => (au.site, chain p.contexts) :=
    fun a ha => List.mem_append_left _ ha
  have hunits' : (units ({ parent with aus := parent.aus ++ current.aus } :: ancestors)).Perm
      (units p.contexts) := by
    rw [hunits]
    change (parent.aus ++ current.aus ++ units ancestors).Perm _
    rw [← List.append_assoc]
    exact List.perm_append_comm.append_right _
  obtain ⟨t1, t2, t3, t4, t5, t6, t7, t8, t9, t10, t11⟩ := h.table
  refine ⟨_, hexit, ⟨t1, t2, t3, t4, t5, t6, t7, t8, t9, t10, t11⟩, hrest, houter, h.types, ?_, ?_, ⟨?_, ?_⟩,
    ?_, h.ids, h.next, (fun hn => by cases hn), h.locals, ?_, h.noExcess⟩
  · exact fun v hv => h.listedLive v (hunits'.mem_iff.1 hv)
  · exact hunits'.nodup_iff.2 h.nodup
  · intro v hv
    change PlacedIn _ (chain (parent :: ancestors)) v
    rcases List.mem_append.1 hv with hv | hv
    · exact (hpar v hv).mono hescape
    · -- a unit of the context that is left
      have hplacedv := hcur v hv
      rw [hchain'] at hplacedv
      rw [hchainpar]
      refine ⟨(List.suffix_cons frame outer).trans hplacedv.within, fun hstack => ?_, fun c hc hlt => ?_⟩
      · apply innermostFunction_suffix_tail (hplacedv.stack hstack)
        rcases hgone with hloop | hnone
        · exact Or.inl (hframe.trans hloop)
        · have hvunits : v ∈ units p.contexts := by
            rw [hunits]
            exact List.mem_append_left _ hv
          obtain ⟨o, ho, hdesc⟩ := h.describes_of_listed hvunits
          refine Or.inr ?_
          rw [hdesc.2.2.1, ← hframes]
          exact hnone o ho (hdesc.1 ▸ hstack)
      · by_cases hlonger : (frame :: outer).length < c.length
        · exact hescape _ (hplacedv.escaped c hc hlonger)
        · have hceq : c = frame :: outer := by
            apply suffix_eq_of_length hc hplacedv.within
            rw [List.length_cons] at hlonger ⊢
            omega
          apply List.mem_append_right
          rw [hceq, ← hchain', ← hcontexts]
          exact List.mem_map_of_mem hv
  · exact hanc.mono (Thinner.refl ancestors) hescape
  · intro o ho hS
    obtain ⟨v, hv, hdesc⟩ := h.listed o ho hS
    exact ⟨v, hunits'.mem_iff.2 hv, hdesc⟩
  · intro x hx o ho hS hwithin
    rcases List.mem_append.1 hx with hx | hx
    · exact hescape _ (h.exits x hx o ho hS hwithin)
    · rw [List.mem_singleton.1 hx] at ho hwithin ⊢
      dsimp only at ho hwithin ⊢
      obtain ⟨v, hv, hdesc⟩ := h.listed o ho hS
      rw [← hdesc.site_eq]
      rw [hunits, List.mem_append] at hv
      rcases hv with hv | hv
      · apply List.mem_append_right
        rw [← hchain', ← hcontexts]
        exact List.mem_map_of_mem hv
      · -- the unit was moved out of an earlier context of this value
        have hplacedrest : Placed p.escapes (parent :: ancestors) := ⟨hpar, hanc⟩
        obtain ⟨c, hc, hplacedv⟩ := hplacedrest.of_mem hv
        apply hescape
        apply hplacedv.escaped
        · rw [hdesc.2.2.1]
          exact hwithin
        · have := hc.length_le
          rw [hchainpar] at this
          rw [List.length_cons]
          omega

/-! ### The stack objects of a function -/

theorem ProfilerOk.freeOneStack (h : ProfilerOk S p g) {current : Context Name}
    {rest : List (Context Name)} (hcontexts : p.contexts = current :: rest) {i : ℕ}
    (hi : current.aus[i]? = some au) (ho : o ∈ g.live) (hdesc : au.Describes o) :
    ∃ p', p.freeOneStack 0 i = .ok p' ∧
      ProfilerOk S p' { g with live := g.live.erase o, started := true } ∧
      p'.contexts = { current with aus := swapRemove current.aus i } :: rest := by
  have hmemaus : au ∈ current.aus := List.mem_of_getElem? hi
  have hmemunits : au ∈ units p.contexts := by
    rw [hcontexts]
    exact List.mem_append_left _ hmemaus
  obtain ⟨hmem, -⟩ := h.listedLive au hmemunits
  have hplaced := h.placed
  rw [hcontexts] at hplaced
  have hperm := swapRemove_perm hi
  have hthin : Thinner ({ current with aus := swapRemove current.aus i } :: rest) p.contexts := by
    rw [hcontexts]
    refine .cons ⟨rfl, fun v hv => ?_⟩ (Thinner.refl rest)
    exact hperm.subset (List.mem_cons_of_mem _ hv)
  have hunits : (au :: units ({ current with aus := swapRemove current.aus i } :: rest)).Perm
      (units p.contexts) := by
    rw [hcontexts]
    exact hperm.append_right (units rest)
  have hlocals : ∀ a ∈ (p.reportLocal au (findCommon (chain p.contexts) (chain p.contexts))).locals,
      a.2 <:+ a.1.creation := by
    intro a ha
    rcases mem_reportLocal ha with ha | ⟨hsite, hsuffix⟩
    · exact h.locals a ha
    · rw [hsite]
      apply hsuffix.trans
      apply (findCommon_suffix _ _).trans
      rw [hcontexts]
      exact (hplaced.1 au hmemaus).within
  have hremove : ∃ t, p.liveObjects.remove au = .ok t ∧ ProfilerOk S
      { p with
        liveObjects := t, contexts := { current with aus := swapRemove current.aus i } :: rest
        locals := (p.reportLocal au (findCommon (chain p.contexts) (chain p.contexts))).locals }
      { g with live := g.live.erase o, started := true } :=
    h.remove ho hdesc hmem hthin (Or.inl hunits) hlocals rfl rfl rfl rfl rfl
  obtain ⟨t, ht, hok⟩ := hremove
  refine ⟨_, ?_, hok, rfl⟩
  unfold Profiler.freeOneStack
  have hget : p.contexts[0]? = some current := by
    rw [hcontexts]
    rfl
  rw [hget]
  dsimp only
  rw [hi]
  dsimp only
  rw [ht]
  simp only [bind, Except.bind, Profiler.reportLocal, List.drop_zero]
  rw [hcontexts]
  rfl

def OwnStack (frames : Ctx Name) (au : AllocationUnit Name) : Prop :=
  au.type = .stack ∧ innermostFunction au.creation = frames

/-- The loop of `free_stacks` goes through the list from its end. -/
theorem ProfilerOk.freeStacks {i : ℕ} (h : ProfilerOk S p g) {current : Context Name}
    {rest : List (Context Name)} (hcontexts : p.contexts = current :: rest)
    (hi : i ≤ current.aus.length)
    (hbehind : ∀ j au, i ≤ j → current.aus[j]? = some au → ¬ OwnStack g.frames au) :
    ∃ p' live current', Profiler.freeStacks i p = .ok p' ∧
      ProfilerOk S p' { g with live := live, started := true } ∧ (∀ o ∈ live, o ∈ g.live) ∧
      (∀ o ∈ g.live, o ∉ live → o.type = .stack ∧ innermostFunction o.creation = g.frames) ∧
      p'.contexts = current' :: rest ∧ ∀ au ∈ current'.aus, ¬ OwnStack g.frames au := by
  induction i generalizing p g current with
  | zero =>
      refine ⟨p, g.live, current, rfl, h.started, fun _ ho => ho, fun _ ho hnot => absurd ho hnot,
        hcontexts, fun au hau => ?_⟩
      obtain ⟨j, hj⟩ := List.mem_iff_getElem?.1 hau
      exact hbehind j au (Nat.zero_le j) hj
  | succ i ih =>
      have hlt : i < current.aus.length := hi
      have hget : current.aus[i]? = some current.aus[i] := List.getElem?_eq_getElem hlt
      have hunits : current.aus[i] ∈ units p.contexts := by
        rw [hcontexts]
        exact List.mem_append_left _ (List.getElem_mem hlt)
      unfold Profiler.freeStacks
      rw [hcontexts]
      dsimp only
      rw [hget]
      dsimp only
      by_cases hown : OwnStack g.frames current.aus[i]
      · have hcond : current.aus[i].type = .stack ∧
            innermostFunction current.aus[i].creation = chain (current :: rest) := by
          rw [← hcontexts, h.frames]
          exact hown
        rw [if_pos hcond]
        obtain ⟨o, ho, hdesc⟩ := h.describes_of_listed hunits
        obtain ⟨p₁, hp₁, hok₁, hcontexts₁⟩ := h.freeOneStack hcontexts hget ho hdesc
        have hlen : i ≤ (swapRemove current.aus i).length := by
          have := (swapRemove_perm hget).length_eq
          rw [List.length_cons] at this
          omega
        have hnext : ∃ p' live current', Profiler.freeStacks i p₁ = .ok p' ∧
            ProfilerOk S p' { g with live := live, started := true } ∧
            (∀ o' ∈ live, o' ∈ g.live.erase o) ∧
            (∀ o' ∈ g.live.erase o, o' ∉ live → o'.type = .stack ∧
              innermostFunction o'.creation = g.frames) ∧
            p'.contexts = current' :: rest ∧ ∀ au ∈ current'.aus, ¬ OwnStack g.frames au := by
          apply ih hok₁ hcontexts₁ hlen
          intro j au hj hau
          obtain ⟨k, hk, hget'⟩ := getElem?_swapRemove hau hj
          exact hbehind k au hk hget'
        obtain ⟨p', live, current', hp', hok', hsub, hgone, hcontexts', hclean⟩ := hnext
        refine ⟨p', live, current', ?_, hok', fun o' ho' => List.mem_of_mem_erase (hsub o' ho'),
          fun o' ho' hnot => ?_, hcontexts', hclean⟩
        · rw [hp₁]
          exact hp'
        · by_cases heq : o' = o
          · rw [heq, ← hdesc.1, ← hdesc.2.2.1]
            exact hown
          · exact hgone o' ((List.mem_erase_of_ne heq).2 ho') hnot
      · have hcond : ¬ (current.aus[i].type = .stack ∧
            innermostFunction current.aus[i].creation = chain (current :: rest)) := by
          rw [← hcontexts, h.frames]
          exact hown
        rw [if_neg hcond]
        apply ih h hcontexts (Nat.le_of_succ_le hi)
        intro j au hj hau
        by_cases hji : j = i
        · subst hji
          rw [hget] at hau
          cases hau
          exact hown
        · exact hbehind j au (by omega) hau

omit [DecidableEq Name] in
theorem ProfilerOk.congr_live (h : ProfilerOk S p g) {live : List (Object Name)} (hnodup : live.Nodup)
    (hiff : ∀ o, o ∈ live ↔ o ∈ g.live) : ProfilerOk S p { g with live := live } := by
  obtain ⟨t1, t2, t3, t4, t5, t6, t7, t8, t9, t10, t11⟩ := h.table
  refine ⟨⟨t1, t2, fun o ho => t3 o ((hiff o).1 ho), fun e he => ?_, t5, hnodup, t7, t8, t9, t10, t11⟩,
    h.frames, h.nonempty, fun o ho => h.types o ((hiff o).1 ho), h.listedLive, h.nodup, h.placed,
    fun o ho => h.listed o ((hiff o).1 ho), h.ids, h.next, h.start, h.locals, h.exits,
    h.noExcess⟩
  rcases t4 e he with hex | ⟨o, ho, hdesc⟩
  · exact Or.inl hex
  · exact Or.inr ⟨o, (hiff o).2 ho, hdesc⟩

theorem ProfilerOk.endFunction (h : ProfilerOk S p g) (hS : S .stack)
    (hg : g.step .endFunction = some g') : ∃ p', p.endFunction = .ok p' ∧ ProfilerOk S p' g' := by
  unfold Program.step Program.leave at hg
  dsimp only at hg
  split at hg
  · next frame outer hframes =>
    split_ifs at hg with hframe
    cases hg
    cases hcontexts : p.contexts with
    | nil =>
        have hchain := h.frames
        rw [hcontexts, hframes] at hchain
        cases hchain
    | cons current rest =>
        obtain ⟨p₁, live, current', hp₁, hok₁, hsub, hgone, hcontexts₁, hclean⟩ :=
          h.freeStacks hcontexts (le_refl _) fun j au hj hau => by
            rw [List.getElem?_eq_none hj] at hau
            cases hau
        -- no stack object of the function is left, since all are listed
        have hnone : ∀ o ∈ live, ¬ (o.type = .stack ∧ innermostFunction o.creation = g.frames) := by
          rintro o ho ⟨hstack, hinner⟩
          obtain ⟨v, hv, hdesc⟩ := hok₁.listed o ho (hstack ▸ hS)
          have hown : OwnStack g.frames v := ⟨hdesc.1.trans hstack, hdesc.2.2.1 ▸ hinner⟩
          have hplaced := hok₁.placed
          rw [hcontexts₁] at hv hplaced
          rcases List.mem_append.1 hv with hv | hv
          · exact hclean v hv hown
          · obtain ⟨c, hc, hplacedv⟩ := hplaced.2.of_mem hv
            have hlong := (hplacedv.stack hown.1).length_le
            have hframes₁ := hok₁.frames
            rw [hcontexts₁] at hframes₁
            have hlength := congrArg List.length hframes₁
            have hshort := hc.length_le
            rw [hown.2] at hlong
            simp only [chain, List.map_cons, List.length_cons, List.length_map] at hlength hshort hlong
            omega
        have hreturned : ∀ o, o ∈ g.returned ↔ o ∈ live := by
          intro o
          rw [Program.returned, List.mem_filter, decide_eq_true_iff]
          constructor
          · rintro ⟨ho, hnot⟩
            by_contra hlive
            exact hnot (hgone o ho hlive)
          · exact fun ho => ⟨hsub o ho, hnone o ho⟩
        have hok₂ : ProfilerOk S p₁ { g with live := g.returned, started := true } :=
          hok₁.congr_live (h.table.nodup.filter _) hreturned
        have hexit : ∃ p', p₁.exitCtx .function = .ok p' ∧ ProfilerOk S p'
            { g with
              frames := outer, live := g.returned, started := true
              exits := g.exits ++ [(frame :: outer, g.returned)] } := by
          apply hok₂.exitCtx hframes hframe.1 hframe.2
          exact Or.inr fun o ho hstack hinner => hnone o ((hreturned o).1 ho) ⟨hstack, hinner⟩
        obtain ⟨p', hp', hok'⟩ := hexit
        refine ⟨p', ?_, hok'⟩
        unfold Profiler.endFunction
        rw [hcontexts]
        dsimp only
        rw [hp₁]
        exact hp'
  · cases hg

theorem ProfilerOk.endIter (h : ProfilerOk S p g) (hg : g.step .endIter = some g') :
    ∃ p', p.endIter = .ok p' ∧ ProfilerOk S p' g' := by
  unfold Program.step Program.leave at hg
  dsimp only at hg
  split at hg
  · next frame outer hframes =>
    split_ifs at hg with hframe
    cases hg
    exact h.exitCtx hframes hframe.1 hframe.2 (Or.inl rfl)
  · cases hg

/-- Every event that meets the condition keeps the profiler right. -/
theorem ProfilerOk.step (h : ProfilerOk S p g) (hS : S .stack) {e : Event Name}
    (hcareful : CarefulEvent S p e) (hg : g.step e = some g') :
    ∃ p', p.step e = .ok p' ∧ ProfilerOk S p' g' := by
  cases e with
  | malloc name ptr size => exact h.allocate (Or.inl rfl) hcareful hg
  | realloc name oldPtr newPtr size => exact h.realloc hcareful hg
  | free ptr isAlloca => exact h.free hg
  | constant name base size => exact h.reportConstant hcareful hg
  | stack name base arraySize eltSize => exact h.allocate (Or.inr rfl) hcareful hg
  | beginFunction name =>
      cases hg
      exact ⟨_, rfl, h.enterCtx .function name⟩
  | endFunction => exact h.endFunction hS hg
  | beginIter name =>
      cases hg
      exact ⟨_, rfl, h.enterCtx .loop name⟩
  | endIter => exact h.endIter hg
  | lookup ptr =>
      cases hg
      exact ⟨_, rfl, h.lookup ptr⟩

end Cpf.Profile
