import Cpf.Profile.ProfilerInvariant

/-!
# Every event keeps the profiler right

New objects, `realloc`, constants, and the contexts that are entered and left.
-/

namespace Cpf.Profile

variable {Name : Type} [DecidableEq Name] {S : AUType → Prop} {p : Profiler Name}
  {g g' : Program Name} {au : AllocationUnit Name} {o : Object Name}

/-! ### New objects -/

theorem dropStaleIn_eq {base depth : ℕ} {ctx : Context Name} (hctx : p.contexts[depth]? = some ctx)
    (hnone : ∀ au ∈ ctx.aus, au.type = .stack → ¬ au.extents.Includes base) (fuel i : ℕ) :
    Profiler.dropStaleIn base depth fuel i p = .ok p := by
  induction fuel generalizing i with
  | zero => rfl
  | succ fuel ih =>
      unfold Profiler.dropStaleIn
      rw [hctx]
      dsimp only
      cases hau : ctx.aus[i]? with
      | none => rfl
      | some old =>
          have hmem : old ∈ ctx.aus := List.mem_of_getElem? hau
          dsimp only
          rw [if_neg (fun h => hnone old hmem h.1 h.2)]
          exact ih (i + 1)

/-- Nothing is stale if no stack object has the address. -/
theorem dropStale_eq {base : ℕ}
    (hnone : ∀ au ∈ units p.contexts, au.type = .stack → ¬ au.extents.Includes base)
    (rest : List (Context Name)) (depth : ℕ) (hrest : p.contexts.drop depth = rest) :
    Profiler.dropStale base depth rest p = .ok p := by
  induction rest generalizing depth with
  | nil => rfl
  | cons ctx rest ih =>
      have hctx : p.contexts[depth]? = some ctx := by
        rw [← List.head?_drop, hrest]
        rfl
      have hmem : ctx ∈ p.contexts := List.mem_of_getElem? hctx
      have hdrop := dropStaleIn_eq hctx
        (fun au hau => hnone au (List.mem_flatMap.2 ⟨ctx, hmem, hau⟩)) (ctx.aus.length + 1) 0
      have htail : p.contexts.drop (depth + 1) = rest := by
        rw [← List.tail_drop, hrest]
        rfl
      unfold Profiler.dropStale
      rw [hdrop]
      simp only [bind, Except.bind]
      split_ifs
      · rfl
      · exact ih (depth + 1) htail

structure Added (S : AUType → Prop) (p : Profiler Name) (g : Program Name) (au : AllocationUnit Name)
    (o : Object Name) (t : AllocationUnitTable Name) : Prop where
  table : TableOk t { g with live := o :: g.live, started := true }
  describes : au.Describes o
  creation : au.creation = chain p.contexts
  mem : (au.extents, au) ∈ t.temporaries ∧ au.reallocShrinkExcess = false
  keeps : ∀ v ∈ units p.contexts, (v.extents, v) ∈ t.temporaries
  unlisted : au ∉ units p.contexts
  ids : ∀ e ∈ t.temporaries, ∀ f ∈ t.temporaries, e.2.id = f.2.id → e = f
  next : ∀ e ∈ t.temporaries, e.2.id < p.next + 1
  noExcess : S .heap → ∀ e ∈ t.temporaries, e.2.reallocShrinkExcess = false
  types : ∀ o' ∈ o :: g.live, o'.type = .heap ∨ o'.type = .stack

omit [DecidableEq Name] in
theorem ProfilerOk.added (h : ProfilerOk S p g) {t : AllocationUnitTable Name} (hid : au.id = p.next)
    (hexcess : au.reallocShrinkExcess = false) (hcreation : au.creation = chain p.contexts)
    (hdesc : au.Describes o) (htype : o.type = .heap ∨ o.type = .stack)
    (htable : TableOk t { g with live := o :: g.live, started := true })
    (hiff : ∀ e, e ∈ t.temporaries ↔ e = (au.extents, au) ∨
      e ∈ p.liveObjects.temporaries ∧ (e.2.reallocShrinkExcess = false ∨ e.1.Disjoint au.extents)) :
    Added S p g au o t := by
  have hnew : ∀ e ∈ p.liveObjects.temporaries, e.2.id ≠ au.id := by
    intro e he
    have hlt := h.next e he
    omega
  refine ⟨htable, hdesc, hcreation, ⟨(hiff _).2 (Or.inl rfl), hexcess⟩, fun v hv => ?_, fun hmem => ?_,
    fun e he f hf hid => ?_, fun e he => ?_, fun hS e he => ?_, fun o' ho' => ?_⟩
  · exact (hiff _).2 (Or.inr ⟨(h.listedLive v hv).1, Or.inl (h.listedLive v hv).2⟩)
  · exact hnew _ (h.listedLive au hmem).1 rfl
  · rcases (hiff e).1 he with rfl | ⟨he, -⟩ <;> rcases (hiff f).1 hf with rfl | ⟨hf, -⟩
    · rfl
    · exact absurd hid.symm (hnew f hf)
    · exact absurd hid (hnew e he)
    · exact h.ids e he f hf hid
  · rcases (hiff e).1 he with rfl | ⟨he, -⟩
    · exact hid ▸ Nat.lt_succ_self _
    · exact Nat.lt_succ_of_lt (h.next e he)
  · rcases (hiff e).1 he with rfl | ⟨he, -⟩
    · exact hexcess
    · exact h.noExcess hS e he
  · rcases List.mem_cons.1 ho' with rfl | ho'
    · exact htype
    · exact h.types o' ho'

namespace Added

variable {t : AllocationUnitTable Name}

omit [DecidableEq Name] in
/-- Another unit of the site is listed, and the new one is not. -/
theorem skips (ha : Added S p g au o t) (h : ProfilerOk S p g) (hnot : ¬ S o.type) :
    ProfilerOk S { p with liveObjects := t, next := p.next + 1 }
    { g with live := o :: g.live, started := true } := by
  refine ⟨ha.table, h.frames, h.nonempty, ha.types, fun v hv => ?_, h.nodup, h.placed, fun o' ho' hS => ?_,
    ha.ids, ha.next, (fun hn => by cases hn), h.locals, h.exits, ha.noExcess⟩
  · exact ⟨ha.keeps v hv, (h.listedLive v hv).2⟩
  · rcases List.mem_cons.1 ho' with rfl | ho'
    · exact absurd hS hnot
    · exact h.listed o' ho' hS

omit [DecidableEq Name] in
theorem lists (ha : Added S p g au o t) (h : ProfilerOk S p g) {current : Context Name}
    {outer : List (Context Name)} (hcontexts : p.contexts = current :: outer) :
    ProfilerOk S { p with
      contexts := { current with aus := current.aus ++ [au] } :: outer, liveObjects := t, next := p.next + 1 }
      { g with live := o :: g.live, started := true } := by
  have hunits : units p.contexts = current.aus ++ units outer := by
    rw [hcontexts]
    rfl
  have hunits' : units ({ current with aus := current.aus ++ [au] } :: outer) =
      current.aus ++ [au] ++ units outer := rfl
  have hmem : ∀ v, v ∈ units ({ current with aus := current.aus ++ [au] } :: outer) ↔
      v = au ∨ v ∈ units p.contexts := by
    intro v
    rw [hunits', hunits]
    simp only [List.mem_append, List.mem_singleton]
    tauto
  have hchain : chain ({ current with aus := current.aus ++ [au] } :: outer) = chain p.contexts := by
    rw [hcontexts]
    rfl
  have hplaced := h.placed
  rw [hcontexts] at hplaced
  refine ⟨ha.table, hchain.trans h.frames, h.nonempty, ha.types, fun v hv => ?_, ?_,
    ⟨fun v hv => ?_, hplaced.2⟩, fun o' ho' hS => ?_, ha.ids, ha.next, (fun hn => by cases hn),
      h.locals, h.exits,
    ha.noExcess⟩
  · rcases (hmem v).1 hv with rfl | hv
    · exact ha.mem
    · exact ⟨ha.keeps v hv, (h.listedLive v hv).2⟩
  · have hperm : (units ({ current with aus := current.aus ++ [au] } :: outer)).Perm
      (au :: units p.contexts) := by
      rw [hunits', hunits, List.append_assoc]
      exact List.perm_middle
    exact hperm.nodup_iff.2 (List.nodup_cons.2 ⟨ha.unlisted, h.nodup⟩)
  · rw [hchain, hcontexts]
    rcases List.mem_append.1 hv with hv | hv
    · exact hplaced.1 v hv
    · rw [List.mem_singleton.1 hv, ← hcontexts]
      refine ⟨?_, fun _ => ?_, fun c hc hlt => ?_⟩
      · rw [ha.creation]
      · rw [ha.creation]
        exact List.dropWhile_suffix _
      · rw [ha.creation] at hc
        exact absurd hc.length_le (Nat.not_le.2 hlt)
  · rcases List.mem_cons.1 ho' with rfl | ho'
    · exact ⟨au, (hmem au).2 (Or.inl rfl), ha.describes⟩
    · obtain ⟨v, hv, hvdesc⟩ := h.listed o' ho' hS
      exact ⟨v, (hmem v).2 (Or.inr hv), hvdesc⟩

end Added

theorem ProfilerOk.allocate (h : ProfilerOk S p g) {type : AUType} {name : Name} {base size : ℕ}
    (htype : type = .heap ∨ type = .stack) (hcareful : Careful S p type name base size)
    (hg : g.allocate type name base size = some g') :
    ∃ p', p.addTemporaryAu type name base size = .ok p' ∧ ProfilerOk S p' g' := by
  unfold Program.allocate at hg
  split_ifs at hg with havail
  cases hg
  obtain ⟨hsize, hexcess, hfresh⟩ := hcareful
  have hnone : ∀ au ∈ units p.contexts, au.type = .stack → ¬ au.extents.Includes base := by
    intro au hau _ hincl
    obtain ⟨o, ho, hdesc⟩ := h.describes_of_listed hau
    rw [hdesc.2.2.2.1] at hincl
    apply (havail.2.1 o ho).not_includes hincl
    exact ⟨le_refl _, Nat.lt_add_of_pos_right hsize⟩
  have hdrop := dropStale_eq hnone p.contexts 0 rfl
  obtain ⟨au, hau⟩ : ∃ au : AllocationUnit Name, au =
      { id := p.next, type, reallocShrinkExcess := false, extents := rightOpen base size,
        name := some name, creation := chain p.contexts } := ⟨_, rfl⟩
  obtain ⟨o, ho⟩ : ∃ o : Object Name, o = ⟨type, name, g.frames, rightOpen base size⟩ := ⟨_, rfl⟩
  rw [← ho]
  have hdesc : au.Describes o := by
    rw [hau, ho]
    exact ⟨rfl, rfl, h.frames, rfl, rfl⟩
  have hsite : au.site = ⟨type, some name, chain p.contexts⟩ := by
    rw [hau]
    rfl
  have hext : au.extents = rightOpen base size := by rw [hau]
  have hau' : au.extents.low < au.extents.high := by
    rw [hext]
    exact Nat.lt_add_of_pos_right hsize
  obtain ⟨t, ht, htable, hiff⟩ := h.table.addTemporary hau' (hext ▸ havail)
    (hsite ▸ hext ▸ hexcess) hdesc
    (show ({ g with live := o :: g.live, started := true } : Program Name).live = o :: g.live from rfl) rfl
  have hadded : Added S p g au o t := h.added (by rw [hau]) (by rw [hau]) (by rw [hau]) hdesc
    (by rw [ho]; exact htype) htable hiff
  unfold Profiler.addTemporaryAu
  rw [hdrop]
  simp only [bind, Except.bind]
  rw [← hau, ht]
  dsimp only
  cases hcontexts : p.contexts with
  | nil =>
      have hframes := h.frames
      rw [hcontexts] at hframes
      exact absurd hframes.symm h.nonempty
  | cons current outer =>
      dsimp only
      by_cases hany : (current.aus.any fun old => au.site = old.site) = true
      · rw [if_pos hany]
        have hnot : ¬ S o.type := by
          rw [ho]
          intro hS
          obtain ⟨old, hold, hsame⟩ := List.any_eq_true.1 hany
          apply hfresh hS current (by rw [hcontexts]; rfl) old hold
          rw [← hsite]
          exact (of_decide_eq_true hsame).symm
        refine ⟨{ p with liveObjects := t, next := p.next + 1 }, ?_, hadded.skips h hnot⟩
        rw [← hcontexts]
        rfl
      · rw [if_neg hany]
        exact ⟨_, rfl, hadded.lists h hcontexts⟩

/-! ### `realloc` -/

omit [DecidableEq Name] in
theorem lookup_mostRecentlyUsed {t : AllocationUnitTable Name} {ptr : ℕ}
    (h : (t.lookupPointer ptr).1 = .unit au) : (t.lookupPointer ptr).2.mostRecentlyUsed = some au := by
  unfold AllocationUnitTable.lookupPointer at h ⊢
  by_cases hptr : ptr = 0
  · rw [if_pos hptr] at h
    cases h
  · rw [if_neg hptr] at h ⊢
    split at h
    · next last hlast =>
      cases h
      exact (Option.filter_eq_some_iff.1 hlast).1
    · split at h
      · cases h
        rfl
      · split at h <;> cases h

theorem remove_eq {t t' : AllocationUnitTable Name} (h : TableOk t g)
    (hmem : (au.extents, au) ∈ t.temporaries) (ht : t.remove au = .ok t') :
    (∀ e ∈ t'.temporaries, e ∈ t.temporaries ∧ e ≠ (au.extents, au)) ∧
      t'.mostRecentlyUsed = t.mostRecentlyUsed.filter fun last => last.site ≠ au.site := by
  have hfind : t.temporaries.find au.extents = some (au.extents, au) := h.wf.find_key hmem
  rw [AllocationUnitTable.remove, hfind] at ht
  cases ht
  exact ⟨fun e he => ((h.wf.eraseFound hfind).2 e).1 he, rfl⟩

/-- What is left over from a `realloc` gets an entry where nothing is. -/
theorem TableOk.addExcess {t : AllocationUnitTable Name} (h : TableOk t g)
    (hsize : au.extents.low < au.extents.high) (hlow : au.extents.low ≠ 0)
    (hex : au.reallocShrinkExcess = true) (hall : ∀ e ∈ t.temporaries, e.1.Disjoint au.extents)
    (hconst : ∀ c ∈ g.constants, c.Disjoint au.extents) :
    ∃ t', t.addTemporary au = .ok (au, t') ∧ TableOk t' g ∧
      t'.mostRecentlyUsed = t.mostRecentlyUsed ∧
      ∀ e, e ∈ t'.temporaries ↔ e = (au.extents, au) ∨ e ∈ t.temporaries := by
  have hfind := h.wf.find_eq_none_iff.2 hall
  obtain ⟨hwf, hiff⟩ := h.wf.assign (v := au) hsize hall
  have hadd : t.addTemporary au = .ok (au, { t with temporaries := t.temporaries.assign au.extents au }) := by
    rw [AllocationUnitTable.addTemporary, hfind]
    dsimp only
    rw [AllocationUnitTable.insertTemporary, h.find_permanents hconst]
    rfl
  refine ⟨_, hadd, ?_, rfl, hiff⟩
  constructor
  · exact hwf
  · intro e he
    rcases (hiff e).1 he with rfl | he
    · rfl
    · exact h.keys e he
  · intro o ho
    obtain ⟨v, hv, hvdesc⟩ := h.live o ho
    exact ⟨v, (hiff _).2 (Or.inr hv), hvdesc⟩
  · intro e he
    rcases (hiff e).1 he with rfl | he
    · exact Or.inl hex
    · exact h.known e he
  · intro e he
    rcases (hiff e).1 he with rfl | he
    · exact hlow
    · exact h.low e he
  · exact h.nodup
  · intro last hlast
    rcases h.cached last hlast with htemp | hperm
    · exact Or.inl ((hiff _).2 (Or.inr htemp))
    · exact Or.inr hperm
  · exact h.permanentsWf
  · exact h.permanentsKeys
  · exact h.covered
  · intro e he c hc
    rcases (hiff e).1 he with rfl | he
    · exact hconst c hc
    · exact h.apart e he c hc

theorem ProfilerOk.addExcess (h : ProfilerOk S p g) (hS : ¬ S .heap) (hstarted : g.started = true)
    (hid : au.id = p.next) (hsize : au.extents.low < au.extents.high) (hlow : au.extents.low ≠ 0)
    (hex : au.reallocShrinkExcess = true)
    (hall : ∀ e ∈ p.liveObjects.temporaries, e.1.Disjoint au.extents)
    (hconst : ∀ c ∈ g.constants, c.Disjoint au.extents) :
    ∃ t, p.liveObjects.addTemporary au = .ok (au, t) ∧
      ProfilerOk S { p with liveObjects := t, next := p.next + 1 } g ∧
      t.mostRecentlyUsed = p.liveObjects.mostRecentlyUsed ∧
      ∀ e, e ∈ t.temporaries ↔ e = (au.extents, au) ∨ e ∈ p.liveObjects.temporaries := by
  obtain ⟨t, ht, htable, hcached, hiff⟩ := h.table.addExcess hsize hlow hex hall hconst
  have hnew : ∀ e ∈ p.liveObjects.temporaries, e.2.id ≠ au.id := by
    intro e he
    have := h.next e he
    omega
  refine ⟨t, ht, ⟨htable, h.frames, h.nonempty, h.types, ?_, h.nodup, h.placed, h.listed, ?_, ?_, ?_,
    h.locals, h.exits, fun hheap => absurd hheap hS⟩, hcached, hiff⟩
  · exact fun v hv => ⟨(hiff _).2 (Or.inr (h.listedLive v hv).1), (h.listedLive v hv).2⟩
  · intro e he f hf heq
    rcases (hiff e).1 he with rfl | he
    · rcases (hiff f).1 hf with rfl | hf
      · rfl
      · exact absurd heq.symm (hnew f hf)
    · rcases (hiff f).1 hf with rfl | hf
      · exact absurd heq (hnew e he)
      · exact h.ids e he f hf heq
  · intro e he
    dsimp only
    rcases (hiff e).1 he with rfl | he
    · dsimp only
      omega
    · have := h.next e he
      omega
  · intro hn
    rw [hstarted] at hn
    cases hn

/-- The old object is freed, and its end may be left over. -/
theorem ProfilerOk.reallocOld (h : ProfilerOk S p g) (hS : ¬ S .heap) (ho : o ∈ g.live) (htype : o.type = .heap)
    (newPtr size : ℕ) :
    ∃ p', p.reallocOld o.extents.low newPtr size = .ok p' ∧
      ProfilerOk S p' { g with live := g.live.erase o, started := true } ∧
      p'.liveObjects.mostRecentlyUsed = none ∧
      ∀ e ∈ p'.liveObjects.temporaries, e ∈ p.liveObjects.temporaries ∨
        e.1.Disjoint (rightOpen newPtr size) := by
  obtain ⟨au, hfound, hdesc, hmem⟩ := h.lookup_base ho
  have hok := h.lookup o.extents.low
  have htemp := lookup_temporaries p o.extents.low
  have hlast : (p.lookup o.extents.low).2.liveObjects.mostRecentlyUsed = some au :=
    lookup_mostRecentlyUsed hfound
  obtain ⟨q, hq⟩ : ∃ q, p.lookup o.extents.low = (.unit au, q) := ⟨_, Prod.ext hfound rfl⟩
  rw [hq] at hmem hok htemp hlast
  have hfree : ∃ p', q.freeUnit (.unit au) false = .ok p' ∧
      ProfilerOk S p' { g with live := g.live.erase o, started := true } ∧
        q.liveObjects.remove au = .ok p'.liveObjects :=
    hok.freeUnit ho hdesc hmem htype rfl rfl rfl rfl rfl
  obtain ⟨p₁, hp₁, hok₁, hremove⟩ := hfree
  obtain ⟨hsub, hcached⟩ := remove_eq hok.table hmem hremove
  dsimp only at hmem htemp hlast
  have hnone : p₁.liveObjects.mostRecentlyUsed = none := by
    rw [hcached, hlast]
    simp
  have hold : ∀ e ∈ p₁.liveObjects.temporaries, e ∈ p.liveObjects.temporaries := by
    intro e he
    rw [← htemp]
    exact (hsub e he).1
  have hext : au.extents = o.extents := hdesc.2.2.2.1
  unfold Profiler.reallocOld
  rw [hq]
  simp only [bind, Except.bind]
  rw [hp₁]
  dsimp only
  split_ifs with hshrink
  · obtain ⟨hptr, hpos, hless⟩ := hshrink
    have hmemlow := hok.table.low _ hmem
    dsimp only at hmemlow
    rw [hext] at hless hmemlow
    have hwithin : WhollyWithin (rightOpen (size + o.extents.low)
        (o.extents.high - o.extents.low - size)) au.extents := by
      rw [hext]
      unfold WhollyWithin rightOpen
      dsimp only
      omega
    have hall : ∀ e ∈ p₁.liveObjects.temporaries, e.1.Disjoint
        (rightOpen (size + o.extents.low) (o.extents.high - o.extents.low - size)) := by
      intro e he
      obtain ⟨hemem, hne⟩ := hsub e he
      by_contra hnot
      apply hne
      apply hok.table.wf.eq_of_overlap hemem hmem
      have hne' := hok.table.wf.nonempty e hemem
      unfold WhollyWithin at hwithin
      unfold Interval.Disjoint Interval.Before at hnot ⊢
      dsimp only at hnot ⊢
      omega
    have hconst : ∀ c ∈ g.constants, c.Disjoint
        (rightOpen (size + o.extents.low) (o.extents.high - o.extents.low - size)) := by
      intro c hc
      have hapart := hok.table.apart _ hmem c hc
      unfold WhollyWithin at hwithin
      unfold Interval.Disjoint Interval.Before rightOpen at *
      dsimp only at *
      omega
    obtain ⟨t, ht, hok₂, hcached₂, hiff⟩ := @ProfilerOk.addExcess Name _ S p₁
      { g with live := g.live.erase o, started := true }
      { au with
        id := p₁.next, type := .heap, reallocShrinkExcess := true
        extents := rightOpen (size + o.extents.low) (au.extents.high - au.extents.low - size) }
      hok₁ hS rfl rfl (by unfold rightOpen; dsimp only; rw [hext]; omega)
      (by unfold rightOpen; dsimp only; omega) rfl (by rw [hext]; exact hall) (by rw [hext]; exact hconst)
    rw [ht]
    refine ⟨_, rfl, hok₂, hcached₂.trans hnone, fun e he => ?_⟩
    rcases (hiff e).1 he with rfl | he
    · refine Or.inr (Or.inr ?_)
      unfold Interval.Before rightOpen
      dsimp only
      omega
    · exact Or.inl (hold e he)
  · exact ⟨p₁, rfl, hok₁, hnone, fun e he => Or.inl (hold e he)⟩

theorem ProfilerOk.realloc (h : ProfilerOk S p g) {name : Name} {oldPtr newPtr size : ℕ}
    (hcareful : CarefulEvent S p (.realloc name oldPtr newPtr size))
    (hg : g.step (.realloc name oldPtr newPtr size) = some g') :
    ∃ p', p.realloc name oldPtr newPtr size = .ok p' ∧ ProfilerOk S p' g' := by
  obtain ⟨hS, hexcess⟩ := hcareful
  -- the new object, after the old one
  have hrest : ∀ p₁ g₁, ProfilerOk S p₁ g₁ → (size ≠ 0 → FewExcess p₁.liveObjects
      ⟨.heap, some name, chain p₁.contexts⟩ (rightOpen newPtr size) true) →
      (if size = 0 then some { g₁ with started := true } else g₁.allocate .heap name newPtr size) =
        some g' →
      ∃ p', (if size ≠ 0 then p₁.malloc name newPtr size else .ok p₁) = .ok p' ∧ ProfilerOk S p' g' := by
    intro p₁ g₁ h₁ hexcess₁ hg₁
    by_cases hsize : size = 0
    · rw [if_pos hsize] at hg₁
      cases hg₁
      rw [if_neg (not_not.2 hsize)]
      exact ⟨p₁, rfl, h₁.started⟩
    · rw [if_neg hsize] at hg₁
      rw [if_pos hsize]
      apply h₁.allocate (Or.inl rfl) _ hg₁
      exact ⟨Nat.pos_of_ne_zero hsize, hexcess₁ hsize, fun hheap => absurd hheap hS⟩
  unfold Program.step at hg
  dsimp only at hg
  unfold Profiler.realloc
  by_cases hptr : oldPtr = 0
  · rw [if_pos hptr] at hg
    rw [if_neg (not_not.2 hptr)]
    apply hrest p g h _ hg
    intro hsize
    have hfew := hexcess hsize
    exact ⟨hfew.one, hfew.site, fun _ => hfew.cached (decide_eq_true hptr)⟩
  · rw [if_neg hptr] at hg
    obtain ⟨g₁, hg₁, hg₂⟩ := Option.bind_eq_some_iff.1 hg
    obtain ⟨o, ho, htype, rfl, rfl⟩ := release_eq hg₁
    obtain ⟨p₁, hp₁, hok₁, hcached, hold⟩ := h.reallocOld hS ho htype newPtr size
    rw [if_pos hptr, hp₁]
    apply hrest p₁ _ hok₁ _ hg₂
    intro hsize
    have hfew := hexcess hsize
    have hchain : chain p₁.contexts = chain p.contexts := hok₁.frames.trans h.frames.symm
    have hmem : ∀ e ∈ p₁.liveObjects.temporaries, ¬ e.1.Disjoint (rightOpen newPtr size) →
        e ∈ p.liveObjects.temporaries := fun e he hnot => (hold e he).resolve_right hnot
    refine ⟨fun a ha b hb hae hbe hna hnb => ?_, fun a ha hae hna => ?_, fun _ last hlast => ?_⟩
    · exact hfew.one a (hmem a ha hna) b (hmem b hb hnb) hae hbe hna hnb
    · rw [hchain]
      exact hfew.site a (hmem a ha hna) hae hna
    · rw [hcached] at hlast
      cases hlast

/-! ### Constants -/

theorem ProfilerOk.reportConstant (h : ProfilerOk S p g) {name : Name} {base size : ℕ} (hsize : 0 < size)
    (hg : g.step (.constant name base size) = some g') :
    ∃ p', p.reportConstant name base size = .ok p' ∧ ProfilerOk S p' g' := by
  unfold Program.step at hg
  dsimp only at hg
  split_ifs at hg with hstarted
  cases hg
  obtain ⟨hempty, hnone⟩ := h.start (Bool.eq_false_iff.2 hstarted)
  have hlive : g.live = [] := by
    cases hl : g.live with
    | nil => rfl
    | cons o rest =>
        obtain ⟨au, hau, -⟩ := h.table.live o (by rw [hl]; exact List.mem_cons_self)
        rw [hempty] at hau
        cases hau
  have hpermanents : PermanentsOk p.liveObjects.permanents (rightOpen base size :: g.constants) :=
    ⟨h.table.permanentsWf, h.table.permanentsKeys, fun e he => by
      obtain ⟨hconst, c, hc, hwithin⟩ := h.table.covered e he
      exact ⟨hconst, c, List.mem_cons_of_mem _ hc, hwithin⟩⟩
  have hfuel : (overlapping p.liveObjects.permanents (rightOpen base size)).card <
      p.liveObjects.permanents.length + 2 := by
    apply Nat.lt_succ_of_le
    apply (Finset.card_filter_le _ _).trans
    exact (List.toFinset_card_le _).trans (Nat.le_succ _)
  obtain ⟨m, hm, hok⟩ := @PermanentsOk.splitConstants Name _ p.liveObjects
    { id := p.next, type := .constant, reallocShrinkExcess := false, extents := rightOpen base size
      name := some name, creation := chain p.contexts } _ _ hpermanents
    (Nat.lt_add_of_pos_right hsize) rfl ⟨_, List.mem_cons_self, le_refl _, le_refl _⟩ hfuel
  have hsome : p.liveObjects.temporaries.find (rightOpen base size) = none := by
    rw [hempty]
    rfl
  refine ⟨_, by
    unfold Profiler.reportConstant AllocationUnitTable.addPermanent
    dsimp only
    rw [hsome, if_neg (by simp), if_pos rfl, hm]
    rfl, ?_⟩
  refine ⟨⟨h.table.wf, h.table.keys, h.table.live, h.table.known, h.table.low, h.table.nodup, ?_, hok.wf,
    hok.keys, hok.covered, ?_⟩, h.frames, h.nonempty, h.types, h.listedLive, h.nodup, h.placed, h.listed,
    h.ids, ?_, fun _ => ⟨hempty, hnone⟩, h.locals, h.exits, h.noExcess⟩
  · intro last hlast
    dsimp only at hlast
    rw [hnone] at hlast
    cases hlast
  · intro e he
    dsimp only at he
    rw [hempty] at he
    cases he
  · intro e he
    dsimp only at he
    rw [hempty] at he
    cases he

end Cpf.Profile
