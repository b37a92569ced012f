import Cpf.Profile.Contexts

/-!
# The profiler follows the program

`ProfilerOk` relates the profiler to the program: the table is right, the contexts are those of the program,
and the live objects of the kinds in `S` are listed. Every event of the program keeps it if the condition on
allocations is met.
-/

namespace Cpf.Profile

variable {Name : Type} [DecidableEq Name] {S : AUType → Prop}

structure ProfilerOk (S : AUType → Prop) (p : Profiler Name) (g : Program Name) : Prop where
  table : TableOk p.liveObjects g
  frames : chain p.contexts = g.frames
  nonempty : g.frames ≠ []
  types : ∀ o ∈ g.live, o.type = .heap ∨ o.type = .stack
  listedLive : ∀ au ∈ units p.contexts,
    (au.extents, au) ∈ p.liveObjects.temporaries ∧ au.reallocShrinkExcess = false
  nodup : (units p.contexts).Nodup
  placed : Placed p.escapes p.contexts
  listed : ∀ o ∈ g.live, S o.type → ∃ au ∈ units p.contexts, au.Describes o
  ids : ∀ e ∈ p.liveObjects.temporaries, ∀ f ∈ p.liveObjects.temporaries, e.2.id = f.2.id → e = f
  next : ∀ e ∈ p.liveObjects.temporaries, e.2.id < p.next
  start : g.started = false → p.liveObjects.temporaries = [] ∧ p.liveObjects.mostRecentlyUsed = none
  locals : ∀ a ∈ p.locals, a.2 <:+ a.1.creation
  exits : ∀ x ∈ g.exits, ∀ o ∈ x.2, S o.type → x.1 <:+ o.creation → (o.site, x.1) ∈ p.escapes
  noExcess : S .heap → ∀ e ∈ p.liveObjects.temporaries, e.2.reallocShrinkExcess = false

variable {p : Profiler Name} {g g' : Program Name} {au : AllocationUnit Name} {o : Object Name}

omit [DecidableEq Name] in
theorem initial_ok : ProfilerOk S (.initial : Profiler Name) .initial := by
  constructor
  · constructor <;> simp [Profiler.initial, Program.initial]
    · exact ⟨List.Pairwise.nil, fun e he => by cases he⟩
    · exact ⟨List.Pairwise.nil, fun e he => by cases he⟩
  · rfl
  all_goals simp [Profiler.initial, Program.initial, units, Placed]

omit [DecidableEq Name] in
theorem AllocationUnit.Describes.site_eq (h : au.Describes o) : au.site = o.site := by
  obtain ⟨h1, h2, h3, -⟩ := h
  unfold AllocationUnit.site Object.site
  rw [h1, h2, h3]

omit [DecidableEq Name] in
theorem ProfilerOk.describes_of_listed (h : ProfilerOk S p g) (hau : au ∈ units p.contexts) :
    ∃ o ∈ g.live, au.Describes o := by
  obtain ⟨hmem, hnot⟩ := h.listedLive au hau
  rcases h.table.known _ hmem with hex | hdesc
  · dsimp only at hex
    rw [hnot] at hex
    cases hex
  · exact hdesc

omit [DecidableEq Name] in
/-! ### The end of an object -/

omit [DecidableEq Name] in
theorem mem_reportLocal {ctx : Ctx Name} {a : Site Name × Ctx Name} [DecidableEq Name]
    (h : a ∈ (p.reportLocal au ctx).locals) : a ∈ p.locals ∨ a.1 = au.site ∧ a.2 <:+ ctx := by
  unfold Profiler.reportLocal at h
  dsimp only at h
  rcases List.mem_append.1 h with h | h
  · exact Or.inl h
  · obtain ⟨c, hc, rfl⟩ := List.mem_map.1 h
    exact Or.inr ⟨rfl, (List.mem_tails c ctx).1 (List.mem_filter.1 hc).1⟩

theorem ProfilerOk.remove (h : ProfilerOk S p g) (ho : o ∈ g.live) (hdesc : au.Describes o)
    (hmem : (au.extents, au) ∈ p.liveObjects.temporaries) {contexts : List (Context Name)}
    (hthin : Thinner contexts p.contexts)
    (hunits : (au :: units contexts).Perm (units p.contexts) ∨
      au ∉ units p.contexts ∧ contexts = p.contexts)
    {locals : List (Site Name × Ctx Name)} (hlocals : ∀ a ∈ locals, a.2 <:+ a.1.creation)
    (hlive : g'.live = g.live.erase o) (hconst : g'.constants = g.constants)
    (hframes : g'.frames = g.frames) (hstarted : g'.started = true) (hexits : g'.exits = g.exits) :
    ∃ t, p.liveObjects.remove au = .ok t ∧
      ProfilerOk S { p with liveObjects := t, contexts := contexts, locals := locals } g' := by
  obtain ⟨t, ht, htable, hiff⟩ := h.table.remove hmem hdesc ho hlive hconst
  refine ⟨t, ht, ?_⟩
  have hnotself : au ∉ units contexts := by
    rcases hunits with hperm | ⟨hnot, rfl⟩
    · exact (List.nodup_cons.1 (hperm.nodup_iff.2 h.nodup)).1
    · exact hnot
  have hsub : ∀ v, v ∈ units contexts ↔ v ∈ units p.contexts ∧ v ≠ au := by
    intro v
    rcases hunits with hperm | ⟨hnot, rfl⟩
    · rw [← hperm.mem_iff, List.mem_cons]
      constructor
      · intro hv
        refine ⟨Or.inr hv, ?_⟩
        rintro rfl
        exact hnotself hv
      · rintro ⟨rfl | hv, hne⟩
        · exact absurd rfl hne
        · exact hv
    · constructor
      · intro hv
        refine ⟨hv, ?_⟩
        rintro rfl
        exact hnot hv
      · exact And.left
  have hother : ∀ o' ∈ g'.live, o' ∈ g.live ∧ o' ≠ o := by
    intro o' ho'
    rw [hlive] at ho'
    exact ((h.table.nodup.mem_erase_iff).1 ho').symm
  constructor
  · exact htable
  · rw [hframes, ← h.frames]
    exact hthin.chain_eq
  · rw [hframes]
    exact h.nonempty
  · exact fun o' ho' => h.types o' (hother o' ho').1
  · intro v hv
    obtain ⟨hvmem, hne⟩ := (hsub v).1 hv
    obtain ⟨hvtemp, hvnot⟩ := h.listedLive v hvmem
    refine ⟨(hiff _).2 ⟨hvtemp, fun heq => hne (Prod.mk.inj heq).2⟩, hvnot⟩
  · rcases hunits with hperm | ⟨-, rfl⟩
    · exact (List.nodup_cons.1 (hperm.nodup_iff.2 h.nodup)).2
    · exact h.nodup
  · exact h.placed.mono hthin fun _ ha => ha
  · intro o' ho' hS
    obtain ⟨holive, hne⟩ := hother o' ho'
    obtain ⟨v, hv, hvdesc⟩ := h.listed o' holive hS
    refine ⟨v, (hsub v).2 ⟨hv, ?_⟩, hvdesc⟩
    rintro rfl
    apply hne
    apply h.table.eq_of_describes hmem hdesc holive
    have hnonempty := h.table.wf.nonempty _ hmem
    rw [← hvdesc.2.2.2.1]
    unfold Interval.Disjoint Interval.Before
    dsimp only at hnonempty
    omega
  · exact fun e he f hf => h.ids e ((hiff e).1 he).1 f ((hiff f).1 hf).1
  · exact fun e he => h.next e ((hiff e).1 he).1
  · intro hnot
    rw [hstarted] at hnot
    cases hnot
  · exact hlocals
  · rw [hexits]
    exact h.exits
  · exact fun hS e he => h.noExcess hS e ((hiff e).1 he).1

omit [DecidableEq Name] in
theorem ProfilerOk.started (h : ProfilerOk S p g) : ProfilerOk S p { g with started := true } := by
  obtain ⟨t1, t2, t3, t4, t5, t6, t7, t8, t9, t10, t11⟩ := h.table
  exact ⟨⟨t1, t2, t3, t4, t5, t6, t7, t8, t9, t10, t11⟩, h.frames, h.nonempty, h.types, h.listedLive,
    h.nodup, h.placed, h.listed, h.ids, h.next, (fun hn => by cases hn), h.locals, h.exits, h.noExcess⟩

omit [DecidableEq Name] in
theorem lookup_temporaries (p : Profiler Name) (ptr : ℕ) :
    (p.lookup ptr).2.liveObjects.temporaries = p.liveObjects.temporaries := by
  unfold Profiler.lookup AllocationUnitTable.lookupPointer
  dsimp only
  split
  · rfl
  · split
    · rfl
    · split
      · rfl
      · split <;> rfl

omit [DecidableEq Name] in
theorem ProfilerOk.lookup (h : ProfilerOk S p g) (ptr : ℕ) :
    ProfilerOk S (p.lookup ptr).2 { g with started := true } := by
  have htable : TableOk (p.liveObjects.lookupPointer ptr).2 g := h.table.lookupPointer
  obtain ⟨t1, t2, t3, t4, t5, t6, t7, t8, t9, t10, t11⟩ := htable
  refine ⟨⟨t1, t2, t3, t4, t5, t6, t7, t8, t9, t10, t11⟩, h.frames, h.nonempty, h.types, ?_, h.nodup, h.placed,
    h.listed, ?_, ?_, (fun hn => by cases hn), h.locals, h.exits, ?_⟩
  · intro au hau
    rw [lookup_temporaries]
    exact h.listedLive au hau
  · rw [lookup_temporaries]
    exact h.ids
  · rw [lookup_temporaries]
    exact h.next
  · rw [lookup_temporaries]
    exact h.noExcess

theorem ProfilerOk.freeUnit (h : ProfilerOk S p g) (ho : o ∈ g.live) (hdesc : au.Describes o)
    (hmem : (au.extents, au) ∈ p.liveObjects.temporaries) {isAlloca : Bool}
    (htype : o.type = if isAlloca then .stack else .heap)
    (hlive : g'.live = g.live.erase o) (hconst : g'.constants = g.constants)
    (hframes : g'.frames = g.frames) (hstarted : g'.started = true) (hexits : g'.exits = g.exits) :
    ∃ p', p.freeUnit (.unit au) isAlloca = .ok p' ∧ ProfilerOk S p' g' ∧
      p.liveObjects.remove au = .ok p'.liveObjects := by
  have hids : ∀ v ∈ units p.contexts, v.id = au.id → v = au := fun v hv hid =>
    (Prod.mk.inj (h.ids _ (h.listedLive v hv).1 _ hmem hid)).2
  have hlocals : ∀ a ∈ (p.reportLocal au (findCommon au.creation (chain p.contexts))).locals,
      a.2 <:+ a.1.creation := by
    intro a ha
    rcases mem_reportLocal ha with ha | ⟨hsite, hsuffix⟩
    · exact h.locals a ha
    · rw [hsite]
      exact hsuffix.trans (findCommon_suffix _ _)
  obtain ⟨t, ht, hok⟩ := h.remove ho hdesc hmem (removeFrom_thinner p.contexts) (units_removeFrom hids)
    hlocals hlive hconst hframes hstarted hexits
  refine ⟨{ p with
    liveObjects := t, contexts := Profiler.removeFrom au p.contexts
    locals := (p.reportLocal au (findCommon au.creation (chain p.contexts))).locals }, ?_, hok, ht⟩
  unfold Profiler.freeUnit
  dsimp only
  rw [if_neg (fun hne => hne (hdesc.1.trans htype))]
  have ht' : (p.reportLocal au (findCommon au.creation (chain p.contexts))).liveObjects.remove au =
      .ok t := ht
  rw [ht']
  rfl

theorem release_eq {type : AUType} {base : ℕ} (h : g.release type base = some g') :
    ∃ o ∈ g.live, o.type = type ∧ o.extents.low = base ∧
      g' = { g with live := g.live.erase o, started := true } := by
  unfold Program.release at h
  split at h
  · cases h
  · next o hfind =>
    cases h
    have hprop := List.find?_some hfind
    rw [decide_eq_true_iff] at hprop
    exact ⟨o, List.mem_of_find?_eq_some hfind, hprop.1, hprop.2, rfl⟩

omit [DecidableEq Name] in
/-- The unit that is found for the beginning of a live object. -/
theorem ProfilerOk.lookup_base (h : ProfilerOk S p g) (ho : o ∈ g.live) :
    ∃ au, (p.lookup o.extents.low).1 = .unit au ∧ au.Describes o ∧
      (au.extents, au) ∈ (p.lookup o.extents.low).2.liveObjects.temporaries := by
  obtain ⟨au', hmem', -⟩ := h.table.live o ho
  have hnonempty := h.table.wf.nonempty _ hmem'
  have hincl : o.extents.Includes o.extents.low := ⟨le_refl _, hnonempty⟩
  obtain ⟨au, hfound, hdesc, hmem⟩ := h.table.lookupPointer_live ho hincl
  refine ⟨au, hfound, hdesc, ?_⟩
  rw [lookup_temporaries]
  exact hmem

theorem ProfilerOk.free (h : ProfilerOk S p g) {ptr : ℕ} {isAlloca : Bool}
    (hg : g.step (.free ptr isAlloca) = some g') :
    ∃ p', p.free ptr isAlloca = .ok p' ∧ ProfilerOk S p' g' := by
  unfold Program.step at hg
  dsimp only at hg
  by_cases hptr : ptr = 0
  · rw [if_pos hptr] at hg
    cases hg
    refine ⟨p, ?_, h.started⟩
    unfold Profiler.free Profiler.lookup AllocationUnitTable.lookupPointer
    rw [if_pos hptr]
    rfl
  · rw [if_neg hptr] at hg
    obtain ⟨o, ho, htype, rfl, rfl⟩ := release_eq hg
    obtain ⟨au, hfound, hdesc, hmem⟩ := h.lookup_base ho
    have hok := h.lookup o.extents.low
    have hfree : ∃ p', (p.lookup o.extents.low).2.freeUnit (.unit au) isAlloca = .ok p' ∧
        ProfilerOk S p' { g with live := g.live.erase o, started := true } ∧ _ :=
      hok.freeUnit ho hdesc hmem htype rfl rfl rfl rfl rfl
    obtain ⟨p', hp', hok', -⟩ := hfree
    refine ⟨p', ?_, hok'⟩
    unfold Profiler.free
    rw [← hp', ← hfound]

end Cpf.Profile
