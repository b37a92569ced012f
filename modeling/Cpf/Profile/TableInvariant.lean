import Cpf.Profile.Objects

/-!
# The table of units and the live objects

`TableOk` relates the table to the program: every live object has its unit under its own addresses, the other
entries are left over from `realloc`, and the unit found last is in one of the maps. Then a lookup gives
the unit of the live object at the address.
-/

namespace Cpf.Profile

variable {Name : Type} [DecidableEq Name]

structure TableOk (t : AllocationUnitTable Name) (g : Program Name) : Prop where
  wf : t.temporaries.WF
  keys : ∀ e ∈ t.temporaries, e.1 = e.2.extents
  live : ∀ o ∈ g.live, ∃ au, (o.extents, au) ∈ t.temporaries ∧ au.Describes o
  known : ∀ e ∈ t.temporaries, e.2.reallocShrinkExcess = true ∨ ∃ o ∈ g.live, e.2.Describes o
  low : ∀ e ∈ t.temporaries, e.1.low ≠ 0
  nodup : g.live.Nodup
  cached : ∀ au, t.mostRecentlyUsed = some au →
    (au.extents, au) ∈ t.temporaries ∨ (au.extents, au) ∈ t.permanents
  permanentsWf : t.permanents.WF
  permanentsKeys : ∀ e ∈ t.permanents, e.1 = e.2.extents
  covered : ∀ e ∈ t.permanents, e.2.type = .constant ∧ ∃ c ∈ g.constants, WhollyWithin e.1 c
  apart : ∀ e ∈ t.temporaries, ∀ c ∈ g.constants, c.Disjoint e.1

variable {t t' : AllocationUnitTable Name} {g g' : Program Name} {au : AllocationUnit Name}
  {o : Object Name} {ptr : ℕ}

/-! ### Lookups -/

omit [DecidableEq Name] in
theorem mem_of_justBeyond {m : IntervalMap (AllocationUnit Name)}
    (h : AllocationUnitTable.justBeyond m ptr = some au) : ∃ e ∈ m, e.2 = au := by
  unfold AllocationUnitTable.justBeyond at h
  split at h
  · next hlast =>
    split_ifs at h
    cases h
    refine ⟨_, ?_, rfl⟩
    exact (m.mem_iff_below_or_lowerBound _).2 (Or.inl (List.mem_of_getLast? hlast))
  · cases h

omit [DecidableEq Name] in
theorem TableOk.mem_of_search (h : TableOk t g) (hs : t.search ptr = some au) :
    (au.extents, au) ∈ t.temporaries ∨ (au.extents, au) ∈ t.permanents := by
  have htemp : ∀ e ∈ t.temporaries, (e.2.extents, e.2) ∈ t.temporaries := by
    intro e he
    rw [← h.keys e he]
    exact he
  have hperm : ∀ e ∈ t.permanents, (e.2.extents, e.2) ∈ t.permanents := by
    intro e he
    rw [← h.permanentsKeys e he]
    exact he
  unfold AllocationUnitTable.search at hs
  rw [Option.orElse_eq_some, Option.orElse_eq_some, Option.orElse_eq_some] at hs
  rcases hs with hs | ⟨-, hs | ⟨-, hs | ⟨-, hs⟩⟩⟩
  · obtain ⟨e, he, rfl⟩ := Option.map_eq_some_iff.1 hs
    exact Or.inl (htemp e (h.wf.mem_of_find he).1)
  · obtain ⟨e, he, rfl⟩ := Option.map_eq_some_iff.1 hs
    exact Or.inr (hperm e (h.permanentsWf.mem_of_find he).1)
  · obtain ⟨e, he, rfl⟩ := mem_of_justBeyond hs
    exact Or.inl (htemp e he)
  · obtain ⟨e, he, rfl⟩ := mem_of_justBeyond hs
    exact Or.inr (hperm e he)

omit [DecidableEq Name] in
theorem TableOk.lookupPointer (h : TableOk t g) : TableOk (t.lookupPointer ptr).2 g := by
  have hcached : ∀ au, t.search ptr = some au →
      TableOk { t with mostRecentlyUsed := some au } g := by
    intro au hs
    refine ⟨h.wf, h.keys, h.live, h.known, h.low, h.nodup, fun last hlast => ?_, h.permanentsWf,
      h.permanentsKeys, h.covered, h.apart⟩
    cases hlast
    exact h.mem_of_search hs
  unfold AllocationUnitTable.lookupPointer
  by_cases hptr : ptr = 0
  · rw [if_pos hptr]
    exact h
  · rw [if_neg hptr]
    split
    · exact h
    · split
      · next au hs => exact hcached au hs
      · split
        · exact h
        · exact h

omit [DecidableEq Name] in
/-- A pointer into a live object is resolved to the unit of the object. -/
theorem TableOk.lookupPointer_live (h : TableOk t g) (ho : o ∈ g.live) (hptr : o.extents.Includes ptr) :
    ∃ au, (t.lookupPointer ptr).1 = .unit au ∧ au.Describes o ∧ (au.extents, au) ∈ t.temporaries := by
  obtain ⟨au, hmem, hdesc⟩ := h.live o ho
  have hext : au.extents = o.extents := hdesc.2.2.2.1
  have hzero : ptr ≠ 0 := by
    have := h.low _ hmem
    unfold Interval.Includes at hptr
    dsimp only at this
    omega
  refine ⟨au, ?_, hdesc, hext ▸ hmem⟩
  unfold AllocationUnitTable.lookupPointer
  rw [if_neg hzero]
  split
  · next last hlast =>
    obtain ⟨hlast, hincl⟩ := Option.filter_eq_some_iff.1 hlast
    have hincl' : last.extents.Includes ptr := of_decide_eq_true hincl
    rcases h.cached last hlast with htemp | hperm
    · have heq := h.wf.eq_of_overlap htemp hmem fun hdisjoint => hdisjoint.not_includes hincl' hptr
      rw [(Prod.mk.inj heq).2]
    · obtain ⟨-, c, hc, hwithin⟩ := h.covered _ hperm
      have hcptr : c.Includes ptr := by
        unfold WhollyWithin at hwithin
        unfold Interval.Includes at hincl' ⊢
        dsimp only at hwithin
        omega
      exact absurd hptr ((h.apart _ hmem c hc).not_includes hcptr)
  · have hs : t.search ptr = some au := by
      unfold AllocationUnitTable.search
      rw [h.wf.find_point hmem hptr]
      rfl
    rw [hs]

/-! ### Entries that go and come -/

omit [DecidableEq Name] in
/-- The live object of an entry, which is the only one at these addresses. -/
theorem TableOk.eq_of_describes (h : TableOk t g) {o' : Object Name} (hmem : (au.extents, au) ∈ t.temporaries)
    (hdesc : au.Describes o) (ho' : o' ∈ g.live) (hover : ¬ o'.extents.Disjoint au.extents) : o' = o := by
  obtain ⟨au', hmem', hdesc'⟩ := h.live o' ho'
  have heq := h.wf.eq_of_overlap hmem' hmem hover
  have hau : au' = au := (Prod.mk.inj heq).2
  subst hau
  obtain ⟨h1, h2, h3, h4, -⟩ := hdesc
  obtain ⟨h1', h2', h3', h4', -⟩ := hdesc'
  cases o
  cases o'
  simp_all

theorem TableOk.remove (h : TableOk t g) (hmem : (au.extents, au) ∈ t.temporaries)
    (hdesc : au.Describes o) (ho : o ∈ g.live) (hlive : g'.live = g.live.erase o)
    (hconst : g'.constants = g.constants) :
    ∃ t', t.remove au = .ok t' ∧ TableOk t' g' ∧
      (∀ e, e ∈ t'.temporaries ↔ e ∈ t.temporaries ∧ e ≠ (au.extents, au)) := by
  have hfind : t.temporaries.find au.extents = some (au.extents, au) := h.wf.find_key hmem
  obtain ⟨hwf, hiff⟩ := h.wf.eraseFound hfind
  refine ⟨_, by rw [AllocationUnitTable.remove, hfind], ?_, hiff⟩
  have hother : ∀ o' ∈ g'.live, o' ∈ g.live ∧ o' ≠ o := by
    intro o' ho'
    rw [hlive] at ho'
    exact ((h.nodup.mem_erase_iff).1 ho').symm
  constructor
  · exact hwf
  · exact fun e he => h.keys e ((hiff e).1 he).1
  · intro o' ho'
    obtain ⟨holive, hne⟩ := hother o' ho'
    obtain ⟨au', hmem', hdesc'⟩ := h.live o' holive
    refine ⟨au', (hiff _).2 ⟨hmem', fun heq => hne ?_⟩, hdesc'⟩
    apply h.eq_of_describes hmem hdesc holive
    have hnonempty := h.wf.nonempty _ hmem
    rw [(Prod.mk.inj heq).1]
    unfold Interval.Disjoint Interval.Before
    dsimp only at hnonempty
    omega
  · intro e he
    obtain ⟨hemem, hne⟩ := (hiff e).1 he
    rcases h.known e hemem with hex | ⟨o', ho', hdesc'⟩
    · exact Or.inl hex
    · refine Or.inr ⟨o', ?_, hdesc'⟩
      rw [hlive, h.nodup.mem_erase_iff]
      refine ⟨?_, ho'⟩
      rintro rfl
      apply hne
      apply h.wf.eq_of_overlap hemem hmem
      have hnonempty := h.wf.nonempty _ hmem
      rw [h.keys e hemem, hdesc'.2.2.2.1, ← hdesc.2.2.2.1]
      unfold Interval.Disjoint Interval.Before
      dsimp only at hnonempty ⊢
      omega
  · exact fun e he => h.low e ((hiff e).1 he).1
  · rw [hlive]
    exact h.nodup.erase o
  · intro last hlast
    obtain ⟨hlast, hsite⟩ := Option.filter_eq_some_iff.1 hlast
    rcases h.cached last hlast with htemp | hperm
    · refine Or.inl ((hiff _).2 ⟨htemp, fun heq => ?_⟩)
      rw [(Prod.mk.inj heq).2] at hsite
      simp at hsite
    · exact Or.inr hperm
  · exact h.permanentsWf
  · exact h.permanentsKeys
  · rw [hconst]
    exact h.covered
  · rw [hconst]
    exact fun e he => h.apart e ((hiff e).1 he).1

omit [DecidableEq Name] in
theorem TableOk.find_permanents (h : TableOk t g) {e : Interval}
    (hconst : ∀ c ∈ g.constants, c.Disjoint e) : t.permanents.find e = none := by
  rw [h.permanentsWf.find_eq_none_iff]
  intro f hf
  obtain ⟨-, c, hc, hwithin⟩ := h.covered f hf
  have hne := h.permanentsWf.nonempty f hf
  have hdisjoint := hconst c hc
  unfold WhollyWithin at hwithin
  unfold Interval.Disjoint Interval.Before at *
  omega

/-- A new unit gets its own entry; what is left over from a `realloc` makes room. -/
theorem TableOk.addTemporary (h : TableOk t g) (hsize : au.extents.low < au.extents.high)
    (havail : g.Available au.extents) (hexcess : FewExcess t au.site au.extents true)
    (hdesc : au.Describes o) (hlive : g'.live = o :: g.live) (hconst : g'.constants = g.constants) :
    ∃ t', t.addTemporary au = .ok (au, t') ∧ TableOk t' g' ∧
      (∀ e, e ∈ t'.temporaries ↔ e = (au.extents, au) ∨
        e ∈ t.temporaries ∧ (e.2.reallocShrinkExcess = false ∨ e.1.Disjoint au.extents)) := by
  obtain ⟨hlow, hobjects, hconstants⟩ := havail
  have hperm := h.find_permanents hconstants
  -- only what is left over can overlap the new unit
  have hover : ∀ e ∈ t.temporaries, ¬ e.1.Disjoint au.extents → e.2.reallocShrinkExcess = true := by
    intro e he hnot
    rcases h.known e he with hex | ⟨o', ho', hdesc'⟩
    · exact hex
    · rw [h.keys e he, hdesc'.2.2.2.1] at hnot
      exact absurd (hobjects o' ho') hnot
  have hstep : ∃ m : IntervalMap (AllocationUnit Name), t.addTemporary au =
      .ok (au, { t with temporaries := m.assign au.extents au }) ∧ m.WF ∧
        (∀ e, e ∈ m ↔ e ∈ t.temporaries ∧ e.1.Disjoint au.extents) := by
    unfold AllocationUnitTable.addTemporary
    cases hfind : t.temporaries.find au.extents with
    | none =>
        refine ⟨t.temporaries, ?_, h.wf, fun e => ?_⟩
        · dsimp only
          rw [AllocationUnitTable.insertTemporary, hperm]
          rfl
        · have hall := h.wf.find_eq_none_iff.1 hfind
          exact ⟨fun he => ⟨he, hall e he⟩, And.left⟩
    | some old =>
        obtain ⟨holdmem, holdover⟩ := h.wf.mem_of_find hfind
        have hex := hover old holdmem holdover
        obtain ⟨hwf, hiff⟩ := h.wf.eraseFound hfind
        refine ⟨t.temporaries.eraseFound au.extents, ?_, hwf, fun e => ?_⟩
        · dsimp only
          rw [if_neg (fun heq => hexcess.site old holdmem hex holdover heq.symm), if_pos hex,
            AllocationUnitTable.insertTemporary, hperm]
          rfl
        · rw [hiff e]
          apply and_congr_right
          intro he
          constructor
          · intro hne
            by_contra hnot
            exact hne (hexcess.one e he old holdmem (hover e he hnot) hex hnot holdover)
          · rintro hdisjoint rfl
            exact holdover hdisjoint
  obtain ⟨m, hresult, hmwf, hm⟩ := hstep
  obtain ⟨hwf, hiff⟩ := hmwf.assign (v := au) hsize fun e he => ((hm e).1 he).2
  have hiff' : ∀ e, e ∈ m.assign au.extents au ↔ e = (au.extents, au) ∨
      e ∈ t.temporaries ∧ (e.2.reallocShrinkExcess = false ∨ e.1.Disjoint au.extents) := by
    intro e
    rw [hiff e, hm e]
    apply or_congr_right
    apply and_congr_right
    intro he
    constructor
    · exact Or.inr
    · rintro (hnot | hdisjoint)
      · by_contra hd
        rw [hover e he hd] at hnot
        cases hnot
      · exact hdisjoint
  have hnew : o ∉ g.live := by
    intro ho
    have hself := hobjects o ho
    rw [← hdesc.2.2.2.1] at hself
    unfold Interval.Disjoint Interval.Before at hself
    omega
  refine ⟨_, hresult, ?_, hiff'⟩
  constructor
  · exact hwf
  · intro e he
    rcases (hiff' e).1 he with rfl | ⟨he, -⟩
    · rfl
    · exact h.keys e he
  · intro o' ho'
    rw [hlive] at ho'
    rcases List.mem_cons.1 ho' with rfl | ho'
    · refine ⟨au, (hiff' _).2 (Or.inl ?_), hdesc⟩
      rw [hdesc.2.2.2.1]
    · obtain ⟨au', hmem', hdesc'⟩ := h.live o' ho'
      exact ⟨au', (hiff' _).2 (Or.inr ⟨hmem', Or.inl hdesc'.2.2.2.2⟩), hdesc'⟩
  · intro e he
    rw [hlive]
    rcases (hiff' e).1 he with rfl | ⟨he, -⟩
    · exact Or.inr ⟨o, List.mem_cons_self, hdesc⟩
    · rcases h.known e he with hex | ⟨o', ho', hdesc'⟩
      · exact Or.inl hex
      · exact Or.inr ⟨o', List.mem_cons_of_mem _ ho', hdesc'⟩
  · intro e he
    rcases (hiff' e).1 he with rfl | ⟨he, -⟩
    · exact hlow
    · exact h.low e he
  · rw [hlive]
    exact List.nodup_cons.2 ⟨hnew, h.nodup⟩
  · intro last hlast
    rcases h.cached last hlast with htemp | hpermlast
    · refine Or.inl ((hiff' _).2 (Or.inr ⟨htemp, ?_⟩))
      cases hex : last.reallocShrinkExcess with
      | false => exact Or.inl rfl
      | true => exact Or.inr (hexcess.cached rfl last hlast hex)
    · exact Or.inr hpermlast
  · exact h.permanentsWf
  · exact h.permanentsKeys
  · rw [hconst]
    exact h.covered
  · rw [hconst]
    intro e he c hc
    rcases (hiff' e).1 he with rfl | ⟨he, -⟩
    · exact hconstants c hc
    · exact h.apart e he c hc

end Cpf.Profile
