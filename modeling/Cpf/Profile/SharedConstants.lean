import Cpf.Profile.Constants
import Cpf.Profile.Profiler

/-!
# Every constant keeps its first address

`report_constant` is called once for every constant, and constants may share memory in any way. The map
covers the reported extents and no other address. A constant that is not in the map any more should lie
within units that came later or are larger. A unit that was cut at its upper end breaks this: it is
replaced as soon as its remaining part lies within a new constant, and the smaller one at which it was
cut keeps the rest of it.
-/

namespace Cpf.Profile

variable {Name : Type}

structure ConstantReport (Name : Type) where
  name : Name
  base : ℕ
  size : ℕ
  nonempty : 0 < size

def ConstantReport.extents (r : ConstantReport Name) : Interval := rightOpen r.base r.size

def Profiler.reportConstants (p : Profiler Name) (reports : List (ConstantReport Name)) :
    Except Failure (Profiler Name) :=
  reports.foldlM (fun p r => p.reportConstant r.name r.base r.size) p

/-! ### What is expected of the map -/

def KeyedByExtents (m : IntervalMap (AllocationUnit Name)) : Prop :=
  (m.Pairwise fun e f => e.1.Disjoint f.1) ∧ ∀ e ∈ m, e.1 = e.2.extents

def Covers (m : IntervalMap (AllocationUnit Name)) (reports : List (ConstantReport Name)) : Prop :=
  ∀ a, (∃ e ∈ m, e.1.Includes a) ↔ ∃ r ∈ reports, r.extents.Includes a

def LaterOrLarger (reports : List (ConstantReport Name)) (i j : ℕ) : Prop :=
  i < j ∨ ∃ r s, reports[i]? = some r ∧ reports[j]? = some s ∧ r.size ≤ s.size

/-- Every constant is in the map with its first address, or others cover all of its addresses. -/
def Kept (reports : List (ConstantReport Name)) (m : IntervalMap (AllocationUnit Name)) : Prop :=
  ∀ i r, reports[i]? = some r →
    (∃ e ∈ m, e.2.id = i ∧ e.1.Includes r.base) ∨
      ∀ a, r.extents.Includes a → ∃ e ∈ m, e.1.Includes a ∧ LaterOrLarger reports i e.2.id

def SharedCorrectly (reports : List (ConstantReport Name)) : Prop :=
  ∃ p, Profiler.initial.reportConstants reports = .ok p ∧ KeyedByExtents p.liveObjects.permanents ∧
    Covers p.liveObjects.permanents reports ∧ Kept reports p.liveObjects.permanents

/-- A new constant that replaces a unit also replaces the smaller and earlier ones that overlap the extents
with which that unit was reported. -/
def ReplacesRest (reports : List (ConstantReport Name)) (m : IntervalMap (AllocationUnit Name))
    (k : Interval) : Prop :=
  (∃ e ∈ m, WhollyWithin k e.1) ∨
    ∀ c ∈ m, WhollyWithin c.1 k → ∀ d ∈ m, d.2.id < c.2.id → ∀ r s, reports[c.2.id]? = some r →
      reports[d.2.id]? = some s → s.size < r.size → ¬ d.1.Disjoint r.extents → WhollyWithin d.1 k

def ReplacesRestAfter (reports : List (ConstantReport Name)) (next : ConstantReport Name) : Prop :=
  ∀ p, Profiler.initial.reportConstants reports = .ok p →
    ReplacesRest reports p.liveObjects.permanents next.extents

/-! ### The map and the reports -/

/-- The map after the calls. A unit may have lost addresses at its upper end. -/
structure SharedOk (reports : List (ConstantReport Name)) (m : IntervalMap (AllocationUnit Name)) :
    Prop where
  ok : ConstantsOk m
  units : ∀ e ∈ m, ∃ r, reports[e.2.id]? = some r ∧ e.1.low = r.base ∧ e.1.high ≤ r.base + r.size
  covers : Covers m reports

variable {reports : List (ConstantReport Name)} {m m' : IntervalMap (AllocationUnit Name)}
  {au : AllocationUnit Name} {r : ConstantReport Name} {a : ℕ} {e : Interval × AllocationUnit Name}

theorem reported_append {i : ℕ} {s : ConstantReport Name} (hs : reports[i]? = some s) :
    (reports ++ [r])[i]? = some s :=
  (List.getElem?_append_left (List.getElem?_eq_some_iff.1 hs).1).trans hs

theorem SharedOk.id_lt (h : SharedOk reports m) (he : e ∈ m) : e.2.id < reports.length := by
  obtain ⟨r, hr, -⟩ := h.units e he
  exact (List.getElem?_eq_some_iff.1 hr).1

theorem SharedOk.eq_of_id (h : SharedOk reports m) {f : Interval × AllocationUnit Name} (he : e ∈ m)
    (hf : f ∈ m) (hid : e.2.id = f.2.id) : e = f := by
  obtain ⟨r, hr, hlow, -⟩ := h.units e he
  obtain ⟨s, hs, hlow', -⟩ := h.units f hf
  rw [hid, hs] at hr
  cases hr
  have hesize := h.ok.wf.nonempty e he
  have hfsize := h.ok.wf.nonempty f hf
  apply h.ok.wf.eq_of_overlap he hf
  unfold Interval.Disjoint Interval.Before
  omega

theorem SharedOk.eq_of_includes (h : SharedOk reports m) {f : Interval × AllocationUnit Name} (he : e ∈ m)
    (hf : f ∈ m) (hea : e.1.Includes a) (hfa : f.1.Includes a) : e = f :=
  h.ok.wf.eq_of_overlap he hf fun hdisjoint => hdisjoint.not_includes hea hfa

theorem SharedOk.keyed (h : SharedOk reports m) : KeyedByExtents m :=
  ⟨h.ok.wf.sorted.imp fun hb => Or.inl hb, h.ok.keys⟩

theorem includes_chop {low : ℕ} : (chop low e).1.Includes a ↔ e.1.Includes a ∧ (low ≤ a → low ≤ e.1.low) := by
  unfold chop Interval.Includes
  split_ifs with hlow
  · dsimp only
    omega
  · omega

theorem chop_id {low : ℕ} : (chop low e).2.id = e.2.id := by
  unfold chop
  split_ifs <;> rfl

/-! ### One call -/

/-- Every address of a new constant is in the map afterwards. -/
theorem Divided.mem_new (hdiv : Divided m au m') (ha : au.extents.Includes a) :
    ∃ f ∈ m', f.1.Includes a := by
  cases hdiv with
  | @within e he hin => exact ⟨e, he, hin.1.trans ha.1, ha.2.trans_le hin.2⟩
  | @inserted _ high hok houtside hlow hhigh hend hmem =>
      by_cases hah : a < high
      · exact ⟨_, (hmem _).2 (Or.inl rfl), ha.1, hah⟩
      · rcases hend with rfl | ⟨e, he, helow, hnot⟩
        · exact absurd ha.2 hah
        · -- the new constant was cut at this one, which reaches beyond it
          have hsame : chop au.extents.low e = e := chop_of_not_before (by omega)
          refine ⟨e, (hmem _).2 (Or.inr ⟨e, he, hnot, hsame.symm⟩), ?_⟩
          obtain ⟨halow, hahigh⟩ := ha
          unfold WhollyWithin at hnot
          unfold Interval.Includes
          omega

theorem Divided.mem_old (hdiv : Divided m au m') (he : e ∈ m) (ha : e.1.Includes a) :
    ∃ f ∈ m', f.1.Includes a := by
  by_cases hak : au.extents.Includes a
  · exact hdiv.mem_new hak
  cases hdiv with
  | within he' hin => exact ⟨e, he, ha⟩
  | inserted hok houtside hlow hhigh hend hmem =>
      have hnot : ¬ WhollyWithin e.1 au.extents := by
        intro hin
        exact hak ⟨hin.1.trans ha.1, ha.2.trans_le hin.2⟩
      refine ⟨_, (hmem _).2 (Or.inr ⟨e, he, hnot, rfl⟩), includes_chop.2 ⟨ha, fun hle => ?_⟩⟩
      have hout := houtside e he
      unfold WhollyWithin at hout
      unfold Interval.Includes at ha hak
      omega

theorem SharedOk.step (h : SharedOk reports m) (hid : au.id = reports.length)
    (hextents : au.extents = r.extents) (hdiv : Divided m au m') : SharedOk (reports ++ [r]) m' := by
  have hold : ∀ e ∈ m, ∃ s, (reports ++ [r])[e.2.id]? = some s ∧ e.1.low = s.base ∧
      e.1.high ≤ s.base + s.size := by
    intro e he
    obtain ⟨s, hs, hrest⟩ := h.units e he
    exact ⟨s, reported_append hs, hrest⟩
  have hcovers : Covers m' (reports ++ [r]) := by
    intro a
    constructor
    · rintro ⟨f, hf, hfa⟩
      have hcases : au.extents.Includes a ∨ ∃ e ∈ m, e.1.Includes a := by
        cases hdiv with
        | within => exact Or.inr ⟨f, hf, hfa⟩
        | inserted hok houtside hlow hhigh hend hmem =>
            rcases (hmem f).1 hf with rfl | ⟨e, he, -, rfl⟩
            · exact Or.inl ⟨hfa.1, hfa.2.trans_le hhigh⟩
            · exact Or.inr ⟨e, he, (includes_chop.1 hfa).1⟩
      rcases hcases with hnew | holds
      · rw [hextents] at hnew
        exact ⟨r, List.mem_append_right _ List.mem_cons_self, hnew⟩
      · obtain ⟨s, hs, hsa⟩ := (h.covers a).1 holds
        exact ⟨s, List.mem_append_left _ hs, hsa⟩
    · rintro ⟨s, hs, hsa⟩
      rcases List.mem_append.1 hs with hs | hs
      · obtain ⟨e, he, hea⟩ := (h.covers a).2 ⟨s, hs, hsa⟩
        exact hdiv.mem_old he hea
      · rw [List.mem_singleton.1 hs, ← hextents] at hsa
        exact hdiv.mem_new hsa
  cases hdiv with
  | within => exact ⟨h.ok, hold, hcovers⟩
  | inserted hok houtside hlow hhigh hend hmem =>
      refine ⟨hok, fun f hf => ?_, hcovers⟩
      rcases (hmem f).1 hf with rfl | ⟨e, he, -, rfl⟩
      · refine ⟨r, ?_, ?_, ?_⟩
        · dsimp only
          rw [hid, List.getElem?_concat_length]
        · dsimp only
          rw [hextents]
          rfl
        · rw [hextents] at hhigh
          exact hhigh
      · obtain ⟨s, hs, hslow, hshigh⟩ := hold e he
        refine ⟨s, ?_, ?_, ?_⟩
        · rw [chop_id]
          exact hs
        · rw [← hslow]
          unfold chop
          split_ifs <;> rfl
        · exact chop_fst_within.2.trans hshigh

/-! ### The constants that are kept -/

theorem LaterOrLarger.append {i j : ℕ} (h : LaterOrLarger reports i j) :
    LaterOrLarger (reports ++ [r]) i j := by
  refine h.imp_right ?_
  rintro ⟨s, s', hs, hs', hle⟩
  exact ⟨s, s', reported_append hs, reported_append hs', hle⟩

theorem SharedOk.kept_old (h : SharedOk reports m) (hkept : Kept reports m)
    (hid : au.id = reports.length) (hextents : au.extents = r.extents) (hdiv : Divided m au m')
    (hrest : ReplacesRest reports m au.extents) {i : ℕ} {s : ConstantReport Name}
    (hs : reports[i]? = some s) :
    (∃ e ∈ m', e.2.id = i ∧ e.1.Includes s.base) ∨
      ∀ a, s.extents.Includes a → ∃ e ∈ m', e.1.Includes a ∧ LaterOrLarger (reports ++ [r]) i e.2.id := by
  have hi : i < reports.length := (List.getElem?_eq_some_iff.1 hs).1
  have hok := h.step hid hextents hdiv
  cases hdiv with
  | within =>
      refine (hkept i s hs).imp_right fun hcov a ha => ?_
      obtain ⟨e, he, hea, hlater⟩ := hcov a ha
      exact ⟨e, he, hea, hlater.append⟩
  | inserted hok' houtside hlow hhigh hend hmem =>
      rcases hkept i s hs with ⟨c, hc, hci, hbase⟩ | hcov
      · by_cases hin : WhollyWithin c.1 au.extents
        · -- the unit is replaced
          refine Or.inr fun a ha => ?_
          obtain ⟨f, hf, hfa⟩ := (hok.covers a).2
            ⟨s, List.mem_append_left _ (List.mem_of_getElem? hs), ha⟩
          refine ⟨f, hf, hfa, ?_⟩
          rcases (hmem f).1 hf with rfl | ⟨d, hd, hnot, rfl⟩
          · left
            dsimp only
            rw [hid]
            exact hi
          · rw [chop_id]
            by_contra hneither
            unfold LaterOrLarger at hneither
            rw [not_or, not_lt] at hneither
            obtain ⟨hle, hsmall⟩ := hneither
            obtain ⟨s', hs', -⟩ := h.units d hd
            have hlt : d.2.id < c.2.id := by
              rw [hci]
              refine hle.lt_of_ne fun heq => hnot ?_
              rw [h.eq_of_id hd hc (heq.trans hci.symm)]
              exact hin
            have hsize : s'.size < s.size := by
              by_contra hge
              exact hsmall ⟨s, s', reported_append hs, reported_append hs',
                not_lt.1 hge⟩
            rcases hrest with ⟨e, he, hwithin⟩ | hrest
            · exact houtside e he hwithin
            · apply hnot
              rw [← hci] at hs
              apply hrest c hc hin d hd hlt s s' hs hs' hsize
              exact fun hdisjoint => hdisjoint.not_includes (includes_chop.1 hfa).1 ha
        · -- the unit keeps its first address
          refine Or.inl ⟨_, (hmem _).2 (Or.inr ⟨c, hc, hin, rfl⟩), ?_, ?_⟩
          · rw [chop_id]
            exact hci
          · obtain ⟨s', hs', hlows, -⟩ := h.units c hc
            rw [hci, hs] at hs'
            cases hs'
            refine includes_chop.2 ⟨hbase, fun hle => ?_⟩
            rw [hlows]
            exact hle
      · refine Or.inr fun a ha => ?_
        obtain ⟨e, he, hea, hlater⟩ := hcov a ha
        obtain ⟨f, hf, hfa⟩ := (hok.covers a).2
          ⟨s, List.mem_append_left _ (List.mem_of_getElem? hs), ha⟩
        refine ⟨f, hf, hfa, ?_⟩
        rcases (hmem f).1 hf with rfl | ⟨d, hd, -, rfl⟩
        · left
          dsimp only
          rw [hid]
          exact hi
        · rw [chop_id, h.eq_of_includes hd he (includes_chop.1 hfa).1 hea]
          exact hlater.append

theorem SharedOk.kept_new (h : SharedOk reports m) (hid : au.id = reports.length)
    (hextents : au.extents = r.extents) (hdiv : Divided m au m') :
    (∃ e ∈ m', e.2.id = reports.length ∧ e.1.Includes r.base) ∨
      ∀ a, r.extents.Includes a →
        ∃ e ∈ m', e.1.Includes a ∧ LaterOrLarger (reports ++ [r]) reports.length e.2.id := by
  cases hdiv with
  | @within e he hin =>
      refine Or.inr fun a ha => ⟨e, he, ?_, Or.inr ?_⟩
      · rw [hextents] at hin
        exact ⟨hin.1.trans ha.1, ha.2.trans_le hin.2⟩
      · obtain ⟨s, hs, hlow, hhigh⟩ := h.units e he
        refine ⟨r, s, List.getElem?_concat_length, reported_append hs, ?_⟩
        rw [hextents] at hin
        unfold WhollyWithin ConstantReport.extents rightOpen at hin
        dsimp only at hin
        omega
  | inserted hok houtside hlow hhigh hend hmem =>
      refine Or.inl ⟨_, (hmem _).2 (Or.inl rfl), hid, ?_⟩
      rw [hextents] at hlow
      exact ⟨by rw [hextents]; exact le_refl _, hlow⟩

/-- Where the rest of a replaced unit is not replaced, its addresses stay with a smaller and earlier one. -/
theorem SharedOk.replacesRest (h : SharedOk reports m) (hid : au.id = reports.length)
    (hextents : au.extents = r.extents) (hdiv : Divided m au m') (hkept : Kept (reports ++ [r]) m') :
    ReplacesRest reports m au.extents := by
  have hok := h.step hid hextents hdiv
  cases hdiv with
  | within he hin => exact Or.inl ⟨_, he, hin⟩
  | inserted hok' houtside hlow hhigh hend hmem =>
      refine Or.inr fun c hc hin d hd hlt s s' hs hs' hsize hover => ?_
      by_contra hnot
      obtain ⟨t, ht, hclow, hchigh⟩ := h.units c hc
      rw [hs] at ht
      cases ht
      have hcsize := h.ok.wf.nonempty c hc
      have hdsize := h.ok.wf.nonempty d hd
      have hapart : c.1.Disjoint d.1 := by
        by_contra hboth
        rw [h.ok.wf.eq_of_overlap hc hd hboth] at hlt
        exact lt_irrefl _ hlt
      -- the other unit begins where the replaced one was cut, or later
      have hplace : au.extents.low ≤ d.1.low ∧ s.extents.Includes d.1.low := by
        unfold ConstantReport.extents rightOpen at *
        unfold WhollyWithin at hin
        unfold Interval.Disjoint Interval.Before at hover hapart
        unfold Interval.Includes
        dsimp only at hover ⊢
        omega
      have hd' : d ∈ m' := (hmem d).2 (Or.inr ⟨d, hd, hnot, (chop_of_not_before hplace.1).symm⟩)
      rcases hkept c.2.id s (reported_append hs) with ⟨f, hf, hfid, -⟩ | hcov
      · rcases (hmem f).1 hf with rfl | ⟨e, he, hkeep, rfl⟩
        · have hclt := h.id_lt hc
          dsimp only at hfid
          omega
        · rw [chop_id] at hfid
          rw [h.eq_of_id he hc hfid] at hkeep
          exact hkeep hin
      · obtain ⟨f, hf, hfa, hlater⟩ := hcov d.1.low hplace.2
        rw [hok.eq_of_includes hf hd' hfa ⟨le_refl _, hdsize⟩] at hlater
        rcases hlater with hlater | ⟨t, t', ht, ht', hle⟩
        · omega
        · rw [reported_append hs] at ht
          rw [reported_append hs'] at ht'
          cases ht
          cases ht'
          omega

/-! ### All calls -/

variable [DecidableEq Name]

theorem reportConstant_divided {p : Profiler Name} (h : SharedOk reports p.liveObjects.permanents)
    (htemp : p.liveObjects.temporaries = []) (hnext : p.next = reports.length) :
    ∃ au p', p.reportConstant r.name r.base r.size = .ok p' ∧ p'.liveObjects.temporaries = [] ∧
      p'.next = (reports ++ [r]).length ∧ au.id = reports.length ∧ au.extents = r.extents ∧
      Divided p.liveObjects.permanents au p'.liveObjects.permanents := by
  let au : AllocationUnit Name :=
    { id := p.next, type := .constant, reallocShrinkExcess := false, extents := r.extents,
      name := some r.name, creation := chain p.contexts }
  have hfuel : (overlapping p.liveObjects.permanents au.extents).card <
      p.liveObjects.permanents.length + 2 := by
    apply Nat.lt_succ_of_le
    apply (Finset.card_filter_le _ _).trans
    exact (List.toFinset_card_le _).trans (Nat.le_succ _)
  obtain ⟨m, hm, hdiv⟩ := h.ok.splitConstants (Nat.lt_add_of_pos_right r.nonempty : au.extents.low < _)
    rfl hfuel
  refine ⟨au, { p with
    liveObjects := { p.liveObjects with permanents := m }
    next := p.next + 1 }, ?_, htemp, ?_, hnext, rfl, hdiv⟩
  · have hnone : p.liveObjects.temporaries.find au.extents = none := by
      rw [htemp]
      rfl
    have hadd : p.liveObjects.addPermanent au = .ok { p.liveObjects with permanents := m } := by
      unfold AllocationUnitTable.addPermanent
      rw [hnone, if_neg (by simp), if_pos rfl]
      exact hm
    unfold Profiler.reportConstant
    rw [show rightOpen r.base r.size = r.extents from rfl, hadd]
    rfl
  · rw [List.length_append, ← hnext]
    rfl

omit [DecidableEq Name] in
theorem reportConstants_concat (p : Profiler Name) :
    p.reportConstants (reports ++ [r]) =
      (p.reportConstants reports).bind fun p => p.reportConstant r.name r.base r.size := by
  unfold Profiler.reportConstants
  rw [List.foldlM_append]
  congr 1
  funext p
  rw [List.foldlM_cons]
  cases p.reportConstant r.name r.base r.size <;> rfl

/-- The calls end, and the map covers the reported addresses. -/
theorem reportConstants_ok (reports : List (ConstantReport Name)) :
    ∃ p, Profiler.initial.reportConstants reports = .ok p ∧ SharedOk reports p.liveObjects.permanents ∧
      p.liveObjects.temporaries = [] ∧ p.next = reports.length := by
  induction reports using List.reverseRecOn with
  | nil =>
      refine ⟨_, rfl, ⟨⟨⟨List.Pairwise.nil, ?_⟩, ?_, ?_⟩, ?_, ?_⟩, rfl, rfl⟩
      · exact fun e he => absurd he List.not_mem_nil
      · exact fun e he => absurd he List.not_mem_nil
      · exact fun e he => absurd he List.not_mem_nil
      · exact fun e he => absurd he List.not_mem_nil
      · intro a
        constructor
        · rintro ⟨e, he, -⟩
          exact absurd he List.not_mem_nil
        · rintro ⟨s, hs, -⟩
          exact absurd hs List.not_mem_nil
  | append_singleton reports r ih =>
      obtain ⟨p, hp, hok, htemp, hnext⟩ := ih
      obtain ⟨au, p', hp', htemp', hnext', hid, hextents, hdiv⟩ :=
        @reportConstant_divided Name reports r _ p hok htemp hnext
      refine ⟨p', ?_, hok.step hid hextents hdiv, htemp', hnext'⟩
      rw [reportConstants_concat, hp]
      exact hp'

theorem sharedCorrectly_concat (h : SharedCorrectly reports) :
    SharedCorrectly (reports ++ [r]) ↔ ReplacesRestAfter reports r := by
  obtain ⟨p, hp, hok, htemp, hnext⟩ := reportConstants_ok reports
  obtain ⟨p₀, hp₀, -, -, hkept⟩ := h
  obtain rfl : p = p₀ := Except.ok.inj (hp.symm.trans hp₀)
  obtain ⟨au, p', hp', -, -, hid, hextents, hdiv⟩ :=
    @reportConstant_divided Name reports r _ p hok htemp hnext
  have hrun : Profiler.initial.reportConstants (reports ++ [r]) = .ok p' := by
    rw [reportConstants_concat, hp]
    exact hp'
  have hok' := hok.step hid hextents hdiv
  constructor
  · rintro ⟨p₁, hp₁, -, -, hkept'⟩ p₂ hp₂
    obtain rfl : p' = p₁ := Except.ok.inj (hrun.symm.trans hp₁)
    obtain rfl : p = p₂ := Except.ok.inj (hp.symm.trans hp₂)
    rw [← hextents]
    exact hok.replacesRest hid hextents hdiv hkept'
  · intro hrest
    refine ⟨p', hrun, hok'.keyed, hok'.covers, fun i s hs => ?_⟩
    rcases Nat.lt_or_ge i reports.length with hi | hi
    · rw [List.getElem?_append_left hi] at hs
      apply hok.kept_old hkept hid hextents hdiv _ hs
      rw [hextents]
      exact hrest p hp
    · have hi' := (List.getElem?_eq_some_iff.1 hs).1
      rw [List.length_append, List.length_singleton] at hi'
      obtain rfl : i = reports.length := by omega
      rw [List.getElem?_concat_length] at hs
      cases hs
      exact hok.kept_new hid hextents hdiv

/-- The map is keyed by the extents and covers the reported addresses after any calls. After every call all
constants are kept if and only if every call replaces the rest of the units it replaces. -/
theorem constants_kept_iff (reports : List (ConstantReport Name)) :
    (∃ p, Profiler.initial.reportConstants reports = .ok p ∧
      KeyedByExtents p.liveObjects.permanents ∧ Covers p.liveObjects.permanents reports) ∧
    ((∀ done, done <+: reports → SharedCorrectly done) ↔
      ∀ done next, done ++ [next] <+: reports → ReplacesRestAfter done next) := by
  refine ⟨?_, ?_⟩
  · obtain ⟨p, hp, hok, -, -⟩ := reportConstants_ok reports
    exact ⟨p, hp, hok.keyed, hok.covers⟩
  · constructor
    · intro hall done next hnext
      have hdone := hall done ((List.prefix_append done [next]).trans hnext)
      exact (sharedCorrectly_concat hdone).1 (hall _ hnext)
    · intro hall done
      induction done using List.reverseRecOn with
      | nil =>
          intro _
          obtain ⟨p, hp, hok, -, -⟩ := reportConstants_ok ([] : List (ConstantReport Name))
          exact ⟨p, hp, hok.keyed, hok.covers, fun i r hr => absurd hr (by simp)⟩
      | append_singleton done next ih =>
          intro hnext
          have hdone := ih ((List.prefix_append done [next]).trans hnext)
          exact (sharedCorrectly_concat hdone).2 (hall done next hnext)

/-- The middle one is cut at the first one. The last one then replaces what is left of it, although the
two only overlap, and the rest stays with the first one, which is smaller. -/
theorem cut_constant_lost : ¬ SharedCorrectly
    [(⟨0, 10, 6, by decide⟩ : ConstantReport ℕ), ⟨1, 5, 10, by decide⟩, ⟨2, 4, 7, by decide⟩] := by
  rintro ⟨p, hp, -, -, hkept⟩
  have hm : p.liveObjects.permanents.map (fun e => (e.1, e.2.id)) = [(⟨4, 10⟩, 2), (⟨10, 16⟩, 0)] := by
    cases hp
    rfl
  have hunit : ∀ e ∈ p.liveObjects.permanents,
      e.1 = ⟨4, 10⟩ ∧ e.2.id = 2 ∨ e.1 = ⟨10, 16⟩ ∧ e.2.id = 0 := by
    intro e he
    have hmem : (e.1, e.2.id) ∈ p.liveObjects.permanents.map fun e => (e.1, e.2.id) :=
      List.mem_map_of_mem he
    rw [hm] at hmem
    simpa using hmem
  rcases hkept 1 ⟨1, 5, 10, by decide⟩ rfl with ⟨e, he, hid, -⟩ | hcov
  · rcases hunit e he with ⟨-, h⟩ | ⟨-, h⟩
    · cases h.symm.trans hid
    · cases h.symm.trans hid
  · obtain ⟨e, he, hea, hlater⟩ := hcov 12 (by decide)
    rcases hunit e he with ⟨h, -⟩ | ⟨-, h⟩
    · rw [h] at hea
      exact absurd hea (by decide)
    · rw [h] at hlater
      rcases hlater with hlater | ⟨r, s, hr, hs, hle⟩
      · exact absurd hlater (by decide)
      · cases hr
        cases hs
        exact absurd hle (by decide)

end Cpf.Profile
