import Cpf.Profile.TableInvariant

/-!
# Constants that share memory

`add_permanent` divides the addresses of overlapping constants. Its loop ends, because every round leaves
fewer constants that overlap the new one. The map keeps disjoint keys, and what the loop does to the
other constants does not depend on the order in which it meets them.
-/

namespace Cpf.Profile

variable {Name : Type}

structure PermanentsOk (m : IntervalMap (AllocationUnit Name)) (constants : List Interval) : Prop where
  wf : m.WF
  keys : ∀ e ∈ m, e.1 = e.2.extents
  covered : ∀ e ∈ m, e.2.type = .constant ∧ ∃ c ∈ constants, WhollyWithin e.1 c

/-- The permanents as long as only constants are reported. -/
structure ConstantsOk (m : IntervalMap (AllocationUnit Name)) : Prop where
  wf : m.WF
  keys : ∀ e ∈ m, e.1 = e.2.extents
  types : ∀ e ∈ m, e.2.type = .constant

/-- A unit that gives its addresses from `low` on to a later one. -/
def chop (low : ℕ) (e : Interval × AllocationUnit Name) : Interval × AllocationUnit Name :=
  if e.1.low < low then
    (⟨e.1.low, min e.1.high low⟩, { e.2 with extents := ⟨e.1.low, min e.1.high low⟩ })
  else e

/-- What the loop for constants does to the map: nothing if the new constant lies within another one.
Otherwise the constants within the new one are gone, one that reaches into it from below is chopped, and
the new one ends where the next one begins. -/
inductive Divided (m : IntervalMap (AllocationUnit Name)) (au : AllocationUnit Name) :
    IntervalMap (AllocationUnit Name) → Prop
  | within {e : Interval × AllocationUnit Name} (he : e ∈ m) (hin : WhollyWithin au.extents e.1) :
      Divided m au m
  | inserted {m' : IntervalMap (AllocationUnit Name)} {high : ℕ} (hok : ConstantsOk m')
      (houtside : ∀ e ∈ m, ¬ WhollyWithin au.extents e.1)
      (hlow : au.extents.low < high) (hhigh : high ≤ au.extents.high)
      (hend : high = au.extents.high ∨ ∃ e ∈ m, e.1.low = high ∧ ¬ WhollyWithin e.1 au.extents)
      (hmem : ∀ f, f ∈ m' ↔
        f = (⟨au.extents.low, high⟩, { au with extents := ⟨au.extents.low, high⟩ }) ∨
          ∃ e ∈ m, ¬ WhollyWithin e.1 au.extents ∧ f = chop au.extents.low e) : Divided m au m'

variable {m m' : IntervalMap (AllocationUnit Name)} {k k' : Interval} {constants : List Interval}
  {t : AllocationUnitTable Name} {au : AllocationUnit Name} {e old : Interval × AllocationUnit Name}

/-! ### One round -/

theorem chop_of_before {low : ℕ} (h : ConstantsOk m) (he : e ∈ m) (hb : e.1.high ≤ low) :
    chop low e = e := by
  unfold chop
  split_ifs with hlow
  · rw [min_eq_left hb]
    refine Prod.ext rfl ?_
    dsimp only
    rw [h.keys e he]
  · rfl

theorem chop_of_not_before {low : ℕ} (hb : low ≤ e.1.low) : chop low e = e := if_neg (not_lt.2 hb)

theorem chop_fst_within {low : ℕ} : WhollyWithin (chop low e).1 e.1 := by
  unfold chop
  split_ifs
  · exact ⟨le_refl _, min_le_left _ _⟩
  · exact ⟨le_refl _, le_refl _⟩

theorem ConstantsOk.eraseFound (h : ConstantsOk m) (hfind : m.find k = some old) :
    ConstantsOk (m.eraseFound k) ∧ ∀ e, e ∈ m.eraseFound k ↔ e ∈ m ∧ e ≠ old := by
  obtain ⟨hwf, hiff⟩ := h.wf.eraseFound hfind
  exact ⟨⟨hwf, fun e he => h.keys e ((hiff e).1 he).1, fun e he => h.types e ((hiff e).1 he).1⟩, hiff⟩

theorem ConstantsOk.assign (h : ConstantsOk m) (hsize : au.extents.low < au.extents.high)
    (hall : ∀ e ∈ m, e.1.Disjoint au.extents) (htype : au.type = .constant) :
    ConstantsOk (m.assign au.extents au) ∧
      ∀ e, e ∈ m.assign au.extents au ↔ e = (au.extents, au) ∨ e ∈ m := by
  obtain ⟨hwf, hiff⟩ := h.wf.assign (v := au) hsize hall
  refine ⟨⟨hwf, fun e he => ?_, fun e he => ?_⟩, hiff⟩
  · rcases (hiff e).1 he with rfl | he
    · rfl
    · exact h.keys e he
  · rcases (hiff e).1 he with rfl | he
    · exact htype
    · exact h.types e he

theorem Divided.of_free (h : ConstantsOk m) (hsize : au.extents.low < au.extents.high)
    (htype : au.type = .constant) (hfind : m.find au.extents = none) :
    Divided m au (m.assign au.extents au) := by
  have hall := h.wf.find_eq_none_iff.1 hfind
  obtain ⟨hok, hiff⟩ := h.assign hsize hall htype
  have hapart : ∀ e ∈ m, ¬ WhollyWithin e.1 au.extents ∧ chop au.extents.low e = e := by
    intro e he
    have hesize := h.wf.nonempty e he
    have hdisjoint := hall e he
    unfold Interval.Disjoint Interval.Before at hdisjoint
    refine ⟨fun hin => ?_, ?_⟩
    · unfold WhollyWithin at hin
      omega
    · rcases hdisjoint with hb | hb
      · exact chop_of_before h he hb
      · exact chop_of_not_before (hsize.le.trans hb)
  refine .inserted hok (fun e he hin => ?_) hsize (le_refl _) (Or.inl rfl) fun f => ?_
  · have hdisjoint := hall e he
    unfold Interval.Disjoint Interval.Before at hdisjoint
    unfold WhollyWithin at hin
    have hesize := h.wf.nonempty e he
    omega
  · rw [hiff]
    refine or_congr_right ⟨fun hf => ?_, ?_⟩
    · exact ⟨f, hf, (hapart f hf).1, (hapart f hf).2.symm⟩
    · rintro ⟨e, he, -, rfl⟩
      rw [(hapart e he).2]
      exact he

theorem Divided.of_erase (h : ConstantsOk m) (hfind : m.find au.extents = some old)
    (hin : ¬ WhollyWithin au.extents old.1) (hout : WhollyWithin old.1 au.extents)
    (hdiv : Divided (m.eraseFound au.extents) au m') : Divided m au m' := by
  obtain ⟨hold, -⟩ := h.wf.mem_of_find hfind
  have holdsize := h.wf.nonempty old hold
  obtain ⟨-, hiff⟩ := h.eraseFound hfind
  cases hdiv with
  | @within e he hwithin =>
      exfalso
      obtain ⟨hem, hne⟩ := (hiff e).1 he
      apply hne
      apply h.wf.eq_of_overlap hem hold
      unfold WhollyWithin at hout hwithin
      unfold Interval.Disjoint Interval.Before
      omega
  | inserted hok houtside hlow hhigh hend hmem =>
      refine .inserted hok (fun e he => ?_) hlow hhigh ?_ fun f => ?_
      · by_cases heq : e = old
        · rw [heq]
          exact hin
        · exact houtside e ((hiff e).2 ⟨he, heq⟩)
      · refine hend.imp_right ?_
        rintro ⟨e, he, hrest⟩
        exact ⟨e, ((hiff e).1 he).1, hrest⟩
      · rw [hmem]
        refine or_congr_right ⟨?_, ?_⟩
        · rintro ⟨e, he, hrest⟩
          exact ⟨e, ((hiff e).1 he).1, hrest⟩
        · rintro ⟨e, he, hnot, hf⟩
          refine ⟨e, (hiff e).2 ⟨he, ?_⟩, hnot, hf⟩
          rintro rfl
          exact hnot hout

/-- The new constant ends where the one that is found begins. -/
theorem Divided.of_cut (h : ConstantsOk m) (hfind : m.find au.extents = some old)
    (hlow : au.extents.low < old.1.low) (hout : ¬ WhollyWithin old.1 au.extents)
    (hdiv : Divided m { au with extents := ⟨au.extents.low, old.1.low⟩ } m') : Divided m au m' := by
  obtain ⟨hold, hover⟩ := h.wf.mem_of_find hfind
  have holdsize := h.wf.nonempty old hold
  have hends : old.1.low < au.extents.high ∧ au.extents.high < old.1.high := by
    unfold Interval.Disjoint Interval.Before at hover
    unfold WhollyWithin at hout
    omega
  have hsame : ∀ e ∈ m, WhollyWithin e.1 ⟨au.extents.low, old.1.low⟩ ↔ WhollyWithin e.1 au.extents := by
    intro e he
    have hesize := h.wf.nonempty e he
    unfold WhollyWithin
    dsimp only
    refine and_congr_right fun hle => ⟨fun hhigh => by omega, fun hhigh => ?_⟩
    by_contra hnot
    have heq : e = old := by
      apply h.wf.eq_of_overlap he hold
      unfold Interval.Disjoint Interval.Before
      omega
    rw [heq] at hhigh
    omega
  cases hdiv with
  | @within e he hwithin =>
      exfalso
      have hesize := h.wf.nonempty e he
      unfold WhollyWithin at hwithin
      dsimp only at hwithin
      have hne : e ≠ old := by
        rintro rfl
        omega
      have hbefore := h.wf.before_of_find hfind he (by
        unfold Interval.Disjoint Interval.Before
        omega) hne
      unfold Interval.Before at hbefore
      omega
  | inserted hok houtside hnew hhigh hend hmem =>
      dsimp only at hnew hhigh hend hmem
      refine .inserted hok (fun e he hin => ?_) hnew (hhigh.trans hends.1.le) (Or.inr ?_) fun f => ?_
      · apply houtside e he
        unfold WhollyWithin at *
        dsimp only
        omega
      · rcases hend with rfl | ⟨e, he, hehigh, hnot⟩
        · exact ⟨old, hold, rfl, hout⟩
        · exact ⟨e, he, hehigh, fun hin => hnot ((hsame e he).2 hin)⟩
      · rw [hmem]
        refine or_congr_right (exists_congr fun e => and_congr_right fun he => ?_)
        rw [hsame e he]

/-- The constant that is found ends where the new one begins. -/
theorem Divided.of_chop {m₁ : IntervalMap (AllocationUnit Name)} (h : ConstantsOk m)
    (hfind : m.find au.extents = some old) (hin : ¬ WhollyWithin au.extents old.1)
    (hlow : old.1.low < au.extents.low)
    (hsize : au.extents.low < au.extents.high)
    (hiff : ∀ e, e ∈ m₁ ↔ e = chop au.extents.low old ∨ e ∈ m ∧ e ≠ old)
    (hdiv : Divided m₁ au m') : Divided m au m' := by
  obtain ⟨hold, hover⟩ := h.wf.mem_of_find hfind
  have hkept : ¬ WhollyWithin old.1 au.extents := fun hout => not_le.2 hlow hout.1
  have hchop : (chop au.extents.low old).1 = ⟨old.1.low, au.extents.low⟩ := by
    unfold Interval.Disjoint Interval.Before at hover
    rw [chop, if_pos hlow, min_eq_right (by omega)]
  have hagain : chop au.extents.low (chop au.extents.low old) = chop au.extents.low old := by
    rw [chop.eq_def _ (chop au.extents.low old), hchop, if_pos hlow, min_self]
    rw [chop, if_pos hlow, min_eq_right]
    unfold Interval.Disjoint Interval.Before at hover
    omega
  have holdhigh : au.extents.low < old.1.high := by
    unfold Interval.Disjoint Interval.Before at hover
    omega
  cases hdiv with
  | @within e he hwithin =>
      exfalso
      unfold WhollyWithin at hwithin
      rcases (hiff e).1 he with rfl | ⟨hem, hne⟩
      · rw [hchop] at hwithin
        unfold Interval.Disjoint Interval.Before at hover
        dsimp only at hwithin
        omega
      · apply hne
        apply h.wf.eq_of_overlap hem hold
        unfold Interval.Disjoint Interval.Before at *
        omega
  | inserted hok houtside hnew hhigh hend hmem =>
      refine .inserted hok (fun e he => ?_) hnew hhigh ?_ fun f => ?_
      · by_cases heq : e = old
        · rw [heq]
          exact hin
        · exact houtside e ((hiff e).2 (Or.inr ⟨he, heq⟩))
      · refine hend.imp_right ?_
        rintro ⟨e, he, hehigh, hnot⟩
        rcases (hiff e).1 he with rfl | ⟨hem, -⟩
        · rw [hchop] at hehigh
          dsimp only at hehigh
          omega
        · exact ⟨e, hem, hehigh, hnot⟩
      · rw [hmem]
        refine or_congr_right ⟨?_, ?_⟩
        · rintro ⟨e, he, hnot, rfl⟩
          rcases (hiff e).1 he with rfl | ⟨hem, -⟩
          · exact ⟨old, hold, hkept, hagain⟩
          · exact ⟨e, hem, hnot, rfl⟩
        · rintro ⟨e, he, hnot, rfl⟩
          by_cases heq : e = old
          · rw [heq]
            refine ⟨chop au.extents.low old, (hiff _).2 (Or.inl rfl), ?_, hagain.symm⟩
            rw [hchop]
            exact fun hwithin => not_le.2 hlow hwithin.1
          · exact ⟨e, (hiff e).2 (Or.inr ⟨he, heq⟩), hnot, rfl⟩

/-! ### The loop -/

variable [DecidableEq Name]

def overlapping (m : IntervalMap (AllocationUnit Name)) (k : Interval) :
    Finset (Interval × AllocationUnit Name) := m.toFinset.filter fun e => ¬ e.1.Disjoint k

theorem mem_overlapping : e ∈ overlapping m k ↔ e ∈ m ∧ ¬ e.1.Disjoint k := by
  rw [overlapping, Finset.mem_filter, List.mem_toFinset]

theorem overlapping_card_lt (hold : old ∈ m) (hover : ¬ old.1.Disjoint k)
    (hsub : ∀ e ∈ m', ¬ e.1.Disjoint k' → e ∈ m ∧ ¬ e.1.Disjoint k)
    (hgone : old ∈ m' → old.1.Disjoint k') : (overlapping m' k').card < (overlapping m k).card := by
  apply Finset.card_lt_card
  refine ⟨fun e he => ?_, fun hsup => ?_⟩
  · obtain ⟨hmem, hnot⟩ := mem_overlapping.1 he
    exact mem_overlapping.2 (hsub e hmem hnot)
  · obtain ⟨hmem, hnot⟩ := mem_overlapping.1 (hsup (mem_overlapping.2 ⟨hold, hover⟩))
    exact hnot (hgone hmem)

theorem ConstantsOk.splitConstants {fuel : ℕ} (h : ConstantsOk t.permanents)
    (hsize : au.extents.low < au.extents.high) (htype : au.type = .constant)
    (hfuel : (overlapping t.permanents au.extents).card < fuel) :
    ∃ m, AllocationUnitTable.splitConstants fuel t au = .ok { t with permanents := m } ∧
      Divided t.permanents au m := by
  induction fuel generalizing t au with
  | zero => exact absurd hfuel (Nat.not_lt_zero _)
  | succ fuel ih =>
      unfold AllocationUnitTable.splitConstants
      cases hfind : t.permanents.find au.extents with
      | none => exact ⟨_, rfl, Divided.of_free h hsize htype hfind⟩
      | some old =>
          obtain ⟨hold, hover⟩ := h.wf.mem_of_find hfind
          have hkey := h.keys old hold
          have holdsize := h.wf.nonempty old hold
          obtain ⟨herase, hiff⟩ := h.eraseFound hfind
          dsimp only
          rw [if_neg (fun hne => hne (h.types old hold)), ← hkey]
          by_cases hin : WhollyWithin au.extents old.1
          · rw [if_pos hin]
            exact ⟨t.permanents, rfl, .within hold hin⟩
          rw [if_neg hin]
          by_cases hout : WhollyWithin old.1 au.extents
          · rw [if_pos hout]
            obtain ⟨m, hrun, hdiv⟩ := @ih
              { t with permanents := t.permanents.eraseFound au.extents } au herase hsize htype (by
                apply (Nat.lt_succ_iff.1 hfuel).trans_lt'
                apply overlapping_card_lt hold hover
                · exact fun e he hnot => ⟨((hiff e).1 he).1, hnot⟩
                · exact fun hmem => absurd rfl ((hiff old).1 hmem).2)
            exact ⟨m, hrun, hdiv.of_erase h hfind hin hout⟩
          rw [if_neg hout]
          by_cases hlow : au.extents.low < old.1.low
          · rw [if_pos hlow]
            obtain ⟨m, hrun, hdiv⟩ := @ih t { au with extents := ⟨au.extents.low, old.1.low⟩ } h hlow
              htype (by
                apply (Nat.lt_succ_iff.1 hfuel).trans_lt'
                apply overlapping_card_lt hold hover
                · intro e he hnot
                  refine ⟨he, fun hdisjoint => hnot ?_⟩
                  unfold WhollyWithin at hout
                  unfold Interval.Disjoint Interval.Before at *
                  dsimp only
                  omega
                · exact fun _ => Or.inr (le_refl _))
            exact ⟨m, hrun, hdiv.of_cut h hfind hlow hout⟩
          · rw [if_neg hlow]
            have hchop : old.1.low < au.extents.low := by
              unfold WhollyWithin at hin hout
              omega
            have hchopped : chop au.extents.low old = (⟨old.1.low, au.extents.low⟩,
                { old.2 with extents := ⟨old.1.low, au.extents.low⟩ }) := by
              unfold Interval.Disjoint Interval.Before at hover
              rw [chop, if_pos hchop, min_eq_right (by omega)]
            have hfree : ∀ e ∈ t.permanents.eraseFound au.extents,
                e.1.Disjoint ⟨old.1.low, au.extents.low⟩ := by
              intro e he
              obtain ⟨hemem, hne⟩ := (hiff e).1 he
              by_contra hnot
              apply hne
              apply h.wf.eq_of_overlap hemem hold
              unfold Interval.Disjoint Interval.Before at *
              dsimp only at hnot
              omega
            obtain ⟨hassign, hiff'⟩ := @ConstantsOk.assign Name _
              { old.2 with extents := ⟨old.1.low, au.extents.low⟩ } herase hchop hfree (h.types old hold)
            obtain ⟨m, hrun, hdiv⟩ := @ih
              { t with permanents := (t.permanents.eraseFound au.extents).assign _ _ } au hassign
                hsize htype (by
              apply (Nat.lt_succ_iff.1 hfuel).trans_lt'
              apply overlapping_card_lt hold hover
              · intro e he hnot
                rcases (hiff' e).1 he with rfl | he
                · exact absurd (Or.inl (le_refl _)) hnot
                · exact ⟨((hiff e).1 he).1, hnot⟩
              · intro hmem
                rcases (hiff' old).1 hmem with heq | hmem
                · rw [heq]
                  exact Or.inl (le_refl _)
                · exact absurd rfl ((hiff old).1 hmem).2)
            refine ⟨m, hrun, hdiv.of_chop h hfind hin hchop hsize fun e => ?_⟩
            rw [hiff', hiff, hchopped]

theorem PermanentsOk.splitConstants {fuel : ℕ} (h : PermanentsOk t.permanents constants)
    (hsize : au.extents.low < au.extents.high) (htype : au.type = .constant)
    (hcover : ∃ c ∈ constants, WhollyWithin au.extents c)
    (hfuel : (overlapping t.permanents au.extents).card < fuel) :
    ∃ m, AllocationUnitTable.splitConstants fuel t au = .ok { t with permanents := m } ∧
      PermanentsOk m constants := by
  have hok : ConstantsOk t.permanents := ⟨h.wf, h.keys, fun e he => (h.covered e he).1⟩
  obtain ⟨m, hrun, hdiv⟩ := hok.splitConstants hsize htype hfuel
  refine ⟨m, hrun, ?_⟩
  cases hdiv with
  | within => exact h
  | inserted hok' houtside hlow hhigh hend hmem =>
      refine ⟨hok'.wf, hok'.keys, fun f hf => ⟨hok'.types f hf, ?_⟩⟩
      rcases (hmem f).1 hf with rfl | ⟨e, he, -, rfl⟩
      · obtain ⟨c, hc, hcin⟩ := hcover
        exact ⟨c, hc, hcin.1, hhigh.trans hcin.2⟩
      · obtain ⟨-, c, hc, hcin⟩ := h.covered e he
        have hwithin := @chop_fst_within Name e au.extents.low
        exact ⟨c, hc, hcin.1.trans hwithin.1, hwithin.2.trans hcin.2⟩

end Cpf.Profile
