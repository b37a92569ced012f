import Cpf.Executive.ArgMax

/-!
# The earliest maximum during an invocation

A register reduction of a payload and its float, seen as a collection of ranks. The heaps of the
workers and checkpoints hold the payload of the iteration that their rank names, and so does the
heap of the main process, although it does not keep the iteration.
-/

namespace Cpf.Executive
namespace ReduxTeam

open Collect (Greatest)

variable {F : Type*} [LinearOrder F] {n : ℕ} {r : ReduxList} {lowest : F} {loop : ReduxLoop F n}
  {info key : ReduxInfo} {as cs ds : List ReduxInfo}

def Raises (loop : ReduxLoop F n) (key : ReduxInfo) (i : ℕ) (p : ReduxWorker F) : Prop :=
  ∃ v ∈ loop.vals i key.au 0, v > p.regs.f32 key.au 0

instance (i : ℕ) (p : ReduxWorker F) : Decidable (Raises loop key i p) :=
  inferInstanceAs (Decidable (∃ v ∈ loop.vals i key.au 0, v > p.regs.f32 key.au 0))

section Iterate

variable (h : Split r info key as cs ds)

include h

theorem Split.info_mem : info ∈ r.infos := by
  rw [h.infos]
  exact List.mem_append_right _ List.mem_cons_self

theorem Split.key_mem : key ∈ r.infos := by
  rw [h.infos]
  exact List.mem_append_right _ (List.mem_cons_of_mem _
    (List.mem_append_right _ List.mem_cons_self))

theorem Split.key_dep : key.dep = none := by
  cases hdep : key.dep with
  | none => rfl
  | some k =>
      have hmax := (key.dep_ok k hdep).1
      rw [h.keyType] at hmax
      cases hmax

theorem isKey_iff {au : ℕ} : r.IsKey au = true ↔ au = key.au := by
  rw [ReduxList.IsKey, List.any_eq_true]
  constructor
  · rintro ⟨o, ho, hdep⟩
    exact r.oneKey o ho info h.info_mem au (of_decide_eq_true hdep) key.au h.dep
  · rintro rfl
    exact ⟨info, h.info_mem, decide_eq_true h.dep⟩

/-- The reductions of other objects do not change the last update of a worker. -/
theorem foldl_updateWorker_lastUp (loop : ReduxLoop F n) {is : List ReduxInfo}
    (his : ∀ o ∈ is, key.au ≠ o.au) (i : ℕ)
    (p : ReduxWorker F) : (is.foldl (r.updateWorker loop i) p).lastUp = p.lastUp := by
  induction is generalizing p with
  | nil => rfl
  | cons o is ih =>
      rw [List.foldl_cons, ih (fun o' ho' => his o' (List.mem_cons_of_mem _ ho'))]
      have hunit : ∀ q : ReduxSide F, (r.updateUnit loop i o q).lastUp = q.lastUp := by
        intro q
        have hkey : ¬ r.IsKey o.au = true :=
          fun hk => his o List.mem_cons_self ((isKey_iff h).1 hk).symm
        unfold ReduxList.updateUnit
        cases o.type with
        | addI32 => rfl
        | maxU64 =>
            cases o.dep with
            | none => rfl
            | some k =>
                dsimp only
                split_ifs <;> rfl
        | maxF32 => exact if_neg (fun hc => hkey hc.1)
      rw [ReduxList.updateWorker]
      split_ifs
      · exact hunit _
      · exact hunit _

/-- What an iteration does to the pair in the registers. -/
theorem iterate_pair (loop : ReduxLoop F n) (hreg : info.reg = true) (i : ℕ) (p : ReduxWorker F) :
    (r.iterate loop i p).regs.u64 info.au 0 =
        (if Raises loop key i p then loop.payloads i info.au else p.regs.u64 info.au 0) ∧
      (r.iterate loop i p).regs.f32 key.au 0 =
        (match loop.vals i key.au 0 with
          | some v => max (p.regs.f32 key.au 0) v
          | none => p.regs.f32 key.au 0) ∧
      (r.iterate loop i p).lastUp = if Raises loop key i p then i else p.lastUp := by
  have hkreg : key.reg = true := h.keyReg.trans hreg
  obtain ⟨p₁, hp₁⟩ : ∃ q, q = as.foldl (r.updateWorker loop i) p := ⟨_, rfl⟩
  obtain ⟨p₂, hp₂⟩ : ∃ q, q = r.updateWorker loop i p₁ info := ⟨_, rfl⟩
  obtain ⟨p₃, hp₃⟩ : ∃ q, q = cs.foldl (r.updateWorker loop i) p₂ := ⟨_, rfl⟩
  obtain ⟨p₄, hp₄⟩ : ∃ q, q = r.updateWorker loop i p₃ key := ⟨_, rfl⟩
  have hiter : r.iterate loop i p = ds.foldl (r.updateWorker loop i) p₄ := by
    rw [ReduxList.iterate, h.infos, List.foldl_append, List.foldl_cons, List.foldl_append,
      List.foldl_cons, hp₄, hp₃, hp₂, hp₁]
  have hinfo₁ := (foldl_updateWorker_sameAt r loop
    (fun o ho => (h.before o ho).1) i p).1
  have hkey₁ := (foldl_updateWorker_sameAt r loop
    (fun o ho => (h.before o ho).2) i p).1
  have hinfo₃ := (foldl_updateWorker_sameAt r loop
    (fun o ho => (h.between o ho).1) i p₂).1
  have hkey₃ := (foldl_updateWorker_sameAt r loop
    (fun o ho => (h.between o ho).2) i p₂).1
  have hinfo₅ := (foldl_updateWorker_sameAt r loop
    (fun o ho => (h.behind o ho).1) i p₄).1
  have hkey₅ := (foldl_updateWorker_sameAt r loop
    (fun o ho => (h.behind o ho).2) i p₄).1
  have hlast₁ := foldl_updateWorker_lastUp h loop (fun o ho => (h.before o ho).2) i p
  have hlast₃ := foldl_updateWorker_lastUp h loop (fun o ho => (h.between o ho).2) i p₂
  have hlast₅ := foldl_updateWorker_lastUp h loop (fun o ho => (h.behind o ho).2) i p₄
  rw [← hp₁] at hinfo₁ hkey₁ hlast₁
  rw [← hp₃] at hinfo₃ hkey₃ hlast₃
  rw [← hiter] at hinfo₅ hkey₅ hlast₅
  -- The payload looks at the float before it is updated.
  have hraise : Raises loop key i p₁ ↔ Raises loop key i p := by
    unfold Raises
    rw [hkey₁.2.2]
  have hstep₂ : p₂.regs = (r.updateUnit loop i info ⟨p₁.regs, p₁.lastUp⟩).mem ∧
      p₂.lastUp = p₁.lastUp := by
    rw [hp₂, ReduxList.updateWorker, if_pos hreg]
    refine ⟨rfl, ?_⟩
    simp only [ReduxList.updateUnit, h.type, h.dep]
    split_ifs <;> rfl
  have hpay₂ : p₂.regs.u64 info.au 0 =
      if Raises loop key i p then loop.payloads i info.au else p.regs.u64 info.au 0 := by
    rw [hstep₂.1]
    simp only [ReduxList.updateUnit, h.type, h.dep]
    by_cases hr : Raises loop key i p
    · rw [if_pos hr, if_pos (show ∃ v ∈ loop.vals i key.au 0, v > p₁.regs.f32 key.au 0 from
        hraise.2 hr)]
      simp only [ReduxMem.setU64, Function.update_self]
    · rw [if_neg hr, if_neg (show ¬ ∃ v ∈ loop.vals i key.au 0, v > p₁.regs.f32 key.au 0 from
        fun hc => hr (hraise.1 hc)), ← hinfo₁.2.1]
  have hkey₂ : p₂.regs.f32 key.au 0 = p.regs.f32 key.au 0 := by
    rw [hstep₂.1, (updateUnit_sameAt h.ne.symm i _).2.2, hkey₁.2.2]
  have hkey₃' : p₃.regs.f32 key.au 0 = p.regs.f32 key.au 0 := by rw [hkey₃.2.2, hkey₂]
  have hstep₄ : p₄.regs = (r.updateUnit loop i key ⟨p₃.regs, p₃.lastUp⟩).mem ∧
      p₄.lastUp = (r.updateUnit loop i key ⟨p₃.regs, p₃.lastUp⟩).lastUp := by
    rw [hp₄, ReduxList.updateWorker, if_pos hkreg]
    exact ⟨rfl, rfl⟩
  refine ⟨?_, ?_, ?_⟩
  · rw [hinfo₅.2.1, hstep₄.1, (updateUnit_sameAt h.ne i _).2.1, hinfo₃.2.1, hpay₂]
  · rw [hkey₅.2.2, hstep₄.1]
    cases hvals : loop.vals i key.au 0 <;>
      simp only [ReduxList.updateUnit, h.keyType, h.keyElems, ReduxMem.setF32, Function.update_self,
        Nat.one_pos, if_true, hkey₃', hvals]
  · rw [hlast₅, hstep₄.2]
    simp only [ReduxList.updateUnit, h.keyType]
    rw [hkey₃', hlast₃, hstep₂.2, hlast₁]
    by_cases hr : Raises loop key i p
    · rw [if_pos hr, if_pos ⟨(isKey_iff h).2 rfl, hr⟩]
    · rw [if_neg hr, if_neg (fun hc => hr hc.2)]

omit [LinearOrder F] in
theorem source_pair (hreg : info.reg = true) (p : ReduxWorker F) :
    payload info (source r p) = p.regs.u64 info.au 0 ∧
      float key (source r p) = p.regs.f32 key.au 0 := by
  have helems := (info.dep_ok key.au h.dep).2
  constructor
  · obtain ⟨m, _, hsrc⟩ := source_at h.info_mem p
    rw [if_pos hreg] at hsrc
    rw [payload, hsrc.2.1]
    simp only [ReduxInfo.storeRegister, h.type, ReduxMem.setU64, Function.update_self, helems,
      Nat.one_pos, if_true]
  · obtain ⟨m, _, hsrc⟩ := source_at h.key_mem p
    rw [if_pos (h.keyReg.trans hreg)] at hsrc
    rw [float, hsrc.2.2]
    simp only [ReduxInfo.storeRegister, h.keyType, ReduxMem.setF32, Function.update_self,
      h.keyElems, Nat.one_pos, if_true]

omit [LinearOrder F] in
theorem initialize_float (hreg : info.reg = true) (combine : Bool) (m : ReduxMem F) :
    (r.initializeCheckpointRedux lowest combine m).f32 key.au 0 = lowest := by
  obtain ⟨m', _, hinit⟩ :=
    ReduxList.initializeCheckpointRedux_at h.key_mem h.key_dep lowest combine m
  rw [h.keyReg.trans hreg, Bool.not_true, Bool.and_false, if_neg Bool.false_ne_true] at hinit
  rw [hinit.2.2]
  simp only [ReduxInfo.initializeReductions, h.keyType, h.keyElems, ReduxMem.setF32,
    Function.update_self, if_true, Nat.one_pos]

end Iterate

/-- A heap holds the payload of the main process until its float has been raised, and then that of
the iteration of its last update. -/
structure PairOk (loop : ReduxLoop F n) (info key : ReduxInfo) (main q : ReduxSide F) : Prop where
  le : float key main ≤ float key q
  first : ¬ float key main < float key q → payload info q = payload info main
  raised : float key main < float key q → payload info q = loop.payloads q.lastUp info.au

def pairView (r : ReduxList) (loop : ReduxLoop F n) (info key : ReduxInfo) (main : ReduxSide F) :
    View F (Greatest (WithBot (F ×ₗ ℕᵒᵈ))) where
  reg := true
  value := fun q => ⟨rank (float key main) (float key q) q.lastUp⟩
  amount := fun i => ⟨(loop.vals i key.au 0).elim ⊥ (fun v => rank (float key main) v i)⟩
  Ok := PairOk loop info key main
  WorkerOk := fun p => PairOk loop info key main ⟨p.regs, p.lastUp⟩ ∧
    (float key main < p.regs.f32 key.au 0 → p.lastUp < p.next)
  Allowed := Undisturbed r info key.au

/-- The pair after a distill that the source wins or loses. -/
theorem pair_of_distill {main src dst q : ReduxSide F}
    (hsrc : PairOk loop info key main src)
    (hdst : ¬ Beats (float key src) (float key dst) src.lastUp dst.lastUp →
      PairOk loop info key main dst)
    (hfloat : float key q = max (float key dst) (float key src))
    (hpay : payload info q = if Beats (float key src) (float key dst) src.lastUp dst.lastUp then
      payload info src else payload info dst)
    (hlast : q.lastUp = if Beats (float key src) (float key dst) src.lastUp dst.lastUp then
      src.lastUp else dst.lastUp) :
    max (rank (float key main) (float key dst) dst.lastUp)
        (rank (float key main) (float key src) src.lastUp) =
      rank (float key main) (float key q) q.lastUp ∧ PairOk loop info key main q := by
  by_cases hbeats : Beats (float key src) (float key dst) src.lastUp dst.lastUp
  · rw [if_pos hbeats] at hpay hlast
    have hmax : float key q = float key src := by
      rw [hfloat]
      rcases hbeats with hlt | ⟨heq, _⟩
      · exact max_eq_right hlt.le
      · rw [heq, max_self]
    rw [hmax, hlast, max_eq_right (rank_le_of_beats hbeats)]
    refine ⟨rfl, ?_, ?_, ?_⟩
    · rw [hmax]
      exact hsrc.le
    · rw [hmax, hpay]
      exact hsrc.first
    · rw [hmax, hpay, hlast]
      exact hsrc.raised
  · rw [if_neg hbeats] at hpay hlast
    have hmax : float key q = float key dst := by
      rw [hfloat]
      exact max_eq_left (not_lt.1 (fun hlt => hbeats (.inl hlt)))
    rw [hmax, hlast, max_eq_left (rank_le_of_not_beats hbeats)]
    refine ⟨rfl, ?_, ?_, ?_⟩
    · rw [hmax]
      exact (hdst hbeats).le
    · rw [hmax, hpay]
      exact (hdst hbeats).first
    · rw [hmax, hpay, hlast]
      exact (hdst hbeats).raised

theorem pairView_run (h : Split r info key as cs ds) (hreg : info.reg = true)
    {main : ReduxSide F} (i : ℕ) (p : ReduxWorker F)
    (hp : (pairView r loop info key main).WorkerOk p) (hnext : p.next ≤ i) :
    (pairView r loop info key main).value (updated true (r.iterate loop i p)) =
        (pairView r loop info key main).value (updated true p) +
          (pairView r loop info key main).amount i ∧
      (pairView r loop info key main).WorkerOk { r.iterate loop i p with next := i + 1 } := by
  obtain ⟨hpay, hfloat, hlast⟩ := iterate_pair h loop hreg i p
  obtain ⟨hok, hold⟩ := hp
  have hgoal : ∀ x l, x = (r.iterate loop i p).regs.f32 key.au 0 → l = (r.iterate loop i p).lastUp →
      rank (float key main) x l = max (rank (float key main) (p.regs.f32 key.au 0) p.lastUp)
        ((loop.vals i key.au 0).elim ⊥ (fun v => rank (float key main) v i)) →
      (pairView r loop info key main).value (updated true (r.iterate loop i p)) =
        (pairView r loop info key main).value (updated true p) +
          (pairView r loop info key main).amount i := by
    rintro x l rfl rfl hr
    exact congrArg Greatest.mk hr
  by_cases hr : Raises loop key i p
  · rw [if_pos hr] at hpay hlast
    obtain ⟨v, hv, hgt⟩ := hr
    rw [hv] at hfloat hgoal
    have hnew : (r.iterate loop i p).regs.f32 key.au 0 = v := hfloat.trans (max_eq_right hgt.le)
    have hraised : float key main < v := lt_of_le_of_lt hok.le hgt
    refine ⟨hgoal v i hnew.symm hlast.symm ?_, ⟨?_, fun hc => ?_, fun _ => ?_⟩, fun _ => ?_⟩
    · exact (max_eq_right (rank_le_of_beats (.inl hgt))).symm
    · change _ ≤ (r.iterate loop i p).regs.f32 key.au 0
      rw [hnew]
      exact hraised.le
    · exact absurd (show float key main < (r.iterate loop i p).regs.f32 key.au 0 from
        hnew ▸ hraised) hc
    · change (r.iterate loop i p).regs.u64 info.au 0 =
        loop.payloads (r.iterate loop i p).lastUp info.au
      rw [hpay, hlast]
    · change (r.iterate loop i p).lastUp < i + 1
      rw [hlast]
      exact Nat.lt_succ_self i
  · rw [if_neg hr] at hpay hlast
    have hsame : (r.iterate loop i p).regs.f32 key.au 0 = p.regs.f32 key.au 0 := by
      rw [hfloat]
      cases hv : loop.vals i key.au 0 with
      | none => rfl
      | some v => exact max_eq_left (not_lt.1 (fun hlt => hr ⟨v, hv, hlt⟩))
    refine ⟨hgoal _ _ hsame.symm hlast.symm (Eq.symm ?_), ⟨?_, ?_, ?_⟩, fun hlt => ?_⟩
    · cases hv : loop.vals i key.au 0 with
      | none => exact max_bot_right _
      | some v =>
          refine max_eq_left ?_
          change rank (float key main) v i ≤ _
          by_cases hraised : float key main < v
          · refine rank_le_of_not_beats (not_or.2 ⟨fun hlt => hr ⟨v, hv, hlt⟩, ?_⟩)
            rintro ⟨rfl, hlt⟩
            exact absurd (lt_of_lt_of_le (hold hraised) hnext) (not_lt.2 hlt.le)
          · rw [rank_of_not_lt hraised]
            exact bot_le
    · change _ ≤ (r.iterate loop i p).regs.f32 key.au 0
      rw [hsame]
      exact hok.le
    · change ¬ _ < (r.iterate loop i p).regs.f32 key.au 0 →
        (r.iterate loop i p).regs.u64 info.au 0 = _
      rw [hsame, hpay]
      exact hok.first
    · change _ < (r.iterate loop i p).regs.f32 key.au 0 →
        (r.iterate loop i p).regs.u64 info.au 0 = loop.payloads (r.iterate loop i p).lastUp info.au
      rw [hsame, hpay, hlast]
      exact hok.raised
    · change (r.iterate loop i p).lastUp < i + 1
      have hlt' : float key main < p.regs.f32 key.au 0 := hsame ▸ hlt
      rw [hlast]
      exact (lt_of_lt_of_le (hold hlt') hnext).trans (Nat.lt_succ_self i)

theorem pairView_laws (h : Split r info key as cs ds) (hreg : info.reg = true)
    {main : ReduxSide F} (hlow : lowest < float key main) :
    (pairView r loop info key main).Laws r lowest loop where
  run := fun i p hp hnext => pairView_run h hreg i p hp hnext
  source := fun p hp => by
    obtain ⟨hpay, hfloat⟩ := source_pair h hreg p
    refine ⟨?_, ?_, ?_, ?_⟩
    · change Greatest.mk (rank _ (float key (source r p)) _) = Greatest.mk (rank _ _ _)
      rw [hfloat]
      rfl
    · rw [hfloat]
      exact hp.1.le
    · rw [hfloat, hpay]
      exact hp.1.first
    · rw [hfloat, hpay]
      exact hp.1.raised
  rest := fun p dst hp => hp
  lastUp := fun hf => absurd hf (by simp [pairView])
  first := fun src c hsrc hc hun => by
    have hlowest : float key (prepared r lowest c) = lowest := by
      rw [prepared, if_pos hc]
      exact initialize_float h hreg false _
    have hbeats : Beats (float key src) (float key (prepared r lowest c)) src.lastUp
        (prepared r lowest c).lastUp := by
      rw [hlowest]
      exact .inl (lt_of_lt_of_le hlow hsrc.le)
    obtain ⟨hpay, hlast⟩ := distill_pair h src _ hun
    obtain ⟨hval, hok⟩ := pair_of_distill hsrc (fun hn => absurd hbeats hn)
      (distill_float h src _) hpay hlast
    refine ⟨?_, hok⟩
    change Greatest.mk _ = Greatest.mk _
    rw [← hval]
    exact congrArg Greatest.mk (max_eq_right (rank_le_of_beats hbeats))
  join := fun src dst hsrc hdst hun => by
    obtain ⟨hpay, hlast⟩ := distill_pair h src dst hun
    obtain ⟨hval, hok⟩ := pair_of_distill hsrc (fun _ => hdst) (distill_float h src dst) hpay hlast
    exact ⟨congrArg Greatest.mk hval.symm, hok⟩
  combine := fun older newer _ hnewer hun => by
    have hlowest : float key (committed r lowest older) = lowest := initialize_float h hreg true _
    have hlt : float key (committed r lowest older) < float key newer.side := by
      rw [hlowest]
      exact lt_of_lt_of_le hlow hnewer.le
    have hbeats : ¬ Beats (float key (committed r lowest older)) (float key newer.side)
        (committed r lowest older).lastUp newer.side.lastUp :=
      not_or.2 ⟨not_lt.2 hlt.le, fun hc => absurd hc.1 hlt.ne⟩
    obtain ⟨hpay, hlast⟩ := distill_pair h _ newer.side hun
    rw [if_neg hbeats] at hpay hlast
    have hfloat : float key (combineRedux r lowest older newer).side = float key newer.side :=
      (distill_float h _ newer.side).trans (max_eq_left hlt.le)
    have hlast' : (combineRedux r lowest older newer).side.lastUp = newer.side.lastUp := hlast
    have hpay' : payload info (combineRedux r lowest older newer).side =
        payload info newer.side := hpay
    refine ⟨?_, ?_, ?_, ?_⟩
    · change Greatest.mk (rank _ (float key (combineRedux r lowest older newer).side) _) =
        Greatest.mk (rank _ _ _)
      rw [hfloat, hlast']
    · rw [hfloat]
      exact hnewer.le
    · rw [hfloat, hpay']
      exact hnewer.first
    · rw [hfloat, hpay', hlast']
      exact hnewer.raised

section Attained

variable {main : ReduxSide F} {t : Collect.Team (Greatest (WithBot (F ×ₗ ℕᵒᵈ))) n}

theorem val_held (plan : Collect.Plan (Greatest (WithBot (F ×ₗ ℕᵒᵈ))) n) (p : ℕ → Prop)
    [DecidablePred p] : (Collect.held plan 0 t p).val =
      (t.done.filter p).sup (fun i => (plan.amount i).val) := by
  rw [Collect.held, zero_add, Greatest.val_sum]

theorem amount_eq_coe {i l : ℕ} {x : F} (h : ((pairView r loop info key main).amount i).val =
    rank (float key main) x l) (hx : float key main < x) :
    i = l ∧ loop.vals i key.au 0 = some x := by
  rw [rank_of_lt hx] at h
  change (loop.vals i key.au 0).elim ⊥ (fun v => rank (float key main) v i) = _ at h
  cases hv : loop.vals i key.au 0 with
  | none =>
      rw [hv] at h
      exact absurd h WithBot.bot_ne_coe
  | some v =>
      rw [hv] at h
      obtain ⟨_, hp⟩ := rank_eq_coe_iff.1 h
      have hpair := Prod.ext_iff.1 (toLex.injective hp)
      exact ⟨(OrderDual.toDual.injective hpair.2).symm, by rw [show v = x from hpair.1.symm]⟩

/-- A rank above nothing is that of an iteration. -/
theorem exists_of_sup (r : ReduxList) (info : ReduxInfo) {s : Finset ℕ} {x : F} {l : ℕ}
    (hx : float key main < x)
    (h : s.sup (fun i => ((pairView r loop info key main).amount i).val) =
      rank (float key main) x l) : l ∈ s ∧ loop.vals l key.au 0 = some x := by
  rcases s.eq_empty_or_nonempty with rfl | hne
  · rw [rank_of_lt hx, Finset.sup_empty] at h
    exact absurd h WithBot.bot_ne_coe
  · obtain ⟨i, hi, hsup⟩ := Finset.exists_mem_eq_sup s hne
      (fun i => ((pairView r loop info key main).amount i).val)
    obtain ⟨rfl, hv⟩ := amount_eq_coe (hsup.symm.trans h) hx
    exact ⟨hi, hv⟩

theorem le_of_sup (r : ReduxList) (info : ReduxInfo) {s : Finset ℕ} {x : F} {i l : ℕ}
    (hx : float key main < x)
    (h : s.sup (fun i => ((pairView r loop info key main).amount i).val) =
      rank (float key main) x l) (hi : i ∈ s) (hv : loop.vals i key.au 0 = some x) : l ≤ i := by
  have hsup := (Finset.le_sup (f := fun i => ((pairView r loop info key main).amount i).val)
    hi).trans (le_of_eq h)
  change ((loop.vals i key.au 0).elim ⊥ (fun v => rank (float key main) v i)) ≤ _ at hsup
  rw [hv] at hsup
  rcases (rank_le_rank hx hx).1 hsup with hlt | ⟨_, hle⟩
  · exact absurd hlt (lt_irrefl x)
  · exact hle

/-- A checkpoint that is adopted has the last update of the main process if it has its float. -/
theorem lastUp_eq_of_tie {c : Collect.Batch (Greatest (WithBot (F ×ₗ ℕᵒᵈ)))} {x : F} {l m : ℕ}
    (h : Collect.Cumulative ((pairView r loop info key main).plan loop) 0 t) (hc : c ∈ t.used)
    (hn : c.members = n) (hx : float key main < x)
    (hmain : t.main.val = rank (float key main) x l)
    (hacc : c.acc.val = rank (float key main) x m) : m = l := by
  have hbatch := h.batch c hc
  rw [h.main, val_held] at hmain
  rw [hbatch.acc, val_held] at hacc
  obtain ⟨hl, hvl⟩ := exists_of_sup r info hx hmain
  obtain ⟨hm, hvm⟩ := exists_of_sup r info hx hacc
  obtain ⟨hld, hlr⟩ := Finset.mem_filter.1 hl
  have hle : m ≤ l := by
    refine le_of_sup r info hx hacc (Finset.mem_filter.2 ⟨hld, ?_, hbatch.complete hn _⟩) hvl
    exact (lt_of_lt_of_le hlr hbatch.adopted_le).le
  have hge : l ≤ m := by
    refine le_of_sup r info hx hmain (Finset.mem_filter.2 ⟨(Finset.mem_filter.1 hm).1, ?_⟩) hvm
    exact lt_of_le_of_lt (loop.round_mono hle) hlr
  exact le_antisymm hle hge

end Attained

/-- What holds of the runtime in a run, seen as a collection of ranks. The main process holds the
pair of some last update. -/
def PairInv (r : ReduxList) (loop : ReduxLoop F n) (info key : ReduxInfo) (main : ReduxSide F)
    (s : ReduxTeam F n) : Prop :=
  ∃ t, Sees (pairView r loop info key main) s t ∧
    Collect.Cumulative ((pairView r loop info key main).plan loop) 0 t ∧
    ∃ l, t.main.val = rank (float key main) (float key s.main) l ∧
      PairOk loop info key main ⟨s.main.mem, l⟩

theorem PairInv.start (main : ReduxSide F) (lastUp : Fin n → ℕ) :
    PairInv r loop info key main (start main lastUp) := by
  have hbot : ∀ l, rank (float key main) (float key main) l = ⊥ :=
    fun l => rank_of_not_lt (lt_irrefl _)
  have hok : ∀ l, PairOk loop info key main ⟨main.mem, l⟩ :=
    fun l => ⟨le_rfl, fun _ => rfl, fun hlt => absurd hlt (lt_irrefl _)⟩
  refine ⟨Collect.Team.start 0 (fun _ => 0), ⟨fun w => ⟨hok _, fun hlt => absurd hlt (lt_irrefl _)⟩,
    fun w => ?_, fun hf => absurd hf (by simp [pairView]), fun _ => rfl, fun _ => rfl, rfl,
    fun c hc => absurd hc List.not_mem_nil, rfl⟩, .initial 0, 0, (hbot 0).symm, hok 0⟩
  exact congrArg Greatest.mk (hbot (lastUp w)).symm

/-- The condition on a step: what it distills before the adoption is not disturbed. -/
def StepUndisturbed (r : ReduxList) (lowest : F) (info : ReduxInfo) (k : ℕ) (s : ReduxTeam F n)
    (a : ReduxAction F n) : Prop :=
  a ≠ .adopt → ∀ d, distills r lowest s a = some d → Undisturbed r info k d.1 d.2

theorem PairInv.step (h : Split r info key as cs ds) (hreg : info.reg = true)
    {main : ReduxSide F} (hlow : lowest < float key main) {s s' : ReduxTeam F n}
    {a : ReduxAction F n} (hinv : PairInv r loop info key main s)
    (hun : StepUndisturbed r lowest info key.au s a)
    (hstep : s.step r lowest loop a = some s') : PairInv r loop info key main s' := by
  obtain ⟨t, hsees, hcum, l, hmain, hok⟩ := hinv
  obtain ⟨a', t', ht, hsees', _, hadopt⟩ := hsees.step (pairView_laws h hreg hlow) hun hstep
  refine ⟨t', hsees', hcum.step Greatest.add_self ht, ?_⟩
  rcases hadopt with ⟨hs, ht'⟩ | ⟨c, hc, hn, hcused, _, _, hs, ht', _⟩
  · rw [hs, ht']
    exact ⟨l, hmain, hok⟩
  · have hcok := (hsees.used_ok c hc).2
    have hfloat : float key s'.main = max (float key s.main) (float key c.side) := by
      rw [hs]
      exact distill_float h c.side s.main
    obtain ⟨l', _, hpay⟩ := distill_payload h c.side s.main
    have hpay' : payload info s'.main =
        if Beats (float key c.side) (float key s.main) c.side.lastUp l' then payload info c.side
        else payload info s.main := by
      rw [hs]
      exact hpay
    have hval : t'.main.val = max (rank (float key main) (float key s.main) l)
        (rank (float key main) (float key c.side) c.side.lastUp) := by
      rw [ht', Greatest.val_add, hmain]
      rfl
    -- Where the floats are equal, so are the iterations, and the choice does not matter.
    have htie : float key c.side = float key s.main → float key main < float key s.main →
        c.side.lastUp = l := by
      intro heq hlt
      refine lastUp_eq_of_tie hcum hcused hn hlt hmain ?_
      rw [← heq]
      rfl
    have hsame : float key c.side = float key s.main → payload info c.side = payload info s.main := by
      intro heq
      by_cases hlt : float key main < float key s.main
      · rw [hcok.raised (heq ▸ hlt), htie heq hlt]
        exact (hok.raised hlt).symm
      · rw [hcok.first (heq ▸ hlt)]
        exact (hok.first hlt).symm
    rcases lt_trichotomy (float key c.side) (float key s.main) with hlt | heq | hgt
    · have hmax : float key s'.main = float key s.main := hfloat.trans (max_eq_left hlt.le)
      have hb : ∀ m, ¬ Beats (float key c.side) (float key s.main) c.side.lastUp m :=
        fun m => not_or.2 ⟨not_lt.2 hlt.le, fun hc => absurd hc.1 hlt.ne⟩
      rw [if_neg (hb l')] at hpay'
      refine ⟨l, ?_, ?_, ?_, ?_⟩
      · rw [hval, hmax]
        exact max_eq_left (rank_le_of_not_beats (hb l))
      · exact hok.le.trans (le_of_eq hmax.symm)
      · intro hf
        exact hpay'.trans (hok.first (fun hlt' => hf (lt_of_lt_of_eq hlt' hmax.symm)))
      · intro hf
        exact hpay'.trans (hok.raised (lt_of_lt_of_eq hf hmax))
    · have hmax : float key s'.main = float key s.main := by rw [hfloat, heq, max_self]
      rw [hsame heq, ite_self] at hpay'
      refine ⟨l, ?_, ?_, ?_, ?_⟩
      · rw [hval, hmax, heq]
        by_cases hlt : float key main < float key s.main
        · rw [htie heq hlt, max_self]
        · rw [rank_of_not_lt hlt, rank_of_not_lt hlt, max_self]
      · exact hok.le.trans (le_of_eq hmax.symm)
      · intro hf
        exact hpay'.trans (hok.first (fun hlt' => hf (lt_of_lt_of_eq hlt' hmax.symm)))
      · intro hf
        exact hpay'.trans (hok.raised (lt_of_lt_of_eq hf hmax))
    · have hmax : float key s'.main = float key c.side := hfloat.trans (max_eq_right hgt.le)
      have hb : ∀ m, Beats (float key c.side) (float key s.main) c.side.lastUp m :=
        fun _ => .inl hgt
      rw [if_pos (hb l')] at hpay'
      refine ⟨c.side.lastUp, ?_, ?_, ?_, ?_⟩
      · rw [hval, hmax]
        exact max_eq_right (rank_le_of_beats (hb l))
      · exact hcok.le.trans (le_of_eq hmax.symm)
      · intro hf
        exact hpay'.trans (hcok.first (fun hlt' => hf (lt_of_lt_of_eq hlt' hmax.symm)))
      · intro hf
        exact hpay'.trans (hcok.raised (lt_of_lt_of_eq hf hmax))

/-- In a run without disturbed distills the main process ends with the payload of the earliest
iteration with the greatest float, or with its own if no iteration has a greater one. -/
theorem argMax_earliest (r : ReduxList) (lowest : F) (loop : ReduxLoop F n) (main : ReduxSide F)
    (lastUp : Fin n → ℕ) (info : ReduxInfo) (k : ℕ) (hi : info ∈ r.infos)
    (hdep : info.dep = some k) (hreg : info.reg = true) (hlow : lowest < main.mem.f32 k 0)
    (s : ReduxTeam F n)
    (hrun : Run (step r lowest loop) (StepUndisturbed r lowest info k) (start main lastUp) s)
    (hfin : s.Finished loop) :
    ((∀ i ∈ s.done, ∀ v ∈ loop.vals i k 0, v ≤ main.mem.f32 k 0) →
      s.main.mem.u64 info.au 0 = main.mem.u64 info.au 0) ∧
    ∀ i ∈ s.done, ∀ v ∈ loop.vals i k 0, main.mem.f32 k 0 < v →
      (∀ j ∈ s.done, ∀ v' ∈ loop.vals j k 0, v' ≤ v ∧ (v' = v → i ≤ j)) →
      s.main.mem.u64 info.au 0 = loop.payloads i info.au := by
  obtain ⟨key, as, cs, ds, rfl, h⟩ := exists_split hi hdep
  obtain ⟨t, hsees, hcum, l, hmain, hok⟩ := hrun.invariant (PairInv r loop info key main)
    (.start main lastUp) (fun _ _ _ hs hun ha => hs.step h hreg hlow hun ha)
  have htfin : t.Finished ((pairView r loop info key main).plan loop) := by
    refine ⟨by rw [hsees.used, hfin.1, List.map_nil], fun i hid => ?_⟩
    rw [hsees.merges]
    exact hfin.2 i (hsees.done ▸ hid)
  have hsup : s.done.sup (fun i => ((pairView r loop info key main).amount i).val) =
      rank (float key main) (float key s.main) l := by
    rw [← hmain, hcum.main_eq htfin, zero_add, Greatest.val_sum, hsees.done]
    rfl
  constructor
  · intro hall
    refine hok.first (fun hlt => ?_)
    obtain ⟨hl, hv⟩ := exists_of_sup r info hlt hsup
    exact absurd (hall l hl _ hv) (not_le.2 hlt)
  · intro i hid v hv hlt hbest
    have hle := (Finset.le_sup (f := fun i => ((pairView r loop info key main).amount i).val)
      hid).trans (le_of_eq hsup)
    change ((loop.vals i key.au 0).elim ⊥ (fun v => rank (float key main) v i)) ≤ _ at hle
    rw [hv] at hle
    have hraised : float key main < float key s.main := by
      by_contra hno
      rw [rank_of_not_lt hno, le_bot_iff] at hle
      exact absurd (hle.symm.trans (rank_of_lt hlt)) WithBot.bot_ne_coe
    obtain ⟨hl, hvl⟩ := exists_of_sup r info hraised hsup
    obtain ⟨hmax, hfirst⟩ := hbest l hl _ hvl
    have heq : l = i := by
      rcases (rank_le_rank hraised hlt).1 hle with hgt | ⟨heq, hli⟩
      · exact absurd hgt (not_lt.2 hmax)
      · exact le_antisymm hli (hfirst heq.symm)
    rw [← heq]
    exact hok.raised hraised

/-- A float, its payload, and another float. -/
def keyObject : ReduxInfo := ⟨0, 1, .maxF32, true, none, by simp⟩

def payloadObject : ReduxInfo := ⟨1, 1, .maxU64, true, some 0, by simp⟩

def otherObject : ReduxInfo := ⟨2, 1, .maxF32, true, none, by simp⟩

def pairList : ReduxList :=
  (ReduxList.empty.alloc keyObject (by simp [ReduxList.empty]) (by simp [keyObject])).alloc
    payloadObject (by simp [ReduxList.alloc, ReduxList.empty, keyObject, payloadObject])
    (by simp [ReduxList.alloc, ReduxList.empty, keyObject, payloadObject])

def tripleList : ReduxList :=
  ((ReduxList.empty.alloc otherObject (by simp [ReduxList.empty]) (by simp [otherObject])).alloc
    keyObject (by simp [ReduxList.alloc, ReduxList.empty, keyObject, otherObject])
    (by simp [keyObject])).alloc payloadObject
    (by simp [ReduxList.alloc, ReduxList.empty, keyObject, payloadObject, otherObject])
    (by simp [ReduxList.alloc, ReduxList.empty, keyObject, payloadObject, otherObject])

/-- The first two of three workers run iterations `1` and `3`, which have the same float; the third
worker runs iteration `5`, which has a smaller one and, alone, another float. -/
def tieLoop : ReduxLoop ℕ 3 where
  owner := fun i => if i = 1 then 0 else if i = 5 then 1 else 2
  round := fun _ => 0
  round_mono := monotone_const
  adds := fun _ _ _ => 0
  maxs := fun _ _ _ => 0
  vals := fun i au _ => if au = 0 then some (if i = 5 then 4 else 9)
    else if i = 5 then some 7 else none
  payloads := fun i _ => i.toUInt64 + 10

/-- A heap with `1` in every float and `100` in every payload. -/
def atFirst : ReduxSide ℕ := ⟨⟨⟨fun _ _ => 0, fun _ _ => 100⟩, fun _ _ => 1⟩, 0⟩

theorem pairList_split : Split pairList payloadObject keyObject [] [] [] where
  infos := rfl
  type := rfl
  dep := rfl
  keyType := rfl
  keyElems := rfl
  keyReg := rfl
  ne := by decide
  before := by simp
  between := by simp
  behind := by simp

theorem argMax_earliest_tie : ∃ s, Run (step pairList 0 tieLoop)
    (StepUndisturbed pairList 0 payloadObject 0) (start atFirst (fun _ => 0)) s ∧
    s.main.mem.u64 1 0 = 11 := by
  have hun : ∀ s a, StepUndisturbed pairList 0 payloadObject 0 (n := 3) s a :=
    fun _ _ _ _ _ => undisturbed_of_alone pairList_split _ _
  have hrun : Run (step pairList 0 tieLoop) (StepUndisturbed pairList 0 payloadObject 0)
      (start atFirst (fun _ => 0)) _ :=
    ((((((Run.refl.tail (a := .run 1) (hun _ _) rfl).tail (a := .run 5) (hun _ _) rfl).tail
      (a := .run 3) (hun _ _) rfl).tail (a := .merge 0 atFirst) (hun _ _) rfl).tail
      (a := .merge 1 atFirst) (hun _ _) rfl).tail (a := .merge 2 atFirst) (hun _ _) rfl).tail
      (a := .adopt) (hun _ _) rfl
  exact ⟨_, hrun, (argMax_earliest pairList 0 tieLoop atFirst (fun _ => 0) payloadObject 0
    List.mem_cons_self rfl rfl (by decide) _ hrun ⟨rfl, by decide⟩).2 1 (by decide) 9 rfl
    (by decide) (by decide)⟩

/-- The other maximum makes the destination of the last merge look as if it were last updated in
iteration `5`, and the payload of iteration `3` wins the tie against that of iteration `1`. -/
theorem argMax_later_tie : ∃ s, Run (step tripleList 0 tieLoop) (fun _ _ => True)
    (start atFirst (fun _ => 0)) s ∧ s.Finished tieLoop ∧ s.done = {1, 3, 5} ∧
    (∀ i ∈ s.done, ∀ v ∈ tieLoop.vals i 0 0, v ≤ 9 ∧ (v = 9 → 1 ≤ i)) ∧
    tieLoop.vals 1 0 0 = some 9 ∧ tieLoop.payloads 1 1 = 11 ∧ s.main.mem.u64 1 0 = 13 := by
  have hrun : Run (step tripleList 0 tieLoop) (fun _ _ => True) (start atFirst (fun _ => 0)) _ :=
    ((((((Run.refl.tail (a := .run 1) trivial rfl).tail (a := .run 5) trivial rfl).tail
      (a := .run 3) trivial rfl).tail (a := .merge 0 atFirst) trivial rfl).tail
      (a := .merge 1 atFirst) trivial rfl).tail (a := .merge 2 atFirst) trivial rfl).tail
      (a := .adopt) trivial rfl
  exact ⟨_, hrun, ⟨rfl, by decide⟩, by decide, by decide, rfl, by decide, by decide⟩

end ReduxTeam
end Cpf.Executive
