import Mathlib.Data.ZMod.Basic
import Cpf.Executive.PlainMax

/-!
# Sums of 32-bit integers

The value of an element of a sum that is kept in the heap, modulo `2 ^ 32`. What a worker distills
is what its iterations have added and what its heap has held since the start or its last
checkpoint; the sum is exact when the latter is nothing. The reset of the source reaches the first
int of its last vector only, and not a single int.
-/

namespace Cpf.Executive

/-- The condition under which the reset of `__specpriv_reduce_i32_add` leaves nothing: a single int
is zero, and in the last vector that is not zero only the first int is not. -/
def ResetInFull (elems : ℕ) (src : ℕ → UInt32) : Prop :=
  if elems = 1 then src 0 = 0
  else ∀ hi ∈ lastVec src ((elems + intsPerVec - 1) / intsPerVec),
    ∀ e < elems, intsPerVec * hi < e → src e = 0

theorem vecIsZero_iff {src : ℕ → UInt32} {v : ℕ} :
    vecIsZero src v = true ↔ ∀ e, e / intsPerVec = v → src e = 0 := by
  simp only [vecIsZero, List.all_eq_true, List.mem_range, decide_eq_true_eq]
  constructor
  · rintro h e rfl
    have hmod := h (e % intsPerVec) (Nat.mod_lt e (by decide))
    rwa [Nat.div_add_mod] at hmod
  · intro h j hj
    refine h _ ?_
    simp only [intsPerVec] at *
    omega

theorem lastVec_zero {src : ℕ → UInt32} {m : ℕ} {v : ℕ} (hv : v < m)
    (hlast : ∀ hi ∈ lastVec src m, hi < v) : vecIsZero src v = true := by
  by_contra hne
  obtain ⟨hi, hhi, hle⟩ := lastVec_spec hv (Bool.not_eq_true _ ▸ hne)
  exact absurd (hlast hi hhi) (not_lt.2 hle)

theorem lastVec_nonzero {src : ℕ → UInt32} {m hi : ℕ} (h : lastVec src m = some hi) :
    vecIsZero src hi = false := by
  induction m with
  | zero => cases h
  | succ m ih =>
      rw [lastVec] at h
      by_cases hz : vecIsZero src m = true
      · rw [if_pos hz] at h
        exact ih h
      · rw [if_neg hz] at h
        cases h
        exact Bool.not_eq_true _ ▸ hz

/-- The reset leaves the source at zero exactly under this condition. -/
theorem reduceI32Add_fst_eq_zero_iff (elems : ℕ) (src dst : ℕ → UInt32) :
    (∀ e < elems, (reduceI32Add elems src dst).1 e = 0) ↔ ResetInFull elems src := by
  unfold reduceI32Add ResetInFull
  by_cases h1 : elems = 1
  · rw [if_pos h1, if_pos h1]
    subst h1
    exact ⟨fun h => h 0 Nat.one_pos, fun h e he => by rwa [Nat.lt_one_iff.1 he]⟩
  · rw [if_neg h1, if_neg h1]
    have hvec : ∀ e < elems, e / intsPerVec < (elems + intsPerVec - 1) / intsPerVec := by
      intro e he
      simp only [intsPerVec]
      omega
    cases hlast : lastVec src ((elems + intsPerVec - 1) / intsPerVec) with
    | none =>
        have hzero : ∀ e < elems, src e = 0 := fun e he =>
          vecIsZero_iff.1 (lastVec_zero (hvec e he) (by simp [hlast])) e rfl
        exact ⟨fun _ hi hhi => (by cases hhi), fun _ e he => hzero e he⟩
    | some hi =>
        have hfront : ∀ e, e < intsPerVec * firstVec src hi → src e = 0 := by
          intro e hlt
          by_contra hne
          have hnz : vecIsZero src (e / intsPerVec) = false := by
            rw [← Bool.not_eq_true]
            exact fun hz => hne (vecIsZero_iff.1 hz e rfl)
          have hfirst := firstVec_le (lastVec_nonzero hlast) le_rfl
          have hle := @firstVec_le _ hi _ hnz (by simp only [intsPerVec] at *; omega)
          simp only [intsPerVec] at *
          omega
        constructor
        · intro h hi' hhi' e he hlt
          cases hhi'
          have hres := h e he
          dsimp only at hres
          rwa [if_neg (by omega)] at hres
        · intro h e he
          dsimp only
          split_ifs with hin
          · rfl
          · rcases Nat.lt_or_ge e (intsPerVec * firstVec src hi) with hlt | hge
            · exact hfront e hlt
            · exact h hi rfl e he (by omega)

namespace ReduxTeam

variable {F : Type*} [LinearOrder F] {n : ℕ} {r : ReduxList} {lowest : F} {loop : ReduxLoop F n}
  {info : ReduxInfo} {e : ℕ}

def sumValue (info : ReduxInfo) (e : ℕ) (m : ReduxMem F) : ZMod (2 ^ 32) :=
  ((m.i32 info.au e).toNat : ZMod (2 ^ 32))

theorem cast_toNat_add (a b : UInt32) :
    (((a + b).toNat : ℕ) : ZMod (2 ^ 32)) = (a.toNat : ZMod (2 ^ 32)) + b.toNat := by
  rw [UInt32.toNat_add, ZMod.natCast_mod, Nat.cast_add]

omit [LinearOrder F] in
theorem sumValue_congr {m m' : ReduxMem F} (h : m.SameAt m' info.au) :
    sumValue info e m = sumValue info e m' := by
  rw [sumValue, sumValue, h.1]

section Laws

variable (hi : info ∈ r.infos) (htype : info.type = .addI32) (he : e < info.elems)

include htype

theorem dep_eq_none : info.dep = none := by
  cases hdep : info.dep with
  | none => rfl
  | some k =>
      have hmax := (info.dep_ok k hdep).1
      rw [htype] at hmax
      cases hmax

include hi he

theorem sumValue_distill (src dst : ReduxSide F) :
    sumValue info e (r.distill src dst).2.mem = sumValue info e dst.mem + sumValue info e src.mem := by
  obtain ⟨src', dst', hs, hd, _, hdst⟩ := ReduxList.distill_at hi src dst
  rw [sumValue_congr hdst, ← sumValue_congr hs, ← sumValue_congr hd]
  simp only [ReduxInfo.doReduction, htype, sumValue, ReduxMem.setI32, Function.update_self,
    reduceI32Add_snd he, cast_toNat_add]

omit [LinearOrder F] in
theorem sumValue_initialize (combine : Bool) (m : ReduxMem F) :
    sumValue info e (r.initializeCheckpointRedux lowest combine m) =
      if combine && !info.reg then sumValue info e m else 0 := by
  obtain ⟨m', hm', hinit⟩ :=
    ReduxList.initializeCheckpointRedux_at hi (dep_eq_none htype) lowest combine m
  rw [sumValue_congr hinit]
  split_ifs
  · exact sumValue_congr hm'
  · simp only [ReduxInfo.initializeReductions, htype, sumValue, ReduxMem.setI32,
      Function.update_self, if_pos he]
    simp

theorem sumValue_iterate (i : ℕ) (p : ReduxWorker F) :
    sumValue info e (updated info.reg (r.iterate loop i p)).mem =
      sumValue info e (updated info.reg p).mem + ((loop.adds i info.au e).toNat : ZMod (2 ^ 32)) := by
  obtain ⟨q, hq, hiter⟩ := iterate_at loop hi i p
  rw [sumValue_congr hiter, ← sumValue_congr hq]
  simp only [ReduxList.updateUnit, htype, sumValue, ReduxMem.setI32, Function.update_self,
    if_pos he, cast_toNat_add]

omit [LinearOrder F] in
theorem sumValue_source (p : ReduxWorker F) :
    sumValue info e (source r p).mem = sumValue info e (updated info.reg p).mem := by
  obtain ⟨m, hm, hsrc⟩ := source_at hi p
  rw [sumValue_congr hsrc]
  unfold updated
  split_ifs
  · simp only [ReduxInfo.storeRegister, htype, sumValue, ReduxMem.setI32, Function.update_self,
      if_pos he]
  · exact sumValue_congr hm

end Laws

def sumView (info : ReduxInfo) (loop : ReduxLoop F n) (e : ℕ) : View F (ZMod (2 ^ 32)) where
  reg := info.reg
  value := fun q => sumValue info e q.mem
  amount := fun i => ((loop.adds i info.au e).toNat : ZMod (2 ^ 32))
  Ok := fun _ => True
  WorkerOk := fun _ => True
  Allowed := fun _ _ => True

theorem sumView_laws (hi : info ∈ r.infos) (htype : info.type = .addI32) (he : e < info.elems) :
    (sumView info loop e).Laws r lowest loop where
  run := fun i p _ _ => ⟨sumValue_iterate hi htype he i p, trivial⟩
  source := fun p _ => ⟨sumValue_source hi htype he p, trivial⟩
  rest := fun _ _ _ => trivial
  lastUp := fun _ _ _ _ => rfl
  first := fun src c _ hc _ => by
    refine ⟨?_, trivial⟩
    change sumValue info e _ = sumValue info e _
    rw [sumValue_distill hi htype he, prepared, if_pos hc, sumValue_initialize hi htype he]
    simp
  join := fun src dst _ _ _ => ⟨sumValue_distill hi htype he src dst, trivial⟩
  combine := fun older newer _ _ _ => by
    refine ⟨?_, trivial⟩
    change sumValue info e (combineRedux r lowest older newer).side.mem =
      if info.reg then sumValue info e newer.side.mem else _
    rw [combineRedux, sumValue_distill hi htype he, committed, sumValue_initialize hi htype he]
    by_cases hreg : info.reg = true
    · simp [hreg]
    · simp [hreg, sumView]

/-- A worker that merges has held nothing since the start or its last checkpoint but what its
iterations have added. -/
def CountsOnce (info : ReduxInfo) (s : ReduxTeam F n) : ReduxAction F n → Prop
  | .merge w _ => ∀ e < info.elems, (s.workers w).carried.i32 info.au e = 0
  | _ => True

/-- What holds of the runtime in a run, seen as a collection that starts with `first`. -/
def SumInv (loop : ReduxLoop F n) (info : ReduxInfo) (e : ℕ) (first : ZMod (2 ^ 32))
    (s : ReduxTeam F n) : Prop :=
  ∃ t, Sees (sumView info loop e) s t ∧ t.main = sumValue info e s.main.mem ∧
    Collect.Conserved ((sumView (F := F) info loop e).plan loop) first t ∧ t.recounted = 0

omit [LinearOrder F] in
theorem SumInv.start (main : ReduxSide F) (lastUp : Fin n → ℕ) :
    SumInv loop info e (sumValue info e main.mem) (start main lastUp) := by
  refine ⟨Collect.Team.start (sumValue info e main.mem) (fun _ => sumValue info e main.mem),
    ⟨fun w => trivial, fun w => ?_, fun _ _ => rfl, fun _ => rfl, fun _ => rfl, rfl,
      fun c hc => absurd hc List.not_mem_nil, rfl⟩, rfl, .start _ _, rfl⟩
  change _ = sumValue info e (updated info.reg _).mem
  unfold updated
  split_ifs <;> rfl

theorem SumInv.step (hi : info ∈ r.infos) (htype : info.type = .addI32) (hreg : info.reg = false)
    (he : e < info.elems) {first : ZMod (2 ^ 32)} {s s' : ReduxTeam F n} {a : ReduxAction F n}
    (h : SumInv loop info e first s) (honce : CountsOnce info s a)
    (hstep : s.step r lowest loop a = some s') : SumInv loop info e first s' := by
  obtain ⟨t, hsees, hmain, hcons, hrec⟩ := h
  obtain ⟨a', t', ht, hsees', hrec', hadopt⟩ :=
    hsees.step (sumView_laws hi htype he) (fun _ _ _ => trivial) hstep
  rw [show (sumView info loop e).reg = false from hreg] at ht
  refine ⟨t', hsees', ?_, hcons.step ht, ?_⟩
  · rcases hadopt with ⟨hs, ht'⟩ | ⟨c, _, _, _, _, _, hs, ht', _⟩
    · rw [ht', hs, hmain]
    · rw [ht', hs, hmain, sumValue_distill hi htype he]
      rfl
  · rcases hrec' with hrec' | ⟨w, object, rfl, hrec'⟩
    · rw [hrec', hrec]
    · have hcarried : sumValue info e (s.workers w).carried = 0 := by
        rw [sumValue, honce e he]
        rfl
      rw [hrec', hrec, hsees.carried hreg w, zero_add]
      exact hcarried

/-- In a run in which no worker merges what it has carried over, an element of a sum ends as its
first value and the sum of what the iterations add. A distill leaves nothing to carry over exactly
when it resets the source in full. -/
theorem addI32_exact (r : ReduxList) (lowest : F) (loop : ReduxLoop F n) (main : ReduxSide F)
    (lastUp : Fin n → ℕ) (info : ReduxInfo) (hi : info ∈ r.infos) (htype : info.type = .addI32)
    (hreg : info.reg = false) :
    (∀ s, Run (step r lowest loop) (fun s a => CountsOnce info s a) (start main lastUp) s →
      s.Finished loop → ∀ e < info.elems, (s.main.mem.i32 info.au e).toNat =
        ((main.mem.i32 info.au e).toNat + ∑ i ∈ s.done, (loop.adds i info.au e).toNat) % 2 ^ 32) ∧
      ∀ src dst : ℕ → UInt32, (∀ e < info.elems, (reduceI32Add info.elems src dst).1 e = 0) ↔
        ResetInFull info.elems src := by
  refine ⟨fun s hrun hfin e he => ?_, fun src dst => reduceI32Add_fst_eq_zero_iff _ src dst⟩
  obtain ⟨t, hsees, hmain, hcons, hrec⟩ := hrun.invariant
    (SumInv loop info e (sumValue info e main.mem)) (.start main lastUp)
    (fun _ _ _ hs hp ha => hs.step hi htype hreg he hp ha)
  have htfin : t.Finished ((sumView (F := F) info loop e).plan loop) := by
    refine ⟨by rw [hsees.used, hfin.1, List.map_nil], fun i hid => ?_⟩
    rw [hsees.merges]
    exact hfin.2 i (hsees.done ▸ hid)
  have hval : sumValue info e s.main.mem =
      sumValue info e main.mem + ∑ i ∈ s.done, ((loop.adds i info.au e).toNat : ZMod (2 ^ 32)) := by
    rw [← hmain, hcons.main_eq htfin, hrec, add_zero, hsees.done]
    rfl
  have hcast : (((s.main.mem.i32 info.au e).toNat : ℕ) : ZMod (2 ^ 32)) =
      (((main.mem.i32 info.au e).toNat + ∑ i ∈ s.done, (loop.adds i info.au e).toNat : ℕ) :
        ZMod (2 ^ 32)) := by
    rw [Nat.cast_add, Nat.cast_sum]
    exact hval
  rw [← (ZMod.natCast_eq_natCast_iff' _ _ _).1 hcast, Nat.mod_eq_of_lt]
  exact (s.main.mem.i32 info.au e).toNat_lt

/-- One worker whose iteration `0` adds `1` to a sum. -/
def fiveLoop : ReduxLoop ℕ 1 where
  owner := fun _ => 0
  round := fun i => i
  round_mono := monotone_id
  adds := fun i _ _ => if i = 0 then 1 else 0
  maxs := fun _ _ _ => 5
  vals := fun _ _ _ => none
  payloads := fun _ _ => 0

def sumObject : ReduxInfo := ⟨0, 1, .addI32, false, none, by simp⟩

theorem addI32_exact_once : ∃ s, Run (step (single sumObject rfl) 0 fiveLoop)
    (fun s a => CountsOnce sumObject s a) (start (filled 0) (fun _ => 0)) s ∧
    (s.main.mem.i32 0 0).toNat = 1 := by
  have hrun : Run (step (single sumObject rfl) 0 fiveLoop) (fun s a => CountsOnce sumObject s a)
      (start (filled 0) (fun _ => 0)) _ :=
    ((Run.refl.tail (a := .run 0) trivial rfl).tail (a := .merge 0 (filled 7)) (fun _ _ => rfl)
      rfl).tail (a := .adopt) trivial rfl
  exact ⟨_, hrun, ((addI32_exact (single sumObject rfl) 0 fiveLoop (filled 0) (fun _ => 0)
    sumObject List.mem_cons_self rfl rfl).1 _ hrun ⟨rfl, by decide⟩ 0 Nat.one_pos).trans
    (by decide)⟩

/-- A single int is not reset: its worker merges the same addition into two checkpoints. -/
theorem addI32_counted_twice : ∃ s, Run (step (single sumObject rfl) 0 fiveLoop) (fun _ _ => True)
    (start (filled 0) (fun _ => 0)) s ∧ s.Finished fiveLoop ∧ s.done = {0} ∧
    (s.main.mem.i32 0 0).toNat = 2 ∧
    (∑ i ∈ s.done, (fiveLoop.adds i 0 0).toNat) = 1 ∧
    (reduceI32Add 1 (fun _ => 1) (fun _ => 0)).1 0 = 1 := by
  have hrun : Run (step (single sumObject rfl) 0 fiveLoop) (fun _ _ => True)
      (start (filled 0) (fun _ => 0)) _ :=
    ((((Run.refl.tail (a := .run 0) trivial rfl).tail (a := .merge 0 (filled 7)) trivial rfl).tail
      (a := .merge 0 (filled 7)) trivial rfl).tail (a := .adopt) trivial rfl).tail
      (a := .adopt) trivial rfl
  exact ⟨_, hrun, ⟨rfl, by decide⟩, rfl, by decide, by decide, by decide⟩

end ReduxTeam
end Cpf.Executive
