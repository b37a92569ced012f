import Cpf.Executive.ReduxView

/-!
# Unsigned maxima

The value of an element of a 64-bit maximum without a dependence. Every distill takes the maximum
of the two heaps and leaves the source at zero, so the element ends as the maximum of its first
value and of what the iterations contribute, whether it is kept in a register or in the heap.
-/

namespace Cpf.Executive
namespace ReduxTeam

open Collect (Greatest)

variable {F : Type*} [LinearOrder F] {n : ℕ} {r : ReduxList} {lowest : F} {loop : ReduxLoop F n}
  {info : ReduxInfo} {e : ℕ}

def maxValue (info : ReduxInfo) (e : ℕ) (m : ReduxMem F) : Greatest ℕ := ⟨(m.u64 info.au e).toNat⟩

omit [LinearOrder F] in
theorem maxValue_congr {m m' : ReduxMem F} (h : m.SameAt m' info.au) :
    maxValue info e m = maxValue info e m' := by
  rw [maxValue, maxValue, h.2.1]

section Laws

variable (hi : info ∈ r.infos) (htype : info.type = .maxU64) (hdep : info.dep = none)
  (he : e < info.elems)

include hi htype hdep he

theorem maxValue_distill (src dst : ReduxSide F) :
    maxValue info e (r.distill src dst).2.mem = maxValue info e dst.mem + maxValue info e src.mem := by
  obtain ⟨src', dst', hs, hd, _, hdst⟩ := ReduxList.distill_at hi src dst
  rw [maxValue_congr hdst, ← maxValue_congr hs, ← maxValue_congr hd]
  simp only [ReduxInfo.doReduction, htype, hdep, maxValue, ReduxMem.setU64, Function.update_self]
  exact congrArg Greatest.mk (reduceU64Max_snd he _ _)

theorem maxValue_distill_source (src dst : ReduxSide F) :
    maxValue info e (r.distill src dst).1 = 0 := by
  obtain ⟨src', dst', _, _, hsrc, _⟩ := ReduxList.distill_at hi src dst
  rw [maxValue_congr hsrc]
  simp only [ReduxInfo.doReduction, htype, hdep, maxValue, ReduxMem.setU64, Function.update_self]
  rw [reduceU64Max_fst he]
  rfl

omit [LinearOrder F] in
theorem maxValue_initialize (combine : Bool) (m : ReduxMem F) :
    maxValue info e (r.initializeCheckpointRedux lowest combine m) =
      if combine && !info.reg then maxValue info e m else 0 := by
  obtain ⟨m', hm', hinit⟩ := ReduxList.initializeCheckpointRedux_at hi hdep lowest combine m
  rw [maxValue_congr hinit]
  split_ifs
  · exact maxValue_congr hm'
  · simp only [ReduxInfo.initializeReductions, htype, maxValue, ReduxMem.setU64,
      Function.update_self, if_pos he]
    rfl

theorem maxValue_iterate (i : ℕ) (p : ReduxWorker F) :
    maxValue info e (updated info.reg (r.iterate loop i p)).mem =
      maxValue info e (updated info.reg p).mem + ⟨(loop.maxs i info.au e).toNat⟩ := by
  obtain ⟨q, hq, hiter⟩ := iterate_at loop hi i p
  rw [maxValue_congr hiter, ← maxValue_congr hq]
  simp only [ReduxList.updateUnit, htype, hdep, maxValue, ReduxMem.setU64, Function.update_self]
  refine congrArg Greatest.mk ?_
  dsimp only
  split_ifs with hgt
  · exact (max_eq_right (UInt64.le_iff_toNat_le.1 (UInt64.le_of_lt hgt.2))).symm
  · have hle := UInt64.not_lt.1 (fun hlt => hgt ⟨he, hlt⟩)
    exact (max_eq_left (UInt64.le_iff_toNat_le.1 hle)).symm

omit [LinearOrder F] hdep in
theorem maxValue_source (p : ReduxWorker F) :
    maxValue info e (source r p).mem = maxValue info e (updated info.reg p).mem := by
  obtain ⟨m, hm, hsrc⟩ := source_at hi p
  rw [maxValue_congr hsrc]
  unfold updated
  split_ifs
  · simp only [ReduxInfo.storeRegister, htype, maxValue, ReduxMem.setU64, Function.update_self,
      if_pos he]
  · exact maxValue_congr hm

end Laws

/-- The reduction as a collection of maxima, when the element starts with `first`. -/
def maxView (info : ReduxInfo) (loop : ReduxLoop F n) (e : ℕ) (first : Greatest ℕ) :
    View F (Greatest ℕ) where
  reg := info.reg
  value := fun q => maxValue info e q.mem
  amount := fun i => ⟨(loop.maxs i info.au e).toNat⟩
  Ok := fun _ => True
  WorkerOk := fun p => info.reg = true ∨ (maxValue info e p.carried).val ≤ first.val
  Allowed := fun _ _ => True

theorem maxView_laws (hi : info ∈ r.infos) (htype : info.type = .maxU64) (hdep : info.dep = none)
    (he : e < info.elems) (first : Greatest ℕ) :
    (maxView info loop e first).Laws r lowest loop where
  run := fun i p hp _ =>
    ⟨maxValue_iterate hi htype hdep he i p, hp.imp id (fun hle => by
      change (maxValue info e (r.iterate loop i p).carried).val ≤ _
      rwa [iterate_carried])⟩
  source := fun p _ => ⟨maxValue_source hi htype he p, trivial⟩
  rest := fun p dst _ => .inr (by
    change (maxValue info e (r.distill (ReduxTeam.source r p) dst).1).val ≤ _
    rw [maxValue_distill_source hi htype hdep he]
    exact Nat.zero_le _)
  lastUp := fun _ _ _ _ => rfl
  first := fun src c _ hc _ => by
    refine ⟨?_, trivial⟩
    change maxValue info e _ = maxValue info e _
    rw [maxValue_distill hi htype hdep he, prepared, if_pos hc,
      maxValue_initialize hi htype hdep he]
    simp
  join := fun src dst _ _ _ => ⟨maxValue_distill hi htype hdep he src dst, trivial⟩
  combine := fun older newer _ _ _ => by
    refine ⟨?_, trivial⟩
    change maxValue info e (combineRedux r lowest older newer).side.mem =
      if info.reg then maxValue info e newer.side.mem else _
    rw [combineRedux, maxValue_distill hi htype hdep he, committed,
      maxValue_initialize hi htype hdep he]
    by_cases hreg : info.reg = true
    · simp [hreg]
    · simp [hreg, maxView]

/-- What holds of the runtime in a run, seen as a collection that starts with `first`. -/
def MaxInv (loop : ReduxLoop F n) (info : ReduxInfo) (e : ℕ) (first : Greatest ℕ)
    (s : ReduxTeam F n) : Prop :=
  ∃ t, Sees (maxView info loop e first) s t ∧ t.main = maxValue info e s.main.mem ∧
    ((info.reg = true → Collect.Cumulative ((maxView info loop e first).plan loop) first t) ∧
      (info.reg = false → Collect.Conserved ((maxView info loop e first).plan loop) first t ∧
        t.recounted.val ≤ first.val))

omit [LinearOrder F] in
theorem MaxInv.start (main : ReduxSide F) (lastUp : Fin n → ℕ) :
    MaxInv loop info e (maxValue info e main.mem) (start main lastUp) := by
  refine ⟨Collect.Team.start (maxValue info e main.mem) (fun _ => maxValue info e main.mem),
    ⟨fun w => .inr le_rfl, fun w => ?_, fun _ _ => rfl, fun _ => rfl, fun _ => rfl, rfl,
      fun c hc => absurd hc List.not_mem_nil, rfl⟩, rfl, fun _ => .initial _,
    fun _ => ⟨.start _ _, Nat.zero_le _⟩⟩
  change _ = maxValue info e (updated info.reg _).mem
  unfold updated
  split_ifs <;> rfl

theorem MaxInv.step (hi : info ∈ r.infos) (htype : info.type = .maxU64) (hdep : info.dep = none)
    (he : e < info.elems) {first : Greatest ℕ} {s s' : ReduxTeam F n} {a : ReduxAction F n}
    (h : MaxInv loop info e first s) (hstep : s.step r lowest loop a = some s') :
    MaxInv loop info e first s' := by
  obtain ⟨t, hsees, hmain, hreg, hmem⟩ := h
  obtain ⟨a', t', ht, hsees', hrec, hadopt⟩ :=
    hsees.step (maxView_laws hi htype hdep he first) (fun _ _ _ => trivial) hstep
  refine ⟨t', hsees', ?_, fun hr => ?_, fun hr => ⟨?_, ?_⟩⟩
  · rcases hadopt with ⟨hs, ht'⟩ | ⟨c, _, _, _, _, _, hs, ht', _⟩
    · rw [ht', hs, hmain]
    · rw [ht', hs, hmain, maxValue_distill hi htype hdep he]
      rfl
  · rw [show (maxView info loop e first).reg = true from hr] at ht
    exact (hreg hr).step Greatest.add_self ht
  · rw [show (maxView info loop e first).reg = false from hr] at ht
    exact (hmem hr).1.step ht
  · rcases hrec with hrec | ⟨w, object, _, hrec⟩
    · rw [hrec]
      exact (hmem hr).2
    · rw [hrec, hsees.carried hr w]
      refine max_le (hmem hr).2 ?_
      rcases hsees.worker_ok w with hr' | hle
      · rw [hr] at hr'
        cases hr'
      · exact hle

/-- Whatever the order of merges, combinations and adoptions is, an element of an unsigned maximum
ends as the maximum of its first value and of what the iterations contribute. -/
theorem plainMax_exact (r : ReduxList) (lowest : F) (loop : ReduxLoop F n) (main : ReduxSide F)
    (lastUp : Fin n → ℕ) (info : ReduxInfo) (hi : info ∈ r.infos) (htype : info.type = .maxU64)
    (hdep : info.dep = none) (s : ReduxTeam F n)
    (hrun : Run (step r lowest loop) (fun _ _ => True) (start main lastUp) s)
    (hfin : s.Finished loop) (e : ℕ) (he : e < info.elems) :
    (s.main.mem.u64 info.au e).toNat =
      max (main.mem.u64 info.au e).toNat
        (s.done.sup (fun i => (loop.maxs i info.au e).toNat)) := by
  obtain ⟨t, hsees, hmain, hreg, hmem⟩ := hrun.invariant
    (MaxInv loop info e (maxValue info e main.mem)) (.start main lastUp)
    (fun _ _ _ hs _ ha => hs.step hi htype hdep he ha)
  have htfin : t.Finished ((maxView info loop e (maxValue info e main.mem)).plan loop) := by
    refine ⟨by rw [hsees.used, hfin.1, List.map_nil], fun i hid => ?_⟩
    rw [hsees.merges]
    exact hfin.2 i (hsees.done ▸ hid)
  have hsum : (∑ i ∈ t.done, ((maxView (F := F) info loop e (maxValue info e main.mem)).plan
      loop).amount i).val = s.done.sup (fun i => (loop.maxs i info.au e).toNat) := by
    rw [Greatest.val_sum, hsees.done]
    rfl
  have hval : (s.main.mem.u64 info.au e).toNat = t.main.val := by
    rw [hmain]
    rfl
  rw [hval]
  cases hr : info.reg with
  | true =>
      rw [(hreg hr).main_eq htfin, Greatest.val_add, hsum]
      rfl
  | false =>
      obtain ⟨hcons, hrec⟩ := hmem hr
      rw [hcons.main_eq htfin, Greatest.val_add, Greatest.val_add, hsum]
      exact max_eq_left (hrec.trans (le_max_left _ _))

def single (info : ReduxInfo) (hdep : info.dep = none) : ReduxList :=
  ReduxList.empty.alloc info (by simp [ReduxList.empty]) (by simp [hdep])

def filled (first : UInt32) : ReduxSide ℕ := ⟨⟨⟨fun _ _ => first, fun _ _ => 3⟩, fun _ _ => 0⟩, 0⟩

/-- Two workers that take turns and merge every two iterations, with two maxima. -/
def pairLoop : ReduxLoop ℕ 2 where
  owner := fun i => ⟨i % 2, Nat.mod_lt i Nat.two_pos⟩
  round := fun i => i / 2
  round_mono := fun _ _ h => Nat.div_le_div_right h
  adds := fun _ _ _ => 0
  maxs := fun i _ e => if e = 0 then [5, 3, 8, 6].getD i 0 else [2, 9, 1, 4].getD i 0
  vals := fun _ _ _ => none
  payloads := fun _ _ => 0

def maxArray : ReduxInfo := ⟨0, 2, .maxU64, false, none, by simp⟩

theorem plainMax_exact_pair : ∃ s, Run (step (single maxArray rfl) 0 pairLoop) (fun _ _ => True)
    (start (filled 0) (fun _ => 0)) s ∧
      (s.main.mem.u64 0 0).toNat = 8 ∧ (s.main.mem.u64 0 1).toNat = 9 := by
  have hrun : Run (step (single maxArray rfl) 0 pairLoop) (fun _ _ => True)
      (start (filled 0) (fun _ => 0)) _ :=
    (((((((((Run.refl.tail (a := .run 0) trivial rfl).tail (a := .run 1) trivial rfl).tail
      (a := .merge 1 (filled 7)) trivial rfl).tail (a := .merge 0 (filled 7)) trivial rfl).tail
      (a := .run 2) trivial rfl).tail (a := .run 3) trivial rfl).tail
      (a := .merge 0 (filled 1)) trivial rfl).tail (a := .merge 1 (filled 1)) trivial rfl).tail
      (a := .combine 0) trivial rfl).tail (a := .adopt) trivial rfl
  have hexact := plainMax_exact (single maxArray rfl) 0 pairLoop (filled 0) (fun _ => 0) maxArray
    List.mem_cons_self rfl rfl _ hrun ⟨rfl, by decide⟩
  exact ⟨_, hrun, (hexact 0 Nat.two_pos).trans (by decide), (hexact 1 Nat.one_lt_two).trans (by decide)⟩

end ReduxTeam
end Cpf.Executive
