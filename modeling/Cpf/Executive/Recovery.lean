import Cpf.Executive.Coverage

/-!
# Every iteration takes effect once

`log` records the iterations whose effects are in the heaps of the main process, by adoption or by
recovery. The recovery starts one iteration behind `main_checkpoint->iteration`, which is the last
recovered iteration after a recovery and the number of adopted iterations after an adoption; only in
the first case, or at the end of the loop, is this the first iteration that is missing.
-/

namespace Cpf.Executive

open Loop

variable {cfg : Config} {loop : Loop cfg} {s s' : State cfg} {a : Action cfg}

/-- The condition on a join: after a misspeculation no boundary before the end of the loop is the
last one that is adopted. -/
def Action.AdoptsToEnd (loop : Loop cfg) (s : State cfg) : Action cfg → Prop
  | .join => s.misspeculationHappened = true →
      ∀ c ∈ (leading s.used).getLast?, loop.trip ≤ c.iteration
  | _ => True

instance (loop : Loop cfg) (s : State cfg) (a : Action cfg) : Decidable (a.AdoptsToEnd loop s) :=
  match a with
  | .join => inferInstanceAs (Decidable (_ → _))
  | .checkpoint _ _ _ => inferInstanceAs (Decidable True)
  | .finish _ _ _ => inferInstanceAs (Decidable True)
  | .access _ _ => inferInstanceAs (Decidable True)
  | .update _ _ _ _ => inferInstanceAs (Decidable True)
  | .endIter _ => inferInstanceAs (Decidable True)
  | .commit _ => inferInstanceAs (Decidable True)
  | .skip _ => inferInstanceAs (Decidable True)
  | .misspec _ => inferInstanceAs (Decidable True)
  | .recover _ _ => inferInstanceAs (Decidable True)

/-- The heaps of the main process hold the iterations before the one that the workers start at, or
that the recovery starts at, each of them once, and in the end every iteration of the loop. -/
structure State.EachOnce (loop : Loop cfg) (s : State cfg) : Prop where
  running : s.phase = .parallel →
    (s.log : Multiset ℕ) = (forRange 0 (min s.firstIteration loop.trip) 1 : Multiset ℕ)
  recovering : s.phase = .recovering →
    (s.log : Multiset ℕ) = (forRange 0 (min (lowIter s) loop.trip) 1 : Multiset ℕ) ∧
      s.main.iteration ≤ s.misspeculatedIteration
  ended : s.phase = .ended → (s.log : Multiset ℕ) = (forRange 0 loop.trip 1 : Multiset ℕ)

/-- The workers have started behind the last committed iteration. -/
def StartOk (s : State cfg) : Prop := s.main.iteration + 1 = s.firstIteration

theorem lowIter_of_startOk (h : StartOk s) : lowIter s = s.firstIteration := by
  unfold StartOk at h
  rw [lowIter, h, Int.toNat_natCast]

/-- What the runs under the condition keep. -/
structure RecoveryOk (loop : Loop cfg) (s : State cfg) : Prop where
  machine : MachineOk loop s
  once : s.EachOnce loop
  start : s.phase = .parallel → StartOk s

namespace RecoveryOk

theorem of_sameMain (h : RecoveryOk loop s) (hphase : s.phase = .parallel) (hsame : SameMain s s')
    (hm : MachineOk loop s') : RecoveryOk loop s' := by
  have hphase' := hsame.phase.trans hphase
  refine ⟨hm, ⟨fun _ => ?_, fun hr => ?_, fun he => ?_⟩, fun _ => ?_⟩
  · rw [hsame.log, hsame.firstIteration]
    exact h.once.running hphase
  · rw [hphase'] at hr
    cases hr
  · rw [hphase'] at he
    cases he
  · unfold StartOk
    rw [hsame.main, hsame.firstIteration]
    exact h.start hphase

theorem log_adopt (s : State cfg) :
    (s.adopt.log : Multiset ℕ) =
      s.log + ((leading s.used).flatMap (fun c => s.effects c.iteration) : Multiset ℕ) := by
  rw [Multiset.coe_add, ← (cfg.adoptComplete_eq s.misspeculationHappened s.main s.used).1]
  rfl

theorem phase_adopt (s : State cfg) :
    s.adopt.phase = if s.misspeculationHappened then .recovering else .ended := rfl

/-- The join without a misspeculation: the checkpoints hold the rest of the loop. -/
theorem adopt_ended (hep : EpisodeOk loop s) (hmis : s.misspeculationHappened = false)
    (hdone : ∀ w, (s.procs w).pc = .done)
    (hlog : (s.log : Multiset ℕ) = (forRange 0 (min s.firstIteration loop.trip) 1 : Multiset ℕ)) :
    (s.adopt.log : Multiset ℕ) = (forRange 0 loop.trip 1 : Multiset ℕ) := by
  obtain ⟨hne, hlen⟩ := hep.leading_of_done hmis hdone
  have hrange : forRange s.firstIteration (loop.stop s.firstIteration) 1 =
      forRange s.firstIteration (min (loop.stop s.firstIteration) loop.trip) 1 := by
    rw [stop, forRange_max, min_eq_right (le_max_left _ _)]
  rw [log_adopt, hlog, hep.effects_leading hne, hlen, reach_numGroups, hrange, Multiset.coe_add,
    forRange_min_append (Nat.zero_le _) le_stop, stop, min_eq_right (le_max_left _ _)]

theorem adopt_recovering (hep : EpisodeOk loop s) (hmis : s.misspeculationHappened = true)
    (hstart : StartOk s)
    (hlog : (s.log : Multiset ℕ) = (forRange 0 (min s.firstIteration loop.trip) 1 : Multiset ℕ))
    (hcond : ∀ c ∈ (leading s.used).getLast?, loop.trip ≤ c.iteration) :
    (s.adopt.log : Multiset ℕ) = (forRange 0 (min (lowIter s.adopt) loop.trip) 1 : Multiset ℕ) ∧
      s.adopt.main.iteration ≤ s.misspeculatedIteration := by
  have hmain : s.adopt.main.iteration =
      ((leading s.used).getLast?.map (fun c => (c.iteration : ℤ))).getD s.main.iteration :=
    (cfg.adoptComplete_eq s.misspeculationHappened s.main s.used).2.2
  cases hlast : (leading s.used).getLast? with
  | none =>
      have hnil := List.getLast?_eq_none_iff.1 hlast
      rw [hlast] at hmain
      change s.adopt.main.iteration = s.main.iteration at hmain
      have hlow : lowIter s.adopt = s.firstIteration := by
        rw [lowIter, hmain]
        exact lowIter_of_startOk hstart
      refine ⟨?_, ?_⟩
      · rw [log_adopt, hnil, hlow, hlog]
        exact add_zero _
      · have hle := (hep.misspec hmis).1
        unfold StartOk at hstart
        rw [hmain]
        omega
  | some c =>
      obtain ⟨hreach, htrip, hmi⟩ := hep.last_leading hmis hlast
      have heq : c.iteration = loop.trip := le_antisymm htrip (hcond c hlast)
      rw [hlast] at hmain
      change s.adopt.main.iteration = (c.iteration : ℤ) at hmain
      have hlow : min (lowIter s.adopt) loop.trip = loop.trip := by
        rw [lowIter, hmain, heq]
        exact min_eq_right (by omega)
      have hfirst : s.firstIteration ≤ loop.trip := by
        rw [← heq, hreach]
        exact first_le_reach
      have hne : leading s.used ≠ [] := fun hnil => by rw [hnil] at hlast; cases hlast
      refine ⟨?_, ?_⟩
      · rw [log_adopt, hlog, hep.effects_leading hne, ← hreach, heq, hlow, min_eq_left hfirst,
          Multiset.coe_add, ← forRange_append (Nat.zero_le _) hfirst]
      · rw [hmain]
        exact_mod_cast hmi

theorem of_adopt (hm : MachineOk loop s.adopt) (hep : EpisodeOk loop s)
    (hdone : ∀ w, (s.procs w).pc = .done) (hstart : StartOk s)
    (hlog : (s.log : Multiset ℕ) = (forRange 0 (min s.firstIteration loop.trip) 1 : Multiset ℕ))
    (hcond : s.misspeculationHappened = true →
      ∀ c ∈ (leading s.used).getLast?, loop.trip ≤ c.iteration) :
    RecoveryOk loop s.adopt := by
  have hpar : s.adopt.phase ≠ .parallel := by
    rw [phase_adopt]
    split_ifs <;> exact Phase.noConfusion
  refine ⟨hm, ⟨fun hp => absurd hp hpar, fun hr => ?_, fun he => ?_⟩, fun hp => absurd hp hpar⟩
  · rw [phase_adopt] at hr
    split_ifs at hr with hmis
    exact adopt_recovering hep hmis hstart hlog (hcond hmis)
  · rw [phase_adopt] at he
    split_ifs at he with hmis
    exact adopt_ended hep (Bool.eq_false_iff.2 hmis) hdone hlog

theorem join (h : RecoveryOk loop s) (hphase : s.phase = .parallel)
    (hdone : ∀ w, (s.procs w).pc = .done) (hm : MachineOk loop s.join)
    (hcond : s.misspeculationHappened = true →
      ∀ c ∈ (leading s.used).getLast?, loop.trip ≤ c.iteration) :
    RecoveryOk loop s.join := by
  have hep := h.machine.episode hphase
  rcases s.join_cases with he | ⟨used, out, hc, he⟩ | ⟨i, he⟩
  · rw [he] at hm ⊢
    exact of_adopt hm hep hdone (h.start hphase) (h.once.running hphase) hcond
  · rw [he] at hm ⊢
    have hsame := sameMain_combined s used out
    refine of_adopt hm (hep.combined hc) ?_ ?_ ?_ (fun hmis c hlast => ?_)
    · rw [procs_combined]
      exact hdone
    · unfold StartOk
      rw [hsame.main, hsame.firstIteration]
      exact h.start hphase
    · rw [hsame.log, hsame.firstIteration]
      exact h.once.running hphase
    · rw [(misspec_combined s used out).1] at hmis
      have hiter := getLast_leading_combined hc
      rw [hlast, Option.map_some] at hiter
      obtain ⟨d, hd, hdc⟩ := Option.map_eq_some_iff.1 hiter.symm
      rw [← hdc]
      exact hcond hmis d hd
  · rw [he] at hm ⊢
    exact ⟨hm, ⟨fun hp => (by cases hp), fun hr => (by cases hr), fun hf => (by cases hf)⟩,
      fun hp => (by cases hp)⟩

/-- The recovery closes the gap up to the iteration that the workers start at again. -/
theorem recover (h : RecoveryOk loop s) (hphase : s.phase = .recovering) {heaps : Main}
    {redux : ReduxHeap} (hm : MachineOk loop (loop.recover s heaps redux)) :
    RecoveryOk loop (loop.recover s heaps redux) := by
  obtain ⟨hlog, hle⟩ := h.once.recovering hphase
  have hlow : lowIter s ≤ s.misspeculatedIteration + 1 := by
    unfold lowIter
    omega
  have hall : ((loop.recover s heaps redux).log : Multiset ℕ) =
      (forRange 0 (min (s.misspeculatedIteration + 1) loop.trip) 1 : Multiset ℕ) := by
    change ((s.log ++ loop.recovered s : List ℕ) : Multiset ℕ) = _
    rw [← Multiset.coe_add, hlog, Multiset.coe_add, recovered,
      forRange_min_append (Nat.zero_le _) hlow]
  refine ⟨hm, ⟨fun _ => hall, fun hr => ?_, fun he => ?_⟩, fun _ => ?_⟩
  · change (if loop.recoveryExits s then Phase.ended else Phase.parallel) = _ at hr
    split_ifs at hr
  · change (if loop.recoveryExits s then Phase.ended else Phase.parallel) = _ at he
    split_ifs at he with hexits
    have htrip := hexits.2
    rw [hall, min_eq_right (by omega)]
  · change (s.misspeculatedIteration : ℤ) + 1 = ((s.misspeculatedIteration + 1 : ℕ) : ℤ)
    push_cast
    rfl

theorem step (h : RecoveryOk loop s) (hcond : a.AdoptsToEnd loop s)
    (hs : loop.step s a = some s') : RecoveryOk loop s' := by
  obtain ⟨htrans, hm⟩ := h.machine.step hs
  cases htrans with
  | quiet hphase same => exact h.of_sameMain hphase same.sameMain hm
  | merge hphase merges ready ends => exact h.of_sameMain hphase ⟨rfl, rfl, rfl, rfl⟩ hm
  | commit hphase commits => exact h.of_sameMain hphase (sameMain_commit s _ _) hm
  | join hphase joins done =>
      subst joins
      exact h.join hphase done hm hcond
  | recover hphase => exact h.recover hphase hm

theorem initial (loop : Loop cfg) (m : Main) (redux : ReduxHeap)
    (procs : Fin cfg.numWorkers → Proc) : RecoveryOk loop (Loop.initial m redux procs) := by
  refine ⟨MachineOk.initial loop m redux procs,
    ⟨fun _ => ?_, fun hr => (by cases hr), fun he => (by cases he)⟩, fun _ => rfl⟩
  change ((([] : List ℕ)) : Multiset ℕ) = (forRange 0 (min 0 loop.trip) 1 : Multiset ℕ)
  rw [Nat.zero_min, forRange_self]

end RecoveryOk

/-- If no boundary inside the loop is adopted last after a misspeculation, every iteration takes
effect once, in every run. -/
theorem iterations_take_effect_once {m : Main} {redux : ReduxHeap}
    {procs : Fin cfg.numWorkers → Proc}
    (h : Run loop.step (fun s a => a.AdoptsToEnd loop s) (Loop.initial m redux procs) s) :
    s.EachOnce loop :=
  (h.invariant (RecoveryOk loop) (RecoveryOk.initial loop m redux procs)
    (fun _ _ _ hok hcond hs => hok.step hcond hs)).once

def Loop.solo (trip : ℕ) (h : trip < lastIteration) :
    Loop (Config.ofWorkers 1 oneWorker_pos oneWorker_le) where
  trip := trip
  trip_lt := h
  owner _ := (0 : Fin 1)
  evts i := [⟨i, 1, []⟩]
  evts_iter i e he := by rw [List.mem_singleton.1 he]

/-- The worker misspeculates in iteration 1 of 3. -/
def recoverOne : List (Action (Config.ofWorkers 1 oneWorker_pos oneWorker_le)) :=
  [.endIter (0 : Fin 1), .misspec (0 : Fin 1), .join,
    .recover Config.zeroMain Config.zeroMain.redux, .endIter (0 : Fin 1),
    .finish (0 : Fin 1) blankChkpt [], .commit (0 : Fin 1), .join]

theorem iterations_take_effect_once_recoverOne :
    ∃ s, Run (solo 3 (by decide)).step (fun s a => a.AdoptsToEnd (solo 3 (by decide)) s)
        zeroStart s ∧ s.phase = .ended ∧ s.log = [0, 1, 2] ∧ s.EachOnce (solo 3 (by decide)) := by
  have hreplay : (Run.replay (solo 3 (by decide)).step
      (fun s a => a.AdoptsToEnd (solo 3 (by decide)) s) zeroStart recoverOne).any
      (fun s => decide (s.phase = .ended ∧ s.log = [0, 1, 2])) = true := by
    decide +kernel
  obtain ⟨s, hrun, hs⟩ := Run.exists_of_any hreplay
  obtain ⟨hphase, hlog⟩ := of_decide_eq_true hs
  exact ⟨s, hrun, hphase, hlog, iterations_take_effect_once hrun⟩

/-- The worker commits its first group of 253 iterations and misspeculates in the next one. -/
def misspecBehindBoundary : List (Action (Config.ofWorkers 1 oneWorker_pos oneWorker_le)) :=
  List.replicate 253 (.endIter (0 : Fin 1)) ++
    [.checkpoint (0 : Fin 1) blankChkpt [], .commit (0 : Fin 1), .misspec (0 : Fin 1), .join,
      .recover Config.zeroMain Config.zeroMain.redux, .finish (0 : Fin 1) blankChkpt [],
      .commit (0 : Fin 1), .join]

/-- A run that ends without the effects of iteration 253. -/
theorem recovery_skips_iteration : ¬ ∀ (cfg : Config) (loop : Loop cfg) (m : Main)
    (redux : ReduxHeap) (procs : Fin cfg.numWorkers → Proc) (s : State cfg),
    Run loop.step (fun _ _ => True) (Loop.initial m redux procs) s → s.EachOnce loop := by
  intro hall
  have hreplay : (Run.replay (solo 254 (by decide)).step (fun _ _ => True) zeroStart
      misspecBehindBoundary).any (fun s => decide (s.phase = .ended ∧ 253 ∉ s.log)) = true := by
    decide +kernel
  obtain ⟨s, hrun, hs⟩ := Run.exists_of_any hreplay
  obtain ⟨hphase, hmissing⟩ := of_decide_eq_true hs
  have hended := (hall _ _ _ _ _ s hrun).ended hphase
  have hmem : 253 ∈ (s.log : Multiset ℕ) := by
    rw [hended, Multiset.mem_coe]
    exact mem_forRange_one.2 ⟨Nat.zero_le _, by decide⟩
  exact hmissing (Multiset.mem_coe.1 hmem)

end Cpf.Executive
