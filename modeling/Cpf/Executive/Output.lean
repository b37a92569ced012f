import Cpf.Executive.Recovery

/-!
# Deferred output is written once

A checkpoint's output is written when it is combined into the next one or adopted. After a
misspeculation the recovery writes the output of the iterations it executes: those that it repeats
must not have been written with a combined checkpoint, and the one that it skips must have none.
-/

namespace Cpf.Executive

open Loop

variable {cfg : Config} {loop : Loop cfg} {s s' : State cfg} {a : Action cfg}

instance (e : IOEvtSet) (w : ℕ) : Decidable (e.NoOverrun w) :=
  inferInstanceAs (Decidable (∀ x ∈ (e.lists w)[e.num w - 1]?, ∀ y ∈ (e.lists w)[e.num w]?,
    e.num w ≠ 0 → y.iter ≠ x.iter))

namespace State

/-- No list of the checkpoint runs into the memory behind it. -/
def NoOverruns (cfg : Config) (c : Checkpoint) : Prop :=
  ∀ w < cfg.numWorkers, c.ioEvents.NoOverrun w

instance (c : Checkpoint) : Decidable (NoOverruns cfg c) :=
  inferInstanceAs (Decidable (∀ w < cfg.numWorkers, c.ioEvents.NoOverrun w))

/-- The recovery goes on with the output where the checkpoints have stopped: what it repeats after
nothing was adopted was not written, and what it skips behind the last adopted boundary has no
output. -/
def ResumesOutput (loop : Loop cfg) (s : State cfg) : Prop :=
  match (leading s.used).getLast? with
  | none => ∀ b ∈ s.emitted, ∀ i ∈ forRange s.firstIteration b 1, loop.evts i = []
  | some c => c.iteration < loop.trip → loop.evts c.iteration = []

instance (loop : Loop cfg) (s : State cfg) : Decidable (s.ResumesOutput loop) :=
  match h : (leading s.used).getLast? with
  | none => decidable_of_iff
      (∀ b ∈ s.emitted, ∀ i ∈ forRange s.firstIteration b 1, loop.evts i = [])
      (by rw [ResumesOutput, h])
  | some c => decidable_of_iff (c.iteration < loop.trip → loop.evts c.iteration = [])
      (by rw [ResumesOutput, h])

/-- The output so far is the beginning of the output of the loop, and in the end all of it. -/
structure WrittenOnce (loop : Loop cfg) (s : State cfg) : Prop where
  inOrder : s.output <+: (forRange 0 loop.trip 1).flatMap loop.evts
  ended : s.phase = .ended → s.output = (forRange 0 loop.trip 1).flatMap loop.evts

end State

/-- The condition on a commit and on a join. -/
def Action.WritesOnce (loop : Loop cfg) (s : State cfg) : Action cfg → Prop
  | .commit _ => ∀ c ∈ s.used.head?, c.type = .clComplete → State.NoOverruns cfg c
  | .join => (∀ c ∈ leading s.used, State.NoOverruns cfg c) ∧
      (s.misspeculationHappened = true → s.ResumesOutput loop)
  | _ => True

instance (loop : Loop cfg) (s : State cfg) (a : Action cfg) : Decidable (a.WritesOnce loop s) :=
  match a with
  | .commit _ => inferInstanceAs (Decidable (∀ c ∈ s.used.head?, _ → _))
  | .join => inferInstanceAs (Decidable (_ ∧ (_ → _)))
  | .checkpoint _ _ _ => inferInstanceAs (Decidable True)
  | .finish _ _ _ => inferInstanceAs (Decidable True)
  | .access _ _ => inferInstanceAs (Decidable True)
  | .update _ _ _ _ => inferInstanceAs (Decidable True)
  | .endIter _ => inferInstanceAs (Decidable True)
  | .skip _ => inferInstanceAs (Decidable True)
  | .misspec _ => inferInstanceAs (Decidable True)
  | .recover _ _ => inferInstanceAs (Decidable True)

namespace Loop

def outputTo (loop : Loop cfg) (i : ℕ) : List IOEvt :=
  (forRange 0 (min i loop.trip) 1).flatMap loop.evts

theorem outputTo_append {i j : ℕ} (h : i ≤ j) :
    loop.outputTo i ++ (forRange i (min j loop.trip) 1).flatMap loop.evts = loop.outputTo j := by
  rw [outputTo, ← List.flatMap_append, forRange_min_append (Nat.zero_le _) h, outputTo]

theorem outputTo_of_le {i : ℕ} (h : loop.trip ≤ i) :
    loop.outputTo i = (forRange 0 loop.trip 1).flatMap loop.evts := by
  rw [outputTo, min_eq_right h]

theorem outputTo_isPrefixOf (i : ℕ) :
    loop.outputTo i <+: (forRange 0 loop.trip 1).flatMap loop.evts := by
  rw [← outputTo_of_le (le_max_right i loop.trip), ← outputTo_append (le_max_left i loop.trip)]
  exact List.prefix_append _ _

theorem outputTo_eq {i j : ℕ} (h : i ≤ j) (hnil : ∀ k, i ≤ k → k < min j loop.trip → loop.evts k = []) :
    loop.outputTo j = loop.outputTo i := by
  rw [← outputTo_append h]
  refine List.append_right_eq_self.2 (List.flatMap_eq_nil_iff.2 (fun k hk => ?_))
  obtain ⟨hik, hkj⟩ := mem_forRange_one.1 hk
  exact hnil k hik hkj

/-- Workers that start behind the end of the loop have no groups with iterations. -/
theorem forRange_reach (first m m' : ℕ) :
    forRange (loop.reach first m) (loop.reach first m') 1 =
      forRange (loop.reach first m) (min (loop.reach first m') loop.trip) 1 := by
  have hstop : loop.reach first m' ≤ loop.stop first := min_le_right _ _
  rcases le_total first loop.trip with h | h
  · rw [stop, max_eq_left h] at hstop
    rw [min_eq_left hstop]
  · rw [stop, max_eq_right h] at hstop
    have hfirst : first ≤ loop.reach first m := first_le_reach
    have hle := hstop.trans hfirst
    rw [forRange_of_le hle, forRange_of_le ((min_le_left _ _).trans hle)]

end Loop

/-- What the runs under the condition keep. -/
structure OutputOk (loop : Loop cfg) (s : State cfg) : Prop where
  machine : MachineOk loop s
  start : s.phase = .parallel → StartOk s
  running : s.phase = .parallel →
    s.output = loop.outputTo (loop.reach s.firstIteration s.emitted.length)
  recovering : s.phase = .recovering →
    s.output = loop.outputTo (lowIter s) ∧ s.main.iteration ≤ s.misspeculatedIteration
  ended : s.phase = .ended → s.output = loop.outputTo loop.trip
  lost : s.phase = .lost → ∃ i, s.output = loop.outputTo i

namespace OutputOk

theorem of_parallel (hm : MachineOk loop s) (hphase : s.phase = .parallel) (hstart : StartOk s)
    (hout : s.output = loop.outputTo (loop.reach s.firstIteration s.emitted.length)) :
    OutputOk loop s := by
  refine ⟨hm, fun _ => hstart, fun _ => hout, fun hr => ?_, fun he => ?_, fun hl => ?_⟩
  · rw [hphase] at hr
    cases hr
  · rw [hphase] at he
    cases he
  · rw [hphase] at hl
    cases hl

theorem writtenOnce (h : OutputOk loop s) : s.WrittenOnce loop := by
  refine ⟨?_, fun he => ?_⟩
  · cases hphase : s.phase with
    | parallel =>
        rw [h.running hphase]
        exact outputTo_isPrefixOf _
    | recovering =>
        rw [(h.recovering hphase).1]
        exact outputTo_isPrefixOf _
    | ended =>
        rw [h.ended hphase]
        exact outputTo_isPrefixOf _
    | lost =>
        obtain ⟨i, hi⟩ := h.lost hphase
        rw [hi]
        exact outputTo_isPrefixOf _
  · rw [h.ended he, outputTo_of_le le_rfl]

theorem combined (hep : EpisodeOk loop s)
    (hout : s.output = loop.outputTo (loop.reach s.firstIteration s.emitted.length))
    {used : List Checkpoint} {out : List IOEvt}
    (hc : cfg.commitZeroOrMoreCheckpoints s.used = .combined used out)
    (hrun : ∀ c ∈ s.used.head?, c.type = .clComplete → State.NoOverruns cfg c) :
    (s.combined used out).output = loop.outputTo
      (loop.reach (s.combined used out).firstIteration (s.combined used out).emitted.length) := by
  obtain ⟨alpha, beta, newer, rest, hused, rfl, hat, _, hcomb⟩ := Config.commit_combined hc
  obtain ⟨_, _, _, hwritten⟩ := Config.combineCheckpoints_ok hcomb
  have hgroups := hep.groups
  have hlen := hep.length_le
  rw [hused] at hgroups hlen hrun
  rw [List.length_cons, List.length_cons] at hlen
  have halpha := hgroups.1.output_of_complete (by omega) hat (hrun alpha rfl hat)
  rw [forRange_reach] at halpha
  simp only [State.combined, hused]
  rw [hwritten, halpha, hout, outputTo_append (reach_mono (Nat.le_succ _)), List.length_append,
    List.length_singleton]

theorem commit (h : OutputOk loop s) (hphase : s.phase = .parallel) {w : Fin cfg.numWorkers}
    {pc : Pc} (hm : MachineOk loop (s.commit w pc))
    (hrun : ∀ c ∈ s.used.head?, c.type = .clComplete → State.NoOverruns cfg c) :
    OutputOk loop (s.commit w pc) := by
  have hsame := sameMain_commit s w pc
  refine of_parallel hm (hsame.phase.trans hphase) ?_ ?_
  · unfold StartOk
    rw [hsame.main, hsame.firstIteration]
    exact h.start hphase
  · unfold State.commit
    cases hc : cfg.commitZeroOrMoreCheckpoints s.used with
    | nothing => exact h.running hphase
    | combined used out => exact combined (h.machine.episode hphase) (h.running hphase) hc hrun
    | conflict used i => exact h.running hphase

theorem noOverruns_combined {used : List Checkpoint} {out : List IOEvt}
    (hc : cfg.commitZeroOrMoreCheckpoints s.used = .combined used out)
    (hrun : ∀ c ∈ leading s.used, State.NoOverruns cfg c) :
    ∀ c ∈ leading (s.combined used out).used, State.NoOverruns cfg c := by
  obtain ⟨alpha, beta, newer, rest, hused, rfl, hat, hbt, hcomb⟩ := Config.commit_combined hc
  obtain ⟨img, _, hnewer, _⟩ := Config.combineCheckpoints_ok hcomb
  have hnt : newer.type = .clComplete := by rw [hnewer, ← hbt]
  have hs : (s.combined (newer :: rest) out).used = newer :: rest := by
    simp only [State.combined, hused]
  rw [hused, leading_cons_of_complete hat, leading_cons_of_complete hbt] at hrun
  rw [hs, leading_cons_of_complete hnt]
  intro c hmem
  rcases List.mem_cons.1 hmem with rfl | hrest
  · intro w hw
    rw [hnewer]
    exact hrun beta (by simp) w hw
  · exact hrun c (by simp [hrest])

theorem resumesOutput_combined {used : List Checkpoint} {out : List IOEvt}
    (hc : cfg.commitZeroOrMoreCheckpoints s.used = .combined used out)
    (h : s.ResumesOutput loop) : (s.combined used out).ResumesOutput loop := by
  have hiter := getLast_leading_combined hc
  unfold State.ResumesOutput at h ⊢
  cases hlast : (leading (s.combined used out).used).getLast? with
  | none =>
      obtain ⟨alpha, beta, _, rest, hused, _, hat, hbt, _⟩ := Config.commit_combined hc
      rw [hlast, hused, leading_cons_of_complete hat, List.getLast?_cons] at hiter
      cases hiter
  | some c =>
      rw [hlast, Option.map_some] at hiter
      obtain ⟨d, hd, hdc⟩ := Option.map_eq_some_iff.1 hiter.symm
      rw [hd] at h
      dsimp only at h ⊢
      rwa [← hdc]

/-- The output after an adoption, before the recovery. -/
theorem output_adopt (hep : EpisodeOk loop s)
    (hout : s.output = loop.outputTo (loop.reach s.firstIteration s.emitted.length))
    (hrun : ∀ c ∈ leading s.used, State.NoOverruns cfg c) :
    s.adopt.output = loop.outputTo (loop.reach s.firstIteration
      (s.emitted.length + (leading s.used).length)) := by
  change s.output ++ (cfg.adoptComplete s.misspeculationHappened s.main s.used).output = _
  rw [(cfg.adoptComplete_eq s.misspeculationHappened s.main s.used).2.1, hout,
    hep.output_leading hrun, forRange_reach, outputTo_append (reach_mono (Nat.le_add_right _ _))]

/-- The combined groups end at the last boundary whose output was written. -/
theorem reach_emitted (hep : EpisodeOk loop s) :
    loop.reach s.firstIteration s.emitted.length = s.firstIteration ∨
      loop.reach s.firstIteration s.emitted.length ∈ s.emitted := by
  rcases Nat.eq_zero_or_pos s.emitted.length with hz | hpos
  · rw [hz, reach_eq (Nat.succ_pos _), groupStart_zero]
    exact Or.inl rfl
  · have hw : Fin cfg.numWorkers := ⟨0, cfg.workers_pos⟩
    have hlt := lt_of_lt_of_le (hep.passed hpos hw) (hep.procs hw).merges_le
    obtain ⟨k, hk⟩ : ∃ k, s.emitted.length = k + 1 := ⟨s.emitted.length - 1, by omega⟩
    refine Or.inr ?_
    rw [hep.emitted, List.length_map, List.length_range, hk, reach_eq (hk ▸ hlt),
      ← boundary_of_lt (hk ▸ hlt)]
    exact List.mem_map_of_mem (List.mem_range.2 (Nat.lt_succ_self k))

theorem adopt_recovering (hep : EpisodeOk loop s) (hmis : s.misspeculationHappened = true)
    (hstart : StartOk s)
    (hout : s.adopt.output = loop.outputTo (loop.reach s.firstIteration
      (s.emitted.length + (leading s.used).length)))
    (hcond : s.ResumesOutput loop) :
    s.adopt.output = loop.outputTo (lowIter s.adopt) ∧
      s.adopt.main.iteration ≤ s.misspeculatedIteration := by
  have hmain : s.adopt.main.iteration =
      ((leading s.used).getLast?.map (fun c => (c.iteration : ℤ))).getD s.main.iteration :=
    (cfg.adoptComplete_eq s.misspeculationHappened s.main s.used).2.2
  unfold State.ResumesOutput at hcond
  cases hlast : (leading s.used).getLast? with
  | none =>
      rw [hlast] at hmain hcond
      change s.adopt.main.iteration = s.main.iteration at hmain
      dsimp only at hcond
      have hlow : lowIter s.adopt = s.firstIteration := by
        rw [lowIter, hmain]
        exact lowIter_of_startOk hstart
      refine ⟨?_, ?_⟩
      · rw [hout, hlow, List.getLast?_eq_none_iff.1 hlast, List.length_nil, Nat.add_zero]
        refine outputTo_eq first_le_reach (fun k hk hk' => ?_)
        have hlt := lt_of_lt_of_le hk' (min_le_left _ _)
        rcases reach_emitted hep with heq | hmem
        · omega
        · exact hcond _ hmem k (mem_forRange_one.2 ⟨hk, hlt⟩)
      · have hle := (hep.misspec hmis).1
        unfold StartOk at hstart
        rw [hmain]
        omega
  | some c =>
      obtain ⟨hreach, _, hmi⟩ := hep.last_leading hmis hlast
      rw [hlast] at hmain hcond
      change s.adopt.main.iteration = (c.iteration : ℤ) at hmain
      dsimp only at hcond
      have hlow : lowIter s.adopt = c.iteration + 1 := by
        rw [lowIter, hmain]
        omega
      refine ⟨?_, ?_⟩
      · rw [hout, hlow, ← hreach]
        refine (outputTo_eq (Nat.le_succ _) (fun k hk hk' => ?_)).symm
        have hlt : k < c.iteration + 1 := lt_of_lt_of_le hk' (min_le_left _ _)
        have htrip : k < loop.trip := lt_of_lt_of_le hk' (min_le_right _ _)
        obtain rfl : k = c.iteration := by omega
        exact hcond htrip
      · rw [hmain]
        exact_mod_cast hmi

theorem of_adopt (hm : MachineOk loop s.adopt) (hep : EpisodeOk loop s)
    (hdone : ∀ w, (s.procs w).pc = .done) (hstart : StartOk s)
    (hout : s.output = loop.outputTo (loop.reach s.firstIteration s.emitted.length))
    (hrun : ∀ c ∈ leading s.used, State.NoOverruns cfg c)
    (hcond : s.misspeculationHappened = true → s.ResumesOutput loop) : OutputOk loop s.adopt := by
  have hadopt := output_adopt hep hout hrun
  have hpar : s.adopt.phase ≠ .parallel := by
    rw [RecoveryOk.phase_adopt]
    split_ifs <;> exact Phase.noConfusion
  refine ⟨hm, fun hp => absurd hp hpar, fun hp => absurd hp hpar, fun hr => ?_, fun he => ?_,
    fun hl => ?_⟩
  · rw [RecoveryOk.phase_adopt] at hr
    split_ifs at hr with hmis
    exact adopt_recovering hep hmis hstart hadopt (hcond hmis)
  · rw [RecoveryOk.phase_adopt] at he
    split_ifs at he with hmis
    rw [hadopt, (hep.leading_of_done (Bool.eq_false_iff.2 hmis) hdone).2, reach_numGroups, stop,
      outputTo_of_le (le_max_left _ _), outputTo_of_le le_rfl]
  · rw [RecoveryOk.phase_adopt] at hl
    split_ifs at hl

theorem join (h : OutputOk loop s) (hphase : s.phase = .parallel)
    (hdone : ∀ w, (s.procs w).pc = .done) (hm : MachineOk loop s.join)
    (hrun : ∀ c ∈ leading s.used, State.NoOverruns cfg c)
    (hcond : s.misspeculationHappened = true → s.ResumesOutput loop) : OutputOk loop s.join := by
  have hep := h.machine.episode hphase
  rcases s.join_cases with he | ⟨used, out, hc, he⟩ | ⟨i, he⟩
  · rw [he] at hm ⊢
    exact of_adopt hm hep hdone (h.start hphase) (h.running hphase) hrun hcond
  · rw [he] at hm ⊢
    have hsame := sameMain_combined s used out
    refine of_adopt hm (hep.combined hc) ?_ ?_ (combined hep (h.running hphase) hc (fun c hc' ht => ?_))
      (noOverruns_combined hc hrun) (fun hmis => ?_)
    · rw [procs_combined]
      exact hdone
    · unfold StartOk
      rw [hsame.main, hsame.firstIteration]
      exact h.start hphase
    · refine hrun c ?_
      obtain ⟨cs, hcs⟩ := List.head?_eq_some_iff.1 hc'
      rw [hcs, leading_cons_of_complete ht]
      exact List.mem_cons_self
    · rw [(misspec_combined s used out).1] at hmis
      exact resumesOutput_combined hc (hcond hmis)
  · rw [he] at hm ⊢
    exact ⟨hm, fun hp => (by cases hp), fun hp => (by cases hp), fun hr => (by cases hr),
      fun hf => (by cases hf), fun _ => ⟨_, h.running hphase⟩⟩

theorem recover (h : OutputOk loop s) (hphase : s.phase = .recovering) {heaps : Main}
    {redux : ReduxHeap} (hm : MachineOk loop (loop.recover s heaps redux)) :
    OutputOk loop (loop.recover s heaps redux) := by
  obtain ⟨hout, hle⟩ := h.recovering hphase
  have hlow : lowIter s ≤ s.misspeculatedIteration + 1 := by
    unfold lowIter
    omega
  have hall : (loop.recover s heaps redux).output =
      loop.outputTo (s.misspeculatedIteration + 1) := by
    change s.output ++ (loop.recovered s).flatMap loop.evts = _
    rw [hout, recovered, outputTo_append hlow]
  refine ⟨hm, fun _ => ?_, fun _ => ?_, fun hr => ?_, fun he => ?_, fun hl => ?_⟩
  · change (s.misspeculatedIteration : ℤ) + 1 = ((s.misspeculatedIteration + 1 : ℕ) : ℤ)
    push_cast
    rfl
  · rw [hall]
    change _ = loop.outputTo (loop.reach (s.misspeculatedIteration + 1) 0)
    rw [reach_eq (Nat.succ_pos _), groupStart_zero]
  · change (if loop.recoveryExits s then Phase.ended else Phase.parallel) = _ at hr
    split_ifs at hr
  · change (if loop.recoveryExits s then Phase.ended else Phase.parallel) = _ at he
    split_ifs at he with hexits
    have htrip := hexits.2
    rw [hall, outputTo_of_le (by omega), outputTo_of_le le_rfl]
  · change (if loop.recoveryExits s then Phase.ended else Phase.parallel) = _ at hl
    split_ifs at hl

theorem step (h : OutputOk loop s) (hcond : a.WritesOnce loop s)
    (hs : loop.step s a = some s') : OutputOk loop s' := by
  obtain ⟨htrans, hm⟩ := h.machine.step hs
  cases htrans with
  | quiet hphase same =>
      refine of_parallel hm (same.phase.trans hphase) ?_ ?_
      · unfold StartOk
        rw [same.main, same.firstIteration]
        exact h.start hphase
      · rw [same.output, same.firstIteration, same.emitted]
        exact h.running hphase
  | merge hphase merges ready ends => exact of_parallel hm hphase (h.start hphase) (h.running hphase)
  | commit hphase commits =>
      subst commits
      exact h.commit hphase hm hcond
  | join hphase joins done =>
      subst joins
      exact h.join hphase done hm hcond.1 hcond.2
  | recover hphase => exact h.recover hphase hm

theorem initial (loop : Loop cfg) (m : Main) (redux : ReduxHeap)
    (procs : Fin cfg.numWorkers → Proc) : OutputOk loop (Loop.initial m redux procs) := by
  refine of_parallel (MachineOk.initial loop m redux procs) rfl rfl ?_
  change [] = loop.outputTo (loop.reach 0 0)
  rw [reach_eq (Nat.succ_pos _), groupStart_zero, outputTo, Nat.zero_min, forRange_self]
  rfl

end OutputOk

/-- If the output resumes where it has stopped after every misspeculation and no event list runs
over, the output is in every state of every run the beginning of the output of the loop, and all of
it in the end. -/
theorem output_written_once {m : Main} {redux : ReduxHeap} {procs : Fin cfg.numWorkers → Proc}
    (h : Run loop.step (fun s a => a.WritesOnce loop s) (Loop.initial m redux procs) s) :
    s.WrittenOnce loop :=
  (h.invariant (OutputOk loop) (OutputOk.initial loop m redux procs)
    (fun _ _ _ hok hcond hs => hok.step hcond hs)).writtenOnce

theorem output_written_once_recoverOne :
    ∃ s, Run (solo 3 (by decide)).step (fun s a => a.WritesOnce (solo 3 (by decide)) s)
        zeroStart s ∧ s.phase = .ended ∧ s.output = [⟨0, 1, []⟩, ⟨1, 1, []⟩, ⟨2, 1, []⟩] ∧
      s.WrittenOnce (solo 3 (by decide)) := by
  have hreplay : (Run.replay (solo 3 (by decide)).step
      (fun s a => a.WritesOnce (solo 3 (by decide)) s) zeroStart recoverOne).any
      (fun s => decide (s.phase = .ended ∧
        s.output = [⟨0, 1, []⟩, ⟨1, 1, []⟩, ⟨2, 1, []⟩])) = true := by
    decide +kernel
  obtain ⟨s, hrun, hs⟩ := Run.exists_of_any hreplay
  obtain ⟨hphase, hout⟩ := of_decide_eq_true hs
  exact ⟨s, hrun, hphase, hout, output_written_once hrun⟩

/-- A run that ends without the output of iteration 253. -/
theorem recovery_skips_output : ¬ ∀ (cfg : Config) (loop : Loop cfg) (m : Main)
    (redux : ReduxHeap) (procs : Fin cfg.numWorkers → Proc) (s : State cfg),
    Run loop.step (fun _ _ => True) (Loop.initial m redux procs) s → s.WrittenOnce loop := by
  intro hall
  have hreplay : (Run.replay (solo 254 (by decide)).step (fun _ _ => True) zeroStart
      misspecBehindBoundary).any
      (fun s => decide (s.phase = .ended ∧ ⟨253, 1, []⟩ ∉ s.output)) = true := by
    decide +kernel
  obtain ⟨s, hrun, hs⟩ := Run.exists_of_any hreplay
  obtain ⟨hphase, hmissing⟩ := of_decide_eq_true hs
  have hended := (hall _ _ _ _ _ s hrun).ended hphase
  refine hmissing ?_
  rw [hended, List.mem_flatMap]
  exact ⟨253, mem_forRange_one.2 ⟨Nat.zero_le _, by decide⟩, List.mem_singleton.2 rfl⟩

end Cpf.Executive
