import Cpf.Executive.Conflicts

/-!
# Checkpoints with a conflict are not committed

In every run whose merges that complete a checkpoint are clean, a reported conflict keeps its
checkpoint, and those behind it, away from the main process. Without the condition it does not.
-/

namespace Cpf.Executive

open Loop State

variable {cfg : Config} {loop : Loop cfg} {s s' : State cfg} {a : Action cfg}

/-- What the runs under the condition keep. -/
structure ContainedOk (loop : Loop cfg) (s : State cfg) : Prop where
  machine : MachineOk loop s
  contained : s.Contained
  conflicts : s.phase = .parallel → s.ConflictsOk

namespace ContainedOk

theorem of_parallel (h : MachineOk loop s) (hphase : s.phase = .parallel) (hc : s.ConflictsOk) :
    ContainedOk loop s :=
  ⟨h, hc.contained (h.episode hphase) hphase, fun _ => hc⟩

theorem of_adopt (h : MachineOk loop s.adopt) (hep : EpisodeOk loop s) (hc : s.ConflictsOk)
    (hdone : ∀ w, (s.procs w).pc = .done) : ContainedOk loop s.adopt := by
  refine ⟨h, hc.adopt hep hdone, fun hphase => ?_⟩
  change (if s.misspeculationHappened = true then Phase.recovering else Phase.ended) = _ at hphase
  split_ifs at hphase

theorem join (h : ContainedOk loop s) (hphase : s.phase = .parallel)
    (hdone : ∀ w, (s.procs w).pc = .done) (hm : MachineOk loop s.join) :
    ContainedOk loop s.join := by
  have hep := h.machine.episode hphase
  have hconf := h.conflicts hphase
  rcases s.join_cases with he | ⟨used, out, hc, he⟩ | ⟨i, he⟩
  · rw [he] at hm ⊢
    exact of_adopt hm hep hconf hdone
  · rw [he] at hm ⊢
    refine of_adopt hm (hep.combined hc) (hconf.combined hc) ?_
    rw [procs_combined]
    exact hdone
  · rw [he] at hm ⊢
    exact ⟨hm, ⟨h.contained.incomplete, h.contained.before, fun _ _ => rfl⟩,
      fun hlost => (by cases hlost)⟩

theorem recover (hphase : s.phase = .recovering) (h : ContainedOk loop s) {heaps : Main}
    {redux : ReduxHeap} (hm : MachineOk loop (loop.recover s heaps redux)) :
    ContainedOk loop (loop.recover s heaps redux) := by
  have hused : (loop.recover s heaps redux).used = [] := h.machine.joined hphase
  have hconf : (loop.recover s heaps redux).ConflictsOk :=
    ⟨fun c hc => (by rw [hused] at hc; cases hc), fun b hb => (by cases hb), fun b hb => (by cases hb)⟩
  refine ⟨hm, ⟨hconf.incomplete, fun b hb => (by cases hb), fun _ hne => absurd rfl hne⟩,
    fun _ => hconf⟩

theorem step (h : ContainedOk loop s) (hclean : a.CompletesClean s)
    (hs : loop.step s a = some s') : ContainedOk loop s' := by
  obtain ⟨htrans, hm⟩ := h.machine.step hs
  cases htrans with
  | quiet hphase same =>
      exact of_parallel hm (same.phase.trans hphase)
        ((h.conflicts hphase).of_eq same.used same.merged same.conflicts)
  | merge hphase merges ready ends =>
      refine of_parallel hm hphase ((h.conflicts hphase).merge (h.machine.episode hphase) ends ready ?_ _)
      rcases merges with ⟨rfl, rfl, rfl⟩ | ⟨rfl, rfl, rfl⟩
      · exact hclean
      · exact hclean
  | commit hphase commits =>
      exact of_parallel hm ((sameMain_commit s _ _).phase.trans hphase) ((h.conflicts hphase).commit _)
  | join hphase joins done => exact h.join hphase done hm
  | recover hphase => exact recover hphase h hm

theorem initial (loop : Loop cfg) (m : Main) (redux : ReduxHeap)
    (procs : Fin cfg.numWorkers → Proc) : ContainedOk loop (Loop.initial m redux procs) :=
  of_parallel (MachineOk.initial loop m redux procs) rfl
    ⟨fun c hc => (by cases hc), fun b hb => (by cases hb), fun b hb => (by cases hb)⟩

end ContainedOk

/-- If no checkpoint is completed with or after a conflict, conflicts are contained in every state
of every run. -/
theorem conflicts_contained {m : Main} {redux : ReduxHeap} {procs : Fin cfg.numWorkers → Proc}
    (h : Run loop.step (fun s a => a.CompletesClean s) (Loop.initial m redux procs) s) :
    s.Contained :=
  (h.invariant (ContainedOk loop) (ContainedOk.initial loop m redux procs)
    (fun _ _ _ hok hclean hs => hok.step hclean hs)).contained

def Loop.onePerWorker (n : ℕ) (hpos : 1 ≤ n) (hle : n ≤ maxWorkers) :
    Loop (Config.ofWorkers n hpos hle) where
  trip := n
  trip_lt := lt_lastIteration hle
  owner i := ⟨i % n, Nat.mod_lt i hpos⟩
  evts _ := []
  evts_iter := iter_of_mem_nil

/-- Worker 0 writes byte 0, worker 1 reads it and merges second, and worker 2 misspeculates. -/
def thirdStops : List (Action (Config.ofWorkers 3 (by decide) (by decide))) :=
  [.access (0 : Fin 3) ⟨.write1b 0, fun _ => 1⟩, .endIter (0 : Fin 3), .endIter (0 : Fin 3),
    .endIter (0 : Fin 3), .endIter (1 : Fin 3), .access (1 : Fin 3) ⟨.read1b 0 "x", fun _ => 0⟩,
    .endIter (1 : Fin 3), .endIter (1 : Fin 3), .finish (0 : Fin 3) blankChkpt [],
    .finish (1 : Fin 3) blankChkpt [], .commit (0 : Fin 3), .commit (1 : Fin 3),
    .misspec (2 : Fin 3), .join]

theorem conflicts_contained_thirdStops : ∃ s : State (Config.ofWorkers 3 (by decide) (by decide)),
    Run (onePerWorker 3 (by decide) (by decide)).step (fun s a => a.CompletesClean s) zeroStart s ∧
      s.conflicts = [lastIteration] ∧ s.adopted = [] ∧ s.Contained := by
  have hreplay : (Run.replay (onePerWorker 3 (by decide) (by decide)).step
      (fun s a => a.CompletesClean s) zeroStart thirdStops).any
      (fun s => decide (s.conflicts = [lastIteration] ∧ s.adopted = [])) = true := by
    decide +kernel
  obtain ⟨s, hrun, hs⟩ := Run.exists_of_any hreplay
  obtain ⟨hconf, hadopted⟩ := of_decide_eq_true hs
  exact ⟨s, hrun, hconf, hadopted, conflicts_contained hrun⟩

/-- Worker 0 writes byte 0, worker 1 reads it, and both merge. -/
def bothMerge : List (Action (Config.ofWorkers 2 twoWorkers_pos twoWorkers_le)) :=
  [.access (0 : Fin 2) ⟨.write1b 0, fun _ => 1⟩, .endIter (0 : Fin 2), .endIter (0 : Fin 2),
    .endIter (1 : Fin 2), .access (1 : Fin 2) ⟨.read1b 0 "x", fun _ => 0⟩, .endIter (1 : Fin 2),
    .finish (0 : Fin 2) blankChkpt [], .finish (1 : Fin 2) blankChkpt [], .commit (0 : Fin 2),
    .commit (1 : Fin 2), .join]

/-- A run that adopts a checkpoint with a reported conflict and ends without a misspeculation. -/
theorem conflict_is_adopted : ¬ ∀ (cfg : Config) (loop : Loop cfg) (m : Main) (redux : ReduxHeap)
    (procs : Fin cfg.numWorkers → Proc) (s : State cfg),
    Run loop.step (fun _ _ => True) (Loop.initial m redux procs) s → s.Contained := by
  intro hall
  have hreplay : (Run.replay (onePerWorker 2 (by decide) (by decide)).step (fun _ _ => True)
      zeroStart bothMerge).any (fun s => decide (s.phase = .ended ∧
        s.misspeculationHappened = false ∧ s.conflicts = [lastIteration] ∧
        s.adopted = [lastIteration])) = true := by
    decide +kernel
  obtain ⟨s, hrun, hs⟩ := Run.exists_of_any hreplay
  obtain ⟨hphase, hmis, hconf, _⟩ := of_decide_eq_true hs
  have hcontained := hall _ _ _ _ _ s hrun
  have hset := hcontained.misspec (by simp [hphase]) (by simp [hconf])
  rw [hmis] at hset
  cases hset

end Cpf.Executive
