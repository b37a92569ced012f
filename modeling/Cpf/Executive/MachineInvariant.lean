import Cpf.Executive.AccessSpec
import Cpf.Executive.EpisodeSteps

/-!
# Every step of the machine

`Transition` says once what a step can do; most steps change one worker only. `MachineOk` holds in
every reachable state.
-/

namespace Cpf.Executive

open Loop

variable {cfg : Config} {loop : Loop cfg} {s s' : State cfg} {a : Action cfg}
  {w : Fin cfg.numWorkers}

/-- Only workers and the misspeculation flag have changed. -/
structure Quiet (s s' : State cfg) : Prop where
  phase : s'.phase = s.phase
  main : s'.main = s.main
  firstIteration : s'.firstIteration = s.firstIteration
  used : s'.used = s.used
  output : s'.output = s.output
  log : s'.log = s.log
  merged : s'.merged = s.merged
  conflicts : s'.conflicts = s.conflicts
  adopted : s'.adopted = s.adopted
  emitted : s'.emitted = s.emitted

def Action.MergesAt (a : Action cfg) (s : State cfg) (w : Fin cfg.numWorkers) (object : Checkpoint)
    (behind : List IOEvt) (iter : ℕ) (isFinalCheckpoint : Bool) : Prop :=
  (a = .checkpoint w object behind ∧ iter = (s.procs w).currentIter ∧ isFinalCheckpoint = false) ∨
    (a = .finish w object behind ∧ iter = lastIteration ∧ isFinalCheckpoint = true)

inductive Transition (loop : Loop cfg) (s : State cfg) (a : Action cfg) : State cfg → Prop
  | quiet {s' : State cfg} (phase : s.phase = .parallel) (same : Quiet s s') :
      Transition loop s a s'
  | merge {w : Fin cfg.numWorkers} {object : Checkpoint} {behind : List IOEvt} {iter : ℕ} {b : Bool}
      (phase : s.phase = .parallel) (merges : a.MergesAt s w object behind iter b)
      (ready : s.misspeculatedBefore (s.procs w).currentIter = false)
      (ends : EpisodeOk.AtGroupEnd loop s w iter b) :
      Transition loop s a (s.performCheckpoint w object behind iter b)
  | commit {w : Fin cfg.numWorkers} {pc : Pc} (phase : s.phase = .parallel) (commits : a = .commit w) :
      Transition loop s a (s.commit w pc)
  | join (phase : s.phase = .parallel) (joins : a = .join) (done : ∀ w, (s.procs w).pc = .done) :
      Transition loop s a s.join
  | recover {heaps : Main} {redux : ReduxHeap} (phase : s.phase = .recovering) :
      Transition loop s a (loop.recover s heaps redux)

structure MachineOk (loop : Loop cfg) (s : State cfg) : Prop where
  episode : s.phase = .parallel → EpisodeOk loop s
  joined : s.phase = .recovering → s.used = []

theorem quiet_setProc (s : State cfg) (w : Fin cfg.numWorkers) (p : Proc) :
    Quiet s (s.setProc w p) := ⟨rfl, rfl, rfl, rfl, rfl, rfl, rfl, rfl, rfl, rfl⟩

theorem quiet_misspecAt (s : State cfg) (w : Fin cfg.numWorkers) (i : ℕ) :
    Quiet s (s.misspecAt w i) := ⟨rfl, rfl, rfl, rfl, rfl, rfl, rfl, rfl, rfl, rfl⟩

/-- The main process has the same state, and its heaps hold the same iterations. -/
structure SameMain (s s' : State cfg) : Prop where
  phase : s'.phase = s.phase
  main : s'.main = s.main
  firstIteration : s'.firstIteration = s.firstIteration
  log : s'.log = s.log

theorem Quiet.sameMain (h : Quiet s s') : SameMain s s' :=
  ⟨h.phase, h.main, h.firstIteration, h.log⟩

theorem sameMain_combined (s : State cfg) (used : List Checkpoint) (out : List IOEvt) :
    SameMain s (s.combined used out) := by
  unfold State.combined
  split <;> exact ⟨rfl, rfl, rfl, rfl⟩

theorem sameMain_commit (s : State cfg) (w : Fin cfg.numWorkers) (pc : Pc) :
    SameMain s (s.commit w pc) := by
  unfold State.commit
  cases cfg.commitZeroOrMoreCheckpoints s.used with
  | nothing => exact ⟨rfl, rfl, rfl, rfl⟩
  | combined used out =>
      have h := sameMain_combined s used out
      exact ⟨h.phase, h.main, h.firstIteration, h.log⟩
  | conflict used i => exact ⟨rfl, rfl, rfl, rfl⟩

theorem procs_combined (s : State cfg) (used : List Checkpoint) (out : List IOEvt) :
    (s.combined used out).procs = s.procs := by
  unfold State.combined
  split <;> rfl

theorem misspec_combined (s : State cfg) (used : List Checkpoint) (out : List IOEvt) :
    (s.combined used out).misspeculationHappened = s.misspeculationHappened ∧
      (s.combined used out).misspeculatedIteration = s.misspeculatedIteration := by
  unfold State.combined
  split <;> exact ⟨rfl, rfl⟩

namespace MachineOk

theorem of_parallel (hphase : s.phase = .parallel) (h : EpisodeOk loop s) : MachineOk loop s :=
  ⟨fun _ => h, fun hr => by rw [hphase] at hr; cases hr⟩

/-- A step that changes nothing but workers and the flag. -/
theorem of_quiet (hphase : s.phase = .parallel) (hq : Quiet s s') (h : EpisodeOk loop s') :
    Transition loop s a s' ∧ MachineOk loop s' :=
  ⟨.quiet hphase hq, of_parallel (hq.phase.trans hphase) h⟩

theorem of_misspecAt (h : MachineOk loop s) (hphase : s.phase = .parallel)
    (hlt : s.merges w < loop.numGroups s.firstIteration) :
    Transition loop s a (s.misspecAt w (s.procs w).currentIter) ∧
      MachineOk loop (s.misspecAt w (s.procs w).currentIter) :=
  of_quiet hphase (quiet_misspecAt s w _) ((h.episode hphase).misspecAt hlt)

theorem of_setProc (h : MachineOk loop s) (hphase : s.phase = .parallel) {p : Proc}
    (hp : ProcOk loop s.firstIteration s.misspeculationHappened w p)
    (hm : p.merges = (s.procs w).merges) (hpc : (s.procs w).pc ≠ .done) :
    Transition loop s a (s.setProc w p) ∧ MachineOk loop (s.setProc w p) :=
  of_quiet hphase (quiet_setProc s w p) ((h.episode hphase).setProc hp hm hpc)

theorem access (h : MachineOk loop s) {o : Op} (hs : loop.step s (.access w o) = some s') :
    Transition loop s (.access w o) s' ∧ MachineOk loop s' := by
  simp only [step] at hs
  split_ifs at hs with hg
  obtain ⟨hphase, hpc, _, _⟩ := hg
  have hp := (h.episode hphase).procs w
  cases he : o.exec (s.procs w).spec.worker with
  | error r =>
      rw [he] at hs
      cases hs
      exact h.of_misspecAt hphase (hp.iterate (Or.inl hpc)).1
  | ok v =>
      rw [he] at hs
      cases hs
      obtain ⟨u, hu, hv⟩ := bind_eq_ok.1 he
      cases hv
      have hk := Access.call_keeps hu
      exact h.of_setProc hphase (hp.setSpec rfl hk.firstIteration hk.checkpointGranularity) rfl
        (by simp [hpc])

theorem update (h : MachineOk loop s) {killpriv : Heap} {share : Image} {redux : ReduxHeap}
    (hs : loop.step s (.update w killpriv share redux) = some s') :
    Transition loop s (.update w killpriv share redux) s' ∧ MachineOk loop s' := by
  simp only [step] at hs
  split_ifs at hs with hg
  obtain ⟨hphase, hpc⟩ := hg
  cases hs
  exact h.of_setProc hphase (((h.episode hphase).procs w).setSpec rfl rfl rfl) rfl (by simp [hpc])

theorem endIter (h : MachineOk loop s) (hs : loop.step s (.endIter w) = some s') :
    Transition loop s (.endIter w) s' ∧ MachineOk loop s' := by
  simp only [step] at hs
  split_ifs at hs with hg hmis
  · obtain ⟨hphase, hpc, _⟩ := hg
    cases hs
    exact h.of_setProc hphase ((h.episode hphase).procs w).gone rfl (by simp [hpc])
  · obtain ⟨hphase, hpc, hlt⟩ := hg
    cases hs
    exact h.of_setProc hphase (((h.episode hphase).procs w).advance hpc hlt) rfl (by simp [hpc])

/-- A worker at a boundary is at the end of its part of a group. -/
theorem atGroupEnd_checkpoint (h : EpisodeOk loop s) (hpc : (s.procs w).pc = .checkpoint) :
    EpisodeOk.AtGroupEnd loop s w (s.procs w).currentIter false := by
  have hp := h.procs w
  have hcur := hp.checkpoint hpc
  have hlt : s.merges w + 1 < loop.numGroups s.firstIteration :=
    groupStart_le_iff.1 (hcur ▸ hp.le_stop)
  exact Or.inl ⟨rfl, hlt, hcur, rfl⟩

/-- A worker behind the last iteration is at the end of its part of the last group. -/
theorem atGroupEnd_finish (h : EpisodeOk loop s) (hpc : (s.procs w).pc = .iterate)
    (hcur : loop.trip ≤ (s.procs w).currentIter) :
    EpisodeOk.AtGroupEnd loop s w lastIteration true := by
  have hp := h.procs w
  obtain ⟨hlt, hhi⟩ := hp.iterate (Or.inl hpc)
  have hstop : (s.procs w).currentIter = loop.stop s.firstIteration :=
    le_antisymm hp.le_stop (max_le hcur hp.first_le)
  have hlast : s.merges w + 1 = loop.numGroups s.firstIteration := by
    by_contra hne
    have hle := groupStart_le_iff.2 (lt_of_le_of_ne hlt hne)
    rw [hstop] at hhi
    exact absurd hhi (not_lt.2 hle)
  exact Or.inr ⟨rfl, hlast, hstop, rfl⟩

theorem checkpoint (h : MachineOk loop s) {object : Checkpoint} {behind : List IOEvt}
    (hs : loop.step s (.checkpoint w object behind) = some s') :
    Transition loop s (.checkpoint w object behind) s' ∧ MachineOk loop s' := by
  simp only [step] at hs
  split_ifs at hs with hg hmis
  all_goals
    obtain ⟨hphase, hpc⟩ := hg
    have hep := h.episode hphase
    have hend := atGroupEnd_checkpoint hep hpc
    cases hs
  · exact h.of_misspecAt hphase (EpisodeOk.atGroupEnd_facts hend).1
  · exact ⟨.merge hphase (Or.inl ⟨rfl, rfl, rfl⟩) (Bool.eq_false_iff.2 hmis) hend,
      of_parallel hphase (hep.performCheckpoint hend (by simp [hpc]) object behind)⟩

theorem finish (h : MachineOk loop s) {object : Checkpoint} {behind : List IOEvt}
    (hs : loop.step s (.finish w object behind) = some s') :
    Transition loop s (.finish w object behind) s' ∧ MachineOk loop s' := by
  simp only [step] at hs
  split_ifs at hs with hg hmis
  all_goals
    obtain ⟨hphase, hpc, hcur⟩ := hg
    have hep := h.episode hphase
    have hend := atGroupEnd_finish hep hpc hcur
    cases hs
  · exact h.of_misspecAt hphase (EpisodeOk.atGroupEnd_facts hend).1
  · exact ⟨.merge hphase (Or.inr ⟨rfl, rfl, rfl⟩) (Bool.eq_false_iff.2 hmis) hend,
      of_parallel hphase (hep.performCheckpoint hend (by simp [hpc]) object behind)⟩

/-- A worker that goes on behind its commit. -/
theorem procOk_commit (h : EpisodeOk loop s) {b : Bool} (hpc : (s.procs w).pc = .commit b) :
    ProcOk loop s.firstIteration s.misspeculationHappened w
      { s.procs w with pc := if b then .done else .iterate } := by
  have hp := h.procs w
  cases b with
  | false => exact hp.setPc (fun _ => hp.iterate (Or.inr hpc)) (by simp) (by simp) (by simp)
  | true => exact hp.setPc (by simp) (by simp) (by simp) (fun _ _ => hp.final hpc)

theorem commit (h : MachineOk loop s) (hs : loop.step s (.commit w) = some s') :
    Transition loop s (.commit w) s' ∧ MachineOk loop s' := by
  simp only [step] at hs
  split at hs
  · rename_i b hphase hpc
    cases hs
    refine ⟨.commit hphase rfl, ?_⟩
    have hep := h.episode hphase
    have hne : (s.procs w).pc ≠ .done := by simp [hpc]
    unfold State.commit
    cases hc : cfg.commitZeroOrMoreCheckpoints s.used with
    | nothing => exact of_parallel hphase (hep.setProc (procOk_commit hep hpc) rfl hne)
    | combined used out =>
        have hproc := procs_combined s used out
        have hcomb := hep.combined hc
        refine of_parallel ((sameMain_combined s used out).phase.trans hphase) ?_
        rw [← hproc] at hpc hne ⊢
        exact hcomb.setProc (procOk_commit hcomb hpc) rfl hne
    | conflict used i => exact of_parallel hphase (hep.conflict hc w)
  · cases hs

theorem skip (h : MachineOk loop s) (hs : loop.step s (.skip w) = some s') :
    Transition loop s (.skip w) s' ∧ MachineOk loop s' := by
  simp only [step] at hs
  split at hs
  · rename_i b hphase hpc
    cases hs
    exact h.of_setProc hphase (procOk_commit (h.episode hphase) hpc) rfl (by simp [hpc])
  · cases hs

theorem misspec (h : MachineOk loop s) (hs : loop.step s (.misspec w) = some s') :
    Transition loop s (.misspec w) s' ∧ MachineOk loop s' := by
  simp only [step] at hs
  split_ifs at hs with hg
  obtain ⟨hphase, hpc⟩ := hg
  cases hs
  exact h.of_misspecAt hphase (((h.episode hphase).procs w).iterate (Or.inl hpc)).1

theorem of_adopt (s : State cfg) : MachineOk loop s.adopt := by
  refine ⟨fun hphase => ?_, fun _ => rfl⟩
  change (if s.misspeculationHappened = true then Phase.recovering else Phase.ended) = _ at hphase
  split_ifs at hphase

theorem join (hs : loop.step s .join = some s') :
    Transition loop s .join s' ∧ MachineOk loop s' := by
  simp only [step] at hs
  split_ifs at hs with hg
  obtain ⟨hphase, hdone, _⟩ := hg
  cases hs
  refine ⟨.join hphase rfl hdone, ?_⟩
  unfold State.join
  split
  · exact of_adopt s
  · exact of_adopt _
  · exact ⟨fun hr => (by cases hr), fun hr => (by cases hr)⟩

theorem episodeOk_start (hmis : s.misspeculationHappened = false) {m : Main} {redux : ReduxHeap}
    {procs : Fin cfg.numWorkers → Proc}
    (hprocs : s.procs = fun w => cfg.workerStarts m redux s.firstIteration (procs w))
    (hused : s.used = []) (heffects : s.effects = fun _ => []) (hemitted : s.emitted = [])
    (hadopted : s.adopted = []) : EpisodeOk loop s where
  procs w := by
    rw [hprocs]
    exact ProcOk.starts m redux (procs w)
  groups := by
    rw [hused]
    trivial
  passed hpos := by
    rw [hemitted] at hpos
    cases hpos
  merges_le w := by
    rw [State.merges, hprocs]
    exact Nat.zero_le _
  length_le := by
    rw [hemitted, hused]
    exact Nat.zero_le _
  unused m _ _ := by rw [heffects]
  emitted := by
    rw [hemitted]
    rfl
  adopted := hadopted
  misspec ht := by
    rw [hmis] at ht
    cases ht

theorem recover (h : MachineOk loop s) {heaps : Main} {redux : ReduxHeap}
    (hs : loop.step s (.recover heaps redux) = some s') :
    Transition loop s (.recover heaps redux) s' ∧ MachineOk loop s' := by
  simp only [step] at hs
  split_ifs at hs with hphase
  cases hs
  refine ⟨.recover hphase, fun hpar => ?_, fun hrec => ?_⟩
  · change (if loop.recoveryExits s then Phase.ended else Phase.parallel) = _ at hpar
    split_ifs at hpar with hle
    exact episodeOk_start (s := loop.recover s heaps redux) rfl rfl (h.joined hphase)
      rfl rfl rfl
  · change (if loop.recoveryExits s then Phase.ended else Phase.parallel) = _ at hrec
    split_ifs at hrec

theorem step (h : MachineOk loop s) (hs : loop.step s a = some s') :
    Transition loop s a s' ∧ MachineOk loop s' := by
  cases a with
  | access w o => exact h.access hs
  | update w killpriv share redux => exact h.update hs
  | endIter w => exact h.endIter hs
  | checkpoint w object behind => exact h.checkpoint hs
  | finish w object behind => exact h.finish hs
  | commit w => exact h.commit hs
  | skip w => exact h.skip hs
  | misspec w => exact h.misspec hs
  | join => exact join hs
  | recover heaps redux => exact h.recover hs

theorem initial (loop : Loop cfg) (m : Main) (redux : ReduxHeap)
    (procs : Fin cfg.numWorkers → Proc) : MachineOk loop (Loop.initial m redux procs) :=
  of_parallel rfl (episodeOk_start rfl rfl rfl rfl rfl rfl)

end MachineOk
end Cpf.Executive
