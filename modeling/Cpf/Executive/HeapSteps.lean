import Cpf.Executive.Coverage

/-!
# What the steps do to the workers' heaps

The share-private and the kill-private heap of a worker change only where the loop body stores to
them; they reach a checkpoint by a merge and the main process by a join.
-/

namespace Cpf.Executive

open Loop

variable {cfg : Config} {loop : Loop cfg} {s s' : State cfg} {a : Action cfg}
  {w : Fin cfg.numWorkers}

/-- A worker that goes on and stores nothing to these heaps. -/
structure KeepsHeaps (p p' : Proc) : Prop where
  killpriv : p'.spec.killpriv = p.spec.killpriv
  share : p'.spec.share = p.spec.share
  merges : p'.merges = p.merges
  goes : p.currentIter < p'.currentIter ∨
    (p'.currentIter = p.currentIter ∧ p'.pc ≠ .checkpoint ∧ ∀ b, p'.pc ≠ .commit b)

inductive HeapStep (loop : Loop cfg) (s : State cfg) (a : Action cfg) : State cfg → Prop
  | keeps {w : Fin cfg.numWorkers} {p : Proc} (phase : s.phase = .parallel)
      (keeps : KeepsHeaps (s.procs w) p) : HeapStep loop s a (s.setProc w p)
  | updates {w : Fin cfg.numWorkers} {killpriv : Heap} {share : Image} {redux : ReduxHeap}
      (phase : s.phase = .parallel) (action : a = .update w killpriv share redux)
      (pc : (s.procs w).pc = .iterate) :
      HeapStep loop s a (s.setProc w { s.procs w with spec := { (s.procs w).spec with
        killpriv := killpriv, share := share, redux := redux } })
  | misspec {w : Fin cfg.numWorkers} {i : ℕ} (phase : s.phase = .parallel) :
      HeapStep loop s a (s.misspecAt w i)
  | merge {w : Fin cfg.numWorkers} {object : Checkpoint} {behind : List IOEvt} {iter : ℕ} {b : Bool}
      (phase : s.phase = .parallel) (ends : EpisodeOk.AtGroupEnd loop s w iter b)
      (pc : (s.procs w).pc = .checkpoint ∨ loop.trip ≤ (s.procs w).currentIter) :
      HeapStep loop s a (s.performCheckpoint w object behind iter b)
  | combined {w : Fin cfg.numWorkers} {pc : Pc} {used : List Checkpoint} {out : List IOEvt}
      (phase : s.phase = .parallel) (keeps : KeepsHeaps (s.procs w) { s.procs w with pc := pc })
      (commit : cfg.commitZeroOrMoreCheckpoints s.used = .combined used out) :
      HeapStep loop s a ((s.combined used out).setProc w { s.procs w with pc := pc })
  | conflict {w : Fin cfg.numWorkers} {used : List Checkpoint} {i : ℕ} (phase : s.phase = .parallel)
      (commit : cfg.commitZeroOrMoreCheckpoints s.used = .conflict used i) :
      HeapStep loop s a (State.misspecAt { s with used := used } w i)
  | join (phase : s.phase = .parallel) (action : a = .join) (done : ∀ w, (s.procs w).pc = .done) :
      HeapStep loop s a s.join
  | recover {heaps : Main} {redux : ReduxHeap} (phase : s.phase = .recovering)
      (action : a = .recover heaps redux) : HeapStep loop s a (loop.recover s heaps redux)

theorem keepsHeaps_setPc (p : Proc) {pc : Pc} (hcheck : pc ≠ .checkpoint)
    (hcommit : ∀ b, pc ≠ .commit b) : KeepsHeaps p { p with pc := pc } :=
  ⟨rfl, rfl, rfl, Or.inr ⟨rfl, hcheck, hcommit⟩⟩

theorem keepsHeaps_returns (p : Proc) (b : Bool) :
    KeepsHeaps p { p with pc := if b then .done else .iterate } := by
  cases b <;> exact keepsHeaps_setPc p Pc.noConfusion (fun _ => Pc.noConfusion)

theorem keepsHeaps_advance (w : Fin cfg.numWorkers) (p : Proc) :
    KeepsHeaps p (loop.advance w p) := ⟨rfl, rfl, rfl, Or.inl (Nat.lt_succ_self _)⟩

theorem MachineOk.heapStep (h : MachineOk loop s) (hs : loop.step s a = some s') :
    HeapStep loop s a s' := by
  cases a with
  | access w o =>
      simp only [Loop.step] at hs
      split_ifs at hs with hg
      split at hs
      · cases hs
        refine .keeps hg.1 ⟨rfl, rfl, rfl, Or.inr ⟨rfl, ?_, fun b => ?_⟩⟩
        · simp [hg.2.1]
        · simp [hg.2.1]
      · cases hs
        exact .misspec hg.1
  | update w killpriv share redux =>
      simp only [Loop.step] at hs
      split_ifs at hs with hg
      cases hs
      exact .updates hg.1 rfl hg.2
  | endIter w =>
      simp only [Loop.step] at hs
      split_ifs at hs with hg hmis
      · cases hs
        exact .keeps hg.1 (keepsHeaps_setPc _ Pc.noConfusion (fun _ => Pc.noConfusion))
      · cases hs
        exact .keeps hg.1 (keepsHeaps_advance w _)
  | checkpoint w object behind =>
      simp only [Loop.step] at hs
      split_ifs at hs with hg hmis
      · cases hs
        exact .misspec hg.1
      · cases hs
        exact .merge hg.1 (atGroupEnd_checkpoint (h.episode hg.1) hg.2) (Or.inl hg.2)
  | finish w object behind =>
      simp only [Loop.step] at hs
      split_ifs at hs with hg hmis
      · cases hs
        exact .misspec hg.1
      · cases hs
        exact .merge hg.1 (atGroupEnd_finish (h.episode hg.1) hg.2.1 hg.2.2) (Or.inr hg.2.2)
  | commit w =>
      simp only [Loop.step] at hs
      split at hs
      · rename_i b hphase hpc
        cases hs
        unfold State.commit
        cases hc : cfg.commitZeroOrMoreCheckpoints s.used with
        | nothing => exact .keeps hphase (keepsHeaps_returns _ b)
        | combined used out => exact .combined hphase (keepsHeaps_returns _ b) hc
        | conflict used i => exact .conflict hphase hc
      · cases hs
  | skip w =>
      simp only [Loop.step] at hs
      split at hs
      · rename_i b hphase hpc
        cases hs
        exact .keeps hphase (keepsHeaps_returns _ b)
      · cases hs
  | misspec w =>
      simp only [Loop.step] at hs
      split_ifs at hs with hg
      cases hs
      exact .misspec hg.1
  | join =>
      simp only [Loop.step] at hs
      split_ifs at hs with hg
      cases hs
      exact .join hg.1 rfl hg.2.1
  | recover heaps redux =>
      simp only [Loop.step] at hs
      split_ifs at hs with hphase
      cases hs
      exact .recover hphase rfl

end Cpf.Executive
