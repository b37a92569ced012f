import Cpf.Executive.CheckpointOrder

/-!
# Commits merge the two oldest checkpoints

As long as the manager is never saturated, no worker waits for a free object. Then every test under
the locks that passes is one of the two oldest checkpoints, and the checkpoints leave the used list
in the order of their iterations.
-/

namespace Cpf.Executive

def WorkerPc.waits : WorkerPc → Bool
  | .wait _ | .retry _ | .commit _ (.waiting _) => true
  | _ => false

namespace Team

variable {cfg : Config} {s s' : Team cfg} {a : TeamAction cfg} {w : Fin cfg.numWorkers} {z : Sizes}

def NoneWaits (s : Team cfg) : Prop := ∀ w, (s.members w).pc.waits = false

theorem createCheckpoint_ne_wait {m : Manager} (hsat : m.isSaturated z = false) (iter : ℕ) :
    m.createCheckpoint z iter ≠ .wait := by
  intro hc
  unfold Manager.createCheckpoint Manager.allocCheckpoint at hc
  rw [hsat] at hc
  cases hf : m.free.first with
  | none =>
      rw [hf] at hc
      simp at hc
  | some o =>
      rw [hf] at hc
      cases hc

theorem waits_requested {b : Bool} {r : Request} (hr : r ≠ .wait) :
    ((s.requested w b r).members w).pc.waits = false := by
  cases r with
  | wait => exact absurd rfl hr
  | _ => simp [requested, grant, setPc, WorkerPc.waits]

theorem waits_workerCommits {pc : CommitPc} {ret : Return} {r : CommitOutcome}
    (hret : (WorkerPc.commit pc ret).waits = false) :
    ((s.workerCommits w pc ret r).members w).pc.waits = false := by
  cases ret with
  | waiting b => cases hret
  | merged b o =>
      cases r with
      | next m pc' => cases pc <;> simp [workerCommits, noteRetired, setPc, WorkerPc.waits]
      | returns m => cases b <;> simp [workerCommits, returned, setPc, WorkerPc.waits]
      | misspecAt m iter => simp [workerCommits, misspecAt, setPc, WorkerPc.waits]
      | abort => simp [workerCommits, setPc, WorkerPc.waits]

/-- A worker that does not wait for an object does not begin to, unless the manager is saturated. -/
theorem waits_workerStep (h : s.NoneWaits) (hsat : s.checkpoints.isSaturated z = false)
    (hw : a.worker = some w) (hs : workerStep z s a = some s') :
    (s'.members w).pc.waits = false := by
  have hwait := h w
  cases a with
  | beginInvocation | trigger | almostDone | allDone | mainCommit | adopt | squash => cases hw
  | recovered exits => cases hw
  | start v =>
      cases hw
      simp only [workerStep] at hs
      split at hs
      · cases hs
        simp [WorkerPc.waits]
      · cases hs
  | checkpoint v iter b =>
      cases hw
      simp only [workerStep] at hs
      split_ifs at hs
      all_goals
        cases hs
        simp [misspecAt, setPc, WorkerPc.waits]
  | misspec v iter | leave v iter =>
      cases hw
      simp only [workerStep] at hs
      split_ifs at hs
      cases hs
      simp [misspecAt, setPc, WorkerPc.waits]
  | get v =>
      cases hw
      simp only [workerStep] at hs
      split at hs
      · cases hs
        refine waits_requested ?_
        unfold Manager.getCheckpointForIter
        split
        · simp
        · simp
        · exact createCheckpoint_ne_wait hsat _
      · cases hs
  | giveUp v | poll v | wake v | retry v =>
      cases hw
      simp only [workerStep] at hs
      split at hs
      · rename_i b hpc
        rw [hpc] at hwait
        cases hwait
      · cases hs
  | lock v =>
      cases hw
      simp only [workerStep] at hs
      split at hs
      · split_ifs at hs
        cases hs
        simp [setPc, WorkerPc.waits]
      · cases hs
  | merge v p behind copied =>
      cases hw
      simp only [workerStep] at hs
      split at hs
      · cases hs
        simp [performCheckpoint, setPc, WorkerPc.waits]
      · cases hs
  | commit v =>
      cases hw
      simp only [workerStep] at hs
      split at hs
      · rename_i pc ret hpc
        rw [hpc] at hwait
        obtain ⟨r, _, rfl⟩ := Option.map_eq_some_iff.1 hs
        exact waits_workerCommits hwait
      · cases hs
  | teardown v | setFlag v =>
      cases hw
      simp only [workerStep] at hs
      split_ifs at hs
      cases hs
      simp [setPc, WorkerPc.waits]

theorem pc_mainStep (hs : s.mainStep a = some s') (w : Fin cfg.numWorkers) :
    (s'.members w).pc = (s.members w).pc := by
  cases a with
  | beginInvocation | almostDone | allDone =>
      simp only [mainStep] at hs
      split_ifs at hs
      cases hs
      rfl
  | trigger =>
      simp only [mainStep] at hs
      split at hs
      · rename_i k hm
        split_ifs at hs with hk
        · cases hs
          by_cases hv : w = ⟨k, hk⟩ <;> simp [triggerWorker, setMember, hv]
        · cases hs
          rfl
      · cases hs
  | mainCommit =>
      simp only [mainStep] at hs
      split at hs
      · rename_i pc hm
        obtain ⟨r, _, rfl⟩ := Option.map_eq_some_iff.1 hs
        cases r with
        | next m pc' => cases pc <;> rfl
        | _ => rfl
      · cases hs
  | adopt =>
      simp only [mainStep] at hs
      split_ifs at hs
      split at hs
      · split_ifs at hs
        all_goals
          cases hs
          rfl
      · cases hs
        rfl
  | squash =>
      simp only [mainStep] at hs
      by_cases hm : s.main = .squash
      · rw [if_pos hm] at hs
        split at hs
        all_goals
          cases hs
          rfl
      · rw [if_neg hm] at hs
        cases hs
  | recovered exits =>
      simp only [mainStep] at hs
      split_ifs at hs
      all_goals
        cases hs
        rfl
  | start v | get v | giveUp v | poll v | wake v | retry v | lock v | commit v | teardown v
  | setFlag v => cases hs
  | checkpoint v iter b => cases hs
  | misspec v iter | leave v iter => cases hs
  | merge v p behind copied => cases hs

theorem NoneWaits.step (h : s.NoneWaits) (hc : s.ControlOk)
    (hsat : s.checkpoints.isSaturated z = false) (hs : s.step z a = some s') : s'.NoneWaits := by
  intro v
  rcases step_cases hs with ⟨_, hm⟩ | ⟨w, hw, hm⟩
  · rw [pc_mainStep hm]
    exact h v
  · by_cases hv : v = w
    · subst v
      exact waits_workerStep h hsat hw hm
    · rw [(moves_of_workerStep hc hw hm).others v hv]
      exact h v

/-- What the commits rely on: a test under the locks that passes is one of the two oldest
checkpoints, the assertion before a checkpoint is retired holds, and the checkpoints that were
combined into the next one, and then those in use, are in the order of their iterations. -/
structure CommitsOldest (s : Team cfg) : Prop where
  front : ∀ k alpha beta, s.At k (.recheck alpha beta) →
    s.checkpoints.bothComplete alpha beta = true →
    ∃ rest, s.checkpoints.usedObjects = alpha :: beta :: rest
  first : ∀ k alpha beta, s.At k (.retire alpha beta) → s.checkpoints.used.first = some alpha
  order : (s.combined ++ s.iterations s.checkpoints.usedObjects).Pairwise (· < ·)

theorem TeamOk.front {us fs : List ℕ} (h : s.TeamOk us fs) {k : Committer cfg} {alpha beta : ℕ}
    (hat : s.At k (.recheck alpha beta)) (hboth : s.checkpoints.bothComplete alpha beta = true) :
    ∃ rest, us = alpha :: beta :: rest := by
  cases k with
  | worker w ret =>
      exact (Shared.front_of_bothComplete h.shared (((h.members w).commit _ ret hat).seen alpha rfl)
        (s.blind_ne_univ us fs w) hboth).1
  | main =>
      exact (Shared.front_of_bothComplete h.shared ((h.main _ hat).seen alpha rfl)
        (fun _ _ hf => hf.elim) hboth).1

theorem TeamOk.claim_of_retire {us fs : List ℕ} (h : s.TeamOk us fs) {k : Committer cfg}
    {alpha beta : ℕ} (hat : s.At k (.retire alpha beta)) : (s.shared us fs).Claim alpha beta := by
  cases k with
  | worker w ret => exact ((h.members w).commit _ ret hat).claims alpha beta rfl
  | main => exact (h.main _ hat).claims alpha beta rfl

/-- In every run in which the manager is never saturated, commits merge the two oldest checkpoints. -/
theorem commits_merge_oldest (z : Sizes) (chkpt : ℕ → Checkpoint) (reduxUsed : ℕ → ℕ)
    (h : Run (step z) (fun s _ => s.checkpoints.isSaturated z = false)
      (initial cfg chkpt reduxUsed) s) : s.CommitsOldest := by
  obtain ⟨us, fs, hok, horder, _⟩ := h.invariant
    (fun s : Team cfg => ∃ us fs, s.TeamOk us fs ∧ s.OrderOk us ∧ s.NoneWaits)
    ⟨[], [], .initial cfg chkpt reduxUsed, .initial cfg chkpt reduxUsed, fun _ => rfl⟩ (by
      rintro s a s' ⟨us, fs, hok, horder, hwaits⟩ hsat hs
      obtain ⟨us', fs', hc, hok'⟩ := hok.step hs
      refine ⟨us', fs', hok', horder.of_change hok hc ?_, hwaits.step hok.control hsat hs⟩
      intro w b o m _ hpc
      have hwait := hwaits w
      rw [hpc] at hwait
      cases hwait)
  have hused : s.checkpoints.usedObjects = us := hok.shared.lists.usedObjects_eq
  refine ⟨fun k alpha beta hat hboth => ?_, fun k alpha beta hat => ?_, ?_⟩
  · rw [hused]
    exact hok.front hat hboth
  · obtain ⟨rest, hfront⟩ := (hok.claim_of_retire hat).front
    have hfirst := hok.shared.lists.first_eq
    rw [hfront] at hfirst
    exact hfirst
  · rw [hused]
    exact horder.increasing

/-- Worker 0 merges into three checkpoints, worker 1 into two; worker 1 combines the first two. -/
def combinesTwo : List (TeamAction pair) :=
  startPair ++ (List.range 3).flatMap (fun i => mergesAt 0 (252 * (i + 1)) 2) ++ mergesAt 1 252 4 ++
    mergesAt 1 504 10

theorem commits_merge_oldest_combinesTwo : ∃ s : Team pair,
    Run (step pairSizes) (fun s _ => s.checkpoints.isSaturated pairSizes = false) pairStart s ∧
      s.combined = [252] ∧ s.checkpoints.usedObjects = [2, 3] ∧ s.CommitsOldest := by
  have hreplay : (Run.replay (step pairSizes) (fun s _ => s.checkpoints.isSaturated pairSizes = false)
      pairStart combinesTwo).any
      (fun s => decide (s.combined = [252] ∧ s.checkpoints.usedObjects = [2, 3])) = true := by
    decide +kernel
  obtain ⟨s, hrun, hs⟩ := Run.exists_of_any hreplay
  obtain ⟨hcombined, hused⟩ := of_decide_eq_true hs
  exact ⟨s, hrun, hcombined, hused, commits_merge_oldest pairSizes _ _ hrun⟩

end Team
end Cpf.Executive
