import Mathlib.Data.List.TakeWhile
import Cpf.Executive.MachineInvariant

/-!
# What the main process adopts

At the join the main process takes the leading complete checkpoints, after at most one more
combination. Without a misspeculation these are all of them.
-/

namespace Cpf.Executive

open Loop

def leading (used : List Checkpoint) : List Checkpoint :=
  used.takeWhile (fun c => c.type = .clComplete)

theorem leading_cons_of_complete {c : Checkpoint} {cs : List Checkpoint}
    (h : c.type = .clComplete) : leading (c :: cs) = c :: leading cs := by
  simp [leading, h]

theorem leading_cons_of_not_complete {c : Checkpoint} {cs : List Checkpoint}
    (h : c.type ≠ .clComplete) : leading (c :: cs) = [] := by
  simp [leading, h]

theorem complete_of_mem_leading {c : Checkpoint} {used : List Checkpoint}
    (h : c ∈ leading used) : c.type = .clComplete := by
  simpa using List.mem_takeWhile_imp h

namespace Config

theorem adoptComplete_eq (cfg : Config) (misspec : Bool) (m : Main) (used : List Checkpoint) :
    (cfg.adoptComplete misspec m used).adopted = leading used ∧
      (cfg.adoptComplete misspec m used).output =
        (leading used).flatMap (fun c => c.ioEvents.commitIo cfg.numWorkers) ∧
      (cfg.adoptComplete misspec m used).main.iteration =
        ((leading used).getLast?.map (fun c => (c.iteration : ℤ))).getD m.iteration := by
  induction used generalizing m with
  | nil => exact ⟨rfl, rfl, rfl⟩
  | cons c cs ih =>
      rw [adoptComplete]
      by_cases hc : c.type = .clComplete
      · obtain ⟨hadopted, houtput, hiter⟩ := ih (cfg.adopt misspec m c)
        rw [if_pos hc, leading_cons_of_complete hc]
        refine ⟨congrArg (c :: ·) hadopted, ?_, hiter.trans ?_⟩
        · dsimp only
          rw [houtput, List.flatMap_cons]
        · rw [List.getLast?_cons]
          cases (leading cs).getLast? <;> rfl
      · rw [if_neg hc, leading_cons_of_not_complete hc]
        exact ⟨rfl, rfl, rfl⟩

end Config

variable {cfg : Config} {loop : Loop cfg} {s : State cfg}

/-- A combination does not change which boundary is the last one of the leading checkpoints. -/
theorem getLast_leading_combined {used : List Checkpoint} {out : List IOEvt}
    (hc : cfg.commitZeroOrMoreCheckpoints s.used = .combined used out) :
    (leading (s.combined used out).used).getLast?.map Checkpoint.iteration =
      (leading s.used).getLast?.map Checkpoint.iteration := by
  obtain ⟨alpha, beta, newer, rest, hused, rfl, hat, hbt, hcomb⟩ := Config.commit_combined hc
  obtain ⟨img, _, hnewer, _⟩ := Config.combineCheckpoints_ok hcomb
  have hnt : newer.type = .clComplete := by rw [hnewer, ← hbt]
  have hni : newer.iteration = beta.iteration := by rw [hnewer]
  have hs : (s.combined (newer :: rest) out).used = newer :: rest := by
    simp only [State.combined, hused]
  rw [hs, hused, leading_cons_of_complete hnt, leading_cons_of_complete hat,
    leading_cons_of_complete hbt]
  simp only [List.getLast?_cons, Option.map_some, Option.getD_some]
  cases (leading rest).getLast? with
  | none => exact congrArg some hni
  | some c => rfl

theorem State.join_cases (s : State cfg) :
    s.join = s.adopt ∨
      (∃ used out, cfg.commitZeroOrMoreCheckpoints s.used = .combined used out ∧
        s.join = (s.combined used out).adopt) ∨
      ∃ i, s.join =
        { s with phase := .lost, misspeculationHappened := true, misspeculatedIteration := i } := by
  unfold State.join
  cases hc : cfg.commitZeroOrMoreCheckpoints s.used with
  | nothing => exact Or.inl rfl
  | combined used out => exact Or.inr (Or.inl ⟨used, out, rfl, rfl⟩)
  | conflict used i => exact Or.inr (Or.inr ⟨i, rfl⟩)

namespace EpisodeOk

theorem pairwise_used (h : EpisodeOk loop s) :
    s.used.Pairwise (fun c d => c.iteration < d.iteration) := by
  refine h.groups.pairwise (fun i j c d _ hij hj hc hd => ?_)
  rw [hc.iteration, hd.iteration]
  exact boundary_lt hij (lt_of_lt_of_le hj h.length_le)

/-- The output that was written belongs to boundaries before those of the checkpoints in use. -/
theorem emitted_lt (h : EpisodeOk loop s) {c : Checkpoint} (hc : c ∈ s.used) {a : ℕ}
    (ha : a ∈ s.emitted) : a < c.iteration := by
  obtain ⟨j, hj, hj', hgroup⟩ := h.groups.exists_of_mem hc
  rw [h.emitted, List.mem_map] at ha
  obtain ⟨i, hi, rfl⟩ := ha
  rw [hgroup.iteration]
  exact boundary_lt (lt_of_lt_of_le (List.mem_range.1 hi) hj) (lt_of_lt_of_le hj' h.length_le)

/-- Workers that are all done without a misspeculation have merged into every group. -/
theorem merges_of_done (h : EpisodeOk loop s) (hmis : s.misspeculationHappened = false)
    (hdone : ∀ w, (s.procs w).pc = .done) (w : Fin cfg.numWorkers) :
    s.merges w = loop.numGroups s.firstIteration :=
  (h.procs w).done (hdone w) hmis

theorem complete_of_done (h : EpisodeOk loop s) (hmis : s.misspeculationHappened = false)
    (hdone : ∀ w, (s.procs w).pc = .done) {c : Checkpoint} (hc : c ∈ s.used) :
    c.type = .clComplete := by
  obtain ⟨j, _, hj, hgroup⟩ := h.groups.exists_of_mem hc
  refine hgroup.complete hmis (fun w => ?_)
  rw [h.merges_of_done hmis hdone]
  exact lt_of_lt_of_le hj h.length_le

end EpisodeOk
end Cpf.Executive
