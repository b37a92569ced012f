import Cpf.Executive.Join

/-!
# Reported conflicts

A worker's merge that finds a conflict reports it, and the report is not looked at: the checkpoint
becomes complete with the merge of the last worker. As long as no checkpoint gets its last merge
after a conflict, or with one, the conflict stays contained.
-/

namespace Cpf.Executive

open Loop

namespace Image

variable {src dst : Image}

/-- Marks of byte `k` that a merge does not accept: one side has read the value from before the
loop, and the other has not. -/
def MarksClash (src dst : Image) (k : ℕ) : Prop :=
  (src.shadow k = readLiveIn ∧ dst.shadow k ≠ liveIn ∧ dst.shadow k ≠ readLiveIn) ∨
    (src.shadow k ≠ readLiveIn ∧ dst.shadow k = readLiveIn)

instance (src dst : Image) (k : ℕ) : Decidable (src.MarksClash dst k) :=
  inferInstanceAs (Decidable (_ ∨ _))

/-- A merge that looks at no clashing marks reports no conflict. -/
theorem isOk_of_no_clash (sizeofPrivate : ℕ) (h : ∀ k ∈ src.scan, ¬ src.MarksClash dst k) :
    (distillWorkerPrivateIntoPartial sizeofPrivate src dst).isOk = true := by
  have hcells : ∀ k ∈ src.scan, mergeCell (src.priv k) (src.shadow k) (dst.cell k) ≠ none :=
    fun k hk hnone => h k hk (mergeCell_eq_none.1 hnone)
  obtain ⟨d, hd⟩ := ((mergeByte_local src).exists_foldlM_ok (nodup_scan src) dst).2 hcells
  have hloop : src.words.foldlM (mergeWord src) dst = .ok d := by
    rw [← hd]
    exact foldlM_skip_flatMap _ _ _ _ _
  rw [distillWorkerPrivateIntoPartial]
  split_ifs with hz
  · rw [hloop]
    rfl
  · rfl

end Image

def Merge.Clean (m : Merge) : Prop := ∀ k ∈ m.worker.scan, ¬ m.worker.MarksClash m.chkpt k

instance (m : Merge) : Decidable m.Clean :=
  inferInstanceAs (Decidable (∀ k ∈ m.worker.scan, ¬ m.worker.MarksClash m.chkpt k))

variable {cfg : Config} {loop : Loop cfg} {s : State cfg}

namespace State

/-- The merge of worker `w` is not the last one into its checkpoint, or neither it nor an earlier
merge into this checkpoint looks at marks that clash. -/
def LastMergeClean (s : State cfg) (w : Fin cfg.numWorkers) (object : Checkpoint) (iter : ℕ) :
    Prop :=
  s.misspeculatedBefore (s.procs w).currentIter = false →
    (s.target object iter).numWorkers + 1 = cfg.numWorkers →
    ∀ m ∈ s.mergeOf w object iter :: s.merged, m.iteration = iter → m.Clean

instance (s : State cfg) (w : Fin cfg.numWorkers) (object : Checkpoint) (iter : ℕ) :
    Decidable (s.LastMergeClean w object iter) :=
  haveI := List.decidableBAll (fun m : Merge => m.iteration = iter → m.Clean)
  inferInstanceAs (Decidable (_ → _ → _))

/-- No checkpoint with a reported conflict is complete or adopted, nor is one behind it, and a
misspeculation is reported before the workers are joined. -/
structure Contained (s : State cfg) : Prop where
  incomplete : ∀ c ∈ s.used, c.iteration ∈ s.conflicts → c.type ≠ .clComplete
  before : ∀ b ∈ s.conflicts, ∀ a ∈ s.adopted ++ s.emitted, a < b
  misspec : s.phase ≠ .parallel → s.conflicts ≠ [] → s.misspeculationHappened = true

/-- While the workers run, every checkpoint with a reported conflict is in use and not complete, and
some merge into it has looked at marks that clash. -/
structure ConflictsOk (s : State cfg) : Prop where
  incomplete : ∀ c ∈ s.used, c.iteration ∈ s.conflicts → c.type ≠ .clComplete
  inUse : ∀ b ∈ s.conflicts, ∃ c ∈ s.used, c.iteration = b
  unclean : ∀ b ∈ s.conflicts, ∃ m ∈ s.merged, m.iteration = b ∧ ¬ m.Clean

/-- A merge that reports a conflict looks at marks that clash. -/
theorem not_clean_of_mergeConflicts {w : Fin cfg.numWorkers} {object : Checkpoint} {iter : ℕ}
    (h : s.mergeConflicts w object iter = true) : ¬ (s.mergeOf w object iter).Clean := by
  intro hclean
  have hok := Image.isOk_of_no_clash cfg.sizeofPrivate.val hclean
  unfold State.mergeConflicts Config.mergePrivate at h
  unfold State.mergeOf Config.mergeTarget at hok
  rw [hok] at h
  cases h

theorem mem_mergeInto {iter : ℕ} {f : Checkpoint → Checkpoint} {fresh c : Checkpoint}
    {used : List Checkpoint} (hsorted : used.Pairwise (fun c d => c.iteration < d.iteration)) :
    c ∈ mergeInto iter f fresh used ↔
      c = f ((used.find? (fun d => d.iteration = iter)).getD fresh) ∨
        (c ∈ used ∧ c.iteration ≠ iter) := by
  induction used with
  | nil => simp [mergeInto]
  | cons d used ih =>
      obtain ⟨hlt, hrest⟩ := List.pairwise_cons.1 hsorted
      rw [mergeInto]
      by_cases hd : d.iteration = iter
      · have hne : c ∈ used → c.iteration ≠ iter := fun hc => hd ▸ (hlt c hc).ne'
        rw [if_pos hd, List.find?_cons_of_pos (by simpa using hd), List.mem_cons, List.mem_cons,
          Option.getD_some]
        constructor
        · exact Or.imp_right (fun hc => ⟨Or.inr hc, hne hc⟩)
        · rintro (hc | ⟨rfl | hc, hiter⟩)
          · exact Or.inl hc
          · exact absurd hd hiter
          · exact Or.inr hc
      · rw [if_neg hd, List.find?_cons_of_neg (by simpa using hd), List.mem_cons, List.mem_cons,
          ih hrest]
        constructor
        · rintro (rfl | hc | ⟨hc, hiter⟩)
          · exact Or.inr ⟨Or.inl rfl, hd⟩
          · exact Or.inl hc
          · exact Or.inr ⟨Or.inr hc, hiter⟩
        · rintro (hc | ⟨hc | hc, hiter⟩)
          · exact Or.inr (Or.inl hc)
          · exact Or.inl hc
          · exact Or.inr (Or.inr ⟨hc, hiter⟩)

end State

/-- The condition on a step: a merge that makes a checkpoint complete is clean. -/
def Action.CompletesClean (s : State cfg) : Action cfg → Prop
  | .checkpoint w object _ => s.LastMergeClean w object (s.procs w).currentIter
  | .finish w object _ => s.LastMergeClean w object lastIteration
  | _ => True

instance (s : State cfg) (a : Action cfg) : Decidable (a.CompletesClean s) :=
  match a with
  | .checkpoint w object _ => inferInstanceAs (Decidable (s.LastMergeClean w object _))
  | .finish w object _ => inferInstanceAs (Decidable (s.LastMergeClean w object _))
  | .access _ _ => inferInstanceAs (Decidable True)
  | .update _ _ _ _ => inferInstanceAs (Decidable True)
  | .endIter _ => inferInstanceAs (Decidable True)
  | .commit _ => inferInstanceAs (Decidable True)
  | .skip _ => inferInstanceAs (Decidable True)
  | .misspec _ => inferInstanceAs (Decidable True)
  | .join => inferInstanceAs (Decidable True)
  | .recover _ _ => inferInstanceAs (Decidable True)

namespace EpisodeOk

variable {w : Fin cfg.numWorkers} {iter : ℕ} {b : Bool}

/-- The checkpoint that a worker merges into waits for this worker. -/
theorem target_facts (h : EpisodeOk loop s) (hend : AtGroupEnd loop s w iter b)
    (object : Checkpoint) :
    (s.target object iter).iteration = iter ∧ (s.target object iter).type ≠ .clComplete := by
  obtain ⟨hlt, hiter, _⟩ := atGroupEnd_facts hend
  unfold State.target
  cases hf : s.used.find? (fun c => c.iteration = iter) with
  | none => exact ⟨rfl, CheckpointLife.noConfusion⟩
  | some c =>
      have hc : c.iteration = iter := by simpa using List.find?_some hf
      obtain ⟨j, _, hj, hgroup⟩ := h.groups.exists_of_mem (List.mem_of_find?_eq_some hf)
      refine ⟨hc, fun htype => ?_⟩
      have hjw : j = s.merges w :=
        boundary_inj (lt_of_lt_of_le hj h.length_le) hlt (by rw [← hgroup.iteration, hc, hiter])
      have hpassed := hgroup.passed htype w
      rw [hjw] at hpassed
      exact lt_irrefl _ hpassed

end EpisodeOk

namespace State.ConflictsOk

variable {s' : State cfg} {w : Fin cfg.numWorkers}

theorem of_eq (h : s.ConflictsOk) (hused : s'.used = s.used) (hmerged : s'.merged = s.merged)
    (hconf : s'.conflicts = s.conflicts) : s'.ConflictsOk := by
  refine ⟨?_, ?_, ?_⟩
  · rw [hused, hconf]
    exact h.incomplete
  · rw [hused, hconf]
    exact h.inUse
  · rw [hmerged, hconf]
    exact h.unclean

theorem merge (h : s.ConflictsOk) (hep : EpisodeOk loop s) {object : Checkpoint} {iter : ℕ} {b : Bool}
    (hend : EpisodeOk.AtGroupEnd loop s w iter b)
    (hready : s.misspeculatedBefore (s.procs w).currentIter = false)
    (hclean : s.LastMergeClean w object iter) (behind : List IOEvt) :
    (s.performCheckpoint w object behind iter b).ConflictsOk := by
  obtain ⟨htarget, htype⟩ := hep.target_facts hend object
  have hmem : ∀ c, c ∈ (s.performCheckpoint w object behind iter b).used ↔
      c = cfg.performCheckpointLocked w (s.procs w).currentIter behind (s.procs w).spec
        (s.target object iter) ∨ (c ∈ s.used ∧ c.iteration ≠ iter) :=
    fun c => mem_mergeInto hep.pairwise_used
  have hiter : (cfg.performCheckpointLocked w (s.procs w).currentIter behind (s.procs w).spec
      (s.target object iter)).iteration = iter := by
    rw [Config.performCheckpointLocked_iteration, htarget]
  have hconf : ∀ i, i ∈ (s.performCheckpoint w object behind iter b).conflicts ↔
      (i = iter ∧ s.mergeConflicts w object iter = true) ∨ i ∈ s.conflicts := by
    intro i
    change i ∈ (if s.mergeConflicts w object iter then iter :: s.conflicts else s.conflicts) ↔ _
    split_ifs with hm
    · simp [hm]
    · simp [hm]
  have hmerged : (s.performCheckpoint w object behind iter b).merged =
      s.mergeOf w object iter :: s.merged := rfl
  refine ⟨fun c hc hci => ?_, fun i hi => ?_, fun i hi => ?_⟩
  · rcases (hmem c).1 hc with rfl | ⟨hc, hne⟩
    · rw [hiter, hconf] at hci
      change (if (s.target object iter).numWorkers + 1 = cfg.numWorkers then
        CheckpointLife.clComplete else (s.target object iter).type) ≠ _
      split_ifs with hlast
      · have hall := hclean hready hlast
        rcases hci with ⟨_, hm⟩ | hci
        · exact absurd (hall _ List.mem_cons_self rfl) (State.not_clean_of_mergeConflicts hm)
        · obtain ⟨m, hm, hmi, hnot⟩ := h.unclean iter hci
          exact absurd (hall m (List.mem_cons_of_mem _ hm) hmi) hnot
      · exact htype
    · refine h.incomplete c hc (((hconf _).1 hci).resolve_left ?_)
      exact fun hand => hne hand.1
  · by_cases hii : i = iter
    · exact ⟨_, (hmem _).2 (Or.inl rfl), hiter.trans hii.symm⟩
    · obtain ⟨c, hc, hci⟩ := h.inUse i (((hconf i).1 hi).resolve_left (fun hand => hii hand.1))
      exact ⟨c, (hmem c).2 (Or.inr ⟨hc, hci ▸ hii⟩), hci⟩
  · rw [hmerged]
    rcases (hconf i).1 hi with ⟨rfl, hm⟩ | hi
    · exact ⟨_, List.mem_cons_self, rfl, State.not_clean_of_mergeConflicts hm⟩
    · obtain ⟨m, hm, hmi, hnot⟩ := h.unclean i hi
      exact ⟨m, List.mem_cons_of_mem _ hm, hmi, hnot⟩

theorem combined (h : s.ConflictsOk) {used : List Checkpoint} {out : List IOEvt}
    (hc : cfg.commitZeroOrMoreCheckpoints s.used = .combined used out) :
    (s.combined used out).ConflictsOk := by
  obtain ⟨alpha, beta, newer, rest, hused, rfl, hat, hbt, hcomb⟩ := Config.commit_combined hc
  obtain ⟨img, _, hnewer, _⟩ := Config.combineCheckpoints_ok hcomb
  have hs : (s.combined (newer :: rest) out).used = newer :: rest ∧
      (s.combined (newer :: rest) out).conflicts = s.conflicts := by
    simp only [State.combined, hused, and_self]
  have hmerged : (s.combined (newer :: rest) out).merged = s.merged := by
    simp only [State.combined, hused]
  have hinc := h.incomplete
  have hin := h.inUse
  rw [hused] at hinc hin
  refine ⟨?_, ?_, by rw [hmerged, hs.2]; exact h.unclean⟩
  · rw [hs.1, hs.2]
    intro c hmem hci
    rcases List.mem_cons.1 hmem with rfl | hrest
    · rw [hnewer] at hci
      exact absurd hbt (hinc beta (by simp) hci)
    · exact hinc c (by simp [hrest]) hci
  · rw [hs.1, hs.2]
    intro i hi
    obtain ⟨c, hmem, hci⟩ := hin i hi
    subst hci
    have hnot := hinc c hmem hi
    rcases List.mem_cons.1 hmem with rfl | hmem
    · exact absurd hat hnot
    · rcases List.mem_cons.1 hmem with rfl | hrest
      · exact absurd hbt hnot
      · exact ⟨c, List.mem_cons_of_mem _ hrest, rfl⟩

/-- A conflict of two checkpoints makes none complete. -/
theorem conflict (h : s.ConflictsOk) {used : List Checkpoint} {i : ℕ}
    (hc : cfg.commitZeroOrMoreCheckpoints s.used = .conflict used i) :
    (State.misspecAt { s with used := used } w i).ConflictsOk := by
  obtain ⟨alpha, beta, rest, img, hused, rfl, rfl, _, _⟩ := Config.commit_conflict hc
  have hinc := h.incomplete
  have hin := h.inUse
  rw [hused] at hinc hin
  refine ⟨fun c hmem hci => ?_, fun j hj => ?_, h.unclean⟩
  · rcases List.mem_cons.1 hmem with rfl | hmem
    · exact CheckpointLife.noConfusion
    · rcases List.mem_cons.1 hmem with rfl | hrest
      · exact CheckpointLife.noConfusion
      · exact hinc c (by simp [hrest]) hci
  · obtain ⟨c, hmem, hcj⟩ := hin j hj
    rcases List.mem_cons.1 hmem with rfl | hmem
    · exact ⟨_, List.mem_cons_self, hcj⟩
    · rcases List.mem_cons.1 hmem with rfl | hrest
      · exact ⟨_, List.mem_cons_of_mem _ List.mem_cons_self, hcj⟩
      · exact ⟨c, List.mem_cons_of_mem _ (List.mem_cons_of_mem _ hrest), hcj⟩

theorem commit (h : s.ConflictsOk) (pc : Pc) : (s.commit w pc).ConflictsOk := by
  unfold State.commit
  cases hc : cfg.commitZeroOrMoreCheckpoints s.used with
  | nothing => exact h.of_eq rfl rfl rfl
  | combined used out => exact (h.combined hc).of_eq rfl rfl rfl
  | conflict used i => exact h.conflict hc

theorem contained (h : s.ConflictsOk) (hep : EpisodeOk loop s) (hphase : s.phase = .parallel) :
    s.Contained where
  incomplete := h.incomplete
  before b hb a ha := by
    rw [hep.adopted, List.nil_append] at ha
    obtain ⟨c, hc, rfl⟩ := h.inUse b hb
    exact hep.emitted_lt hc ha
  misspec hne := absurd hphase hne

theorem leading_lt (h : s.ConflictsOk) (hep : EpisodeOk loop s) {b : ℕ} (hb : b ∈ s.conflicts)
    {c : Checkpoint} (hc : c ∈ leading s.used) : c.iteration < b := by
  obtain ⟨d, hd, rfl⟩ := h.inUse b hb
  have hnot := h.incomplete d hd hb
  have hsplit : leading s.used ++ s.used.dropWhile (fun c => c.type = .clComplete) = s.used :=
    List.takeWhile_append_dropWhile
  have hsorted := hep.pairwise_used
  rw [← hsplit, List.pairwise_append] at hsorted
  refine hsorted.2.2 c hc d ?_
  rw [← hsplit, List.mem_append] at hd
  exact hd.resolve_left (fun hlead => hnot (complete_of_mem_leading hlead))

/-- What the main process adopts is before every conflict, and with a conflict it has seen a
misspeculation. -/
theorem adopt (h : s.ConflictsOk) (hep : EpisodeOk loop s) (hdone : ∀ w, (s.procs w).pc = .done) :
    s.adopt.Contained where
  incomplete c hc := by cases hc
  before b hb a ha := by
    have hadopted := (cfg.adoptComplete_eq s.misspeculationHappened s.main s.used).1
    change a ∈ (cfg.adoptComplete _ s.main s.used).adopted.map Checkpoint.iteration ++
      (s.emitted ++ (cfg.adoptComplete _ s.main s.used).adopted.map Checkpoint.iteration) at ha
    rw [hadopted] at ha
    have hlead : ∀ a ∈ (leading s.used).map Checkpoint.iteration, a < b := by
      intro a ha
      obtain ⟨c, hc, rfl⟩ := List.mem_map.1 ha
      exact h.leading_lt hep hb hc
    obtain ⟨d, hd, hdb⟩ := h.inUse b hb
    rcases List.mem_append.1 ha with ha | ha
    · exact hlead a ha
    · rcases List.mem_append.1 ha with ha | ha
      · exact hdb ▸ hep.emitted_lt hd ha
      · exact hlead a ha
  misspec _ hne := by
    change s.conflicts ≠ [] at hne
    change s.misspeculationHappened = true
    by_contra hmis
    obtain ⟨b, hb⟩ := List.exists_mem_of_ne_nil _ hne
    obtain ⟨c, hc, rfl⟩ := h.inUse b hb
    exact h.incomplete c hc hb (hep.complete_of_done (Bool.eq_false_iff.2 hmis) hdone hc)

end State.ConflictsOk
end Cpf.Executive
