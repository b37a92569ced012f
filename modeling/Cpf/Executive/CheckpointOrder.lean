import Cpf.Executive.Exits
import Cpf.Executive.TeamInvariant

/-!
# The order of the checkpoints in use

A worker that has waited for a free object does not search the used list again. As long as no such
worker adds a checkpoint behind one of the same or a later iteration, the used list is in the order
of the iterations, and the checkpoints are combined in this order.
-/

namespace Cpf.Executive.Team

variable {cfg : Config} {s s' : Team cfg} {us fs us' fs' : List ℕ} {a : TeamAction cfg}
  {w : Fin cfg.numWorkers} {z : Sizes}

/-- A worker that has waited for an object and gets one finds only older checkpoints in use. -/
def resumesInOrder (z : Sizes) (s : Team cfg) : TeamAction cfg → Bool
  | .retry w =>
      match (s.members w).pc with
      | .retry b => (s.checkpoints.allocCheckpoint z).isNone ||
          s.checkpoints.usedObjects.all (fun o =>
            decide ((s.checkpoints.chkpt o).iteration < effectiveIter (s.members w) b))
      | _ => true
  | _ => true

/-- The lists are well linked and, with the main checkpoint, disjoint; the used list is strictly
increasing; and one object was given out for each iteration. -/
structure InOrder (s : Team cfg) : Prop where
  lists : ∃ us fs, s.checkpoints.ListsOk us fs ∧
    us.Pairwise (fun o p => (s.checkpoints.chkpt o).iteration < (s.checkpoints.chkpt p).iteration)
  same : ∀ r ∈ s.issued, ∀ q ∈ s.issued, r.1 = q.1 → r.2 = q.2

def iterations (s : Team cfg) (us : List ℕ) : List ℕ :=
  us.map (fun o => (s.checkpoints.chkpt o).iteration)

/-- What holds in every state of such a run. While the workers run, an object that was given out is
still in use, or no worker asks for its iteration any more. -/
structure OrderOk (s : Team cfg) (us : List ℕ) : Prop where
  increasing : (s.combined ++ s.iterations us).Pairwise (· < ·)
  nonempty : s.main.resting = false → s.combined ≠ [] → us ≠ []
  issued : s.main.resting = false → ∀ r ∈ s.issued,
    (r.2 ∈ us ∧ (s.checkpoints.chkpt r.2).iteration = r.1) ∨ ∀ w, r.1 < (s.members w).asked
  same : ∀ r ∈ s.issued, ∀ q ∈ s.issued, r.1 = q.1 → r.2 = q.2

namespace OrderOk

theorem pairwise_used (h : s.OrderOk us) :
    us.Pairwise (fun o p => (s.checkpoints.chkpt o).iteration < (s.checkpoints.chkpt p).iteration) :=
  List.pairwise_map.1 (List.pairwise_append.1 h.increasing).2.1

theorem eq_of_iteration (h : s.OrderOk us) {o p : ℕ} (ho : o ∈ us) (hp : p ∈ us)
    (he : (s.checkpoints.chkpt o).iteration = (s.checkpoints.chkpt p).iteration) : o = p := by
  have hnodup : (s.iterations us).Nodup :=
    (List.pairwise_append.1 h.increasing).2.1.imp (fun hlt => hlt.ne)
  exact List.inj_on_of_nodup_map hnodup ho hp he

theorem iterations_congr (hiter : ∀ o ∈ us,
    (s'.checkpoints.chkpt o).iteration = (s.checkpoints.chkpt o).iteration) :
    s'.iterations us = s.iterations us := List.map_congr_left hiter

/-- The iterations of the objects in use and the record stay. -/
theorem of_same (h : s.OrderOk us)
    (hiter : ∀ o ∈ us, (s'.checkpoints.chkpt o).iteration = (s.checkpoints.chkpt o).iteration)
    (hcombined : s'.combined = s.combined) (hissued : s'.issued = s.issued)
    (hasked : ∀ w, (s'.members w).asked = (s.members w).asked)
    (hrest : s'.main.resting = false → s.main.resting = false) : s'.OrderOk us where
  increasing := by
    rw [hcombined, iterations_congr hiter]
    exact h.increasing
  nonempty hr hne := by
    rw [hcombined] at hne
    exact h.nonempty (hrest hr) hne
  issued hr r hmem := by
    rw [hissued] at hmem
    rcases h.issued (hrest hr) r hmem with ⟨ho, hi⟩ | hall
    · exact Or.inl ⟨ho, (hiter _ ho).trans hi⟩
    · exact Or.inr (fun w => by rw [hasked]; exact hall w)
  same := by
    rw [hissued]
    exact h.same

theorem tail {o : ℕ} (h : s.OrderOk (o :: us))
    (hpassed : s.main.resting = false → ∀ w, (s.checkpoints.chkpt o).iteration < (s.members w).asked)
    (hchk : s'.checkpoints.chkpt = s.checkpoints.chkpt) (hissued : s'.issued = s.issued)
    (hasked : ∀ w, (s'.members w).asked = (s.members w).asked)
    (hmain : s'.main.resting = s.main.resting)
    (hinc : (s'.combined ++ s'.iterations us).Pairwise (· < ·))
    (hne : s'.main.resting = false → us ≠ []) : s'.OrderOk us where
  increasing := hinc
  nonempty hr _ := hne hr
  issued hr r hmem := by
    rw [hmain] at hr
    rw [hissued] at hmem
    rcases h.issued hr r hmem with ⟨ho, hi⟩ | hall
    · rcases List.mem_cons.1 ho with he | ho
      · refine Or.inr (fun w => ?_)
        rw [hasked, ← hi, he]
        exact hpassed hr w
      · exact Or.inl ⟨ho, by rw [hchk]; exact hi⟩
    · exact Or.inr (fun w => by rw [hasked]; exact hall w)
  same := by
    rw [hissued]
    exact h.same

end OrderOk

/-- The requests of worker `w` reach up to the checkpoint it is given. -/
theorem asked_grant {b : Bool} {o : ℕ} (h : s.TeamOk us fs)
    (hask : (s.members w).pc.asking = some b) (v : Fin cfg.numWorkers) {i : ℕ}
    (hi : i < (s.members v).asked) : i < ((s.grant w b o).members v).asked := by
  by_cases hvw : v = w
  · subst v
    have hle := (h.members w).asking b hask
    simp only [grant, setMember_self]
    omega
  · have hsame : (s.grant w b o).members v = s.members v := s.setMember_of_ne _ hvw
    rw [hsame]
    exact hi

namespace OrderOk

/-- A request that was open was not granted before, unless the checkpoint is still in use. -/
theorem issued_open (h : s.OrderOk us) (hok : s.TeamOk us fs) {b : Bool}
    (hask : (s.members w).pc.asking = some b) {r : ℕ × ℕ} (hr : r ∈ s.issued)
    (hi : r.1 = effectiveIter (s.members w) b) :
    r.2 ∈ us ∧ (s.checkpoints.chkpt r.2).iteration = r.1 := by
  have hbusy := hok.main_of_busy (TeamOk.busy_of_asking hask)
  rcases h.issued hbusy r hr with hin | hall
  · exact hin
  · have hle := (hok.members w).asking b hask
    have hlt := hall w
    rw [hi] at hlt
    exact absurd (lt_of_lt_of_le hlt hle) (lt_irrefl _)

/-- A checkpoint is given out a second time. -/
theorem grant_same (h : s.OrderOk us) {b : Bool} {o : ℕ}
    (hopen : ∀ r ∈ s.issued, r.1 = effectiveIter (s.members w) b → r.2 = o) :
    ∀ r ∈ (s.grant w b o).issued, ∀ q ∈ (s.grant w b o).issued, r.1 = q.1 → r.2 = q.2 := by
  intro r hr q hq he
  rcases List.mem_cons.1 hr with rfl | hr
  · rcases List.mem_cons.1 hq with rfl | hq
    · rfl
    · exact (hopen q hq he.symm).symm
  · rcases List.mem_cons.1 hq with rfl | hq
    · exact hopen r hr he
    · exact h.same r hr q hq he

theorem old (h : s.OrderOk us) (hok : s.TeamOk us fs) {b : Bool} {o : ℕ}
    (hask : (s.members w).pc.asking = some b) (ho : o ∈ us)
    (hiter : (s.checkpoints.chkpt o).iteration = effectiveIter (s.members w) b) :
    (s.grant w b o).OrderOk us where
  increasing := h.increasing
  nonempty := h.nonempty
  issued hr r hmem := by
    rcases List.mem_cons.1 hmem with rfl | hmem
    · exact Or.inl ⟨ho, hiter⟩
    · rcases h.issued hr r hmem with hin | hall
      · exact Or.inl hin
      · exact Or.inr (fun v => asked_grant hok hask v (hall v))
  same := h.grant_same (fun r hr hi => by
    obtain ⟨hmem, he⟩ := h.issued_open hok hask hr hi
    exact h.eq_of_iteration hmem ho (by rw [he, hi, hiter]))

theorem new (h : s.OrderOk us) (hok : s.TeamOk us fs) {b : Bool} {o : ℕ} {m : Manager}
    (hask : (s.members w).pc.asking = some b)
    (hc : s.checkpoints.Created us fs (effectiveIter (s.members w) b) o m fs')
    (horder : ∀ q ∈ us, (s.checkpoints.chkpt q).iteration < effectiveIter (s.members w) b) :
    (s.requested w b (.new o m)).OrderOk (us ++ [o]) := by
  have hsame : ∀ q ∈ us, (m.chkpt q).iteration = (s.checkpoints.chkpt q).iteration := fun q hq => by
    rw [hc.others q (fun he => hc.fresh (he ▸ hq))]
  have hbusy := hok.main_of_busy (TeamOk.busy_of_asking hask)
  have hiters : (s.requested w b (.new o m)).iterations (us ++ [o]) =
      s.iterations us ++ [effectiveIter (s.members w) b] := by
    rw [iterations, List.map_append, List.map_singleton]
    congr 1
    · exact List.map_congr_left hsame
    · exact congrArg (fun i => [i]) hc.iteration
  have hbelow : ∀ i ∈ s.combined ++ s.iterations us, i < effectiveIter (s.members w) b := by
    intro i hi
    rcases List.mem_append.1 hi with hi | hi
    · cases hus : us with
      | nil => exact absurd hus (h.nonempty hbusy (List.ne_nil_of_mem hi))
      | cons q qs =>
          have hq : q ∈ us := by rw [hus]; exact List.mem_cons_self
          have hlt := (List.pairwise_append.1 h.increasing).2.2 i hi
            (s.checkpoints.chkpt q).iteration (List.mem_map_of_mem hq)
          exact lt_trans hlt (horder q hq)
    · obtain ⟨q, hq, rfl⟩ := List.mem_map.1 hi
      exact horder q hq
  refine ⟨?_, fun _ _ => by simp, fun hr r hmem => ?_, ?_⟩
  · rw [hiters]
    change (s.combined ++ (s.iterations us ++ [_])).Pairwise (· < ·)
    rw [← List.append_assoc]
    refine List.pairwise_append.2 ⟨h.increasing, List.pairwise_singleton _ _, fun i hi j hj => ?_⟩
    rw [List.mem_singleton.1 hj]
    exact hbelow i hi
  · rcases List.mem_cons.1 hmem with rfl | hmem
    · exact Or.inl ⟨List.mem_append_right us (List.mem_singleton_self o), hc.iteration⟩
    · rcases h.issued hr r hmem with ⟨hin, hi⟩ | hall
      · exact Or.inl ⟨List.mem_append_left [o] hin, (hsame _ hin).trans hi⟩
      · exact Or.inr (fun v => asked_grant (o := o) hok hask v (hall v))
  · refine h.grant_same (fun r hr hi => ?_)
    obtain ⟨hmem, he⟩ := h.issued_open hok hask hr hi
    exact absurd (horder r.2 hmem) (by rw [he, hi]; exact lt_irrefl _)

/-- The record of a commit step that retires nothing. -/
theorem of_commits (h : s.OrderOk us) {k : Committer cfg} {pc pc' : CommitPc} {m : Manager}
    (hat : s.At k pc) (hpc : ∀ alpha beta, pc ≠ .retire alpha beta)
    (hiter : ∀ o ∈ us, (m.chkpt o).iteration = (s.checkpoints.chkpt o).iteration) :
    (s.commits k pc (.next m pc')).OrderOk us := by
  have hnote : s.noteRetired pc = s := by
    cases pc with
    | retire alpha beta => exact absurd rfl (hpc alpha beta)
    | _ => rfl
  cases k with
  | worker w ret =>
      simp only [Team.commits, workerCommits, hnote]
      refine h.of_same hiter rfl rfl (fun v => ?_) id
      by_cases hv : v = w <;> simp [setPc, setMember, setManager, hv]
  | main =>
      simp only [Team.commits, mainCommits, hnote]
      exact h.of_same hiter rfl rfl (fun v => rfl) (fun hr => by cases hr)

theorem retire (h : s.OrderOk us) (hok : s.TeamOk us fs) {k : Committer cfg} {alpha beta : ℕ}
    {rest : List ℕ} (hat : s.At k (.retire alpha beta))
    (hclaim : (s.shared us fs).Claim alpha beta) (hfront : us = alpha :: beta :: rest) :
    (s.commits k (.retire alpha beta)
      (.next (s.checkpoints.retire alpha) (.unlock alpha beta))).OrderOk (beta :: rest) := by
  subst hfront
  have hpassed : ∀ w, (s.checkpoints.chkpt alpha).iteration < (s.members w).asked := fun w =>
    (hok.objects alpha List.mem_cons_self).below w (by rw [hclaim.passed]; exact Finset.mem_univ w)
  have hinc : (s.combined ++ [(s.checkpoints.chkpt alpha).iteration] ++
      s.iterations (beta :: rest)).Pairwise (· < ·) := by
    rw [List.append_assoc]
    exact h.increasing
  cases k with
  | worker w ret =>
      refine h.tail (fun _ => hpassed) rfl rfl (fun v => ?_) rfl hinc
        (fun _ => List.cons_ne_nil beta rest)
      by_cases hv : v = w <;>
        simp [Team.commits, workerCommits, noteRetired, setPc, setMember, setManager, hv]
  | main =>
      have hmain : s.main.resting = true := by
        rw [show s.main = _ from hat]
        rfl
      exact h.tail (fun _ => hpassed) rfl rfl (fun v => rfl) (by rw [hmain]; rfl) hinc
        (fun _ => List.cons_ne_nil beta rest)

theorem free (h : s.OrderOk us) {o : ℕ} {rest : List ℕ} (hmain : s.main = .adopt ∨ s.main = .squash)
    (hfront : us = o :: rest) : (s.freeFirst o).OrderOk rest := by
  subst hfront
  have hr : s.main.resting = true := by rcases hmain with hm | hm <;> rw [hm] <;> rfl
  have hr' : (s.freeFirst o).main.resting = true := hr
  have hiter : ∀ q, ((s.freeFirst o).checkpoints.chkpt q).iteration =
      (s.checkpoints.chkpt q).iteration := fun q => by
    by_cases hq : q = o <;>
      simp [freeFirst, setManager, Manager.retire, Manager.setType, Manager.setChkpt, hq]
  refine ⟨?_, fun hf => ?_, fun hf => ?_, h.same⟩
  · rw [iterations_congr (s := s) (fun q _ => hiter q)]
    refine h.increasing.sublist ?_
    exact List.Sublist.append_left (List.Sublist.map _ (List.sublist_cons_self o rest)) s.combined
  · rw [hr'] at hf
    cases hf
  · rw [hr'] at hf
    cases hf

theorem iteration_setChkpt {m : Manager} {o : ℕ} {c : Checkpoint}
    (h : c.iteration = (m.chkpt o).iteration) (q : ℕ) :
    ((m.setChkpt o c).chkpt q).iteration = (m.chkpt q).iteration := by
  by_cases hq : q = o
  · simp [Manager.setChkpt, hq, h]
  · simp [Manager.setChkpt, hq]

/-- The step lemma: the order is kept if a worker that resumes finds only older checkpoints. -/
theorem of_change (h : s.OrderOk us) (hok : s.TeamOk us fs) (hc : s.Change us fs a s' us' fs')
    (hcond : ∀ w b o m, a = .retry w → (s.members w).pc = .retry b →
      s' = s.requested w b (.new o m) →
      ∀ q ∈ us, (s.checkpoints.chkpt q).iteration < effectiveIter (s.members w) b) :
    s'.OrderOk us' := by
  cases hc with
  | calm hcalm =>
      exact h.of_same (fun o _ => by rw [hcalm.objects.chkpt]) hcalm.combined hcalm.issued
        hcalm.asked hcalm.resting
  | restart empty resting =>
      rw [empty]
      exact ⟨List.Pairwise.nil, fun _ hne => absurd rfl hne, fun _ r hr => (by cases hr),
        fun r hr => by cases hr⟩
  | old asks unclaimed used iteration => exact h.old hok asks used iteration
  | new asks unclaimed created order =>
      refine h.new hok asks created ?_
      rcases order with ⟨ha, hpc⟩ | hlt
      · exact hcond _ _ _ _ ha hpc rfl
      · exact hlt
  | @merge w b o p behind copied pc =>
      have hinto := TeamOk.mergeInto_performCheckpoint s us fs w b o p behind copied
      refine h.of_same (fun q _ => hinto.iteration_eq q) rfl rfl (fun v => ?_) id
      by_cases hv : v = w <;> simp [performCheckpoint, setPc, setMember, setManager, hv]
  | @claim k alpha beta rest pc front alphaType betaType =>
      exact h.of_commits pc (fun _ _ he => by cases he) (fun o _ => iteration_setChkpt
        (c := { s.checkpoints.chkpt alpha with type := .clFree }) rfl o)
  | combined pc claim type iteration numWorkers =>
      exact h.of_commits pc (fun _ _ he => by cases he) (fun o _ => iteration_setChkpt iteration o)
  | conflict pc claim type iteration numWorkers =>
      exact h.of_commits pc (fun _ _ he => by cases he) (fun o _ => iteration_setChkpt iteration o)
  | retire pc claim front => exact h.retire hok pc claim front
  | free main front => exact h.free main front

theorem initial (cfg : Config) (chkpt : ℕ → Checkpoint) (reduxUsed : ℕ → ℕ) :
    (Team.initial cfg chkpt reduxUsed).OrderOk [] :=
  ⟨List.Pairwise.nil, fun _ hne => absurd rfl hne, fun _ r hr => (by cases hr),
    fun r hr => by cases hr⟩

theorem inOrder (h : s.OrderOk us) (hok : s.TeamOk us fs) : s.InOrder :=
  ⟨⟨us, fs, hok.shared.lists, h.pairwise_used⟩, h.same⟩

end OrderOk

/-- A worker that has waited has got an object. -/
theorem allocCheckpoint_isSome {b : Bool} {o : ℕ} {m : Manager} (hpc : (s.members w).pc = .retry b)
    (hs : s.step z (.retry w) = some (s.requested w b (.new o m))) :
    (s.checkpoints.allocCheckpoint z).isNone = false := by
  simp only [step, workerStep, hpc, Option.some.injEq] at hs
  cases ha : s.checkpoints.allocCheckpoint z with
  | some r => rfl
  | none =>
      rw [Manager.createCheckpoint, ha] at hs
      have hmem := congrArg (fun t => (t.members w).pc) hs
      simp [requested, grant, setPc] at hmem

theorem of_resumesInOrder (hok : s.TeamOk us fs) (hcond : s.resumesInOrder z a = true)
    (hs : s.step z a = some s') (w : Fin cfg.numWorkers) (b : Bool) (o : ℕ) (m : Manager)
    (ha : a = .retry w) (hpc : (s.members w).pc = .retry b)
    (hnew : s' = s.requested w b (.new o m)) :
    ∀ q ∈ us, (s.checkpoints.chkpt q).iteration < effectiveIter (s.members w) b := by
  subst ha
  rw [hnew] at hs
  have hused : s.checkpoints.usedObjects = us := hok.shared.lists.usedObjects_eq
  simp only [resumesInOrder, hpc, allocCheckpoint_isSome hpc hs, Bool.false_or, hused,
    List.all_eq_true, decide_eq_true_eq] at hcond
  exact hcond

/-- In every run in which a worker that has waited for an object adds its checkpoint behind older
ones, the lists are well formed and in order. -/
theorem checkpoint_lists_in_order (z : Sizes) (chkpt : ℕ → Checkpoint) (reduxUsed : ℕ → ℕ)
    (h : Run (step z) (fun s a => s.resumesInOrder z a = true) (initial cfg chkpt reduxUsed) s) :
    s.InOrder := by
  obtain ⟨us, fs, hok, horder⟩ := h.invariant
    (fun s : Team cfg => ∃ us fs, s.TeamOk us fs ∧ s.OrderOk us)
    ⟨[], [], .initial cfg chkpt reduxUsed, .initial cfg chkpt reduxUsed⟩ (by
      rintro s a s' ⟨us, fs, hok, horder⟩ hcond hs
      obtain ⟨us', fs', hc, hok'⟩ := hok.step hs
      exact ⟨us', fs', hok', horder.of_change hok hc (of_resumesInOrder hok hcond hs)⟩)
  exact horder.inOrder hok

def mergesWith (p : Speculative) (w : Fin 2) (iter k : ℕ) : List (TeamAction pair) :=
  [.checkpoint w iter false, .get w, .lock w, .merge w p [] 0] ++ List.replicate k (.commit w)

def mergesAt (w : Fin 2) (iter k : ℕ) : List (TeamAction pair) := mergesWith Loop.idleProc.spec w iter k

/-- Iteration 0 of a group writes the first byte and the byte at 12 GB; the size of this heap is 16 in a
`Len`. -/
def farApart : Speculative :=
  { Loop.idleProc.spec with
    worker := { Loop.idleProc.spec.worker with
      shadow := Function.update (Function.update (fun _ => liveIn) 0 3) (12 * gigabyte) 3
      range := ⟨0, 12 * gigabyte + 1⟩ } }

/-- Worker 0 is six checkpoints ahead and waits for a free object; worker 1 merges into the first
`k + 1` checkpoints and combines them. -/
def oneWaits (k : ℕ) : List (TeamAction pair) :=
  startPair ++ (List.range 6).flatMap (fun i => mergesWith farApart 0 (252 * (i + 1)) 2) ++
    [.checkpoint (0 : Fin 2) (252 * 7) false, .get (0 : Fin 2)] ++ mergesAt 1 252 4 ++
    (List.range k).flatMap (fun i => mergesAt 1 (252 * (i + 2)) 10)

theorem checkpoint_lists_in_order_oneWaits : ∃ s : Team pair,
    Run (step pairSizes) (fun s a => s.resumesInOrder pairSizes a = true) pairStart s ∧
      s.checkpoints.usedObjects = [2, 3, 4, 5, 6, 1] ∧ s.InOrder := by
  have hreplay : (Run.replay (step pairSizes) (fun s a => s.resumesInOrder pairSizes a = true)
      pairStart (oneWaits 1 ++ [.wake (0 : Fin 2), .retry (0 : Fin 2)])).any
      (fun s => decide (s.checkpoints.usedObjects = [2, 3, 4, 5, 6, 1])) = true := by
    decide +kernel
  obtain ⟨s, hrun, hs⟩ := Run.exists_of_any hreplay
  exact ⟨s, hrun, of_decide_eq_true hs, checkpoint_lists_in_order pairSizes _ _ hrun⟩

/-- While worker 0 waits, worker 1 makes the checkpoint that both need; worker 0 then adds a second
one for the same iteration. -/
theorem waiting_worker_adds_duplicate : ¬ ∀ (cfg : Config) (z : Sizes) (chkpt : ℕ → Checkpoint)
    (reduxUsed : ℕ → ℕ) (s : Team cfg),
    Run (step z) (fun _ _ => True) (initial cfg chkpt reduxUsed) s → s.InOrder := by
  intro hall
  have hreplay : (Run.replay (step pairSizes) (fun _ _ => True) pairStart
      (oneWaits 5 ++ [.checkpoint (1 : Fin 2) (252 * 7) false, .get (1 : Fin 2), .wake (0 : Fin 2),
        .retry (0 : Fin 2)])).any
      (fun s => decide ((252 * 7, 1) ∈ s.issued ∧ (252 * 7, 2) ∈ s.issued)) = true := by
    decide +kernel
  obtain ⟨s, hrun, hs⟩ := Run.exists_of_any hreplay
  obtain ⟨hone, htwo⟩ := of_decide_eq_true hs
  exact absurd ((hall pair pairSizes _ _ s hrun).same _ hone _ htwo rfl) (by decide)

end Cpf.Executive.Team
