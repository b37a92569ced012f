import Cpf.Executive.Conflicts
import Cpf.Executive.HeapSteps

/-!
# Whose kill-private heap is the live-out

At the final checkpoint a worker copies its kill-private heap if it is on its iteration. The call of
`__specpriv_end_iter` on the exit edge has advanced the counter by then, so the worker that copies is
the one that would execute the iteration behind the last one.
-/

namespace Cpf.Executive

open Loop

variable {cfg : Config} {loop : Loop cfg} {s s' : State cfg} {a : Action cfg}
  {v w : Fin cfg.numWorkers}

/-- `__specpriv_is_on_iter` of worker `w`. Behind its final merge its counter stays, so in the end
this says whether it has copied its kill-private heap. -/
def State.IsOnIter (s : State cfg) (w : Fin cfg.numWorkers) : Prop :=
  (w : ℕ) = (s.procs w).currentIter % cfg.numWorkers

/-- One worker has copied its kill-private heap, the one that has executed the last iteration, and this heap
is the one of the main process, on the bytes below `sizeof_killprivate`. -/
structure State.LiveoutOfLast (loop : Loop cfg) (s : State cfg) : Prop where
  copies : ∀ w, s.IsOnIter w ↔ w = loop.owner (loop.trip - 1)
  main : ∀ k < cfg.sizeofKillprivate.val,
    s.main.killpriv k = (s.procs (loop.owner (loop.trip - 1))).spec.killpriv k

/-- The checkpoint `c` holds the kill-private heap of worker `v`. -/
def State.HoldsHeapOf (s : State cfg) (v : Fin cfg.numWorkers) (c : Checkpoint) : Prop :=
  ∀ k < cfg.sizeofKillprivate.val, c.killpriv k = (s.procs v).spec.killpriv k

namespace Config

theorem unsigned_size (size : HeapLen) : unsigned size.val = size.val := Nat.mod_eq_of_lt size.lt

theorem killpriv_initializePartial (cfg : Config) (c : Checkpoint) :
    (if c.numWorkers = 0 then cfg.initializePartialCheckpoint c else c).killpriv = c.killpriv := by
  split_ifs <;> rfl

theorem killpriv_copied (cfg : Config) {wid currentIter : ℕ} {behind : List IOEvt} {p : Speculative}
    {c : Checkpoint} (hc : c.iteration = lastIteration) (hon : wid = currentIter % cfg.numWorkers)
    {k : ℕ} (hk : k < cfg.sizeofKillprivate.val) :
    (cfg.performCheckpointLocked wid currentIter behind p c).killpriv k = p.killpriv k := by
  simp only [performCheckpointLocked, hc, if_true, distillWorkerKillprivateIntoPartial, ← hon,
    decide_true, memcpy, unsigned_size, hk]

theorem killpriv_kept (cfg : Config) {wid currentIter : ℕ} {behind : List IOEvt} {p : Speculative}
    {c : Checkpoint} (hoff : wid ≠ currentIter % cfg.numWorkers) :
    (cfg.performCheckpointLocked wid currentIter behind p c).killpriv = c.killpriv := by
  simp only [performCheckpointLocked, killpriv_initializePartial,
    distillWorkerKillprivateIntoPartial, hoff, decide_false, Bool.false_eq_true, if_false, ite_self]

/-- The main process ends up with the kill-private heap of the last checkpoint that it adopts. -/
theorem killpriv_adoptComplete (cfg : Config) (m : Main) (used : List Checkpoint) {k : ℕ}
    (hk : k < cfg.sizeofKillprivate.val) :
    (cfg.adoptComplete false m used).main.killpriv k =
      ((leading used).getLast?.map (fun c => c.killpriv k)).getD (m.killpriv k) := by
  induction used generalizing m with
  | nil => rfl
  | cons c cs ih =>
      rw [adoptComplete]
      by_cases hc : c.type = .clComplete
      · rw [if_pos hc, leading_cons_of_complete hc, List.getLast?_cons]
        have hcopy : (cfg.adopt false m c).killpriv k = c.killpriv k := by
          simp [adopt, distillCommittedKillprivateIntoMain, memcpy, unsigned_size, hk]
        rw [ih, hcopy]
        cases (leading cs).getLast? <;> rfl
      · rw [if_neg hc, leading_cons_of_not_complete hc]
        rfl

end Config

namespace EpisodeOk

theorem eq_of_iteration (h : EpisodeOk loop s) {c d : Checkpoint} (hc : c ∈ s.used)
    (hd : d ∈ s.used) (he : c.iteration = d.iteration) : c = d := by
  have hnodup : (s.used.map Checkpoint.iteration).Nodup :=
    List.pairwise_map.2 (h.pairwise_used.imp (fun hlt => hlt.ne))
  exact List.inj_on_of_nodup_map hnodup hc hd he

/-- Once a worker has made its final merge, the final checkpoint is in use. -/
theorem exists_final (h : EpisodeOk loop s)
    (hv : s.merges v = loop.numGroups s.firstIteration) :
    ∃ c ∈ s.used, c.iteration = lastIteration := by
  have hle := h.merges_le v
  rw [hv] at hle
  have hlen := le_antisymm h.length_le hle
  cases hlast : s.used.getLast? with
  | none =>
      rw [List.getLast?_eq_none_iff] at hlast
      rw [hlast, List.length_nil] at hlen
      have hpos : 0 < loop.numGroups s.firstIteration := Nat.succ_pos _
      have hpassed := h.passed (by omega) v
      omega
  | some c =>
      obtain ⟨i, hi, hgroup⟩ := h.groups.getLast hlast
      exact ⟨c, List.mem_of_getLast? hlast,
        hgroup.iteration.trans (boundary_of_last (hi.trans hlen))⟩

/-- The target of a merge, if the checkpoint of that iteration is in use. -/
theorem target_eq (h : EpisodeOk loop s) {c : Checkpoint} (hc : c ∈ s.used) (object : Checkpoint) :
    s.target object c.iteration = c := by
  unfold State.target
  cases hf : s.used.find? (fun d => d.iteration = c.iteration) with
  | none =>
      have hnone := List.find?_eq_none.1 hf c hc
      simp at hnone
  | some d =>
      have hd : d.iteration = c.iteration := by simpa using List.find?_some hf
      exact h.eq_of_iteration (List.mem_of_find?_eq_some hf) hc hd

end EpisodeOk

/-- What holds in a run without a misspeculation; worker `v` is the one that copies. -/
structure KillOk (loop : Loop cfg) (v : Fin cfg.numWorkers) (s : State cfg) : Prop where
  machine : MachineOk loop s
  first : s.firstIteration = 0
  phase : s.phase = .parallel ∨ s.phase = .ended
  final : s.phase = .parallel → s.merges v = loop.numGroups s.firstIteration → ∀ c ∈ s.used,
    c.iteration = lastIteration → s.HoldsHeapOf v c
  counter : s.phase = .ended → ∀ w, (s.procs w).currentIter = loop.trip
  main : s.phase = .ended → ∀ k < cfg.sizeofKillprivate.val,
    s.main.killpriv k = (s.procs v).spec.killpriv k

namespace KillOk

/-- In the parallel region the checkpoints are all there is. -/
theorem of_parallel (hm : MachineOk loop s) (hfirst : s.firstIteration = 0)
    (hphase : s.phase = .parallel)
    (hfinal : s.merges v = loop.numGroups s.firstIteration → ∀ c ∈ s.used,
      c.iteration = lastIteration → s.HoldsHeapOf v c) : KillOk loop v s where
  machine := hm
  first := hfirst
  phase := Or.inl hphase
  final _ := hfinal
  counter he := by
    rw [hphase] at he
    cases he
  main he := by
    rw [hphase] at he
    cases he

theorem setProc (h : KillOk loop v s) (hphase : s.phase = .parallel) {p : Proc}
    (hm : MachineOk loop (s.setProc w p)) (hmerges : p.merges = (s.procs w).merges)
    (hkill : p.spec.killpriv = (s.procs w).spec.killpriv ∨
      (s.procs w).merges < loop.numGroups s.firstIteration) :
    KillOk loop v (s.setProc w p) := by
  refine of_parallel hm h.first hphase (fun hv c hc hi k hk => ?_)
  rw [EpisodeOk.merges_setProc hmerges] at hv
  rw [h.final hphase hv c hc hi k hk]
  by_cases hvw : v = w
  · subst v
    rcases hkill with he | hlt
    · simp [State.setProc, he]
    · exact absurd hv hlt.ne
  · simp [State.setProc, hvw]

theorem combined (h : KillOk loop v s) (hphase : s.phase = .parallel) {used : List Checkpoint}
    {out : List IOEvt} (hc : cfg.commitZeroOrMoreCheckpoints s.used = .combined used out) :
    KillOk loop v (s.combined used out) := by
  have hsame := sameMain_combined s used out
  have hprocs := procs_combined s used out
  have hep := (h.machine.episode hphase).combined hc
  refine of_parallel (.of_parallel (hsame.phase.trans hphase) hep)
    (hsame.firstIteration.trans h.first) (hsame.phase.trans hphase) (fun hv c hcu hi k hk => ?_)
  obtain ⟨alpha, beta, newer, rest, hused, rfl, _, _, hcomb⟩ := Config.commit_combined hc
  obtain ⟨img, _, hnewer, _⟩ := Config.combineCheckpoints_ok hcomb
  have hlist : (s.combined (newer :: rest) out).used = newer :: rest := by
    simp only [State.combined, hused]
  rw [State.merges, hprocs, hsame.firstIteration] at hv
  rw [hprocs]
  rw [hlist] at hcu
  have hold := h.final hphase hv
  rw [hused] at hold
  rcases List.mem_cons.1 hcu with rfl | hcu
  · rw [hnewer] at hi ⊢
    exact hold beta (by simp) hi k hk
  · exact hold c (by simp [hcu]) hi k hk

theorem merge (h : KillOk loop v s) (hphase : s.phase = .parallel) {object : Checkpoint}
    {behind : List IOEvt} {iter : ℕ} {b : Bool} (hv : (v : ℕ) = loop.trip % cfg.numWorkers)
    (hend : EpisodeOk.AtGroupEnd loop s w iter b)
    (hm : MachineOk loop (s.performCheckpoint w object behind iter b)) :
    KillOk loop v (s.performCheckpoint w object behind iter b) := by
  refine of_parallel hm h.first hphase (fun hall c hc hi k hk => ?_)
  have hep := h.machine.episode hphase
  have hstop : loop.stop s.firstIteration = loop.trip := by
    rw [h.first]
    exact max_eq_left (Nat.zero_le _)
  have hkill : ((s.performCheckpoint w object behind iter b).procs v).spec.killpriv =
      (s.procs v).spec.killpriv := by
    by_cases hvw : v = w
    · subst v
      simp [State.performCheckpoint, State.setProc, Config.afterCheckpoint]
    · simp [State.performCheckpoint, State.setProc, hvw]
  rw [EpisodeOk.merges_performCheckpoint] at hall
  change Function.update s.merges w (s.merges w + 1) v = loop.numGroups s.firstIteration at hall
  rw [hkill]
  have hmem := (State.mem_mergeInto hep.pairwise_used).1 hc
  change c = cfg.performCheckpointLocked w (s.procs w).currentIter behind (s.procs w).spec
    (s.target object iter) ∨ _ at hmem
  obtain ⟨htarget, _⟩ := hep.target_facts hend object
  by_cases hvw : v = w
  · -- the final merge of worker `v` itself
    subst v
    rw [Function.update_self] at hall
    rcases hend with ⟨_, hlt, _⟩ | ⟨_, _, hcur, rfl⟩
    · exact absurd hall hlt.ne
    · rcases hmem with rfl | ⟨_, hne⟩
      · refine cfg.killpriv_copied htarget ?_ hk
        rw [hcur, hstop]
        exact hv
      · exact absurd hi hne
  · rw [Function.update_of_ne hvw] at hall
    obtain ⟨d, hd, hdi⟩ := hep.exists_final hall
    rcases hmem with rfl | ⟨hcu, _⟩
    · rw [Config.performCheckpointLocked_iteration, htarget] at hi
      rcases hend with ⟨_, hlt, hcur, rfl⟩ | ⟨_, _, hcur, rfl⟩
      · have hle := (hep.procs w).le_stop
        have hbound := loop.trip_lt
        rw [hstop] at hle
        omega
      · -- another worker is off its iteration
        have hoff : (w : ℕ) ≠ (s.procs w).currentIter % cfg.numWorkers := by
          rw [hcur, hstop, ← hv]
          exact fun he => hvw (Fin.ext he.symm)
        rw [cfg.killpriv_kept hoff, ← hdi, hep.target_eq hd]
        exact h.final hphase hall d hd hdi k hk
    · exact h.final hphase hall c hcu hi k hk

theorem adopt (h : KillOk loop v s) (hphase : s.phase = .parallel)
    (hmis : s.misspeculationHappened = false) (hdone : ∀ w, (s.procs w).pc = .done) :
    KillOk loop v s.adopt := by
  have hep := h.machine.episode hphase
  have hended : s.adopt.phase = .ended := by
    simp [State.adopt, hmis]
  refine ⟨.of_adopt s, h.first, Or.inr hended, fun he => ?_, fun _ w => ?_, fun _ k hk => ?_⟩
  · rw [hended] at he
    cases he
  · have hfinished := (hep.procs w).finished (hep.merges_of_done hmis hdone w)
    rw [h.first] at hfinished
    exact hfinished.trans (max_eq_left (Nat.zero_le _))
  · change (cfg.adoptComplete s.misspeculationHappened s.main s.used).main.killpriv k =
      (s.procs v).spec.killpriv k
    rw [hmis, cfg.killpriv_adoptComplete s.main s.used hk]
    obtain ⟨hne, hlen⟩ := hep.leading_of_done hmis hdone
    cases hlast : (leading s.used).getLast? with
    | none => exact absurd (List.getLast?_eq_none_iff.1 hlast) hne
    | some c =>
        obtain ⟨i, hi, hgroup⟩ := hep.numbered_leading.getLast hlast
        have hmem : c ∈ s.used := List.takeWhile_subset _ (List.mem_of_getLast? hlast)
        exact h.final hphase (hep.merges_of_done hmis hdone v) c hmem
          (hgroup.iteration.trans (boundary_of_last (hi.trans hlen))) k hk

theorem step (h : KillOk loop v s) (hv : (v : ℕ) = loop.trip % cfg.numWorkers)
    (hmis : s.misspeculationHappened = false) (hs : loop.step s a = some s')
    (hmis' : s'.misspeculationHappened = false) : KillOk loop v s' := by
  have hm := (h.machine.step hs).2
  cases h.machine.heapStep hs with
  | keeps phase keeps => exact h.setProc phase hm keeps.merges (Or.inl keeps.killpriv)
  | @updates w killpriv share redux phase action pc =>
      have hep := h.machine.episode phase
      exact h.setProc phase hm rfl (Or.inr ((hep.procs w).iterate (Or.inl pc)).1)
  | misspec phase => cases hmis'
  | merge phase ends pc => exact h.merge phase hv ends hm
  | @combined w pc used out phase keeps commit =>
      have hsame := sameMain_combined s used out
      have hprocs := procs_combined s used out
      refine (h.combined phase commit).setProc (hsame.phase.trans phase) hm ?_ (Or.inl ?_)
      · rw [hprocs]
      · rw [hprocs]
  | conflict phase commit => cases hmis'
  | join phase action done =>
      rcases s.join_cases with he | ⟨used, out, hc, he⟩ | ⟨i, he⟩
      · rw [he]
        exact h.adopt phase hmis done
      · have hsame := sameMain_combined s used out
        rw [he]
        refine (h.combined phase hc).adopt (hsame.phase.trans phase) ?_ (fun w => ?_)
        · rw [(misspec_combined s used out).1]
          exact hmis
        · rw [procs_combined]
          exact done w
      · rw [he] at hmis'
        cases hmis'
  | recover phase action => rcases h.phase with hp | hp <;> rw [phase] at hp <;> cases hp

theorem initial (loop : Loop cfg) (v : Fin cfg.numWorkers) (m : Main) (redux : ReduxHeap)
    (procs : Fin cfg.numWorkers → Proc) : KillOk loop v (Loop.initial m redux procs) :=
  of_parallel (MachineOk.initial loop m redux procs) rfl rfl (fun _ c hc => by cases hc)

end KillOk

theorem mod_eq_pred_mod_iff {n t : ℕ} (hn : 1 ≤ n) (ht : 0 < t) :
    t % n = (t - 1) % n ↔ n = 1 := by
  constructor
  · intro he
    have hdvd : n ∣ t - (t - 1) := (Nat.modEq_iff_dvd' (Nat.sub_le t 1)).1 he.symm
    rw [Nat.sub_sub_self ht] at hdvd
    exact Nat.dvd_one.1 hdvd
  · rintro rfl
    rw [Nat.mod_one, Nat.mod_one]

/-- A DOALL invocation without a misspeculation ends with the kill-private heap of the worker that
has executed the last iteration if and only if there is one worker. -/
theorem killprivate_of_last_iff {m : Main} {redux : ReduxHeap} {procs : Fin cfg.numWorkers → Proc}
    (howner : ∀ i, (loop.owner i : ℕ) = i % cfg.numWorkers) (htrip : 0 < loop.trip)
    (h : Run loop.step (fun s _ => s.misspeculationHappened = false) (Loop.initial m redux procs) s)
    (hmis : s.misspeculationHappened = false) (hended : s.phase = .ended) :
    s.LiveoutOfLast loop ↔ cfg.numWorkers = 1 := by
  have hlt : loop.trip % cfg.numWorkers < cfg.numWorkers := Nat.mod_lt _ cfg.workers_pos
  let v : Fin cfg.numWorkers := ⟨loop.trip % cfg.numWorkers, hlt⟩
  have hok := h.invariant (fun s => s.misspeculationHappened = false → KillOk loop v s)
    (fun _ => KillOk.initial loop v m redux procs)
    (fun s a s' hok hp hs hmis' => (hok hp).step rfl hp hs hmis') hmis
  have hon : ∀ w, s.IsOnIter w ↔ w = v := fun w => by
    rw [State.IsOnIter, hok.counter hended w]
    exact (Fin.ext_iff (a := w) (b := v)).symm
  have hlast : v = loop.owner (loop.trip - 1) ↔ cfg.numWorkers = 1 := by
    rw [Fin.ext_iff, howner]
    exact mod_eq_pred_mod_iff cfg.workers_pos htrip
  constructor
  · intro hl
    exact hlast.1 ((hl.copies v).1 ((hon v).2 rfl))
  · intro hone
    rw [← hlast] at hone
    exact ⟨fun w => by rw [← hone]; exact hon w, by rw [← hone]; exact hok.main hended⟩

def killConfig (n : ℕ) (hpos : 1 ≤ n) (hle : n ≤ maxWorkers) : Config :=
  { Config.ofWorkers n hpos hle with sizeofKillprivate := sixteen }

def killLoop (n : ℕ) (hpos : 1 ≤ n) (hle : n ≤ maxWorkers) : Loop (killConfig n hpos hle) where
  trip := n
  trip_lt := lt_lastIteration hle
  owner i := ⟨i % n, Nat.mod_lt i hpos⟩
  evts _ := []
  evts_iter := iter_of_mem_nil

def oneStores : List (Action (killConfig 1 oneWorker_pos oneWorker_le)) :=
  [.update (0 : Fin 1) (fun _ => 7) ⟨fun _ => 0, fun _ => 0, ShadowRange.reset⟩
      Config.zeroMain.redux, .endIter (0 : Fin 1), .finish (0 : Fin 1) blankChkpt [],
    .commit (0 : Fin 1), .join]

theorem killprivate_of_last_iff_oneStores : ∃ s : State (killConfig 1 le_rfl (by decide)),
    Run (killLoop 1 le_rfl (by decide)).step (fun s _ => s.misspeculationHappened = false)
        zeroStart s ∧ s.main.killpriv 0 = 7 ∧ s.LiveoutOfLast (killLoop 1 le_rfl (by decide)) := by
  have hreplay : (Run.replay (killLoop 1 le_rfl (by decide)).step
      (fun s _ => s.misspeculationHappened = false) zeroStart oneStores).any
      (fun s => decide (s.phase = .ended ∧ s.misspeculationHappened = false ∧
        s.main.killpriv 0 = 7)) = true := by
    decide +kernel
  obtain ⟨s, hrun, hs⟩ := Run.exists_of_any hreplay
  obtain ⟨hended, hmis, hmain⟩ := of_decide_eq_true hs
  exact ⟨s, hrun, hmain, (killprivate_of_last_iff (fun _ => rfl) (by decide) hrun hmis hended).2 rfl⟩

/-- Of two workers the second one executes the last iteration and stores 7 to its kill-private
heap. -/
def secondStores : List (Action (killConfig 2 twoWorkers_pos twoWorkers_le)) :=
  [.endIter (0 : Fin 2), .endIter (0 : Fin 2), .endIter (1 : Fin 2),
    .update (1 : Fin 2) (fun _ => 7) ⟨fun _ => 0, fun _ => 0, ShadowRange.reset⟩
      Config.zeroMain.redux, .endIter (1 : Fin 2), .finish (0 : Fin 2) blankChkpt [],
    .finish (1 : Fin 2) blankChkpt [], .commit (0 : Fin 2), .commit (1 : Fin 2), .join]

/-- Worker 0 copies its heap, and the live-out is the value before the loop. -/
theorem first_worker_copies : ¬ ∀ (cfg : Config) (loop : Loop cfg) (m : Main) (redux : ReduxHeap)
    (procs : Fin cfg.numWorkers → Proc) (s : State cfg),
    (∀ i, (loop.owner i : ℕ) = i % cfg.numWorkers) → 0 < loop.trip →
      Run loop.step (fun s _ => s.misspeculationHappened = false) (Loop.initial m redux procs) s →
      s.misspeculationHappened = false → s.phase = .ended → s.LiveoutOfLast loop := by
  intro hall
  have hreplay : (Run.replay (killLoop 2 (by decide) (by decide)).step
      (fun s _ => s.misspeculationHappened = false) zeroStart secondStores).any
      (fun s => decide (s.phase = .ended ∧ s.misspeculationHappened = false ∧
        s.main.killpriv 0 = 0 ∧ (s.procs (1 : Fin 2)).spec.killpriv 0 = 7)) = true := by
    decide +kernel
  obtain ⟨s, hrun, hs⟩ := Run.exists_of_any hreplay
  obtain ⟨hended, hmis, hmain, hworker⟩ := of_decide_eq_true hs
  have hl := hall _ _ _ _ _ s (fun _ => rfl) (by decide) hrun hmis hended
  have hsame : s.main.killpriv 0 = (s.procs (1 : Fin 2)).spec.killpriv 0 := hl.main 0 (by decide)
  rw [hmain, hworker] at hsame
  cases hsame

end Cpf.Executive
