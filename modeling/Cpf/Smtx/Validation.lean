import Cpf.Basics.Trans
import Cpf.Smtx.WorkerSteps

/-!
# Value-based validation

In every run `ver_tryCommit` returns `VER_OK` for an iteration exactly when each of its reads saw what the
iterations before it and the accesses in front of it leave, and the memory of the commit process is the result
of the iterations that it has committed.
-/

namespace Cpf.Smtx

variable {cfg : Config} {script : ℕ → ℕ → List Access} {mem₀ : Heap} {s s' : State}
  {sent : ℕ → ℕ → List Word} {taken : ℕ → ℕ → ℕ} {p : ℕ} {process : Process}

theorem replays_tryCommit : Replays cfg cfg.tryCommitId := .inl rfl

/-- What is said about the try-commit process behind one of its steps. -/
structure TryCommitAfter (cfg : Config) (script : ℕ → ℕ → List Access) (mem₀ : Heap) (s' : State)
    (sent : ℕ → ℕ → List Word) (tk : ℕ → List Word) : Prop where
  mode : s'.mode = .ok ∨
    (s'.procs cfg.tryCommitId).control.Stopped ∧ (s'.procs cfg.commitId).control = .recovering
  sends : TryCommitSends cfg s' sent
  ok : TryCommitOk cfg script mem₀ s' tk
  returned : ReturnedOk cfg script mem₀ s'
  passed : Passed cfg s'

theorem outgoing_end : outgoing cfg.commitId (broadcast cfg cfg.tryCommitId 0 (VerMode.box .ok)) = [0, 0] := by
  apply outgoing_broadcast
  · unfold Config.next Config.tryCommitId Config.commitId
    rw [if_neg (lt_irrefl _)]
  · unfold Config.commitId Config.processes
    omega

theorem outgoing_mode (mode : VerMode) :
    outgoing cfg.commitId (broadcast cfg cfg.tryCommitId 0 mode.box) = [0, mode.box] := by
  apply outgoing_broadcast
  · unfold Config.next Config.tryCommitId Config.commitId
    rw [if_neg (lt_irrefl _)]
  · unfold Config.commitId Config.processes
    omega

/-- The try-commit process goes on without a message. -/
theorem TryCommitSends.quiet (h : TryCommitSends cfg s sent) (hgo : ¬ (s.procs cfg.tryCommitId).control.Stopped)
    (hproc : s'.procs cfg.tryCommitId = process) (hpend : (s.procs cfg.tryCommitId).pending = [])
    (hout : OnlyFlushes process.pending ∨ ∃ f, process.pending = [.consume f, .consume f])
    (hiter : process.iter = (s.procs cfg.tryCommitId).iter) : TryCommitSends cfg s' sent := by
  obtain ⟨last, hlast, hstop⟩ := h
  have hnone : outgoing cfg.commitId process.pending = [] := by
    rcases hout with hout | ⟨f, hout⟩
    · exact hout.outgoing_eq _
    · rw [hout]
      rfl
  rw [hpend] at hlast
  refine ⟨last, ?_, .inl (hstop.resolve_right fun h => hgo h.1)⟩
  rw [hproc, hnone, hiter]
  exact hlast

theorem TryCommitSends.ends (h : TryCommitSends cfg s sent) (hgo : ¬ (s.procs cfg.tryCommitId).control.Stopped)
    (hproc : s'.procs cfg.tryCommitId = verEnd cfg cfg.tryCommitId (s.procs cfg.tryCommitId))
    (hpend : (s.procs cfg.tryCommitId).pending = []) : TryCommitSends cfg s' sent := by
  obtain ⟨last, hlast, hstop⟩ := h
  have hnil := hstop.resolve_right fun h => hgo h.1
  rw [hpend, hnil] at hlast
  change sent cfg.tryCommitId cfg.commitId ++ [] = _ at hlast
  rw [List.append_nil, List.append_nil] at hlast
  refine ⟨[], ?_, .inl rfl⟩
  rw [hproc]
  unfold verEnd endOps
  dsimp only
  rw [outgoing_end, hlast, Nat.mul_add, List.replicate_add, List.append_nil]
  rfl

theorem TryCommitSends.stops (h : TryCommitSends cfg s sent) (hgo : ¬ (s.procs cfg.tryCommitId).control.Stopped)
    {mode : VerMode} (hmode : mode = .misspec ∨ mode = .term) (hproc : s'.procs cfg.tryCommitId = process)
    (hpend : (s.procs cfg.tryCommitId).pending = [])
    (hout : process.pending = broadcast cfg cfg.tryCommitId 0 mode.box)
    (hiter : process.iter = (s.procs cfg.tryCommitId).iter) (hstopped : process.control.Stopped) :
    TryCommitSends cfg s' sent := by
  obtain ⟨last, hlast, hstop⟩ := h
  have hnil := hstop.resolve_right fun h => hgo h.1
  rw [hpend, hnil] at hlast
  change sent cfg.tryCommitId cfg.commitId ++ [] = _ at hlast
  rw [List.append_nil, List.append_nil] at hlast
  refine ⟨[0, mode.box], ?_, .inr ⟨?_, mode, hmode, rfl⟩⟩
  · rw [hproc, hout, outgoing_mode, hlast, hiter]
  · rw [hproc]
    exact hstopped

theorem Passed.quiet (h : Passed cfg s) (hgo : ¬ (s.procs cfg.tryCommitId).control.Stopped)
    (hreturned : s'.returned = s.returned) (hproc : s'.procs cfg.tryCommitId = process)
    (hiter : process.iter = (s.procs cfg.tryCommitId).iter) : Passed cfg s' := by
  unfold Passed
  rw [hproc, hiter, hreturned]
  refine ⟨h.1, .inl (h.2.resolve_right fun hstop => hgo ?_)⟩
  rw [hstop.2]
  trivial

theorem ReturnedOk.append {mode : VerMode} (h : ReturnedOk cfg script mem₀ s)
    (hmode : mode = .ok ↔ AllAgree (committed cfg script mem₀ s.returned.length)
      (iteration cfg script s.returned.length)) (hreturned : s'.returned = s.returned ++ [mode]) :
    ReturnedOk cfg script mem₀ s' := by
  intro i m hi
  rw [hreturned] at hi
  by_cases hlt : i < s.returned.length
  · rw [List.getElem?_append_left hlt] at hi
    exact h i m hi
  · rw [List.getElem?_append_right (by omega)] at hi
    obtain ⟨hzero, heq⟩ := List.getElem?_eq_some_iff.1 hi
    rw [List.length_singleton] at hzero
    obtain rfl : i = s.returned.length := by omega
    rw [List.getElem_singleton] at heq
    rw [← heq]
    exact hmode

theorem TryCommitAfter.passes {tk : ℕ → List Word} {source : ℕ}
    (hgo : ¬ (s.procs cfg.tryCommitId).control.Stopped) (hmode : s.mode = .ok)
    (hpend : (s.procs cfg.tryCommitId).pending = []) (hsends : TryCommitSends cfg s sent)
    (hreturned : ReturnedOk cfg script mem₀ s) (hpassed : Passed cfg s)
    (hiter : (s.procs cfg.tryCommitId).iter = s.returned.length)
    (hreplay : Replay cfg script mem₀ cfg.tryCommitId tk s.returned.length source [] []
      (s.procs cfg.tryCommitId).mem) (hsource : cfg.workers ≤ source) :
    TryCommitAfter cfg script mem₀ (returnFrom cfg s cfg.tryCommitId .tryCommit s.mode) sent tk := by
  have hproc : (returnFrom cfg s cfg.tryCommitId .tryCommit s.mode).procs cfg.tryCommitId =
      verEnd cfg cfg.tryCommitId (s.procs cfg.tryCommitId) := by
    unfold returnFrom State.setProc
    dsimp only
    rw [Function.update_self, if_pos hmode]
  have hlog : (returnFrom cfg s cfg.tryCommitId .tryCommit s.mode).returned = s.returned ++ [s.mode] := rfl
  refine ⟨.inl hmode, hsends.ends hgo hproc hpend, ?_, hreturned.append ?_ hlog, ?_⟩
  · unfold TryCommitOk
    rw [hproc, hlog, List.length_append, List.length_singleton]
    unfold verEnd
    dsimp only
    exact ⟨by rw [hiter], hreplay.finish replays_tryCommit hsource⟩
  · exact ⟨fun _ => hreplay.allAgree hsource, fun _ => hmode⟩
  · unfold Passed
    rw [hproc, hlog, List.length_append, List.length_singleton]
    unfold verEnd
    dsimp only
    refine ⟨fun i hi => ?_, .inl (by rw [hiter])⟩
    by_cases hlt : i < s.returned.length
    · rw [List.getElem?_append_left hlt]
      exact hpassed.1 i (by omega)
    · obtain rfl : i = s.returned.length := by omega
      rw [List.getElem?_concat_length, hmode]

theorem TryCommitAfter.quiet {tk : ℕ → List Word} (hgo : ¬ (s.procs cfg.tryCommitId).control.Stopped)
    (hmode : s.mode = .ok) (hpend : (s.procs cfg.tryCommitId).pending = []) (hsends : TryCommitSends cfg s sent)
    (hreturned : ReturnedOk cfg script mem₀ s) (hpassed : Passed cfg s)
    (hout : OnlyFlushes process.pending ∨ ∃ f, process.pending = [.consume f, .consume f])
    (hiter : process.iter = (s.procs cfg.tryCommitId).iter)
    (hok : TryCommitOk cfg script mem₀ (s.setProc cfg.tryCommitId process) tk) :
    TryCommitAfter cfg script mem₀ (s.setProc cfg.tryCommitId process) sent tk where
  mode := .inl hmode
  sends := hsends.quiet hgo (Function.update_self _ _ _) hpend hout hiter
  ok := hok
  returned := hreturned
  passed := hpassed.quiet hgo rfl (Function.update_self _ _ _) hiter

/-- What `TryCommitOk` says of the new record of the process. -/
theorem tryCommitOk_setProc {tk : ℕ → List Word} (call : Call) {source : ℕ} {done : List Access}
    (hiter : process.iter = s.returned.length) (hsource : source < cfg.workers)
    (hdone : Replay cfg script mem₀ cfg.tryCommitId tk s.returned.length source done process.words process.mem)
    (hplace : process.control = .apply call source ∨
      process.words = [] ∧ (process.control = .shouldConsume call source ∨
        process.control = .spinConsume call source)) :
    TryCommitOk cfg script mem₀ (s.setProc cfg.tryCommitId process) tk := by
  have hself : (s.setProc cfg.tryCommitId process).procs cfg.tryCommitId = process := Function.update_self _ _ _
  have hsame : (s.setProc cfg.tryCommitId process).returned = s.returned := rfl
  unfold TryCommitOk
  rw [hself, hsame]
  dsimp only
  rcases hplace with hplace | ⟨hwords, hplace | hplace⟩
  · rw [hplace]
    exact ⟨hiter, hsource, done, hdone⟩
  · rw [hplace]
    exact ⟨hiter, hsource, done, hwords ▸ hdone⟩
  · rw [hplace]
    exact ⟨hiter, hsource, done, hwords ▸ hdone⟩

/-- The try-commit process checks a read, applies a write or comes to the end of a worker. -/
theorem TryCommitAfter.applies {tk : ℕ → List Word} {source n : ℕ} {done : List Access} {token value : Word}
    (hgo : ¬ (s.procs cfg.tryCommitId).control.Stopped) (hmode : s.mode = .ok)
    (hpend : (s.procs cfg.tryCommitId).pending = []) (hsends : TryCommitSends cfg s sent)
    (hreturned : ReturnedOk cfg script mem₀ s) (hpassed : Passed cfg s)
    (hiter : (s.procs cfg.tryCommitId).iter = s.returned.length) (hsource : source < cfg.workers)
    (hdone : Replay cfg script mem₀ cfg.tryCommitId tk s.returned.length source done [token, value]
      (s.procs cfg.tryCommitId).mem) (hsent : tk source <+: stream cfg script source cfg.tryCommitId n)
    (hstep : applyMessage cfg s cfg.tryCommitId .tryCommit source token value = some s') :
    TryCommitAfter cfg script mem₀ s' sent tk := by
  have hhears : Hears cfg source cfg.tryCommitId := replays_tryCommit.hears hsource
  have hnil : OnlyFlushes (s.procs cfg.tryCommitId).pending := hpend ▸ onlyFlushes_nil
  have hset : ∀ process, (s.setProc cfg.tryCommitId process).procs cfg.tryCommitId = process :=
    fun _ => Function.update_self _ _ _
  unfold applyMessage at hstep
  dsimp only at hstep
  rcases hdone.next hsource hhears hsent with ⟨a, rest, hseen, rfl, rfl⟩ | ⟨hseen, rfl, rfl⟩
  · rw [decide_eq_true rfl, applyUpdates_check] at hstep
    by_cases hagrees : a.Agrees (s.procs cfg.tryCommitId).mem
    · rw [if_pos hagrees] at hstep
      cases hstep
      refine .quiet hgo hmode hpend hsends hreturned hpassed (.inl hnil) rfl ?_
      exact tryCommitOk_setProc .tryCommit hiter hsource (hdone.access hsource hseen fun _ => hagrees)
        (.inr ⟨rfl, .inl rfl⟩)
    · rw [if_neg hagrees] at hstep
      cases hstep
      refine ⟨.inl hmode, hsends.stops hgo (.inl rfl) (hset _) hpend rfl rfl trivial, ?_, hreturned,
        hpassed.quiet hgo rfl (hset _) rfl⟩
      unfold TryCommitOk
      rw [hset]
      exact ⟨VerMode.noConfusion, hdone.not_allAgree hsource hseen hagrees⟩
  · rw [applyUpdates_end] at hstep
    cases hstep
    refine .quiet hgo hmode hpend hsends hreturned hpassed (.inl hnil) rfl ?_
    unfold TryCommitOk
    rw [hset]
    exact ⟨hiter, hdone.endSource hhears hsource hseen⟩

theorem TryCommitAfter.fails {tk : ℕ → List Word} {mode : VerMode}
    (hcontrol : (s.procs cfg.tryCommitId).control = .returning mode) (hne : mode ≠ .ok)
    (hnot : ¬ AllAgree (committed cfg script mem₀ s.returned.length) (iteration cfg script s.returned.length))
    (hmode : s.mode = .ok ∨
      (s.procs cfg.tryCommitId).control.Stopped ∧ (s.procs cfg.commitId).control = .recovering)
    (hsends : TryCommitSends cfg s sent) (hreturned : ReturnedOk cfg script mem₀ s) (hpassed : Passed cfg s) :
    TryCommitAfter cfg script mem₀ (returnFrom cfg s cfg.tryCommitId .tryCommit mode) sent tk := by
  have hproc : (returnFrom cfg s cfg.tryCommitId .tryCommit mode).procs cfg.tryCommitId =
      { s.procs cfg.tryCommitId with control := .recovering } := by
    unfold returnFrom State.setProc
    dsimp only
    rw [Function.update_self, if_neg hne]
  have hother : (returnFrom cfg s cfg.tryCommitId .tryCommit mode).procs cfg.commitId =
      s.procs cfg.commitId := Function.update_of_ne commitId_ne _ _
  refine ⟨?_, ?_, ?_, hreturned.append ⟨fun he => absurd he hne, fun hall => absurd hall hnot⟩ rfl, ?_⟩
  · rw [hproc, hother]
    exact hmode.imp id fun h => ⟨trivial, h.2⟩
  · obtain ⟨last, hlast, hstop⟩ := hsends
    refine ⟨last, ?_, ?_⟩
    · rw [hproc]
      exact hlast
    · rw [hproc]
      exact hstop.imp id fun h => ⟨trivial, h.2⟩
  · unfold TryCommitOk
    rw [hproc]
    exact ⟨mode, List.mem_append_right _ (List.mem_singleton.2 rfl), hne⟩
  · have hlength : s.returned.length = (s.procs cfg.tryCommitId).iter :=
      hpassed.2.resolve_right fun h => by
        rw [hcontrol] at h
        cases h.2
    unfold Passed
    rw [hproc]
    refine ⟨fun i hi => ?_, .inr ⟨?_, rfl⟩⟩
    · change (s.returned ++ [mode])[i]? = _
      dsimp only at hi
      rw [List.getElem?_append_left (by omega)]
      exact hpassed.1 i hi
    · change (s.returned ++ [mode]).length = _
      rw [List.length_append, hlength]
      rfl

theorem goOn_tryCommit {tk : ℕ → List Word}
    (hrole : RoleOk cfg cfg.tryCommitId (s.procs cfg.tryCommitId).control)
    (htakes : TakesOk cfg (s.procs cfg.tryCommitId)) (hpend : (s.procs cfg.tryCommitId).pending = [])
    (hsends : TryCommitSends cfg s sent) (h : TryCommitOk cfg script mem₀ s tk)
    (hsent : ∀ f < cfg.workers, ∃ n, tk f <+: stream cfg script f cfg.tryCommitId n)
    (hmode : s.mode = .ok ∨
      (s.procs cfg.tryCommitId).control.Stopped ∧ (s.procs cfg.commitId).control = .recovering)
    (hreturned : ReturnedOk cfg script mem₀ s) (hpassed : Passed cfg s)
    (hstep : goOn cfg script s cfg.tryCommitId = some s') : TryCommitAfter cfg script mem₀ s' sent tk := by
  have hcall : ∀ call : Call, (call = .tryCommit ↔ cfg.tryCommitId = cfg.tryCommitId) → call = .tryCommit :=
    fun call hiff => hiff.2 rfl
  have hprev : cfg.prev cfg.tryCommitId = (cfg.workers : ℤ) - 1 := by
    unfold Config.prev Config.tryCommitId
    rw [if_neg (lt_irrefl _)]
  have hset : ∀ process, (s.setProc cfg.tryCommitId process).procs cfg.tryCommitId = process :=
    fun _ => Function.update_self _ _ _
  have hnil : OnlyFlushes (s.procs cfg.tryCommitId).pending := hpend ▸ onlyFlushes_nil
  have hgo : ∀ control, (s.procs cfg.tryCommitId).control = control → ¬ control.Stopped →
      ¬ (s.procs cfg.tryCommitId).control.Stopped ∧ s.mode = .ok := fun control he hn =>
    ⟨he ▸ hn, hmode.resolve_right fun h => hn (he ▸ h.1)⟩
  unfold goOn at hstep
  unfold TryCommitOk at h
  dsimp only at hstep h
  cases hcontrol : (s.procs cfg.tryCommitId).control with
  | idle =>
      rw [hcontrol] at hstep h
      obtain ⟨hgo, hok⟩ := hgo _ hcontrol not_false
      cases hstep
      have hnext : nextCall cfg cfg.tryCommitId (s.procs cfg.tryCommitId) =
          { s.procs cfg.tryCommitId with control := .enter .tryCommit 0 } := if_pos rfl
      rw [hnext]
      refine .quiet hgo hok hpend hsends hreturned hpassed (.inl hnil) rfl ?_
      unfold TryCommitOk
      rw [hset]
      exact h
  | enter call source =>
      rw [hcontrol] at hstep hrole h
      obtain ⟨hgo, hok⟩ := hgo _ hcontrol not_false
      dsimp only at hstep
      cases hcall call hrole
      rw [hprev] at hstep
      split_ifs at hstep with hsource
      · cases hstep
        refine .quiet hgo hok hpend hsends hreturned hpassed (.inl hnil) rfl ?_
        have hwords := htakes.noWords (by rw [hcontrol]; rfl)
        exact tryCommitOk_setProc .tryCommit h.1 (by omega) (by rw [hwords]; exact h.2)
          (.inr ⟨hwords, .inl rfl⟩)
      · cases hstep
        exact .passes hgo hok hpend hsends hreturned hpassed h.1 h.2 (by omega)
  | shouldConsume call source =>
      rw [hcontrol] at hstep h
      obtain ⟨hgo, hok⟩ := hgo _ hcontrol not_false
      dsimp only at hstep
      have hwords := htakes.noWords (by rw [hcontrol]; rfl)
      obtain ⟨hiter, hsource, done, hdone⟩ := h
      rw [← hwords] at hdone
      split_ifs at hstep <;> cases hstep
      · exact .quiet hgo hok hpend hsends hreturned hpassed (.inr ⟨source, rfl⟩) rfl
          (tryCommitOk_setProc call hiter hsource hdone (.inl rfl))
      · exact .quiet hgo hok hpend hsends hreturned hpassed (.inl (onlyFlushes_flushAllOps cfg _)) rfl
          (tryCommitOk_setProc call hiter hsource hdone (.inr ⟨hwords, .inr rfl⟩))
  | spinConsume call source =>
      rw [hcontrol] at hstep h
      obtain ⟨hgo, hok⟩ := hgo _ hcontrol not_false
      dsimp only at hstep
      have hwords := htakes.noWords (by rw [hcontrol]; rfl)
      obtain ⟨hiter, hsource, done, hdone⟩ := h
      rw [← hwords] at hdone
      split_ifs at hstep with hconsume hbad
      · cases hstep
        exact .quiet hgo hok hpend hsends hreturned hpassed (.inr ⟨source, rfl⟩) rfl
          (tryCommitOk_setProc call hiter hsource hdone (.inl rfl))
      · exact absurd hok hbad
  | apply call source =>
      rw [hcontrol] at hstep hrole h
      obtain ⟨hgo, hok⟩ := hgo _ hcontrol not_false
      dsimp only at hstep
      cases hcall call hrole
      obtain ⟨hiter, hsource, done, hdone⟩ := h
      split at hstep
      · next token value hwords =>
        rw [hwords] at hdone
        obtain ⟨n, hprefix⟩ := hsent source hsource
        exact .applies hgo hok hpend hsends hreturned hpassed hiter hsource hdone hprefix hstep
      · cases hstep
  | check =>
      rw [hcontrol] at hrole
      exact absurd hrole commitId_ne.symm
  | running =>
      rw [hcontrol] at hrole
      exact absurd hrole (lt_irrefl _)
  | ended =>
      rw [hcontrol] at hstep h
      obtain ⟨hgo, hok⟩ := hgo _ hcontrol not_false
      cases hstep
      refine .quiet hgo hok hpend hsends hreturned hpassed (.inl ?_) rfl ?_
      · dsimp only
        split_ifs
        · exact onlyFlushes_flushOps cfg _
        · exact onlyFlushes_nil
      · unfold TryCommitOk
        rw [hset]
        dsimp only
        rw [if_pos hok]
        exact h
  | returning mode =>
      rw [hcontrol] at hstep h
      cases hstep
      exact .fails hcontrol h.1 h.2 hmode hsends hreturned hpassed
  | recovering =>
      rw [hcontrol] at hstep
      cases hstep

/-! ### All processes together -/

theorem took_isPrefix (h : ChannelOk cfg script mem₀ s sent taken) {f : ℕ} (hf : f < cfg.workers) (t : ℕ) :
    ∃ n, took sent taken f t <+: stream cfg script f t n := by
  refine ⟨(s.procs f).iter + 1, (List.take_prefix _ _).trans ?_⟩
  have hsends := h.workers f hf t
  have hprefix : sent f t <+: sent f t ++ outgoing t (s.procs f).pending := List.prefix_append _ _
  rw [hsends] at hprefix
  refine hprefix.trans ?_
  rw [stream_succ, iterWords, List.prefix_append_right_inj]
  obtain ⟨rest, hrest⟩ := List.take_prefix (s.procs f).pos (script f (s.procs f).iter)
  refine ⟨rest.flatMap (accessWords cfg f t) ++ endWords cfg f t, ?_⟩
  rw [← List.append_assoc, ← List.flatMap_append, hrest]

theorem commitTakes (h : ChannelOk cfg script mem₀ s sent taken) :
    CommitTakes cfg script s fun f => took sent taken f cfg.commitId where
  workers f hf := took_isPrefix h hf _
  tryCommit := by
    obtain ⟨last, hlast, hstop⟩ := h.tryCommitSends
    refine ⟨(s.procs cfg.tryCommitId).iter, last, ?_, hstop⟩
    rw [← hlast]
    exact (List.take_prefix _ _).trans (List.prefix_append _ _)

theorem Linked.goOn (h : Linked s sent taken) (hgoes : Goes s s' p process)
    (hpend : (s.procs p).pending = []) (hplaced : Placed cfg p process) : Linked s' sent taken := by
  have hprocs : ∀ i, s'.procs i = if i = p then process else s.procs i := by
    intro i
    rw [hgoes.2]
    split_ifs with hi
    · rw [hi, Function.update_self]
    · rw [Function.update_of_ne hi]
  constructor
  · intro f t
    rw [hgoes.1, hprocs, hprocs]
    refine (h.holds f t).congr (fun hw => ?_) fun hr => ?_
    · split_ifs with hf
      · rw [hf, hpend] at hw
        rcases hw with hw | hw <;> cases hw
      · exact hw
    · split_ifs at hr with ht
      · exact absurd hr (hplaced.noRefill f)
      · exact hr
  · intro i
    rw [hprocs]
    split_ifs
    · exact hplaced.pendingOk
    · exact h.pendingOk i

/-- A process without work on queues goes on. -/
theorem ChannelOk.goOn (h : ChannelOk cfg script mem₀ s sent taken) (hp : p < cfg.processes)
    (hpend : (s.procs p).pending = []) (hstep : goOn cfg script s p = some s') :
    ChannelOk cfg script mem₀ s' sent taken := by
  obtain ⟨process, hgoes, hplaced⟩ := goOn_placed hp (h.role p) (h.takes p) hpend hstep
  have hself : s'.procs p = process := by rw [hgoes.2, Function.update_self]
  have hother : ∀ i, i ≠ p → s'.procs i = s.procs i := fun i hi => by rw [hgoes.2, Function.update_of_ne hi]
  have hrole : ∀ i, RoleOk cfg i (s'.procs i).control := by
    intro i
    by_cases hi : i = p
    · rw [hi, hself]
      exact hplaced.role
    · rw [hother i hi]
      exact h.role i
  have htakes : ∀ i, TakesOk cfg (s'.procs i) := by
    intro i
    by_cases hi : i = p
    · rw [hi, hself]
      exact hplaced.takes
    · rw [hother i hi]
      exact h.takes i
  have hworkers : ∀ f < cfg.workers, f ≠ p → WorkerSends cfg script s' sent f := by
    intro f hf hne t
    rw [hother f hne]
    exact h.workers f hf t
  have hlinked := h.linked.goOn hgoes hpend hplaced
  rcases lt_trichotomy p cfg.workers with hlt | heq | hgt
  · obtain ⟨hmode, hreturned, hsends⟩ := goOn_worker hlt (h.role p) hpend (h.workers p hlt) hstep
    have htc : cfg.tryCommitId ≠ p := by
      unfold Config.tryCommitId
      omega
    have hcommit : cfg.commitId ≠ p := by
      unfold Config.commitId
      omega
    refine ⟨hlinked, hrole, htakes, fun f hf => ?_, ?_, ?_, ?_, ?_, ?_, ?_⟩
    · by_cases hf' : f = p
      · rw [hf']
        exact hsends
      · exact hworkers f hf hf'
    · unfold TryCommitSends
      rw [hother _ htc]
      exact h.tryCommitSends
    · rw [hmode, hother _ htc, hother _ hcommit]
      exact h.mode
    · unfold TryCommitOk
      rw [hother _ htc, hreturned]
      exact h.tryCommit
    · unfold CommitOk
      rw [hother _ hcommit]
      exact h.commit
    · unfold ReturnedOk
      rw [hreturned]
      exact h.returned
    · unfold Passed
      rw [hother _ htc, hreturned]
      exact h.passed
  · obtain rfl : p = cfg.tryCommitId := heq
    have hafter := goOn_tryCommit (h.role _) (h.takes _) hpend h.tryCommitSends h.tryCommit
      (fun f hf => took_isPrefix h hf _) h.mode h.returned h.passed hstep
    refine ⟨hlinked, hrole, htakes, fun f hf => hworkers f hf hf.ne, hafter.sends, hafter.mode, hafter.ok, ?_,
      hafter.returned, hafter.passed⟩
    unfold CommitOk
    rw [hother _ commitId_ne]
    exact h.commit
  · obtain rfl : p = cfg.commitId := by
      unfold Config.processes at hp
      unfold Config.commitId
      omega
    obtain ⟨hreturned, hcommit, hmode⟩ := goOn_commit (h.role _)
        (h.takes _) h.commit (commitTakes h) h.mode hstep
    refine ⟨hlinked, hrole, htakes, fun f hf => hworkers f hf (by unfold Config.commitId; omega), ?_, ?_, ?_,
      hcommit, ?_, ?_⟩
    · unfold TryCommitSends
      rw [hother _ commitId_ne.symm]
      exact h.tryCommitSends
    · rw [hother _ commitId_ne.symm]
      exact hmode
    · unfold TryCommitOk
      rw [hother _ commitId_ne.symm, hreturned]
      exact h.tryCommit
    · unfold ReturnedOk
      rw [hreturned]
      exact h.returned
    · unfold Passed
      rw [hother _ commitId_ne.symm, hreturned]
      exact h.passed

theorem ChannelOk.step (h : ChannelOk cfg script mem₀ s sent taken) (hstep : step cfg script s p = some s') :
    ∃ sent' taken', ChannelOk cfg script mem₀ s' sent' taken' := by
  obtain ⟨hp, ⟨op, rest, q, more, ws, hpend, hexec, rfl⟩ | ⟨hpend, hgo⟩⟩ := step_cases hstep
  · obtain ⟨sent', taken', hok, -⟩ := h.queueStep hpend hexec
    exact ⟨sent', taken', hok⟩
  · exact ⟨sent, taken, h.goOn hp hpend hgo⟩

/-- The commit process is behind the try-commit process. -/
theorem ChannelOk.committed_le (h : ChannelOk cfg script mem₀ s sent taken)
    (hidle : (s.procs cfg.commitId).control = .idle) :
    (s.procs cfg.commitId).iter ≤ (s.procs cfg.tryCommitId).iter := by
  have hcommit := h.commit
  unfold CommitOk at hcommit
  dsimp only at hcommit
  rw [hidle] at hcommit
  obtain ⟨last, hlast, hstop⟩ := h.tryCommitSends
  have hprefix : took sent taken cfg.tryCommitId cfg.commitId <+:
      List.replicate (2 * (s.procs cfg.tryCommitId).iter) 0 ++ last := by
    rw [← hlast]
    exact (List.take_prefix _ _).trans (List.prefix_append _ _)
  rw [hcommit.1] at hprefix
  by_contra hlt
  obtain ⟨d, hd⟩ := Nat.exists_eq_add_of_le (Nat.lt_of_not_le hlt)
  have hsplit : List.replicate (2 * (s.procs cfg.commitId).iter) (0 : Word) =
      List.replicate (2 * (s.procs cfg.tryCommitId).iter) 0 ++ (0 :: 0 :: List.replicate (2 * d) 0) := by
    rw [hd, Nat.succ_add, Nat.mul_succ, Nat.mul_add, add_assoc, List.replicate_add, add_comm (2 * d),
      List.replicate_add 2 (2 * d)]
    rfl
  rw [hsplit, List.prefix_append_right_inj] at hprefix
  rcases hstop with rfl | ⟨-, mode, hmode, rfl⟩
  · cases List.prefix_nil.1 hprefix
  · have hzero := (List.cons_prefix_cons.1 (List.cons_prefix_cons.1 hprefix).2).1
    rcases hmode with rfl | rfl <;> exact absurd hzero (by decide)

theorem channelOk_of_run {s₀ : State} (hstart : Starts cfg mem₀ s₀)
    (hrun : Run (step cfg script) (fun _ _ => True) s₀ s) :
    ∃ sent taken, ChannelOk cfg script mem₀ s sent taken := by
  apply hrun.invariant fun s => ∃ sent taken, ChannelOk cfg script mem₀ s sent taken
  · exact ⟨_, _, channelOk_start hstart⟩
  · rintro s p s' ⟨sent, taken, h⟩ - hstep
    exact h.step hstep

/-- What `ver_tryCommit` has returned is right, and what the commit process has applied is exactly the
iterations that passed. -/
theorem ChannelOk.exact (h : ChannelOk cfg script mem₀ s sent taken) :
    (∀ i mode, s.returned[i]? = some mode → (∀ j < i, s.returned[j]? = some .ok) ∧
      (mode = .ok ↔ AllAgree (committed cfg script mem₀ i) (iteration cfg script i))) ∧
    ((s.procs cfg.commitId).control = .idle →
      (∀ j < (s.procs cfg.commitId).iter, s.returned[j]? = some .ok) ∧
        (s.procs cfg.commitId).mem = committed cfg script mem₀ (s.procs cfg.commitId).iter) := by
  refine ⟨fun i mode hi => ⟨fun j hj => h.passed.1 j ?_, h.returned i mode hi⟩,
    fun hidle => ⟨fun j hj => ?_, ?_⟩⟩
  · have hlt := (List.getElem?_eq_some_iff.1 hi).1
    rcases h.passed.2 with hlength | ⟨hlength, -⟩ <;> omega
  · exact h.passed.1 j (hj.trans_le (h.committed_le hidle))
  · have hcommit := h.commit
    unfold CommitOk at hcommit
    dsimp only at hcommit
    rw [hidle] at hcommit
    exact hcommit.2.result.trans rfl

end Cpf.Smtx
