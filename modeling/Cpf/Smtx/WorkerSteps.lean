import Cpf.Smtx.ProcessSteps

/-!
# Steps of the workers and of the commit process

A worker sends what it calls. The commit process applies the writes of an iteration when it is told that the
iteration passed.
-/

namespace Cpf.Smtx

variable {cfg : Config} {script : ℕ → ℕ → List Access} {mem₀ : Heap} {s s' : State}
  {sent : ℕ → ℕ → List Word} {taken : ℕ → ℕ → ℕ} {p : ℕ} {process : Process}

/-- A step in which a worker calls nothing. -/
theorem WorkerSends.quiet (h : WorkerSends cfg script s sent p) (hpend : (s.procs p).pending = [])
    (hout : OnlyFlushes process.pending ∨ ∃ f, process.pending = [.consume f, .consume f])
    (hiter : process.iter = (s.procs p).iter) (hpos : process.pos = (s.procs p).pos) :
    WorkerSends cfg script (s.setProc p process) sent p := by
  intro t
  have hself : (s.setProc p process).procs p = process := Function.update_self _ _ _
  have hnone : outgoing t process.pending = [] := by
    rcases hout with hout | ⟨f, hout⟩
    · exact hout.outgoing_eq t
    · rw [hout]
      rfl
  have hold := h t
  rw [hpend] at hold
  rw [hself, hnone, hiter, hpos]
  exact hold

theorem onlyFlushes_nil : OnlyFlushes [] := by
  intro op hop
  cases hop

theorem returnFrom_begin_worker {mode : VerMode} (hp : p < cfg.workers)
    (hsends : WorkerSends cfg script s sent p) (hpend : (s.procs p).pending = []) :
    (returnFrom cfg s p .begin mode).mode = s.mode ∧
      (returnFrom cfg s p .begin mode).returned = s.returned ∧
        WorkerSends cfg script (returnFrom cfg s p .begin mode) sent p := by
  have hne : p ≠ cfg.commitId := by
    unfold Config.commitId
    omega
  have hnil : OnlyFlushes (s.procs p).pending := hpend ▸ onlyFlushes_nil
  unfold returnFrom
  dsimp only
  rw [if_neg hne]
  split_ifs
  · exact ⟨rfl, rfl, hsends.quiet hpend (.inl hnil) rfl rfl⟩
  · exact ⟨rfl, rfl, hsends.quiet hpend (.inl hnil) rfl rfl⟩

theorem WorkerSends.access {a : Access} (h : WorkerSends cfg script s sent p) (hpend : (s.procs p).pending = [])
    (ha : (script p (s.procs p).iter)[(s.procs p).pos]? = some a) (hnew : process.pending = accessOps cfg p a)
    (hiter : process.iter = (s.procs p).iter) (hpos : process.pos = (s.procs p).pos + 1) :
    WorkerSends cfg script (s.setProc p process) sent p := by
  intro t
  have hself : (s.setProc p process).procs p = process := Function.update_self _ _ _
  have hold := h t
  rw [hpend] at hold
  change sent p t ++ [] = _ at hold
  rw [List.append_nil] at hold
  rw [hself, hold, hnew, hiter, hpos, List.take_add_one, ha, List.flatMap_append, List.append_assoc]
  congr 2
  exact (List.append_nil _).symm

/-- At the end of an iteration all its words are sent or are about to be. -/
theorem WorkerSends.verEnd (h : WorkerSends cfg script s sent p) (hpend : (s.procs p).pending = [])
    (ha : (script p (s.procs p).iter)[(s.procs p).pos]? = none) :
    WorkerSends cfg script (s.setProc p (verEnd cfg p (s.procs p))) sent p := by
  intro t
  have hold := h t
  rw [hpend, List.take_of_length_le (List.getElem?_eq_none_iff.1 ha)] at hold
  change sent p t ++ [] = _ at hold
  rw [List.append_nil] at hold
  unfold State.setProc Smtx.verEnd
  dsimp only
  rw [Function.update_self, hold]
  dsimp only
  rw [List.take_zero, stream_succ, iterWords, List.append_assoc]
  exact (List.append_nil _).symm

theorem goOn_worker (hp : p < cfg.workers) (hrole : RoleOk cfg p (s.procs p).control)
    (hpend : (s.procs p).pending = []) (hsends : WorkerSends cfg script s sent p)
    (hstep : goOn cfg script s p = some s') :
    s'.mode = s.mode ∧ s'.returned = s.returned ∧ WorkerSends cfg script s' sent p := by
  have htc : p ≠ cfg.tryCommitId := by
    unfold Config.tryCommitId
    omega
  have hcommit : p ≠ cfg.commitId := by
    unfold Config.commitId
    omega
  have hnil : OnlyFlushes (s.procs p).pending := hpend ▸ onlyFlushes_nil
  have hcall : ∀ call : Call, (call = .tryCommit ↔ p = cfg.tryCommitId) → call = .begin := by
    intro call hiff
    cases call with
    | begin => rfl
    | tryCommit => exact absurd (hiff.1 rfl) htc
  unfold goOn at hstep
  dsimp only at hstep
  cases hcontrol : (s.procs p).control with
  | idle =>
      rw [hcontrol] at hstep
      cases hstep
      refine ⟨rfl, rfl, hsends.quiet hpend (.inl ?_) ?_ ?_⟩
      all_goals
        unfold nextCall
        rw [if_neg htc, if_neg hcommit]
      exact hnil
  | enter call source =>
      rw [hcontrol] at hstep hrole
      dsimp only at hstep
      cases hcall call hrole
      split_ifs at hstep
      · cases hstep
        exact ⟨rfl, rfl, hsends.quiet hpend (.inl hnil) rfl rfl⟩
      · cases hstep
        exact returnFrom_begin_worker hp hsends hpend
  | shouldConsume call source =>
      rw [hcontrol] at hstep
      dsimp only at hstep
      split_ifs at hstep
      · cases hstep
        exact ⟨rfl, rfl, hsends.quiet hpend (.inr ⟨source, rfl⟩) rfl rfl⟩
      · cases hstep
        exact ⟨rfl, rfl, hsends.quiet hpend (.inl (onlyFlushes_flushAllOps cfg p)) rfl rfl⟩
  | spinConsume call source =>
      rw [hcontrol] at hstep hrole
      dsimp only at hstep
      cases hcall call hrole
      split_ifs at hstep
      · cases hstep
        exact ⟨rfl, rfl, hsends.quiet hpend (.inr ⟨source, rfl⟩) rfl rfl⟩
      · cases hstep
        exact returnFrom_begin_worker hp hsends hpend
  | apply call source =>
      rw [hcontrol] at hstep hrole
      dsimp only at hstep
      cases hcall call hrole
      split at hstep
      · next token value hwords =>
        unfold applyMessage at hstep
        dsimp only at hstep
        split at hstep
        · cases hstep
          exact ⟨rfl, rfl, hsends.quiet hpend (.inl hnil) rfl rfl⟩
        · cases hstep
          exact ⟨rfl, rfl, hsends.quiet hpend (.inl hnil) rfl rfl⟩
        · cases hstep
          exact returnFrom_begin_worker hp (hsends.quiet hpend (.inl hnil) rfl rfl) (by
            unfold State.setProc
            dsimp only
            rw [Function.update_self]
            exact hpend)
      · cases hstep
  | check =>
      rw [hcontrol] at hrole
      exact absurd hrole hcommit
  | running =>
      rw [hcontrol] at hstep
      dsimp only at hstep
      split at hstep
      · next a ha =>
        cases hstep
        exact ⟨rfl, rfl, hsends.access hpend ha rfl rfl rfl⟩
      · next ha =>
        cases hstep
        exact ⟨rfl, rfl, hsends.verEnd hpend ha⟩
  | ended =>
      rw [hcontrol] at hstep
      cases hstep
      refine ⟨rfl, rfl, hsends.quiet hpend (.inl ?_) rfl rfl⟩
      dsimp only
      split_ifs
      · exact onlyFlushes_flushOps cfg p
      · exact onlyFlushes_nil
  | returning mode =>
      rw [hcontrol] at hrole
      exact absurd hrole htc
  | recovering =>
      rw [hcontrol] at hstep
      cases hstep

/-! ### The commit process -/

structure CommitTakes (cfg : Config) (script : ℕ → ℕ → List Access) (s : State) (tk : ℕ → List Word) :
    Prop where
  workers : ∀ f < cfg.workers, ∃ n, tk f <+: stream cfg script f cfg.commitId n
  tryCommit : ∃ n last, tk cfg.tryCommitId <+: List.replicate (2 * n) 0 ++ last ∧
    (last = [] ∨ (s.procs cfg.tryCommitId).control.Stopped ∧
      ∃ mode, (mode = .misspec ∨ mode = .term) ∧ last = [0, VerMode.box mode])

/-- The message behind the ends of `k` iterations is the end of one more, or tells of misspeculation. -/
theorem next_end {k n : ℕ} {last : List Word} {x y : Word}
    (h : List.replicate (2 * k) (0 : Word) ++ [x, y] <+: List.replicate (2 * n) 0 ++ last)
    (hlast : last = [] ∨ ∃ z, last = [0, z]) : (x = 0 ∧ y = 0) ∨ last = [x, y] := by
  have hlength := h.length_le
  rw [List.length_append, List.length_append, List.length_replicate, List.length_replicate] at hlength
  change 2 * k + 2 ≤ 2 * n + last.length at hlength
  have hle : k ≤ n := by
    rcases hlast with rfl | ⟨z, rfl⟩
    · change 2 * k + 2 ≤ 2 * n + 0 at hlength
      omega
    · change 2 * k + 2 ≤ 2 * n + 2 at hlength
      omega
  obtain ⟨d, rfl⟩ := Nat.exists_eq_add_of_le hle
  rw [Nat.mul_add, List.replicate_add, List.append_assoc, List.prefix_append_right_inj] at h
  cases d with
  | zero =>
      right
      change [x, y] <+: last at h
      rcases hlast with rfl | ⟨z, rfl⟩
      · cases List.prefix_nil.1 h
      · exact (h.eq_of_length rfl).symm
  | succ d =>
      left
      change [x, y] <+: 0 :: 0 :: (List.replicate (2 * d) 0 ++ last) at h
      exact ⟨(List.cons_prefix_cons.1 h).1, (List.cons_prefix_cons.1 (List.cons_prefix_cons.1 h).2).1⟩

theorem replays_commit : Replays cfg cfg.commitId := .inr rfl

theorem CommitOk.returned {tk : ℕ → List Word} {source : ℕ} {mode : VerMode}
    (hchecks : tk cfg.tryCommitId = List.replicate (2 * ((s.procs cfg.commitId).iter + 1)) 0)
    (hreplay : Replay cfg script mem₀ cfg.commitId tk (s.procs cfg.commitId).iter source [] []
      (s.procs cfg.commitId).mem) (hsource : cfg.workers ≤ source) :
    CommitOk cfg script mem₀ (returnFrom cfg s cfg.commitId .begin mode) tk := by
  unfold returnFrom CommitOk State.setProc
  dsimp only
  rw [if_pos rfl]
  dsimp only
  rw [Function.update_self]
  exact ⟨hchecks, hreplay.finish replays_commit hsource⟩

/-- The commit process begins to take a message. -/
theorem CommitOk.consume {tk : ℕ → List Word} {call : Call} {source : ℕ} {done : List Access}
    (hchecks : tk cfg.tryCommitId = List.replicate (2 * ((s.procs cfg.commitId).iter + 1)) 0)
    (hsource : source < cfg.workers)
    (hdone : Replay cfg script mem₀ cfg.commitId tk (s.procs cfg.commitId).iter source done []
      (s.procs cfg.commitId).mem) (hwords : (s.procs cfg.commitId).words = []) :
    CommitOk cfg script mem₀ (s.setProc cfg.commitId (consumeMessage call source (s.procs cfg.commitId)))
    tk := by
  unfold CommitOk State.setProc
  dsimp only
  rw [Function.update_self]
  refine ⟨hchecks, hsource, done, ?_⟩
  dsimp only [consumeMessage]
  rw [hwords]
  exact hdone

/-- The commit process applies a write, or the iteration of a worker is over. -/
theorem CommitOk.applied {tk : ℕ → List Word} {source n : ℕ} {done : List Access} {token value : Word}
    (hchecks : tk cfg.tryCommitId = List.replicate (2 * ((s.procs cfg.commitId).iter + 1)) 0)
    (hsource : source < cfg.workers)
    (hdone : Replay cfg script mem₀ cfg.commitId tk (s.procs cfg.commitId).iter source done [token, value]
      (s.procs cfg.commitId).mem) (hsent : tk source <+: stream cfg script source cfg.commitId n)
    (hstep : applyMessage cfg s cfg.commitId .begin source token value = some s') :
    s'.returned = s.returned ∧ CommitOk cfg script mem₀ s' tk ∧ s'.mode = s.mode := by
  have hhears : Hears cfg source cfg.commitId := replays_commit.hears hsource
  unfold applyMessage at hstep
  dsimp only at hstep
  rcases hdone.next hsource hhears hsent with ⟨a, rest, hseen, rfl, rfl⟩ | ⟨hseen, rfl, rfl⟩
  · have hmem : a ∈ seen cfg script cfg.commitId source (s.procs cfg.commitId).iter := by
      rw [hseen]
      exact List.mem_append_right _ List.mem_cons_self
    rw [applyUpdates_write _ _ (isWrite_of_sees commitId_ne (List.mem_filter.1 hmem).2)] at hstep
    cases hstep
    refine ⟨rfl, ?_, rfl⟩
    unfold CommitOk State.setProc
    dsimp only
    rw [Function.update_self]
    exact ⟨hchecks, hsource, _, hdone.access hsource hseen fun he => absurd he commitId_ne⟩
  · rw [applyUpdates_end] at hstep
    cases hstep
    refine ⟨rfl, ?_, rfl⟩
    unfold CommitOk State.setProc
    dsimp only
    rw [Function.update_self]
    exact ⟨hchecks, hdone.endSource hhears hsource hseen⟩

/-- `ver_checkTryCommit`: the message is the end of an iteration, or tells of misspeculation. -/
theorem CommitOk.checked {tk : ℕ → List Word} (hcontrol : (s.procs cfg.commitId).control = .check)
    (h : CommitOk cfg script mem₀ s tk) (hsent : CommitTakes cfg script s tk) (hmode : s.mode = .ok)
    (hstep : goOn cfg script s cfg.commitId = some s') :
    s'.returned = s.returned ∧ CommitOk cfg script mem₀ s' tk ∧ (s'.mode = .ok ∨
      (s.procs cfg.tryCommitId).control.Stopped ∧ (s'.procs cfg.commitId).control = .recovering) := by
  unfold goOn at hstep
  unfold CommitOk at h
  dsimp only at hstep h
  rw [hcontrol] at hstep h
  obtain ⟨hchecks, hreplay⟩ := h
  dsimp only at hstep hchecks
  split at hstep
  · next token value hwords =>
    obtain ⟨n, last, hprefix, hlast⟩ := hsent.tryCommit
    rw [hchecks, hwords] at hprefix
    have hmessage := next_end hprefix (hlast.imp_right fun ⟨_, mode, _, he⟩ => ⟨mode.box, he⟩)
    split_ifs at hstep with htoken hvalue
    · cases hstep
      refine ⟨rfl, ?_, .inl hmode⟩
      unfold CommitOk State.setProc
      dsimp only
      rw [Function.update_self]
      refine ⟨?_, hreplay⟩
      rcases hmessage with ⟨rfl, rfl⟩ | hmessage
      · rw [hchecks, hwords, Nat.mul_add, List.replicate_add]
        rfl
      · exfalso
        rcases hlast with rfl | ⟨-, mode, hm, rfl⟩
        · cases hmessage
        · obtain ⟨-, hv⟩ := List.cons.inj hmessage
          obtain ⟨hv, -⟩ := List.cons.inj hv
          rw [← hv] at hvalue
          rcases hm with rfl | rfl <;> exact absurd hvalue (by decide)
    · cases hstep
      refine ⟨rfl, ?_, .inr ⟨?_, ?_⟩⟩
      · unfold CommitOk State.setProc
        dsimp only
        rw [Function.update_self]
        trivial
      · rcases hlast with rfl | ⟨hstop, -⟩
        · exfalso
          rcases hmessage with ⟨-, rfl⟩ | hmessage
          · exact hvalue rfl
          · cases hmessage
        · exact hstop
      · unfold State.setProc
        dsimp only
        rw [Function.update_self]
  · cases hstep

theorem goOn_commit {tk : ℕ → List Word} (hrole : RoleOk cfg cfg.commitId (s.procs cfg.commitId).control)
    (htakes : TakesOk cfg (s.procs cfg.commitId)) (h : CommitOk cfg script mem₀ s tk)
    (hsent : CommitTakes cfg script s tk)
    (hmode : s.mode = .ok ∨
      (s.procs cfg.tryCommitId).control.Stopped ∧ (s.procs cfg.commitId).control = .recovering)
    (hstep : goOn cfg script s cfg.commitId = some s') :
    s'.returned = s.returned ∧ CommitOk cfg script mem₀ s' tk ∧ (s'.mode = .ok ∨
      (s.procs cfg.tryCommitId).control.Stopped ∧ (s'.procs cfg.commitId).control = .recovering) := by
  have hok : (s.procs cfg.commitId).control ≠ .recovering → s.mode = .ok :=
    fun hne => hmode.resolve_right fun h => hne h.2
  have hcall : ∀ call : Call, (call = .tryCommit ↔ cfg.commitId = cfg.tryCommitId) → call = .begin := by
    intro call hiff
    cases call with
    | begin => rfl
    | tryCommit => exact absurd (hiff.1 rfl) commitId_ne
  have hprev : cfg.prev cfg.commitId = (cfg.workers : ℤ) - 1 := by
    unfold Config.prev Config.commitId
    rw [if_neg (by omega)]
  have hset : ∀ process, (s.setProc cfg.commitId process).procs cfg.commitId = process :=
    fun _ => Function.update_self _ _ _
  have hcheck := fun hcontrol hmode => CommitOk.checked hcontrol h hsent hmode hstep
  unfold goOn at hstep
  unfold CommitOk at h
  dsimp only at hstep h
  cases hcontrol : (s.procs cfg.commitId).control with
  | idle =>
      rw [hcontrol] at hstep h
      cases hstep
      refine ⟨rfl, ?_, .inl (hok (by rw [hcontrol]; exact Control.noConfusion))⟩
      unfold CommitOk
      rw [hset]
      unfold nextCall
      rw [if_neg commitId_ne, if_pos rfl]
      dsimp only
      rw [htakes.noWords (by rw [hcontrol]; rfl), List.append_nil]
      exact h
  | enter call source =>
      rw [hcontrol] at hstep hrole h
      dsimp only at hstep
      cases hcall call hrole
      rw [hprev] at hstep
      split_ifs at hstep with hsource
      · cases hstep
        refine ⟨rfl, ?_, .inl (hok (by rw [hcontrol]; exact Control.noConfusion))⟩
        unfold CommitOk
        rw [hset]
        exact ⟨h.1, by omega, [], h.2⟩
      · cases hstep
        refine ⟨?_, CommitOk.returned h.1 h.2 (by omega), .inl ?_⟩ <;>
          unfold returnFrom <;> dsimp only <;> rw [if_pos rfl]
        · rfl
        · exact hok (by rw [hcontrol]; exact Control.noConfusion)
  | shouldConsume call source =>
      rw [hcontrol] at hstep h
      dsimp only at hstep
      obtain ⟨hchecks, hsource, done, hdone⟩ := h
      split_ifs at hstep <;> cases hstep <;>
        refine ⟨rfl, ?_, .inl (hok (by rw [hcontrol]; exact Control.noConfusion))⟩
      · exact CommitOk.consume hchecks hsource hdone (htakes.noWords (by rw [hcontrol]; rfl))
      · unfold CommitOk
        rw [hset]
        exact ⟨hchecks, hsource, done, hdone⟩
  | spinConsume call source =>
      rw [hcontrol] at hstep h
      dsimp only at hstep
      obtain ⟨hchecks, hsource, done, hdone⟩ := h
      split_ifs at hstep with hconsume hbad
      · cases hstep
        refine ⟨rfl, ?_, .inl (hok (by rw [hcontrol]; exact Control.noConfusion))⟩
        exact CommitOk.consume hchecks hsource hdone (htakes.noWords (by rw [hcontrol]; rfl))
      · exact absurd (hok (by rw [hcontrol]; exact Control.noConfusion)) hbad
  | apply call source =>
      rw [hcontrol] at hstep hrole h
      dsimp only at hstep
      cases hcall call hrole
      obtain ⟨hchecks, hsource, done, hdone⟩ := h
      split at hstep
      · next token value hwords =>
        rw [hwords] at hdone
        obtain ⟨n, hprefix⟩ := hsent.workers source hsource
        obtain ⟨hreturned, hcommit, hsame⟩ := CommitOk.applied hchecks hsource hdone hprefix hstep
        exact ⟨hreturned, hcommit, .inl (hsame.trans (hok (by rw [hcontrol]; exact Control.noConfusion)))⟩
      · cases hstep
  | check => exact hcheck hcontrol (hok (by rw [hcontrol]; exact Control.noConfusion))
  | running =>
      rw [hcontrol] at hrole
      change cfg.workers + 1 < cfg.workers at hrole
      omega
  | ended =>
      rw [hcontrol] at hrole
      exact absurd rfl hrole
  | returning mode =>
      rw [hcontrol] at hrole
      exact absurd hrole commitId_ne
  | recovering =>
      rw [hcontrol] at hstep
      cases hstep

end Cpf.Smtx
