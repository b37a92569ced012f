import Cpf.Smtx.ChannelSteps

/-!
# Steps of a process between its work on queues

Wherever a process goes on, it comes to a place of its own code with the right words in hand.
-/

namespace Cpf.Smtx

/-- A process that begins to work on queues, at a place of its own. -/
structure Placed (cfg : Config) (p : ℕ) (process : Process) : Prop where
  pendingOk : PendingOk process.pending
  noRefill : ∀ f, .refill f ∉ process.pending
  role : RoleOk cfg p process.control
  takes : TakesOk cfg process

variable {cfg : Config} {script : ℕ → ℕ → List Access} {s s' : State} {p : ℕ} {process : Process}

theorem incoming_of_produce {ops : List QueueOp} (h : ∀ op ∈ ops, op.isProduce = true) (f : ℕ) :
    incoming f ops = 0 := by
  apply List.sum_eq_zero
  intro n hn
  obtain ⟨op, hop, rfl⟩ := List.mem_map.1 hn
  have hp := h op hop
  cases op <;> cases hp
  rfl

theorem produce_broadcast (cfg : Config) (p : ℕ) (a b : Word) :
    ∀ op ∈ broadcast cfg p a b, op.isProduce = true := by
  intro op hop
  obtain ⟨dest, -, rfl⟩ := List.mem_map.1 hop
  rfl

theorem produce_accessOps (cfg : Config) (p : ℕ) (a : Access) :
    ∀ op ∈ accessOps cfg p a, op.isProduce = true := by
  unfold accessOps
  split
  · intro op hop
    rw [List.mem_singleton.1 hop]
    rfl
  · exact produce_broadcast cfg p _ _
  · intro op hop
    rcases List.mem_cons.1 hop with rfl | hop
    · rfl
    · rw [List.mem_singleton.1 hop]
      rfl

theorem placed_flush (hflush : OnlyFlushes process.pending) (hrole : RoleOk cfg p process.control)
    (hsource : process.control.source cfg = none) (hwords : process.words = []) : Placed cfg p process where
  pendingOk := hflush.pendingOk
  noRefill := hflush.not_refill
  role := hrole
  takes := by
    refine ⟨fun f hf => ?_, fun _ => hwords, fun f _ => hflush.incoming_eq f⟩
    rw [hsource] at hf
    cases hf

theorem placed_produce (hproduce : ∀ op ∈ process.pending, op.isProduce = true)
    (hrole : RoleOk cfg p process.control) (hsource : process.control.source cfg = none)
    (hwords : process.words = []) : Placed cfg p process where
  pendingOk := pendingOk_of_produce hproduce
  noRefill f hf := by
    have hp := hproduce _ hf
    cases hp
  role := hrole
  takes := by
    refine ⟨fun f hf => ?_, fun _ => hwords, fun f _ => incoming_of_produce hproduce f⟩
    rw [hsource] at hf
    cases hf

theorem placed_consume {f : ℕ} (hpend : process.pending = [.consume f, .consume f])
    (hrole : RoleOk cfg p process.control) (hsource : process.control.source cfg = some f)
    (hwords : process.words = []) : Placed cfg p process where
  pendingOk := by
    rw [hpend]
    refine ⟨fun i hi => ?_, ?_⟩
    · cases List.mem_singleton.1 hi
    · exact List.pairwise_of_forall_mem_list fun x hx y _ hp => by
        rcases List.mem_cons.1 hx with rfl | hx
        · cases hp
        · rw [List.mem_singleton.1 hx] at hp
          cases hp
  noRefill i hi := by
    rw [hpend] at hi
    rcases List.mem_cons.1 hi with hi | hi
    · cases hi
    · cases List.mem_singleton.1 hi
  role := hrole
  takes := by
    have hin : ∀ i, incoming i [QueueOp.consume f, .consume f] = if f = i then 2 else 0 := by
      intro i
      rw [incoming_cons, incoming_cons, QueueOp.takes]
      split_ifs <;> rfl
    refine ⟨fun i hi => ?_, fun hn => ?_, fun i hi => ?_⟩
    · rw [hsource] at hi
      rw [hpend, hin, if_pos (Option.some.inj hi), hwords, List.length_nil]
    · rw [hsource] at hn
      cases hn
    · rw [hpend, hin, if_neg fun he => hi (by rw [hsource, he])]

/-- The process steps; only its own record, the mode and the log change. -/
def Goes (s s' : State) (p : ℕ) (process : Process) : Prop :=
  s'.queues = s.queues ∧ s'.procs = Function.update s.procs p process

theorem goes_setProc (s : State) (p : ℕ) (process : Process) : Goes s (s.setProc p process) p process :=
  ⟨rfl, rfl⟩

theorem returnFrom_placed {call : Call} {mode : VerMode} (hp : p < cfg.processes)
    (hrole : call = .tryCommit ↔ p = cfg.tryCommitId) (hpend : (s.procs p).pending = [])
    (hwords : (s.procs p).words = []) :
    ∃ process, Goes s (returnFrom cfg s p call mode) p process ∧ Placed cfg p process := by
  have hnil : OnlyFlushes (s.procs p).pending := by
    rw [hpend]
    intro op hop
    cases hop
  cases call with
  | begin =>
      have hne : p ≠ cfg.tryCommitId := fun he => by cases hrole.2 he
      unfold returnFrom
      dsimp only
      split_ifs with hcommit hmode
      · exact ⟨_, goes_setProc _ _ _, placed_flush hnil trivial rfl hwords⟩
      · refine ⟨_, goes_setProc _ _ _, placed_flush hnil ?_ rfl hwords⟩
        unfold Config.processes Config.commitId Config.tryCommitId at *
        change p < cfg.workers
        omega
      · exact ⟨_, goes_setProc _ _ _, placed_flush hnil trivial rfl hwords⟩
  | tryCommit =>
      have heq := hrole.1 rfl
      unfold returnFrom
      dsimp only
      split_ifs with hmode
      · refine ⟨_, ⟨rfl, rfl⟩, placed_produce (produce_broadcast cfg p _ _) ?_ rfl hwords⟩
        rw [heq]
        exact commitId_ne.symm
      · exact ⟨_, ⟨rfl, rfl⟩, placed_flush hnil trivial rfl hwords⟩

theorem applyMessage_placed {call : Call} {source : ℕ} {token value : Word} (hp : p < cfg.processes)
    (hrole : call = .tryCommit ↔ p = cfg.tryCommitId) (hpend : (s.procs p).pending = [])
    (hstep : applyMessage cfg s p call source token value = some s') :
    ∃ process, Goes s s' p process ∧ Placed cfg p process := by
  have hnil : OnlyFlushes (s.procs p).pending := by
    rw [hpend]
    intro op hop
    cases hop
  unfold applyMessage at hstep
  dsimp only at hstep
  split at hstep
  · cases hstep
    exact ⟨_, goes_setProc _ _ _, placed_flush hnil hrole rfl rfl⟩
  · cases hstep
    exact ⟨_, goes_setProc _ _ _, placed_flush hnil hrole rfl rfl⟩
  · cases call with
    | begin =>
        cases hstep
        obtain ⟨process, hgoes, hplaced⟩ := returnFrom_placed (s := s.setProc p { s.procs p with
          mem := (applyUpdates (decide (Call.begin = .tryCommit)) (s.procs p).mem token value).1
          words := [] }) hp hrole (by
            unfold State.setProc
            dsimp only
            rw [Function.update_self]
            exact hpend) (by
            unfold State.setProc
            dsimp only
            rw [Function.update_self])
        refine ⟨process, ⟨hgoes.1, ?_⟩, hplaced⟩
        rw [hgoes.2]
        exact Function.update_idem _ _ _
    | tryCommit =>
        dsimp only at hstep
        split_ifs at hstep
        cases hstep
        exact ⟨_, goes_setProc _ _ _, placed_produce (produce_broadcast cfg p _ _) (hrole.1 rfl) rfl rfl⟩

/-- A process that goes on comes to a place of its code. -/
theorem goOn_placed (hp : p < cfg.processes) (hrole : RoleOk cfg p (s.procs p).control)
    (htakes : TakesOk cfg (s.procs p)) (hpend : (s.procs p).pending = [])
    (hstep : goOn cfg script s p = some s') : ∃ process, Goes s s' p process ∧ Placed cfg p process := by
  have hnil : OnlyFlushes (s.procs p).pending := by
    rw [hpend]
    intro op hop
    cases hop
  have hwords := htakes.noWords
  unfold goOn at hstep
  dsimp only at hstep
  cases hcontrol : (s.procs p).control with
  | idle =>
      rw [hcontrol] at hstep hwords
      cases hstep
      unfold nextCall
      split_ifs with htc hcommit
      · exact ⟨_, goes_setProc _ _ _, placed_flush hnil ⟨fun _ => htc, fun _ => rfl⟩ rfl (hwords rfl)⟩
      · exact ⟨_, goes_setProc _ _ _, placed_consume rfl hcommit rfl (hwords rfl)⟩
      · exact ⟨_, goes_setProc _ _ _, placed_flush hnil ⟨fun he => (by cases he), fun he => absurd he htc⟩ rfl
          (hwords rfl)⟩
  | enter call source =>
      rw [hcontrol] at hstep hwords hrole
      dsimp only at hstep
      split_ifs at hstep
      · cases hstep
        exact ⟨_, goes_setProc _ _ _, placed_flush hnil hrole rfl (hwords rfl)⟩
      · cases hstep
        exact returnFrom_placed hp hrole hpend (hwords rfl)
  | shouldConsume call source =>
      rw [hcontrol] at hstep hwords hrole
      dsimp only at hstep
      split_ifs at hstep
      · cases hstep
        exact ⟨_, goes_setProc _ _ _, placed_consume rfl hrole rfl (hwords rfl)⟩
      · cases hstep
        exact ⟨_, goes_setProc _ _ _, placed_flush (onlyFlushes_flushAllOps cfg p) hrole rfl (hwords rfl)⟩
  | spinConsume call source =>
      rw [hcontrol] at hstep hwords hrole
      dsimp only at hstep
      split_ifs at hstep
      · cases hstep
        exact ⟨_, goes_setProc _ _ _, placed_consume rfl hrole rfl (hwords rfl)⟩
      · cases hstep
        exact returnFrom_placed hp hrole hpend (hwords rfl)
  | apply call source =>
      rw [hcontrol] at hstep hrole
      dsimp only at hstep
      split at hstep
      · exact applyMessage_placed hp hrole hpend hstep
      · cases hstep
  | check =>
      rw [hcontrol] at hstep hrole
      dsimp only at hstep
      split at hstep
      · split_ifs at hstep
        · cases hstep
          refine ⟨_, goes_setProc _ _ _, placed_flush hnil ⟨fun he => (by cases he), fun he => ?_⟩ rfl rfl⟩
          exact absurd (he.symm.trans hrole) commitId_ne.symm
        · cases hstep
          exact ⟨_, ⟨rfl, rfl⟩, placed_flush hnil trivial rfl rfl⟩
      · cases hstep
  | running =>
      rw [hcontrol] at hstep hwords hrole
      dsimp only at hstep
      split at hstep
      · cases hstep
        exact ⟨_, goes_setProc _ _ _, placed_produce (produce_accessOps cfg p _) hrole rfl (hwords rfl)⟩
      · cases hstep
        refine ⟨_, goes_setProc _ _ _, placed_produce (produce_broadcast cfg p _ _) ?_ rfl (hwords rfl)⟩
        have hlt : p < cfg.workers := hrole
        change p ≠ cfg.workers + 1
        omega
  | ended =>
      rw [hcontrol] at hstep hwords
      cases hstep
      refine ⟨_, goes_setProc _ _ _, placed_flush ?_ ?_ ?_ (hwords rfl)⟩
      · dsimp only
        split_ifs
        · exact onlyFlushes_flushOps cfg p
        · intro op hop
          cases hop
      · dsimp only
        split_ifs <;> trivial
      · dsimp only
        split_ifs <;> rfl
  | returning mode =>
      rw [hcontrol] at hstep hwords hrole
      cases hstep
      exact returnFrom_placed hp ⟨fun _ => hrole, fun _ => rfl⟩ hpend (hwords rfl)
  | recovering =>
      rw [hcontrol] at hstep
      cases hstep

end Cpf.Smtx
