import Cpf.Smtx.VersionInvariant

/-!
# Steps of the channel

A step on a queue moves words; any other step is one of a worker, of the try-commit process or of the commit
process, and concerns only what is said about that process.
-/

namespace Cpf.Smtx

variable {cfg : Config} {script : ℕ → ℕ → List Access} {mem₀ : Heap} {s s' : State}
  {sent sent' : ℕ → ℕ → List Word} {taken taken' : ℕ → ℕ → ℕ} {p : ℕ} {process : Process}

/-- A process works on a queue, or goes on. -/
theorem step_cases (hstep : step cfg script s p = some s') : p < cfg.processes ∧
    ((∃ op rest q more ws, (s.procs p).pending = op :: rest ∧
        (s.queues (op.queue p).1 (op.queue p).2).exec (flushAllOps cfg p) op = some (q, more, ws) ∧
        s' = (s.setQueue (op.queue p) q).setProc p
          { s.procs p with pending := more ++ rest, words := (s.procs p).words ++ ws }) ∨
      (s.procs p).pending = [] ∧ goOn cfg script s p = some s') := by
  unfold step at hstep
  split_ifs at hstep with hp
  refine ⟨hp, ?_⟩
  split at hstep
  · next op rest hpend =>
    obtain ⟨⟨q, more, ws⟩, hexec, rfl⟩ := Option.map_eq_some_iff.1 hstep
    exact .inl ⟨op, rest, q, more, ws, hpend, hexec, rfl⟩
  · next hpend => exact .inr ⟨hpend, hstep⟩

/-! ### Steps on a queue -/

section

variable {k : ℕ × ℕ} {ops' : List QueueOp} {ws : List Word}

/-- Words are taken only where a message is being read. -/
theorem TakesOk.source_eq (h : TakesOk cfg process)
    (hmoved : Moved p k process.pending ops' ws sent sent' taken taken') (hws : ws ≠ []) :
    process.control.source cfg = some k.1 := by
  by_contra hne
  have htakes := hmoved.takes k.1
  rw [if_pos rfl, h.others k.1 hne] at htakes
  exact hws (List.length_eq_zero_iff.1 (by omega))

theorem TakesOk.moved (h : TakesOk cfg process)
    (hmoved : Moved p k process.pending ops' ws sent sent' taken taken') :
    TakesOk cfg { process with pending := ops', words := process.words ++ ws } := by
  refine ⟨fun f hf => ?_, fun hnone => ?_, fun f hf => ?_⟩
  · have hwords := h.words f hf
    have htakes := hmoved.takes f
    dsimp only
    rw [List.length_append]
    by_cases hws : ws = []
    · rw [hws, List.length_nil, ite_self] at htakes
      rw [hws, List.length_nil]
      omega
    · have hsource := h.source_eq hmoved hws
      rw [hf] at hsource
      rw [if_pos (Option.some.inj hsource)] at htakes
      omega
  · have hws : ws = [] := by
      by_contra hws
      have hsource := h.source_eq hmoved hws
      dsimp only at hnone
      rw [hnone] at hsource
      cases hsource
    dsimp only
    rw [h.noWords hnone, hws]
    rfl
  · have htakes := hmoved.takes f
    rw [h.others f hf] at htakes
    dsimp only
    omega

/-- What another process has taken does not change. -/
theorem took_moved_of_ne {ops : List QueueOp} (h : Moved p k ops ops' ws sent sent' taken taken') {t : ℕ}
    (ht : t ≠ p) (f : ℕ) : took sent' taken' f t = took sent taken f t := by
  rw [h.took f t]
  by_cases hk : (f, t) = k
  · have hws : ws = [] := by
      by_contra hws
      exact ht (by rw [← h.taker hws, ← hk])
    rw [if_pos hk, hws, List.append_nil]
  · rw [if_neg hk, List.append_nil]

theorem took_moved_self {ops : List QueueOp} (h : Moved p k ops ops' ws sent sent' taken taken') (f : ℕ) :
    took sent' taken' f p = took sent taken f p ++ if f = k.1 then ws else [] := by
  rw [h.took f p]
  by_cases hws : ws = []
  · rw [hws, ite_self, ite_self]
  · congr 1
    have hk2 := h.taker hws
    by_cases hf : f = k.1
    · rw [if_pos hf, if_pos (by rw [hf, ← hk2])]
    · rw [if_neg hf, if_neg fun hk => hf (by rw [← hk])]

end

theorem TryCommitOk.take {tk tk' : ℕ → List Word} {ops' : List QueueOp} {ws : List Word} {source : ℕ}
    (h : TryCommitOk cfg script mem₀ s tk)
    (hrole : RoleOk cfg cfg.tryCommitId (s.procs cfg.tryCommitId).control)
    (hreturned : s'.returned = s.returned)
    (hproc : s'.procs cfg.tryCommitId =
      { s.procs cfg.tryCommitId with pending := ops', words := (s.procs cfg.tryCommitId).words ++ ws })
    (hsource : ws ≠ [] → (s.procs cfg.tryCommitId).control.source cfg = some source)
    (htk : ∀ f, tk' f = tk f ++ if f = source then ws else []) :
    TryCommitOk cfg script mem₀ s' tk' := by
  have hsame : ws = [] → ∀ f < cfg.workers, tk' f = tk f := by
    intro hws f _
    rw [htk, hws, ite_self, List.append_nil]
  unfold TryCommitOk at *
  dsimp only at *
  rw [hproc, hreturned]
  dsimp only
  generalize (s.procs cfg.tryCommitId).control = control at *
  have hnone : control.source cfg = none → ws = [] := by
    intro hc
    by_contra hws
    rw [hsource hws] at hc
    cases hc
  cases control with
  | idle => exact h.imp_right fun h => h.congr (hsame (hnone rfl))
  | ended => exact h.imp_right fun h => h.congr (hsame (hnone rfl))
  | enter call f => exact h.imp_right fun h => h.congr (hsame (hnone rfl))
  | shouldConsume call f =>
      obtain ⟨hiter, hf, done, hdone⟩ := h
      exact ⟨hiter, hf, done, hdone.congr (hsame (hnone rfl))⟩
  | spinConsume call f =>
      obtain ⟨hiter, hf, done, hdone⟩ := h
      exact ⟨hiter, hf, done, hdone.congr (hsame (hnone rfl))⟩
  | apply call f =>
      obtain ⟨hiter, hf, done, hdone⟩ := h
      refine ⟨hiter, hf, done, hdone.take fun i _ => ?_⟩
      rw [htk]
      by_cases hws : ws = []
      · rw [hws, ite_self, ite_self]
      · cases hsource hws
        rfl
  | check => exact absurd hrole commitId_ne.symm
  | running => trivial
  | returning mode => exact h
  | recovering => exact h

theorem CommitOk.take {tk tk' : ℕ → List Word} {ops' : List QueueOp} {ws : List Word} {source : ℕ}
    (h : CommitOk cfg script mem₀ s tk)
    (hproc : s'.procs cfg.commitId =
      { s.procs cfg.commitId with pending := ops', words := (s.procs cfg.commitId).words ++ ws })
    (hsource : ws ≠ [] → (s.procs cfg.commitId).control.source cfg = some source)
    (htk : ∀ f, tk' f = tk f ++ if f = source then ws else []) :
    CommitOk cfg script mem₀ s' tk' := by
  have hsame : ws = [] → ∀ f, tk' f = tk f := by
    intro hws f
    rw [htk, hws, ite_self, List.append_nil]
  unfold CommitOk at *
  dsimp only at *
  rw [hproc]
  dsimp only
  generalize (s.procs cfg.commitId).control = control at *
  have hnone : control.source cfg = none → ws = [] := by
    intro hc
    by_contra hws
    rw [hsource hws] at hc
    cases hc
  cases control with
  | idle =>
      have hws := hsame (hnone rfl)
      rw [hws]
      exact h.imp_right fun h => h.congr fun f _ => hws f
  | ended => trivial
  | enter call f =>
      have hws := hsame (hnone rfl)
      rw [hws]
      exact h.imp_right fun h => h.congr fun f _ => hws f
  | shouldConsume call f =>
      have hws := hsame (hnone rfl)
      obtain ⟨hchecks, hf, done, hdone⟩ := h
      exact ⟨by rw [hws, hchecks], hf, done, hdone.congr fun f _ => hws f⟩
  | spinConsume call f =>
      have hws := hsame (hnone rfl)
      obtain ⟨hchecks, hf, done, hdone⟩ := h
      exact ⟨by rw [hws, hchecks], hf, done, hdone.congr fun f _ => hws f⟩
  | apply call f =>
      obtain ⟨hchecks, hf, done, hdone⟩ := h
      by_cases hws : ws = []
      · refine ⟨by rw [hsame hws, hchecks], hf, done, ?_⟩
        rw [hws, List.append_nil]
        exact hdone.congr fun f _ => hsame hws f
      · cases hsource hws
        refine ⟨?_, hf, done, hdone.take fun i _ => htk i⟩
        rw [htk, if_neg fun he => by rw [← he] at hf; exact absurd hf (lt_irrefl _), List.append_nil, hchecks]
  | check =>
      obtain ⟨hchecks, hreplay⟩ := h
      by_cases hws : ws = []
      · rw [hsame hws, hws, List.append_nil]
        exact ⟨hchecks, hreplay.congr fun f _ => hsame hws f⟩
      · cases hsource hws
        refine ⟨?_, hreplay.congr fun f hf => ?_⟩
        · rw [htk, if_pos rfl, hchecks, List.append_assoc]
        · rw [htk, if_neg (show f ≠ cfg.tryCommitId from hf.ne), List.append_nil]
  | running => trivial
  | returning mode => trivial
  | recovering => trivial

theorem ChannelOk.queueStep (h : ChannelOk cfg script mem₀ s sent taken) {op : QueueOp}
    {rest more : List QueueOp} {q : SwQueue} {ws : List Word} (hpend : (s.procs p).pending = op :: rest)
    (hexec : (s.queues (op.queue p).1 (op.queue p).2).exec (flushAllOps cfg p) op = some (q, more, ws)) :
    ∃ sent' taken', ChannelOk cfg script mem₀ ((s.setQueue (op.queue p) q).setProc p
        { s.procs p with pending := more ++ rest, words := (s.procs p).words ++ ws }) sent' taken' ∧
      Moved p (op.queue p) (s.procs p).pending (more ++ rest) ws sent sent' taken taken' := by
  obtain ⟨sent', taken', hlinked, hmoved⟩ :=
    h.linked.queueStep (onlyFlushes_flushAllOps cfg p) hpend hexec
  rw [← hpend] at hmoved
  have hproc : ∀ i, i ≠ p → ((s.setQueue (op.queue p) q).setProc p { s.procs p with
      pending := more ++ rest, words := (s.procs p).words ++ ws }).procs i = s.procs i := by
    intro i hi
    rw [set_procs, if_neg hi]
  have hself : ((s.setQueue (op.queue p) q).setProc p { s.procs p with
      pending := more ++ rest, words := (s.procs p).words ++ ws }).procs p =
      { s.procs p with pending := more ++ rest, words := (s.procs p).words ++ ws } := by
    rw [set_procs, if_pos rfl]
  have hcontrol : ∀ i, (((s.setQueue (op.queue p) q).setProc p { s.procs p with
      pending := more ++ rest, words := (s.procs p).words ++ ws }).procs i).control =
      (s.procs i).control := by
    intro i
    rw [set_procs]
    split_ifs with hi
    · rw [hi]
    · rfl
  have hsource := fun hws => (h.takes p).source_eq hmoved hws
  refine ⟨sent', taken', ⟨hlinked, fun i => ?_, fun i => ?_, fun f hf t => ?_, ?_, ?_, ?_, ?_, h.returned, ?_⟩,
    hmoved⟩
  · rw [hcontrol i]
    exact h.role i
  · by_cases hi : i = p
    · rw [hi, hself]
      exact (h.takes p).moved hmoved
    · rw [hproc i hi]
      exact h.takes i
  · have hworker := h.workers f hf t
    by_cases hi : f = p
    · subst hi
      rw [hself]
      dsimp only
      rw [hmoved.sends t]
      exact hworker
    · rw [hproc f hi, hmoved.others f t hi]
      exact hworker
  · obtain ⟨last, hlast, hstop⟩ := h.tryCommitSends
    refine ⟨last, ?_, ?_⟩
    · by_cases hi : cfg.tryCommitId = p
      · subst hi
        rw [hself]
        dsimp only
        rw [hmoved.sends]
        exact hlast
      · rw [hproc _ hi, hmoved.others _ _ hi]
        exact hlast
    · rw [hcontrol]
      exact hstop
  · rw [hcontrol, hcontrol]
    exact h.mode
  · by_cases hi : cfg.tryCommitId = p
    · subst hi
      exact h.tryCommit.take (h.role _) rfl hself hsource fun f => took_moved_self hmoved f
    · have hsame := fun f => took_moved_of_ne hmoved hi f
      have hold := h.tryCommit
      unfold TryCommitOk at *
      rw [hproc _ hi]
      simp only [hsame]
      exact hold
  · by_cases hi : cfg.commitId = p
    · subst hi
      exact h.commit.take hself hsource fun f => took_moved_self hmoved f
    · have hsame := fun f => took_moved_of_ne hmoved hi f
      have hold := h.commit
      unfold CommitOk at *
      rw [hproc _ hi]
      simp only [hsame]
      exact hold
  · have hiter : ((((s.setQueue (op.queue p) q).setProc p { s.procs p with
        pending := more ++ rest, words := (s.procs p).words ++ ws }).procs cfg.tryCommitId).iter) =
        (s.procs cfg.tryCommitId).iter := by
      rw [set_procs]
      split_ifs with hi
      · rw [hi]
      · rfl
    unfold Passed
    rw [hiter, hcontrol]
    exact h.passed

end Cpf.Smtx
