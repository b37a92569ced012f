import Cpf.Smtx.Waiting

/-!
# The verdicts are produced

While no misspeculation is found not all processes wait, if no iteration fills a queue: each would wait for one
that is in an earlier iteration, or in the same one and before it in the order of the processes. Every step
brings its process nearer to the end of the iterations that the others let it begin, so that in every run that
goes on as long as it can `ver_tryCommit` returns for each iteration.
-/

namespace Cpf.Smtx

/-! ### Some process can take a step -/

/-- The words of one iteration that a worker sends to one process are no more than `sq_waitConsumer` lets
through. -/
def Fits (cfg : Config) (script : ℕ → ℕ → List Access) : Prop :=
  ∀ f < cfg.workers, ∀ t, Hears cfg f t → ∀ i, (iterWords cfg script f t i).length ≤ threshold

/-- The number of words that process `f` has for process `t` in its first `n` iterations. -/
def spoken (cfg : Config) (script : ℕ → ℕ → List Access) (f t n : ℕ) : ℕ :=
  if f < cfg.workers then (stream cfg script f t n).length else 2 * n

def Process.epoch (process : Process) : ℕ := if process.control = .ended then process.iter - 1 else process.iter

/-- Process `p` takes words from process `g`. -/
def Sources (cfg : Config) (p g : ℕ) : Prop := g < cfg.limit p ∨ p = cfg.commitId ∧ g = cfg.tryCommitId

section

variable {cfg : Config} {script : ℕ → ℕ → List Access} {mem₀ : Heap} {s : State}
  {sent : ℕ → ℕ → List Word} {taken : ℕ → ℕ → ℕ} {f g t p n : ℕ} {tk : ℕ → List Word}

theorem Process.epoch_of_ne {process : Process} (h : process.control ≠ .ended) : process.epoch = process.iter :=
  if_neg h

theorem Process.epoch_le (process : Process) : process.epoch ≤ process.iter := by
  unfold Process.epoch
  split_ifs <;> omega

theorem Process.epoch_lt {process : Process} (h : process.iter < n) : process.epoch + 1 ≤ n := by
  unfold Process.epoch
  split_ifs <;> omega

theorem spoken_of_worker (hf : f < cfg.workers) : spoken cfg script f t n = (stream cfg script f t n).length :=
  if_pos hf

theorem spoken_tryCommit : spoken cfg script cfg.tryCommitId t n = 2 * n := if_neg (lt_irrefl _)

theorem stream_length_succ :
    (stream cfg script f t (n + 1)).length = (stream cfg script f t n).length +
    (iterWords cfg script f t n).length := by
  rw [stream_succ, List.length_append]

theorem spoken_mono {m : ℕ} (h : m ≤ n) : spoken cfg script f t m ≤ spoken cfg script f t n := by
  unfold spoken
  split_ifs
  · exact stream_length_mono h
  · omega

theorem spoken_lt {m : ℕ} (h : spoken cfg script f t m < spoken cfg script f t n) : m < n := by
  by_contra hle
  exact absurd (spoken_mono (Nat.le_of_not_lt hle)) (Nat.not_le_of_lt h)

theorem spoken_succ_le (hfits : Fits cfg script) (ht : Hears cfg f t) :
    spoken cfg script f t (n + 1) ≤ spoken cfg script f t n + threshold := by
  unfold spoken
  split_ifs with hf
  · rw [stream_length_succ]
    exact Nat.add_le_add_left (hfits f hf t ht n) _
  · have hthreshold : 2 ≤ threshold := by decide
    omega

theorem hears_tryCommit (ht : Hears cfg cfg.tryCommitId t) : t = cfg.commitId := by
  unfold Hears Config.next Config.processes Config.tryCommitId at ht
  unfold Config.commitId
  rw [if_neg (lt_irrefl _)] at ht
  omega

theorem not_hears_commit : ¬ Hears cfg cfg.commitId t := by
  unfold Hears Config.next Config.processes Config.commitId
  rw [if_neg (by omega)]
  omega

theorem tryCommitId_lt : cfg.tryCommitId < cfg.processes := by
  unfold Config.tryCommitId Config.processes
  omega

theorem commitId_lt : cfg.commitId < cfg.processes := by
  unfold Config.commitId Config.processes
  omega

theorem eq_of_le_workers (hp : p < cfg.processes) (hge : ¬ p < cfg.workers) (hne : p ≠ cfg.tryCommitId) :
    p = cfg.commitId := by
  unfold Config.processes at hp
  unfold Config.tryCommitId at hne
  unfold Config.commitId
  omega

theorem not_stopped_of_going (h : Going cfg script s sent taken) :
    ¬ (s.procs cfg.tryCommitId).control.Stopped := by
  have hreads := h.reads cfg.tryCommitId tryCommitId_lt
  unfold ReadsAt at hreads
  cases hcontrol : (s.procs cfg.tryCommitId).control <;> rw [hcontrol] at hreads <;>
    first | exact not_false | exact hreads.elim

/-- What a process has sent lies between the ends of two iterations. -/
theorem Going.sent_bounds (hok : ChannelOk cfg script mem₀ s sent taken) (h : Going cfg script s sent taken)
    (hf : f < cfg.processes) (ht : Hears cfg f t) :
    spoken cfg script f t (s.procs f).epoch ≤ (sent f t).length ∧
      (sent f t).length ≤ spoken cfg script f t ((s.procs f).epoch + 1) := by
  have hflight := h.flight f hf
  have hend : (endWords cfg f t).length = 2 := by rw [endWords_eq ht]; rfl
  unfold spoken Process.epoch
  by_cases hworker : f < cfg.workers
  · rw [if_pos hworker, if_pos hworker]
    have hsends := congrArg List.length (hok.workers f hworker t)
    have htake : (((script f (s.procs f).iter).take (s.procs f).pos).flatMap (accessWords cfg f t)).length ≤
        (iterWords cfg script f t (s.procs f).iter).length := by
      rw [iterWords, List.length_append]
      refine le_trans ?_ (Nat.le_add_right _ _)
      exact (List.Sublist.flatMap (List.take_sublist _ _) _).length_le
    rw [List.length_append, List.length_append] at hsends
    by_cases hended : (s.procs f).control = .ended
    · obtain ⟨hpos, hiter, hout⟩ := hflight.ended hended
      have hout := hout t
      obtain ⟨k, hk⟩ := Nat.exists_eq_add_of_lt hiter
      rw [if_pos hended]
      rw [hpos, hk, List.take_zero, List.flatMap_nil, List.length_nil] at hsends
      have hsucc : 0 + k + 1 - 1 = k := by omega
      have hzero : 0 + k + 1 = k + 1 := by omega
      rw [hk, hsucc]
      rw [hzero] at hsends
      have hlength : (stream cfg script f t (k + 1)).length =
          (stream cfg script f t k).length + (iterWords cfg script f t k).length := stream_length_succ
      rw [iterWords, List.length_append] at hlength
      omega
    · rw [if_neg hended, stream_length_succ]
      by_cases hrunning : (s.procs f).control = .running
      · have hout := hflight.running hrunning t
        omega
      · rw [hflight.others hrunning hended t] at hsends
        rw [List.length_nil] at hsends
        omega
  · have hne : f ≠ cfg.commitId := fun he => not_hears_commit (he ▸ ht)
    have htc : f = cfg.tryCommitId := by
      by_contra hntc
      exact hne (eq_of_le_workers hf hworker hntc)
    subst htc
    obtain rfl := hears_tryCommit ht
    rw [if_neg hworker, if_neg hworker]
    obtain ⟨last, hlast, hstop⟩ := hok.tryCommitSends
    obtain rfl := hstop.resolve_right fun hs => not_stopped_of_going h hs.1
    have hsends := congrArg List.length hlast
    rw [List.length_append, List.append_nil, List.length_replicate] at hsends
    by_cases hended : (s.procs cfg.tryCommitId).control = .ended
    · obtain ⟨-, hiter, hout⟩ := hflight.ended hended
      have hout := hout cfg.commitId
      rw [if_pos hended]
      omega
    · have hrunning : (s.procs cfg.tryCommitId).control ≠ .running := by
        intro hrun
        have hrole := hok.role cfg.tryCommitId
        rw [hrun] at hrole
        exact absurd hrole (lt_irrefl _)
      rw [hflight.others hrunning hended, List.length_nil] at hsends
      rw [if_neg hended]
      omega

/-- At least the iterations before the current one have been read of every worker. -/
theorem Reads.length_le {limit k source : ℕ} {done : List Access} {words : List Word}
    (h : Reads cfg script t limit tk k source done words) (hf : f < limit) :
    (stream cfg script f t k).length ≤ (tk f).length := by
  rcases lt_trichotomy f source with hlt | rfl | hgt
  · rw [h.before f hlt]
    exact stream_length_mono (Nat.le_succ k)
  · rw [h.now hf, List.append_assoc, List.length_append]
    exact Nat.le_add_right _ _
  · rw [h.after f hgt hf]

/-- Of the worker that is being read, the end of the current iteration has not been read. -/
theorem Reads.length_lt {limit k source : ℕ} {done : List Access} {words : List Word}
    (h : Reads cfg script t limit tk k source done words) (hsource : source < limit) (ht : Hears cfg source t)
    (hwords : words.length < 2) : (tk source).length < (stream cfg script source t (k + 1)).length := by
  have hdone := List.IsPrefix.flatMap (h.part hsource) Access.words
  have hle := hdone.length_le
  rw [h.now hsource, stream_succ, iterWords_eq ht]
  simp only [List.length_append, List.length_cons, List.length_nil]
  omega

/-- At least the iterations that a process has ended have been read of every worker that it reads. -/
theorem Going.iter_le_took (h : Going cfg script s sent taken) (hp : p < cfg.processes) (hg : g < cfg.limit p) :
    (stream cfg script g p (s.procs p).iter).length ≤ (took sent taken g p).length := by
  have hreads := h.reads p hp
  unfold ReadsAt at hreads
  cases hcontrol : (s.procs p).control <;> rw [hcontrol] at hreads <;> dsimp only at hreads
  case running => exact (stream_length_mono (Nat.le_succ _)).trans (hreads.length_le hg)
  case shouldConsume =>
    obtain ⟨-, done, hdone⟩ := hreads
    exact hdone.length_le hg
  case spinConsume =>
    obtain ⟨-, done, hdone⟩ := hreads
    exact hdone.length_le hg
  case apply =>
    obtain ⟨-, done, hdone⟩ := hreads
    exact hdone.length_le hg
  all_goals exact hreads.length_le hg

theorem Going.took_ge (hcfg : cfg.Ordered) (hok : ChannelOk cfg script mem₀ s sent taken)
    (h : Going cfg script s sent taken) (hp : p < cfg.processes) (hg : Sources cfg p g) :
    spoken cfg script g p (s.procs p).epoch ≤ (took sent taken g p).length := by
  rcases hg with hg | ⟨rfl, rfl⟩
  · rw [spoken_of_worker (hg.trans_le (hcfg.limit_le hp).2)]
    exact (stream_length_mono (Process.epoch_le _)).trans (h.iter_le_took hp hg)
  · have hcommit := hok.commit
    have hreads := h.reads cfg.commitId hp
    have hrole := hok.role cfg.commitId
    rw [spoken_tryCommit]
    unfold CommitOk at hcommit
    unfold ReadsAt at hreads
    dsimp only at hcommit hreads
    cases hcontrol : (s.procs cfg.commitId).control <;> rw [hcontrol] at hcommit hreads hrole
    case returning => exact hreads.elim
    case recovering => exact hreads.elim
    case running =>
      have hlt : cfg.commitId < cfg.workers := hrole
      unfold Config.commitId at hlt
      omega
    case ended => exact absurd rfl hrole
    all_goals
      rw [hcommit.1, Process.epoch_of_ne (by simp [hcontrol])]
      simp only [List.length_append, List.length_replicate]
      omega

theorem hears_of_sources (hcfg : cfg.Ordered) (hp : p < cfg.processes) (hg : Sources cfg p g) :
    Hears cfg g p ∧ g < p := by
  rcases hg with hg | ⟨rfl, rfl⟩
  · exact ⟨hcfg.hears_of_lt_limit hp hg, hg.trans_le (hcfg.limit_le hp).1⟩
  · unfold Hears Config.next Config.processes Config.tryCommitId Config.commitId
    rw [if_neg (lt_irrefl _)]
    omega

theorem sources_of_hears (hcfg : cfg.Ordered) (hf : f < cfg.processes) (ht : Hears cfg f t) :
    Sources cfg t f := by
  by_cases hworker : f < cfg.workers
  · exact .inl ((hcfg.lt_limit_iff hworker ht.2).2 ht)
  · have hne : f ≠ cfg.commitId := fun he => not_hears_commit (he ▸ ht)
    have htc : f = cfg.tryCommitId := by
      by_contra hntc
      exact hne (eq_of_le_workers hf hworker hntc)
    subst htc
    exact .inr ⟨hears_tryCommit ht, rfl⟩

theorem flush_mem (ht : Hears cfg f t) : .flush t ∈ flushAllOps cfg f := by
  refine List.mem_append_left _ (List.mem_map.2 ⟨t, List.mem_range'_1.2 ⟨ht.1, ?_⟩, rfl⟩)
  have hlt := ht.2
  omega

theorem reverseFlush_mem (hg : Sources cfg p g) : .reverseFlush g ∈ flushAllOps cfg p := by
  refine List.mem_append_right _ ?_
  rcases hg with hg | ⟨rfl, rfl⟩
  · exact List.mem_append_left _ (List.mem_map.2 ⟨g, List.mem_range.2 hg, rfl⟩)
  · refine List.mem_append_right _ ?_
    rw [if_pos rfl]
    exact List.mem_singleton.2 rfl

/-- A process between its work on queues is stuck only where it waits for words. -/
theorem goOn_eq_none (hcfg : cfg.Ordered) (hok : ChannelOk cfg script mem₀ s sent taken)
    (h : Going cfg script s sent taken) (hp : p < cfg.processes) (hpend : (s.procs p).pending = [])
    (hnone : goOn cfg script s p = none) :
    ∃ call source, (s.procs p).control = .spinConsume call source ∧ ¬ (s.queues source p).canConsume := by
  have hreads := h.reads p hp
  have hrole := hok.role p
  have hpair : ∀ g, (s.procs p).control.source cfg = some g → ∃ x y, (s.procs p).words = [x, y] := by
    intro g hg
    have hwords := (hok.takes p).words g hg
    rw [hpend] at hwords
    exact List.length_eq_two.1 hwords
  unfold goOn at hnone
  unfold ReadsAt at hreads
  dsimp only at hnone hreads
  cases hcontrol : (s.procs p).control with
  | idle => rw [hcontrol] at hnone; cases hnone
  | enter call source => rw [hcontrol] at hnone; dsimp only at hnone; split_ifs at hnone
  | shouldConsume call source => rw [hcontrol] at hnone; dsimp only at hnone; split_ifs at hnone
  | spinConsume call source =>
      rw [hcontrol] at hnone
      dsimp only at hnone
      split_ifs at hnone with hconsume
      exact ⟨call, source, rfl, hconsume⟩
  | apply call source =>
      obtain ⟨x, y, hwords⟩ := hpair source (by rw [hcontrol]; rfl)
      rw [hcontrol] at hnone hreads hrole
      dsimp only at hnone hreads
      rw [hwords] at hnone hreads
      obtain ⟨hsource, done, hdone⟩ := hreads
      obtain ⟨n, hprefix⟩ := took_isPrefix hok (hsource.trans_le (hcfg.limit_le hp).2) p
      obtain ⟨s', hs', -⟩ := applyMessage_turn (s := s) hcfg hp hrole hcontrol hwords hsource hdone hprefix
      dsimp only at hnone
      rw [hs'] at hnone
      cases hnone
  | check =>
      obtain ⟨x, y, hwords⟩ := hpair cfg.tryCommitId (by rw [hcontrol]; rfl)
      rw [hcontrol] at hnone hrole
      dsimp only at hnone
      rw [hwords] at hnone
      obtain rfl : p = cfg.commitId := hrole
      have hcommit := hok.commit
      unfold CommitOk at hcommit
      dsimp only at hcommit
      rw [hcontrol, hwords] at hcommit
      obtain ⟨n, last, hprefix, hlast⟩ := (commitTakes hok).tryCommit
      rw [hcommit.1] at hprefix
      have hzero : x = 0 := by
        rcases next_end hprefix (hlast.imp_right fun ⟨_, mode, _, he⟩ => ⟨mode.box, he⟩) with ⟨hx, -⟩ | hxy
        · exact hx
        · rcases hlast with rfl | ⟨-, mode, -, rfl⟩
          · cases hxy
          · exact (List.cons.inj hxy).1.symm
      dsimp only at hnone
      rw [if_neg (not_not.2 hzero)] at hnone
      split_ifs at hnone
  | running => rw [hcontrol] at hnone; dsimp only at hnone; split at hnone <;> cases hnone
  | ended => rw [hcontrol] at hnone; cases hnone
  | returning mode => rw [hcontrol] at hreads; exact hreads.elim
  | recovering => rw [hcontrol] at hreads; exact hreads.elim

theorem Going.sources_of_takes (hok : ChannelOk cfg script mem₀ s sent taken)
    (h : Going cfg script s sent taken)
    (hp : p < cfg.processes) (hsource : (s.procs p).control.source cfg = some g) : Sources cfg p g := by
  have hreads := h.reads p hp
  have hrole := hok.role p
  unfold ReadsAt at hreads
  cases hcontrol : (s.procs p).control <;> rw [hcontrol] at hsource hreads hrole <;> cases hsource
  case apply => exact .inl hreads.1
  case check => exact .inr ⟨hrole, rfl⟩

/-- A process that waits for words of process `g` has not taken the end of the current iteration. -/
theorem Going.took_lt (hcfg : cfg.Ordered) (hok : ChannelOk cfg script mem₀ s sent taken)
    (h : Going cfg script s sent taken) (hp : p < cfg.processes) {rest : List QueueOp}
    (hpend : (s.procs p).pending = .spinAllocated g :: rest) :
    Sources cfg p g ∧ (took sent taken g p).length < spoken cfg script g p ((s.procs p).epoch + 1) := by
  have hin : 1 ≤ incoming g (s.procs p).pending := by
    rw [hpend, incoming_cons, QueueOp.takes, if_pos rfl]
    exact Nat.le_add_right _ _
  have hsource : (s.procs p).control.source cfg = some g := by
    by_contra hne
    have hzero := (hok.takes p).others g hne
    omega
  have hwords : (s.procs p).words.length < 2 := by
    have hsum := (hok.takes p).words g hsource
    omega
  have hreads := h.reads p hp
  unfold ReadsAt at hreads
  cases hcontrol : (s.procs p).control <;> rw [hcontrol] at hsource hreads <;> cases hsource
  case apply call =>
    obtain ⟨hlt, done, hdone⟩ := hreads
    rw [Process.epoch_of_ne (by simp [hcontrol]), spoken_of_worker (hlt.trans_le (hcfg.limit_le hp).2)]
    exact ⟨.inl hlt, hdone.length_lt hlt (hcfg.hears_of_lt_limit hp hlt) hwords⟩
  case check =>
    have hrole := hok.role p
    rw [hcontrol] at hrole
    obtain rfl : p = cfg.commitId := hrole
    have hcommit := hok.commit
    unfold CommitOk at hcommit
    dsimp only at hcommit
    rw [hcontrol] at hcommit
    rw [Process.epoch_of_ne (by simp [hcontrol]), spoken_tryCommit, hcommit.1]
    refine ⟨.inr ⟨rfl, rfl⟩, ?_⟩
    rw [List.length_append, List.length_replicate]
    omega

/-- A process that cannot take a step has published all its indices and waits for words or for room. -/
theorem Going.blocked (hcfg : cfg.Ordered) (hok : ChannelOk cfg script mem₀ s sent taken)
    (h : Going cfg script s sent taken) (hp : p < cfg.processes) (hnone : step cfg script s p = none) :
    Published cfg s p [] ∧
      ((∃ g, Sources cfg p g ∧
          (took sent taken g p).length < spoken cfg script g p ((s.procs p).epoch + 1) ∧
          (s.queues g p).pGlbInx = (s.queues g p).cInx) ∨
        ∃ d, Hears cfg p d ∧ (s.queues p d).crowded) := by
  have hsettled := h.settled p hp
  unfold step at hnone
  rw [if_pos hp] at hnone
  split at hnone
  · next op rest hpend =>
    rcases exec_eq_none (Option.map_eq_none_iff.1 hnone) with ⟨d, rfl, hcrowded⟩ | ⟨g, rfl, hseen⟩
    · have htarget := h.targets p hp (.spinConsumer d) (by rw [hpend]; exact List.mem_cons_self) d rfl
      exact ⟨(hsettled.spins [] _ rest hpend rfl).2, .inr ⟨d, htarget, hcrowded⟩⟩
    · obtain ⟨hg, hlt⟩ := h.took_lt hcfg hok hp hpend
      exact ⟨(hsettled.spins [] _ rest hpend rfl).2, .inl ⟨g, hg, hlt, hseen⟩⟩
  · next hpend =>
    obtain ⟨call, g, hcontrol, hconsume⟩ := goOn_eq_none hcfg hok h hp hpend hnone
    have hpublished := (hsettled.spinConsume call g hcontrol).2
    rw [hpend] at hpublished
    have hreads := h.reads p hp
    unfold ReadsAt at hreads
    rw [hcontrol] at hreads
    obtain ⟨hlt, done, hdone⟩ := hreads
    refine ⟨hpublished, .inl ⟨g, .inl hlt, ?_, ?_⟩⟩
    · rw [Process.epoch_of_ne (by simp [hcontrol]), spoken_of_worker (hlt.trans_le (hcfg.limit_le hp).2)]
      exact hdone.length_lt hlt (hcfg.hears_of_lt_limit hp hlt) (by simp)
    · unfold SwQueue.canConsume at hconsume
      exact not_not.1 fun hne => hconsume (.inr hne)

/-- Where no process can take a step, each waits for one that is in an earlier iteration, or in the same one and
before it. -/
theorem Going.descends (hcfg : cfg.Ordered) (hfits : Fits cfg script)
    (hok : ChannelOk cfg script mem₀ s sent taken) (h : Going cfg script s sent taken)
    (hnone : ∀ i < cfg.processes, step cfg script s i = none) (hp : p < cfg.processes) :
    ∃ q < cfg.processes, (s.procs q).epoch < (s.procs p).epoch ∨ (s.procs q).epoch ≤ (s.procs p).epoch ∧
    q < p := by
  have htook : ∀ f t, (took sent taken f t).length = taken f t := fun f t => by
    unfold took
    rw [List.length_take, Nat.min_eq_left (hok.linked.holds f t).taken_le]
  rcases (h.blocked hcfg hok hp (hnone p hp)).2 with ⟨g, hg, hlt, hseen⟩ | ⟨d, hd, hcrowded⟩
  · obtain ⟨hhears, hgp⟩ := hears_of_sources hcfg hp hg
    have hlt' := hgp.trans hp
    have hdone := ((h.blocked hcfg hok hlt' (hnone g hlt')).1 _ (flush_mem hhears)).resolve_left
        List.not_mem_nil
    have hall := (hok.linked.holds g p).taken_eq hseen hdone
    have hsent := (h.sent_bounds hok hlt' hhears).1
    rw [htook, ← hall] at hlt
    exact ⟨g, hlt', .inr ⟨Nat.le_of_lt_succ (spoken_lt (hsent.trans_lt hlt)), hgp⟩⟩
  · have hdp := hd.2
    have hsource := sources_of_hears hcfg hp hd
    have hdone := ((h.blocked hcfg hok hdp (hnone d hdp)).1 _ (reverseFlush_mem hsource)).resolve_left
      List.not_mem_nil
    have hahead := (hok.linked.holds p d).ahead_of_crowded hcrowded hdone
    have hsent := (h.sent_bounds hok hp hd).2
    have hfit := spoken_succ_le hfits hd (n := (s.procs p).epoch)
    have hread := h.took_ge hcfg hok hdp hsource
    rw [htook] at hread
    have hless : spoken cfg script p d (s.procs d).epoch < spoken cfg script p d (s.procs p).epoch := by omega
    exact ⟨d, hdp, .inl (spoken_lt hless)⟩

theorem Going.exists_step (hcfg : cfg.Ordered) (hfits : Fits cfg script)
    (hok : ChannelOk cfg script mem₀ s sent taken) (h : Going cfg script s sent taken) :
    ∃ p s', step cfg script s p = some s' := by
  by_contra hstuck
  push Not at hstuck
  have hnone : ∀ i < cfg.processes, step cfg script s i = none := fun i _ =>
    Option.eq_none_iff_forall_ne_some.2 (hstuck i)
  -- The process in the earliest iteration, and of those the first one, waits for no other.
  have hno : ∀ n, ∀ p < cfg.processes, (s.procs p).epoch * cfg.processes + p = n → False := by
    intro n
    induction n using Nat.strong_induction_on with
    | _ n ih =>
      rintro p hp rfl
      obtain ⟨q, hq, hlt⟩ := h.descends hcfg hfits hok hnone hp
      refine ih _ ?_ q hq rfl
      rcases hlt with hlt | ⟨hle, hlt⟩
      · have hmul := Nat.mul_le_mul_right cfg.processes hlt
        rw [Nat.succ_mul] at hmul
        omega
      · have hmul := Nat.mul_le_mul_right cfg.processes hle
        omega
  exact hno _ cfg.tryCommitId tryCommitId_lt rfl

end

/-! ### Every step brings its process on -/

/-- The places of a process in the order in which it comes to them in an iteration. -/
def Control.place (cfg : Config) : Control → ℕ
  | .ended => 0
  | .idle => 1
  | .check => 2
  | .enter _ source => 8 * source + 3
  | .shouldConsume _ source => 8 * source + 4
  | .spinConsume _ source => 8 * source + 5
  | .apply _ source => 8 * source + 6
  | .running => 8 * cfg.workers + 7
  | .returning _ => 0
  | .recovering => 0

section

variable (cfg : Config) (script : ℕ → ℕ → List Access) (bound : ℕ) (s : State) (sent : ℕ → ℕ → List Word)
  (taken : ℕ → ℕ → ℕ) (p : ℕ)

/-- The words that process `p` has not applied of those that it takes in the first `bound` iterations. -/
def unread : ℕ :=
  (∑ g ∈ Finset.range cfg.processes, (spoken cfg script g p bound - (took sent taken g p).length)) +
    (s.procs p).words.length

/-- How far a process is from the end of iteration `bound`, when it has `n` words to apply. -/
def Process.rank (n : ℕ) (process : Process) : ℕ ×ₗ ℕ ×ₗ ℕ ×ₗ ℕ ×ₗ ℕ :=
  toLex (bound - process.iter, toLex ((script p process.iter).length - process.pos, toLex
    (n, toLex (8 * cfg.workers + 7 - process.control.place cfg,
      (process.pending.map (QueueOp.weight (flushAllOps cfg p).length)).sum))))

def rank : ℕ ×ₗ ℕ ×ₗ ℕ ×ₗ ℕ ×ₗ ℕ :=
  (s.procs p).rank cfg script bound p (unread cfg script bound s sent taken p)

end

/-! What lowers the rank of a process. -/

namespace Process

variable {cfg : Config} {script : ℕ → ℕ → List Access} {bound p n m : ℕ} {process process' : Process}

theorem rank_lt_of_iter (hiter : process'.iter = process.iter + 1) (hbound : process'.iter ≤ bound) :
    process'.rank cfg script bound p m < process.rank cfg script bound p n :=
  Prod.Lex.toLex_lt_toLex.2 (.inl (by dsimp only; omega))

theorem rank_lt_of_pos (hiter : process'.iter = process.iter) (hpos : process'.pos = process.pos + 1)
    (hlt : process.pos < (script p process.iter).length) :
    process'.rank cfg script bound p m < process.rank cfg script bound p n := by
  refine Prod.Lex.toLex_lt_toLex.2 (.inr ⟨by rw [hiter], Prod.Lex.toLex_lt_toLex.2 (.inl ?_)⟩)
  dsimp only
  rw [hiter, hpos]
  omega

theorem rank_lt_of_unread (hiter : process'.iter = process.iter) (hpos : process'.pos = process.pos)
    (hlt : m < n) :
    process'.rank cfg script bound p m < process.rank cfg script bound p n :=
  Prod.Lex.toLex_lt_toLex.2 (.inr ⟨by rw [hiter], Prod.Lex.toLex_lt_toLex.2
    (.inr ⟨by rw [hiter, hpos], Prod.Lex.toLex_lt_toLex.2 (.inl hlt)⟩)⟩)

theorem rank_lt_of_place (hiter : process'.iter = process.iter) (hpos : process'.pos = process.pos)
    (hlt : process.control.place cfg < process'.control.place cfg)
    (hle : process'.control.place cfg ≤ 8 * cfg.workers + 7) :
    process'.rank cfg script bound p n < process.rank cfg script bound p n := by
  refine Prod.Lex.toLex_lt_toLex.2 (.inr ⟨by rw [hiter], Prod.Lex.toLex_lt_toLex.2
    (.inr ⟨by rw [hiter, hpos], Prod.Lex.toLex_lt_toLex.2 (.inr ⟨rfl, Prod.Lex.toLex_lt_toLex.2 (.inl ?_)⟩)⟩)⟩)
  dsimp only
  omega

theorem rank_lt_of_weight (hiter : process'.iter = process.iter) (hpos : process'.pos = process.pos)
    (hcontrol : process'.control = process.control)
    (hlt : (process'.pending.map (QueueOp.weight (flushAllOps cfg p).length)).sum <
      (process.pending.map (QueueOp.weight (flushAllOps cfg p).length)).sum) :
    process'.rank cfg script bound p n < process.rank cfg script bound p n :=
  Prod.Lex.toLex_lt_toLex.2 (.inr ⟨by rw [hiter], Prod.Lex.toLex_lt_toLex.2
    (.inr ⟨by rw [hiter, hpos], Prod.Lex.toLex_lt_toLex.2 (.inr ⟨rfl, Prod.Lex.toLex_lt_toLex.2
      (.inr ⟨by rw [hcontrol], hlt⟩)⟩)⟩)⟩)

end Process

section

variable {cfg : Config} {script : ℕ → ℕ → List Access} {mem₀ : Heap} {s s' : State}
  {sent sent' : ℕ → ℕ → List Word} {taken taken' : ℕ → ℕ → ℕ} {bound g p : ℕ} {process process' : Process}
  {tk : ℕ → List Word}

theorem ReadsAt.place_le (hcfg : cfg.Ordered) (hp : p < cfg.processes) (h : ReadsAt cfg script p process tk) :
    process.control.place cfg ≤ 8 * cfg.workers + 7 := by
  have hle := hcfg.limit_le hp
  unfold ReadsAt at h
  unfold Control.place
  cases hcontrol : process.control <;> rw [hcontrol] at h <;> dsimp only
  case enter =>
    have := h.le
    omega
  case shouldConsume => have := h.1; omega
  case spinConsume => have := h.1; omega
  case apply => have := h.1; omega
  all_goals omega

/-- A step on a queue leaves the words that were not applied the same. -/
theorem unread_moved {k : ℕ × ℕ} {ops ops' : List QueueOp} {ws : List Word}
    (hmoved : Moved p k ops ops' ws sent sent' taken taken')
    (hwords : (s'.procs p).words = (s.procs p).words ++ ws)
    (hroom : ws ≠ [] → k.1 < cfg.processes ∧
      (took sent' taken' k.1 p).length ≤ spoken cfg script k.1 p bound) :
    unread cfg script bound s' sent' taken' p = unread cfg script bound s sent taken p := by
  unfold unread
  rw [hwords, List.length_append]
  have htook := took_moved_self hmoved
  by_cases hws : ws = []
  · subst hws
    simp only [ite_self, List.append_nil] at htook
    simp only [htook, List.length_nil, Nat.add_zero]
  · obtain ⟨hk, hle⟩ := hroom hws
    have hmem := Finset.mem_range.2 hk
    rw [← Finset.add_sum_erase _ _ hmem, ← Finset.add_sum_erase _ _ hmem]
    have hothers : ∑ g ∈ (Finset.range cfg.processes).erase k.1,
          (spoken cfg script g p bound - (took sent' taken' g p).length) =
        ∑ g ∈ (Finset.range cfg.processes).erase k.1,
          (spoken cfg script g p bound - (took sent taken g p).length) := by
      refine Finset.sum_congr rfl fun g hg => ?_
      rw [htook g, if_neg (Finset.ne_of_mem_erase hg), List.append_nil]
    rw [hothers]
    have hself := congrArg List.length (htook k.1)
    rw [if_pos rfl, List.length_append] at hself
    omega

theorem rank_lt_of_turn (hcfg : cfg.Ordered) (hp : p < cfg.processes)
    (hturn : Turn cfg script p (s.procs p) process)
    (hreads : ReadsAt cfg script p (s.procs p) fun f => took sent taken f p)
    (hreads' : ReadsAt cfg script p process fun f => took sent taken f p) (hself : s'.procs p = process)
    (hbound : process.iter ≤ bound) :
    rank cfg script bound s' sent taken p < rank cfg script bound s sent taken p := by
  have hplace := hreads.place_le hcfg hp
  have hplace' := hreads'.place_le hcfg hp
  have hunread : (s.procs p).words = process.words →
      unread cfg script bound s' sent taken p = unread cfg script bound s sent taken p := by
    intro hwords
    unfold unread
    rw [hself, hwords]
  have happlied : process.words.length < (s.procs p).words.length →
      unread cfg script bound s' sent taken p < unread cfg script bound s sent taken p := by
    intro hwords
    unfold unread
    rw [hself]
    exact Nat.add_lt_add_left hwords _
  unfold rank
  rw [hself]
  cases hturn with
  | enters call hcontrol =>
    rw [hunread rfl]
    exact Process.rank_lt_of_place rfl rfl (by simp [hcontrol, Control.place]) hplace'
  | asks hcontrol _ =>
    rw [hunread rfl]
    exact Process.rank_lt_of_place rfl rfl (by simp [hcontrol, Control.place]) hplace'
  | looks hcontrol _ =>
    rw [hunread rfl]
    exact Process.rank_lt_of_place rfl rfl (by simp [hcontrol, Control.place]) hplace'
  | runs hcontrol =>
    rw [hunread rfl]
    rw [hcontrol] at hplace
    simp only [Control.place] at hplace
    refine Process.rank_lt_of_place rfl rfl ?_ hplace'
    rw [hcontrol]
    simp only [Control.place]
    omega
  | commits _ => exact Process.rank_lt_of_iter rfl hbound
  | validates _ => exact Process.rank_lt_of_iter rfl hbound
  | takes hcontrol =>
    rw [hunread rfl]
    refine Process.rank_lt_of_place rfl rfl ?_ hplace'
    rcases hcontrol with hcontrol | hcontrol <;> simp [hcontrol, Control.place, consumeMessage]
  | spins hcontrol =>
    rw [hunread rfl]
    exact Process.rank_lt_of_place rfl rfl (by simp [hcontrol, Control.place]) hplace'
  | applies mem _ hwords => exact Process.rank_lt_of_unread rfl rfl (happlied (hwords ▸ Nat.two_pos))
  | passes mem _ hwords _ => exact Process.rank_lt_of_unread rfl rfl (happlied (hwords ▸ Nat.two_pos))
  | checks _ hwords => exact Process.rank_lt_of_unread rfl rfl (happlied (hwords ▸ Nat.two_pos))
  | accesses _ ha => exact Process.rank_lt_of_pos rfl rfl (List.getElem?_eq_some_iff.1 ha).1
  | ends _ _ => exact Process.rank_lt_of_iter rfl hbound
  | resumes hcontrol =>
    rw [hunread rfl]
    exact Process.rank_lt_of_place rfl rfl (by simp [hcontrol, Control.place]) hplace'

end

/-! ### The verdicts -/

section

variable {cfg : Config} {script : ℕ → ℕ → List Access} {mem₀ : Heap} {s s' : State}
  {sent : ℕ → ℕ → List Word} {taken : ℕ → ℕ → ℕ} {f g i p t : ℕ} {tk : ℕ → List Word}

theorem Going.goOn_live (hcfg : cfg.Ordered) (hok : ChannelOk cfg script mem₀ s sent taken)
    (h : Going cfg script s sent taken) (hp : p < cfg.processes) (hpend : (s.procs p).pending = [])
    (hgo : Smtx.goOn cfg script s p = some s') (hlive : ¬ (s'.procs cfg.tryCommitId).control.Stopped) :
    ∃ process, Goes s s' p process ∧ Turn cfg script p (s.procs p) process ∧
      ReadsAt cfg script p process (fun f => took sent taken f p) ∧ Going cfg script s' sent taken := by
  have hmode : s.mode = .ok := hok.mode.resolve_right fun hbad => not_stopped_of_going h hbad.1
  have hmode' : s'.mode = .ok := (hok.goOn hp hpend hgo).mode.resolve_right fun hbad => hlive hbad.1
  obtain ⟨process, hgoes, hturn, hreads⟩ := goOn_turn hcfg hp (hok.role p) (hok.takes p) (h.reads p hp)
    (fun f hf => took_isPrefix hok hf p) hmode hgo hmode' fun he => he ▸ hlive
  exact ⟨process, hgoes, hturn, hreads, h.goOn (hok.role p) hpend hgoes hturn hreads⟩

theorem Going.step (hcfg : cfg.Ordered) (hok : ChannelOk cfg script mem₀ s sent taken)
    (h : Going cfg script s sent taken) (hstep : step cfg script s p = some s')
    (hlive : ¬ (s'.procs cfg.tryCommitId).control.Stopped) :
    ∃ sent' taken', ChannelOk cfg script mem₀ s' sent' taken' ∧ Going cfg script s' sent' taken' ∧
      ∀ bound, (∀ i < cfg.processes, (s'.procs i).iter < bound) →
        rank cfg script bound s' sent' taken' p < rank cfg script bound s sent taken p ∧
          ∀ i, i ≠ p → rank cfg script bound s' sent' taken' i = rank cfg script bound s sent taken i := by
  obtain ⟨hp, ⟨op, rest, q, more, ws, hpend, hexec, rfl⟩ | ⟨hpend, hgo⟩⟩ := step_cases hstep
  · obtain ⟨sent', taken', hok', hmoved⟩ := hok.queueStep hpend hexec
    have hgoing := h.queueStep hcfg hp (hok.takes p) hpend hexec hmoved
    refine ⟨sent', taken', hok', hgoing, fun bound hbound => ⟨?_, fun i hi => ?_⟩⟩
    · have hroom : ws ≠ [] → (op.queue p).1 < cfg.processes ∧
          (took sent' taken' (op.queue p).1 p).length ≤ spoken cfg script (op.queue p).1 p bound := by
        intro hws
        have hsources := h.sources_of_takes hok hp ((hok.takes p).source_eq hmoved hws)
        obtain ⟨hhears, hlt⟩ := hears_of_sources hcfg hp hsources
        have hsent := (hgoing.sent_bounds hok' (hlt.trans hp) hhears).2
        exact ⟨hlt.trans hp, (List.length_take_le' _ _).trans
          (hsent.trans (spoken_mono (Process.epoch_lt (hbound _ (hlt.trans hp)))))⟩
      have hunread : unread cfg script bound ((s.setQueue (op.queue p) q).setProc p { s.procs p with
          pending := more ++ rest, words := (s.procs p).words ++ ws }) sent' taken' p =
          unread cfg script bound s sent taken p :=
        unread_moved hmoved (by rw [set_procs, if_pos rfl]) hroom
      unfold rank
      rw [hunread, set_procs, if_pos rfl]
      refine Process.rank_lt_of_weight rfl rfl rfl ?_
      have hlt := (exec_leaves hexec).weight_lt (onlyFlushes_flushAllOps cfg p)
      dsimp only
      rw [hpend, List.map_append, List.sum_append, List.map_cons, List.sum_cons]
      omega
    · unfold rank unread
      rw [set_procs, if_neg hi]
      simp only [took_moved_of_ne hmoved hi]
  · obtain ⟨process, hgoes, hturn, hreads, hgoing⟩ := h.goOn_live hcfg hok hp hpend hgo hlive
    have hself : s'.procs p = process := by rw [hgoes.2, Function.update_self]
    refine ⟨sent, taken, hok.goOn hp hpend hgo, hgoing, fun bound hbound => ⟨?_, fun i hi => ?_⟩⟩
    · exact rank_lt_of_turn hcfg hp hturn (h.reads p hp) hreads hself (hself ▸ (hbound p hp).le)
    · unfold rank unread
      rw [hgoes.2, Function.update_of_ne hi]

/-- No more than the current iteration has been read of any worker. -/
theorem Reads.length_le_succ {limit k source : ℕ} {done : List Access} {words : List Word}
    (h : Reads cfg script t limit tk k source done words) (hf : f < limit) (ht : Hears cfg f t)
    (hwords : words.length ≤ 2) : (tk f).length ≤ (stream cfg script f t (k + 1)).length := by
  rcases lt_trichotomy f source with hlt | rfl | hgt
  · rw [h.before f hlt]
  · have hle := (List.IsPrefix.flatMap (h.part hf) Access.words).length_le
    rw [h.now hf, stream_succ, iterWords_eq ht]
    simp only [List.length_append, List.length_cons, List.length_nil]
    omega
  · rw [h.after f hgt hf]
    exact stream_length_mono (Nat.le_succ k)

theorem Going.took_le (hcfg : cfg.Ordered) (hok : ChannelOk cfg script mem₀ s sent taken)
    (h : Going cfg script s sent taken) (hp : p < cfg.processes) (hg : g < cfg.limit p) :
    (took sent taken g p).length ≤ (stream cfg script g p ((s.procs p).iter + 2)).length := by
  have hhears := hcfg.hears_of_lt_limit hp hg
  have hreads := h.reads p hp
  have hwords : (s.procs p).words.length ≤ 2 := by
    cases hsource : (s.procs p).control.source cfg with
    | none =>
      rw [(hok.takes p).noWords hsource]
      exact Nat.zero_le _
    | some f =>
      have hsum := (hok.takes p).words f hsource
      omega
  have hmono : ∀ k, k ≤ (s.procs p).iter + 1 → (stream cfg script g p (k + 1)).length ≤
      (stream cfg script g p ((s.procs p).iter + 2)).length := fun k hk =>
    stream_length_mono (Nat.succ_le_succ hk)
  unfold ReadsAt at hreads
  cases hcontrol : (s.procs p).control <;> rw [hcontrol] at hreads <;> dsimp only at hreads
  case running => exact (hreads.length_le_succ hg hhears (by simp)).trans (hmono _ le_rfl)
  case shouldConsume =>
    obtain ⟨-, done, hdone⟩ := hreads
    exact (hdone.length_le_succ hg hhears (by simp)).trans (hmono _ (Nat.le_succ _))
  case spinConsume =>
    obtain ⟨-, done, hdone⟩ := hreads
    exact (hdone.length_le_succ hg hhears (by simp)).trans (hmono _ (Nat.le_succ _))
  case apply =>
    obtain ⟨-, done, hdone⟩ := hreads
    exact (hdone.length_le_succ hg hhears hwords).trans (hmono _ (Nat.le_succ _))
  all_goals exact (hreads.length_le_succ hg hhears (by simp)).trans (hmono _ (Nat.le_succ _))

theorem two_mul_le_spoken (ht : Hears cfg f t) (n : ℕ) : 2 * n ≤ spoken cfg script f t n := by
  unfold spoken
  split_ifs
  · induction n with
    | zero => exact Nat.zero_le _
    | succ n ih =>
      rw [stream_length_succ, iterWords_eq ht]
      simp only [List.length_append, List.length_cons, List.length_nil]
      omega
  · exact le_rfl

/-- No process gets further than this before iteration `i` has its verdict. -/
def iterBound (cfg : Config) (script : ℕ → ℕ → List Access) (i : ℕ) : ℕ :=
  (∑ f ∈ Finset.range cfg.workers, (stream cfg script f cfg.tryCommitId (i + 2)).length) + threshold +
    chunkSize +
    i + 3

theorem Going.iter_lt (hcfg : cfg.Ordered) (hok : ChannelOk cfg script mem₀ s sent taken)
    (h : Going cfg script s sent taken) (hi : s.returned.length ≤ i) (hp : p < cfg.processes) :
    (s.procs p).iter < iterBound cfg script i := by
  have htc : (s.procs cfg.tryCommitId).iter ≤ i := by
    rcases hok.passed.2 with hlength | ⟨hlength, -⟩ <;> omega
  have hlt : cfg.tryCommitId < cfg.processes := tryCommitId_lt
  have htook : ∀ f t, (took sent taken f t).length = taken f t := fun f t => by
    unfold took
    rw [List.length_take, Nat.min_eq_left (hok.linked.holds f t).taken_le]
  have hepoch : ∀ process : Process, process.iter ≤ process.epoch + 1 ∧ process.epoch ≤ process.iter := by
    intro process
    unfold Process.epoch
    split_ifs <;> omega
  unfold iterBound
  by_cases hworker : p < cfg.workers
  · have hhears : Hears cfg p cfg.tryCommitId := replays_tryCommit.hears hworker
    have hsent := (h.sent_bounds hok hp hhears).1
    have hspoken : 2 * (s.procs p).epoch ≤ spoken cfg script p cfg.tryCommitId (s.procs p).epoch :=
      two_mul_le_spoken hhears _
    have hqueue := (hok.linked.holds p cfg.tryCommitId).length_le
    have hlimit : p < cfg.limit cfg.tryCommitId := by rwa [Config.limit_of_replays replays_tryCommit]
    have hread := h.took_le hcfg hok hlt hlimit
    have hmono : (stream cfg script p cfg.tryCommitId ((s.procs cfg.tryCommitId).iter + 2)).length ≤
        (stream cfg script p cfg.tryCommitId (i + 2)).length := stream_length_mono (Nat.add_le_add_right htc 2)
    have hsum : (stream cfg script p cfg.tryCommitId (i + 2)).length ≤
        ∑ f ∈ Finset.range cfg.workers, (stream cfg script f cfg.tryCommitId (i + 2)).length :=
      Finset.single_le_sum (f := fun f => (stream cfg script f cfg.tryCommitId (i + 2)).length)
        (fun _ _ => Nat.zero_le _) (Finset.mem_range.2 hworker)
    have hle := (hepoch (s.procs p)).1
    rw [htook] at hread
    omega
  · by_cases htc' : p = cfg.tryCommitId
    · subst htc'
      omega
    · obtain rfl := eq_of_le_workers hp hworker htc'
      have hsource : Sources cfg cfg.commitId cfg.tryCommitId := .inr ⟨rfl, rfl⟩
      have hhears := (hears_of_sources hcfg hp hsource).1
      have hread := h.took_ge hcfg hok hp hsource
      have hsent := (h.sent_bounds hok hlt hhears).2
      have hqueue := (hok.linked.holds cfg.tryCommitId cfg.commitId).taken_le
      have hle := (hepoch (s.procs cfg.commitId)).1
      have hle' := (hepoch (s.procs cfg.tryCommitId)).2
      rw [htook, spoken_tryCommit] at hread
      rw [spoken_tryCommit] at hsent
      omega

/-- As long as the reads agree, the try-commit process does not stop. -/
theorem ChannelOk.not_stopped (h : ChannelOk cfg script mem₀ s sent taken) (hi : s.returned.length ≤ i)
    (hagree : ∀ j ≤ i, AllAgree (committed cfg script mem₀ j) (iteration cfg script j)) :
    ¬ (s.procs cfg.tryCommitId).control.Stopped := by
  intro hstop
  have hok := h.tryCommit
  unfold TryCommitOk at hok
  dsimp only at hok
  cases hcontrol : (s.procs cfg.tryCommitId).control <;> rw [hcontrol] at hok hstop
  case returning mode => exact hok.2 (hagree _ hi)
  case recovering =>
    obtain ⟨mode, hmem, hne⟩ := hok
    obtain ⟨j, hj⟩ := List.mem_iff_getElem?.1 hmem
    have hlt := (List.getElem?_eq_some_iff.1 hj).1
    exact hne ((h.returned j mode hj).2 (hagree j (by omega)))
  all_goals exact hstop

def ranks (cfg : Config) (script : ℕ → ℕ → List Access) (i : ℕ) (s : State)
    (ghost : (ℕ → ℕ → List Word) × (ℕ → ℕ → ℕ)) (p : Fin cfg.processes) : ℕ ×ₗ ℕ ×ₗ ℕ ×ₗ ℕ ×ₗ ℕ :=
  rank cfg script (iterBound cfg script i) s ghost.1 ghost.2 p

/-- A step behind which iteration `i` still has no verdict. -/
theorem Going.ranks_lt (hcfg : cfg.Ordered) (hok : ChannelOk cfg script mem₀ s sent taken)
    (h : Going cfg script s sent taken) (hstep : Smtx.step cfg script s p = some s')
    (hi : s'.returned.length ≤ i)
    (hagree : ∀ j ≤ i, AllAgree (committed cfg script mem₀ j) (iteration cfg script j)) :
    ∃ ghost : (ℕ → ℕ → List Word) × (ℕ → ℕ → ℕ), (ChannelOk cfg script mem₀ s' ghost.1 ghost.2 ∧
      Going cfg script s' ghost.1 ghost.2) ∧ ranks cfg script i s' ghost < ranks cfg script i s (sent,
      taken) := by
  obtain ⟨_, _, hnext⟩ := hok.step hstep
  obtain ⟨sent', taken', hok', hgoing', hrank⟩ := h.step hcfg hok hstep (hnext.not_stopped hi hagree)
  obtain ⟨hlt, hsame⟩ := hrank _ fun q hq => hgoing'.iter_lt hcfg hok' hi hq
  refine ⟨(sent', taken'), ⟨hok', hgoing'⟩, Pi.lt_def.2 ⟨fun q => ?_, ⟨p, (step_cases hstep).1⟩, hlt⟩⟩
  unfold ranks
  by_cases hq : (q : ℕ) = p
  · rw [hq]
    exact hlt.le
  · exact (hsame q hq).le

/-- Where no iteration fills a queue and the reads agree, the verdict is returned in every run that goes on as
long as it can. -/
theorem verdict_returned (hcfg : cfg.Ordered) (hfits : Fits cfg script) {states : ℕ → State}
    (hstart : Starts cfg mem₀ (states 0)) (hgoes : GoesOn (Smtx.step cfg script) states)
    (hagree : ∀ j ≤ i, AllAgree (committed cfg script mem₀ j) (iteration cfg script j)) :
    ∃ n, (states n).returned[i]? = some .ok := by
  obtain ⟨n, hn⟩ := hgoes.reaches
    (fun s (ghost : (ℕ → ℕ → List Word) × (ℕ → ℕ → ℕ)) =>
      ChannelOk cfg script mem₀ s ghost.1 ghost.2 ∧ Going cfg script s ghost.1 ghost.2)
    (ranks cfg script i) (fun s => i < s.returned.length)
    (fun s ghost h _ => h.2.exists_step hcfg hfits h.1)
    (fun s ghost p t h _ hstep hnot => h.2.ranks_lt hcfg h.1 hstep (Nat.le_of_not_lt hnot) hagree)
    (g := (fun _ _ => [], fun _ _ => 0)) ⟨channelOk_start hstart, going_start hstart⟩
  obtain ⟨sent, taken, hok⟩ := channelOk_of_run hstart (hgoes.run n)
  have hget := List.getElem?_eq_getElem hn
  have hmode := (hok.returned i _ hget).2 (hagree i le_rfl)
  exact ⟨n, by rw [hget, hmode]⟩

/-- What `ver_tryCommit` returns for an iteration is `VER_OK` if and only if its reads agree with the committed
iterations and with what precedes them in the iteration, and what the commit process has applied is exactly the
iterations that passed. Where no iteration fills a queue and the reads agree, `VER_OK` is returned. -/
theorem validation_exact {s₀ : State} (hstart : Starts cfg mem₀ s₀) :
    (∀ s, Run (Smtx.step cfg script) (fun _ _ => True) s₀ s →
      (∀ i mode, s.returned[i]? = some mode → (∀ j < i, s.returned[j]? = some .ok) ∧
        (mode = .ok ↔ AllAgree (committed cfg script mem₀ i) (iteration cfg script i))) ∧
      ((s.procs cfg.commitId).control = .idle →
        (∀ j < (s.procs cfg.commitId).iter, s.returned[j]? = some .ok) ∧
          (s.procs cfg.commitId).mem = committed cfg script mem₀ (s.procs cfg.commitId).iter)) ∧
    (cfg.Ordered → Fits cfg script → ∀ states, states 0 = s₀ → GoesOn (Smtx.step cfg script) states →
      ∀ i, (∀ j ≤ i, AllAgree (committed cfg script mem₀ j) (iteration cfg script j)) →
        ∃ n, (states n).returned[i]? = some .ok) := by
  refine ⟨fun s hrun => ?_, fun hcfg hfits states hzero hgoes i hagree => ?_⟩
  · obtain ⟨sent, taken, hok⟩ := channelOk_of_run hstart hrun
    exact hok.exact
  · exact verdict_returned hcfg hfits (hzero ▸ hstart) hgoes hagree

end

/-- One worker writes a value and reads it back in the first iteration, and reads another value in the second
one. -/
def oneWorker : Config := ⟨1, fun _ => -1, fun _ => 1, fun _ => le_rfl⟩

def writeSixteen : Access := ⟨.writeAll, 16, 5, .four, by decide, by decide⟩

def readSixteen (val : Word) : Access := ⟨.read, 16, val, .four, by decide, by decide⟩

def readBack (_ : ℕ) : ℕ → List Access
  | 0 => [writeSixteen, readSixteen 5]
  | _ => [readSixteen 7]

def flushing : State where
  queues _ _ := .init
  procs _ := ⟨[], .idle, [], fun _ => 0, true, 0, 0⟩
  mode := .ok
  returned := []

theorem starts_flushing : Starts oneWorker (fun _ => 0) flushing where
  queues _ _ := ⟨(by decide : 0 < qSize), rfl, rfl, rfl, rfl, rfl⟩
  pending _ := rfl
  control _ := rfl
  words _ := rfl
  iter _ := rfl
  pos _ := rfl
  tryCommit := rfl
  commit := rfl
  mode := rfl
  returned := rfl

theorem oneWorker_ordered : oneWorker.Ordered := by
  refine ⟨fun w hw => ?_, fun f hf w hw => ?_⟩
  · change (-1 : ℤ) < w
    omega
  · change (f : ℤ) ≤ -1 ↔ 1 ≤ w
    have hw : w < 1 := hw
    omega

theorem length_iterWords {cfg : Config} {script : ℕ → ℕ → List Access} {f t i : ℕ} (ht : Hears cfg f t) :
    (iterWords cfg script f t i).length = 2 * (seen cfg script t f i).length + 2 := by
  rw [iterWords_eq ht, List.length_append, List.length_flatMap]
  simp [Access.words, Nat.mul_comm]

theorem fits_readBack : Fits oneWorker readBack := by
  intro f _ t ht i
  have hscript : (readBack f i).length ≤ 2 := by
    cases i <;> simp [readBack]
  have hseen : (seen oneWorker readBack t f i).length ≤ (readBack f i).length := List.length_filter_le _ _
  have hthreshold : 6 ≤ threshold := by decide
  rw [length_iterWords ht]
  omega

theorem readBack_agrees (j : ℕ) (hj : j ≤ 0) :
    AllAgree (committed oneWorker readBack (fun _ => 0) j) (iteration oneWorker readBack j) := by
  obtain rfl : j = 0 := by omega
  exact ⟨by decide, by decide, trivial⟩

theorem validation_exact_oneWorker :
    (∃ s, Run (Smtx.step oneWorker readBack) (fun _ _ => True) flushing s ∧ s.returned = [.ok] ∧
      AllAgree (fun _ => 0) (iteration oneWorker readBack 0) ∧
      (s.procs oneWorker.commitId).mem = committed oneWorker readBack (fun _ => 0) 1) ∧
    ∃ states n, states 0 = flushing ∧ GoesOn (Smtx.step oneWorker readBack) states ∧
      (states n).returned[0]? = some .ok := by
  have hreplay : (Run.replay (Smtx.step oneWorker readBack) (fun _ _ => True) flushing
      (List.replicate 13 0 ++ List.replicate 20 1 ++ List.replicate 18 2)).any (fun s =>
        decide (s.returned = [.ok] ∧ (s.procs oneWorker.commitId).control = .idle ∧
          (s.procs oneWorker.commitId).iter = 1)) = true := by decide +kernel
  obtain ⟨s, hrun, hs⟩ := Run.exists_of_any hreplay
  obtain ⟨hreturned, hidle, hiter⟩ := of_decide_eq_true hs
  obtain ⟨hexact, hverdict⟩ := @validation_exact oneWorker readBack (fun _ => 0) flushing starts_flushing
  obtain ⟨hmodes, hmem⟩ := hexact s hrun
  have hzero : s.returned[0]? = some .ok := by rw [hreturned]; rfl
  have hcommitted := (hmem hidle).2
  rw [hiter] at hcommitted
  refine ⟨⟨s, hrun, hreturned, (hmodes 0 .ok hzero).2.1 rfl, hcommitted⟩, ?_⟩
  obtain ⟨states, hstates, hgoes⟩ := GoesOn.exists_from (Smtx.step oneWorker readBack) flushing
  obtain ⟨n, hn⟩ := hverdict oneWorker_ordered fits_readBack states hstates hgoes 0 readBack_agrees
  exact ⟨states, n, hstates, hgoes, hn⟩

/-! ### An iteration that fills a queue -/

section

variable {cfg : Config} {script : ℕ → ℕ → List Access} {mem₀ : Heap} {s s' : State}
  {sent : ℕ → ℕ → List Word} {taken : ℕ → ℕ → ℕ} {f n p t : ℕ}

/-- Before the first verdict the commit process takes nothing from the workers. -/
theorem Going.took_commit (hok : ChannelOk cfg script mem₀ s sent taken) (h : Going cfg script s sent taken)
    (hnil : s.returned = []) (hf : f < cfg.workers) : took sent taken f cfg.commitId = [] := by
  have hiter : (s.procs cfg.tryCommitId).iter = 0 := by
    have hlength := hok.passed.2
    rw [hnil, List.length_nil] at hlength
    omega
  have htook : took sent taken cfg.tryCommitId cfg.commitId = [] := by
    obtain ⟨last, hlast, hstop⟩ := hok.tryCommitSends
    obtain rfl := hstop.resolve_right fun hs => not_stopped_of_going h hs.1
    rw [hiter] at hlast
    unfold took
    rw [(List.append_eq_nil_iff.1 hlast).1, List.take_nil]
  have hzero : ∀ source, Replay cfg script mem₀ cfg.commitId (fun f => took sent taken f cfg.commitId) 0
      source [] []
      (s.procs cfg.commitId).mem → source = 0 → took sent taken f cfg.commitId = [] := by
    rintro source hreplay rfl
    rcases Nat.eq_zero_or_pos f with rfl | hpos
    · exact hreplay.now hf
    · exact hreplay.after f hpos hf
  have hcommit := hok.commit
  have hrole := hok.role cfg.commitId
  have hreads := h.reads cfg.commitId commitId_lt
  unfold CommitOk at hcommit
  unfold ReadsAt at hreads
  dsimp only at hcommit hreads
  cases hcontrol : (s.procs cfg.commitId).control <;> rw [hcontrol] at hcommit hreads hrole
  case idle =>
    have hlength := congrArg List.length hcommit.1
    rw [htook, List.length_nil, List.length_replicate] at hlength
    have hk : (s.procs cfg.commitId).iter = 0 := by omega
    exact hzero 0 (hk ▸ hcommit.2) rfl
  case check =>
    have hlength := congrArg List.length hcommit.1
    rw [htook, List.length_nil, List.length_append, List.length_replicate] at hlength
    have hk : (s.procs cfg.commitId).iter = 0 := by omega
    exact hzero 0 (hk ▸ hcommit.2) rfl
  case running =>
    have hlt : cfg.commitId < cfg.workers := hrole
    unfold Config.commitId at hlt
    omega
  case ended => exact absurd rfl hrole
  case returning => exact hreads.elim
  case recovering => exact hreads.elim
  all_goals
    have hlength := congrArg List.length hcommit.1
    rw [htook, List.length_nil, List.length_replicate] at hlength
    omega

/-- When a worker has sent the end of iteration `n` to one process, it has sent all else of it to every
process. -/
theorem Going.stream_le_sent (hok : ChannelOk cfg script mem₀ s sent taken) (h : Going cfg script s sent taken)
    (hf : f < cfg.workers) {u : ℕ} (ht : Hears cfg f t) (hu : Hears cfg f u)
    (hsent : (stream cfg script f u (n + 1)).length ≤ (sent f u).length) :
    (stream cfg script f t (n + 1)).length ≤ (sent f t).length + 2 := by
  have hflight := h.flight f (by unfold Config.processes; omega)
  have hsends := fun t => congrArg List.length (hok.workers f hf t)
  have hend : ∀ {t}, Hears cfg f t → (endWords cfg f t).length = 2 := fun ht => by rw [endWords_eq ht]; rfl
  have htake : ∀ t, (((script f (s.procs f).iter).take (s.procs f).pos).flatMap (accessWords cfg f t)).length +
      (endWords cfg f t).length ≤ (iterWords cfg script f t (s.procs f).iter).length := by
    intro t
    rw [iterWords, List.length_append]
    exact Nat.add_le_add_right (List.Sublist.flatMap (List.take_sublist _ _) _).length_le _
  simp only [List.length_append] at hsends
  have hiter : n < (s.procs f).iter := by
    by_contra hle
    have hmono : (stream cfg script f u ((s.procs f).iter + 1)).length ≤
        (stream cfg script f u (n + 1)).length :=
      stream_length_mono (Nat.add_le_add_right (Nat.le_of_not_lt hle) 1)
    rw [stream_length_succ] at hmono
    have hword := htake u
    have hsum := hsends u
    rw [hend hu] at hword
    omega
  have hmono : (stream cfg script f t (n + 1)).length ≤ (stream cfg script f t (s.procs f).iter).length :=
    stream_length_mono hiter
  have hsum := hsends t
  by_cases hended : (s.procs f).control = .ended
  · have hout := (hflight.ended hended).2.2 t
    rw [hend ht] at hout
    omega
  · by_cases hrunning : (s.procs f).control = .running
    · have hout := hflight.running hrunning t
      omega
    · rw [hflight.others hrunning hended t, List.length_nil] at hsum
      omega

/-- When the first iteration has more words for the commit process than its queue holds, `ver_tryCommit` never
returns. -/
theorem never_returned (hcfg : cfg.Ordered) (hf : f < cfg.workers)
    (hfill : threshold + chunkSize + 2 < (iterWords cfg script f cfg.commitId 0).length) {s₀ : State}
    (hstart : Starts cfg mem₀ s₀)
    (hagree : ∀ j, AllAgree (committed cfg script mem₀ j) (iteration cfg script j))
    (hrun : Run (Smtx.step cfg script) (fun _ _ => True) s₀ s) : s.returned = [] := by
  have htc : Hears cfg f cfg.tryCommitId := replays_tryCommit.hears hf
  have hcommit : Hears cfg f cfg.commitId := replays_commit.hears hf
  have hkeeps : ∃ sent taken, ChannelOk cfg script mem₀ s sent taken ∧ Going cfg script s sent taken ∧
      s.returned = [] := by
    apply hrun.invariant fun s => ∃ sent taken, ChannelOk cfg script mem₀ s sent taken ∧
      Going cfg script s sent taken ∧ s.returned = []
    · exact ⟨_, _, channelOk_start hstart, going_start hstart, hstart.returned⟩
    rintro s p s' ⟨sent, taken, hok, hgoing, hnil⟩ - hstep
    obtain ⟨_, _, hnext⟩ := hok.step hstep
    have hlive := hnext.not_stopped le_rfl fun j _ => hagree j
    obtain ⟨hp, ⟨op, rest, q, more, ws, hpend, hexec, rfl⟩ | ⟨hpend, hgo⟩⟩ := step_cases hstep
    · obtain ⟨sent', taken', hok', hmoved⟩ := hok.queueStep hpend hexec
      exact ⟨sent', taken', hok', hgoing.queueStep hcfg hp (hok.takes p) hpend hexec hmoved, hnil⟩
    have hok' := hok.goOn hp hpend hgo
    obtain ⟨-, -, -, -, hgoing'⟩ := hgoing.goOn_live hcfg hok hp hpend hgo hlive
    refine ⟨sent, taken, hok', hgoing', ?_⟩
    -- A first verdict would mean that the worker has sent all of the iteration, of which nothing is taken.
    by_contra hne
    have hiter : 1 ≤ (s'.procs cfg.tryCommitId).iter := by
      have hpos := List.length_pos_of_ne_nil hne
      have hlength := hok'.passed.2.resolve_right fun hstop => hlive (by rw [hstop.2]; trivial)
      omega
    have hread := hgoing'.iter_le_took tryCommitId_lt (by rwa [Config.limit_of_replays replays_tryCommit])
    have hmono : (stream cfg script f cfg.tryCommitId 1).length ≤
        (stream cfg script f cfg.tryCommitId (s'.procs cfg.tryCommitId).iter).length := stream_length_mono hiter
    have htook : (took sent taken f cfg.tryCommitId).length ≤ (sent f cfg.tryCommitId).length :=
      List.length_take_le' _ _
    have hall := hgoing'.stream_le_sent hok' hf hcommit htc (hmono.trans (hread.trans htook))
    have hqueue := (hok.linked.holds f cfg.commitId).length_le
    have hzero := congrArg List.length (hgoing.took_commit hok hnil hf)
    unfold took at hzero
    rw [List.length_take, Nat.min_eq_left (hok.linked.holds f cfg.commitId).taken_le, List.length_nil] at hzero
    rw [stream_length_succ] at hall
    omega
  obtain ⟨_, _, -, -, hnil⟩ := hkeeps
  exact hnil

end

/-- One worker writes the same value again and again in the first iteration. -/
def flood (_ : ℕ) : ℕ → List Access
  | 0 => List.replicate (2 ^ 20) writeSixteen
  | _ => []

theorem allAgree_of_isWrite {l : List Access} (hl : ∀ a ∈ l, a.isWrite = true) (mem : Heap) :
    AllAgree mem l := by
  induction l generalizing mem with
  | nil => trivial
  | cons a l ih =>
    refine ⟨fun hread => ?_, ih (fun b hb => hl b (List.mem_cons_of_mem _ hb)) _⟩
    rw [hl a List.mem_cons_self] at hread
    cases hread

theorem flood_agrees (j : ℕ) : AllAgree (committed oneWorker flood (fun _ => 0) j)
    (iteration oneWorker flood j) := by
  refine allAgree_of_isWrite (fun a ha => ?_) _
  obtain ⟨w, -, ha⟩ := List.mem_flatMap.1 ha
  cases j with
  | zero =>
    rw [List.eq_of_mem_replicate ha]
    rfl
  | succ j => cases ha

/-- Every read agrees, and `ver_tryCommit` returns in no run. -/
theorem flood_never_returned :
    (∀ j, AllAgree (committed oneWorker flood (fun _ => 0) j) (iteration oneWorker flood j)) ∧
      ∀ s, Run (Smtx.step oneWorker flood) (fun _ _ => True) flushing s → s.returned = [] := by
  refine ⟨flood_agrees, fun s hrun => never_returned (f := 0) oneWorker_ordered Nat.one_pos ?_ starts_flushing
    flood_agrees hrun⟩
  have hseen : seen oneWorker flood oneWorker.commitId 0 0 = List.replicate (2 ^ 20) writeSixteen := by
    unfold seen
    exact List.filter_eq_self.2 fun a ha => by rw [List.eq_of_mem_replicate ha]; rfl
  rw [length_iterWords (replays_commit.hears Nat.one_pos), hseen, List.length_replicate]
  decide

end Cpf.Smtx
