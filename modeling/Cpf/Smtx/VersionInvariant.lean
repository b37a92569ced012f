import Cpf.Smtx.Replay

/-!
# The invariant of the channel

Every process is at a place of its own code and holds as many words as it has taken of the current message,
what the workers and the try-commit process have sent and will send are the iterations that they ended, and
the last two processes have replayed what they took.
-/

namespace Cpf.Smtx

/-- The process that sends the words which are taken at a place. -/
def Control.source (cfg : Config) : Control → Option ℕ
  | .apply _ source => some source
  | .check => some cfg.tryCommitId
  | _ => none

/-- The try-commit process has found misspeculation. -/
def Control.Stopped : Control → Prop
  | .returning _ => True
  | .recovering => True
  | _ => False

def RoleOk (cfg : Config) (p : ℕ) : Control → Prop
  | .idle => True
  | .enter call _ => call = .tryCommit ↔ p = cfg.tryCommitId
  | .shouldConsume call _ => call = .tryCommit ↔ p = cfg.tryCommitId
  | .spinConsume call _ => call = .tryCommit ↔ p = cfg.tryCommitId
  | .apply call _ => call = .tryCommit ↔ p = cfg.tryCommitId
  | .check => p = cfg.commitId
  | .running => p < cfg.workers
  | .ended => p ≠ cfg.commitId
  | .returning _ => p = cfg.tryCommitId
  | .recovering => True

structure TakesOk (cfg : Config) (process : Process) : Prop where
  words : ∀ f, process.control.source cfg = some f →
    process.words.length + incoming f process.pending = 2
  noWords : process.control.source cfg = none → process.words = []
  others : ∀ f, process.control.source cfg ≠ some f → incoming f process.pending = 0

section

variable (cfg : Config) (script : ℕ → ℕ → List Access) (mem₀ : Heap) (s : State)
  (sent : ℕ → ℕ → List Word)

def WorkerSends (f : ℕ) : Prop :=
  ∀ t, sent f t ++ outgoing t (s.procs f).pending = stream cfg script f t (s.procs f).iter ++
    ((script f (s.procs f).iter).take (s.procs f).pos).flatMap (accessWords cfg f t)

/-- The try-commit process sends the end of every iteration, and misspeculation last. -/
def TryCommitSends : Prop :=
  ∃ last, sent cfg.tryCommitId cfg.commitId ++ outgoing cfg.commitId (s.procs cfg.tryCommitId).pending =
      List.replicate (2 * (s.procs cfg.tryCommitId).iter) 0 ++ last ∧
    (last = [] ∨ (s.procs cfg.tryCommitId).control.Stopped ∧
      ∃ mode, (mode = .misspec ∨ mode = .term) ∧ last = [0, VerMode.box mode])

def TryCommitOk (tk : ℕ → List Word) : Prop :=
  let process := s.procs cfg.tryCommitId
  let k := s.returned.length
  match process.control with
  | .idle => process.iter = k ∧ Replay cfg script mem₀ cfg.tryCommitId tk k 0 [] [] process.mem
  | .ended => process.iter = k ∧ Replay cfg script mem₀ cfg.tryCommitId tk k 0 [] [] process.mem
  | .enter _ source => process.iter = k ∧
      Replay cfg script mem₀ cfg.tryCommitId tk k source [] [] process.mem
  | .shouldConsume _ source => process.iter = k ∧ source < cfg.workers ∧
      ∃ done, Replay cfg script mem₀ cfg.tryCommitId tk k source done [] process.mem
  | .spinConsume _ source => process.iter = k ∧ source < cfg.workers ∧
      ∃ done, Replay cfg script mem₀ cfg.tryCommitId tk k source done [] process.mem
  | .apply _ source => process.iter = k ∧ source < cfg.workers ∧
      ∃ done, Replay cfg script mem₀ cfg.tryCommitId tk k source done process.words process.mem
  | .returning mode => mode ≠ .ok ∧
      ¬ AllAgree (committed cfg script mem₀ k) (iteration cfg script k)
  | .recovering => ∃ mode ∈ s.returned, mode ≠ .ok
  | _ => True

def CommitOk (tk : ℕ → List Word) : Prop :=
  let process := s.procs cfg.commitId
  let k := process.iter
  match process.control with
  | .idle => tk cfg.tryCommitId = List.replicate (2 * k) 0 ∧
      Replay cfg script mem₀ cfg.commitId tk k 0 [] [] process.mem
  | .check => tk cfg.tryCommitId = List.replicate (2 * k) 0 ++ process.words ∧
      Replay cfg script mem₀ cfg.commitId tk k 0 [] [] process.mem
  | .enter _ source => tk cfg.tryCommitId = List.replicate (2 * (k + 1)) 0 ∧
      Replay cfg script mem₀ cfg.commitId tk k source [] [] process.mem
  | .shouldConsume _ source => tk cfg.tryCommitId = List.replicate (2 * (k + 1)) 0 ∧
      source < cfg.workers ∧
      ∃ done, Replay cfg script mem₀ cfg.commitId tk k source done [] process.mem
  | .spinConsume _ source => tk cfg.tryCommitId = List.replicate (2 * (k + 1)) 0 ∧
      source < cfg.workers ∧
      ∃ done, Replay cfg script mem₀ cfg.commitId tk k source done [] process.mem
  | .apply _ source => tk cfg.tryCommitId = List.replicate (2 * (k + 1)) 0 ∧
      source < cfg.workers ∧
      ∃ done, Replay cfg script mem₀ cfg.commitId tk k source done process.words process.mem
  | _ => True

def Passed : Prop :=
  (∀ i < (s.procs cfg.tryCommitId).iter, s.returned[i]? = some .ok) ∧
    (s.returned.length = (s.procs cfg.tryCommitId).iter ∨
      s.returned.length = (s.procs cfg.tryCommitId).iter + 1 ∧
        (s.procs cfg.tryCommitId).control = .recovering)

/-- The calls of `ver_tryCommit` returned what they had to. -/
def ReturnedOk : Prop :=
  ∀ i mode, s.returned[i]? = some mode →
    (mode = .ok ↔ AllAgree (committed cfg script mem₀ i) (iteration cfg script i))

end

structure ChannelOk (cfg : Config) (script : ℕ → ℕ → List Access) (mem₀ : Heap) (s : State)
    (sent : ℕ → ℕ → List Word) (taken : ℕ → ℕ → ℕ) : Prop where
  linked : Linked s sent taken
  role : ∀ p, RoleOk cfg p (s.procs p).control
  takes : ∀ p, TakesOk cfg (s.procs p)
  workers : ∀ f < cfg.workers, WorkerSends cfg script s sent f
  tryCommitSends : TryCommitSends cfg s sent
  mode : s.mode = .ok ∨
    (s.procs cfg.tryCommitId).control.Stopped ∧ (s.procs cfg.commitId).control = .recovering
  tryCommit : TryCommitOk cfg script mem₀ s fun f => took sent taken f cfg.tryCommitId
  commit : CommitOk cfg script mem₀ s fun f => took sent taken f cfg.commitId
  returned : ReturnedOk cfg script mem₀ s
  passed : Passed cfg s

variable {cfg : Config} {script : ℕ → ℕ → List Access} {mem₀ : Heap} {s s' : State}
  {sent sent' : ℕ → ℕ → List Word} {taken taken' : ℕ → ℕ → ℕ} {p : ℕ}

theorem commitId_ne : cfg.commitId ≠ cfg.tryCommitId := by
  unfold Config.commitId Config.tryCommitId
  omega

theorem channelOk_start {mem : Heap} (h : Starts cfg mem s) :
    ChannelOk cfg script mem s (fun _ _ => []) fun _ _ => 0 where
  linked := by
    constructor
    · intro f t
      rw [h.pending, h.pending]
      exact (holds_of_empty (h.queues f t) _).congr id (fun hf => by cases hf)
    · intro p
      rw [h.pending]
      exact ⟨(fun f hf => by cases hf), List.Pairwise.nil⟩
  role p := by
    rw [h.control]
    trivial
  takes p := by
    refine ⟨fun f hf => ?_, fun _ => h.words p, fun f _ => ?_⟩
    · rw [h.control] at hf
      cases hf
    · rw [h.pending]
      rfl
  workers f _ t := by
    rw [h.pending, h.iter, h.pos]
    rfl
  tryCommitSends := ⟨[], by rw [h.pending, h.iter]; rfl, .inl rfl⟩
  mode := .inl h.mode
  tryCommit := by
    unfold TryCommitOk
    dsimp only
    rw [h.control, h.returned, h.tryCommit]
    exact ⟨h.iter _, replay_start⟩
  commit := by
    unfold CommitOk
    dsimp only
    rw [h.control, h.iter, h.commit]
    exact ⟨rfl, replay_start⟩
  returned i mode hi := by
    rw [h.returned] at hi
    cases hi
  passed := by
    unfold Passed
    rw [h.iter, h.returned]
    exact ⟨fun i hi => absurd hi (Nat.not_lt_zero i), .inl rfl⟩

end Cpf.Smtx
