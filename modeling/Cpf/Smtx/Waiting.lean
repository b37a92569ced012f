import Cpf.Smtx.Validation

/-!
# Where processes wait

A process spins when it waits for room in a queue or for words, and publishes all its indices before. While no
misspeculation is found a process takes only a few kinds of steps, and at every place it has read the same
iterations of all processes before it.
-/

namespace Cpf.Smtx

/-! ### Operations that spin -/

namespace QueueOp

/-- The operation looks at an index again and again. -/
def spins : QueueOp → Bool
  | .spinConsumer _ => true
  | .spinAllocated _ => true
  | _ => false

/-- The process that an operation sends to, or waits for in order to send. -/
def target : QueueOp → Option ℕ
  | .produce2 dest _ _ => some dest
  | .waitConsumer dest => some dest
  | .spinConsumer dest => some dest
  | _ => none

/-- The index that is published by an operation of process `p` is up to date. -/
def Done (s : State) (p : ℕ) : QueueOp → Prop
  | .flush dest => (s.queues p dest).pGlbInx = (s.queues p dest).pInx
  | .reverseFlush source => (s.queues source p).cGlbInx = (s.queues source p).cInx
  | _ => True

/-- A bound on the steps of an operation, where `ver_flushAll` takes `n`. -/
def weight (n : ℕ) : QueueOp → ℕ
  | .produce2 .. => n + 3
  | .waitConsumer _ => n + 2
  | .spinConsumer _ => 1
  | .flush _ => 1
  | .reverseFlush _ => 1
  | .consume _ => n + 5
  | .waitAllocated _ => n + 4
  | .spinAllocated _ => 2
  | .refill _ => 1

end QueueOp

/-- What is left of an operation: nothing, one operation more, or everything is published and the process
spins. -/
inductive Leaves (flushAll : List QueueOp) (op : QueueOp) : List QueueOp → Prop
  | nothing : Leaves flushAll op []
  | one {x : QueueOp} (hspins : x.spins = false) (hproduce : x.isProduce = false)
      (htarget : x.target = op.target ∨ x.target = none)
      (hweight : x.weight flushAll.length < op.weight flushAll.length) : Leaves flushAll op [x]
  | spin {x : QueueOp} (hspins : x.spins = true) (hproduce : x.isProduce = false)
      (htarget : x.target = op.target ∨ x.target = none)
      (hweight : flushAll.length + x.weight flushAll.length < op.weight flushAll.length) :
      Leaves flushAll op (flushAll ++ [x])

section

variable {flushAll more : List QueueOp} {q q' : SwQueue} {op : QueueOp} {ws : List Word}

theorem exec_leaves (h : q.exec flushAll op = some (q', more, ws)) : Leaves flushAll op more := by
  cases op with
  | produce2 dest a b =>
      cases h
      split_ifs
      · exact .one rfl rfl (.inl rfl) (Nat.lt_succ_self _)
      · exact .nothing
  | waitConsumer dest =>
      simp only [SwQueue.exec] at h
      split_ifs at h <;> cases h
      · exact .spin rfl rfl (.inl rfl) (Nat.lt_succ_self _)
      · exact .nothing
  | spinConsumer dest =>
      simp only [SwQueue.exec] at h
      split_ifs at h
      cases h
      exact .nothing
  | flush dest =>
      cases h
      exact .nothing
  | reverseFlush source =>
      cases h
      exact .nothing
  | consume source =>
      simp only [SwQueue.exec] at h
      split_ifs at h <;> cases h
      · exact .one rfl rfl (.inr rfl) (Nat.lt_succ_self _)
      · exact .nothing
  | waitAllocated source =>
      simp only [SwQueue.exec] at h
      split_ifs at h <;> cases h
      · exact .spin rfl rfl (.inr rfl) (by simp only [QueueOp.weight]; omega)
      · exact .one rfl rfl (.inr rfl) (by simp only [QueueOp.weight]; omega)
  | spinAllocated source =>
      simp only [SwQueue.exec] at h
      split_ifs at h
      cases h
      exact .one rfl rfl (.inr rfl) (Nat.lt_succ_self _)
  | refill source =>
      cases h
      exact .nothing

/-- A producer leaves the indices of the consumer alone, and a consumer those of the producer. -/
theorem exec_frame (h : q.exec flushAll op = some (q', more, ws)) (p : ℕ) :
    (op.queue p).1 = p ∧ q'.cInx = q.cInx ∧ q'.cGlbInx = q.cGlbInx ∨
      (op.queue p).2 = p ∧ q'.pInx = q.pInx ∧ q'.pGlbInx = q.pGlbInx := by
  cases op <;> simp only [SwQueue.exec] at h
  case produce2 => cases h; exact .inl ⟨rfl, rfl, rfl⟩
  case waitConsumer => split_ifs at h <;> cases h <;> exact .inl ⟨rfl, rfl, rfl⟩
  case spinConsumer => split_ifs at h; cases h; exact .inl ⟨rfl, rfl, rfl⟩
  case flush => cases h; exact .inl ⟨rfl, rfl, rfl⟩
  case reverseFlush => cases h; exact .inr ⟨rfl, rfl, rfl⟩
  case consume => split_ifs at h <;> cases h <;> exact .inr ⟨rfl, rfl, rfl⟩
  case waitAllocated => split_ifs at h <;> cases h <;> exact .inr ⟨rfl, rfl, rfl⟩
  case spinAllocated => split_ifs at h; cases h; exact .inr ⟨rfl, rfl, rfl⟩
  case refill => cases h; exact .inr ⟨rfl, rfl, rfl⟩

/-- Only an operation that spins can be stuck. -/
theorem exec_eq_none (h : q.exec flushAll op = none) :
    (∃ dest, op = .spinConsumer dest ∧ q.crowded) ∨ ∃ source, op = .spinAllocated source ∧
    q.pGlbInx = q.cInx := by
  cases op <;> simp only [SwQueue.exec] at h <;> try cases h
  case waitConsumer => split_ifs at h
  case spinConsumer dest =>
    split_ifs at h with hcrowded
    exact .inl ⟨dest, rfl, hcrowded⟩
  case consume => split_ifs at h
  case waitAllocated => split_ifs at h
  case spinAllocated source =>
    split_ifs at h with hseen
    exact .inr ⟨source, rfl, hseen⟩

namespace Leaves

theorem outgoing_eq (h : Leaves flushAll op more) (hflush : OnlyFlushes flushAll) (t : ℕ) :
    outgoing t more = [] := by
  have hone : ∀ x : QueueOp, x.isProduce = false → outgoing t [x] = [] := by
    intro x hx
    cases x <;> first | rfl | cases hx
  cases h with
  | nothing => rfl
  | one _ hproduce _ _ => exact hone _ hproduce
  | spin _ hproduce _ _ => rw [outgoing_append, hflush.outgoing_eq, hone _ hproduce, List.nil_append]

/-- What is left sends to the same process. -/
theorem target_eq (h : Leaves flushAll op more) (hflush : OnlyFlushes flushAll) {x : QueueOp} (hx : x ∈ more) :
    x.target = op.target ∨ x.target = none := by
  cases h with
  | nothing => cases hx
  | one _ _ htarget _ => exact List.mem_singleton.1 hx ▸ htarget
  | spin _ _ htarget _ =>
    rcases List.mem_append.1 hx with hx | hx
    · rcases hflush x hx with ⟨_, rfl⟩ | ⟨_, rfl⟩ <;> exact .inr rfl
    · exact List.mem_singleton.1 hx ▸ htarget

end Leaves

theorem OnlyFlushes.not_spins {ops : List QueueOp} (h : OnlyFlushes ops) {op : QueueOp} (hop : op ∈ ops) :
    op.spins = false := by
  rcases h op hop with ⟨_, rfl⟩ | ⟨_, rfl⟩ <;> rfl

theorem OnlyFlushes.weight_eq {ops : List QueueOp} (h : OnlyFlushes ops) (n : ℕ) :
    (ops.map (QueueOp.weight n)).sum = ops.length := by
  induction ops with
  | nil => rfl
  | cons op ops ih =>
      have hone : op.weight n = 1 := by rcases h op List.mem_cons_self with ⟨_, rfl⟩ | ⟨_, rfl⟩ <;> rfl
      rw [List.map_cons, List.sum_cons, hone, ih fun x hx => h x (List.mem_cons_of_mem _ hx), List.length_cons,
        Nat.add_comm]

/-- The work on queues gets less with every step. -/
theorem Leaves.weight_lt (h : Leaves flushAll op more) (hflush : OnlyFlushes flushAll) :
    (more.map (QueueOp.weight flushAll.length)).sum < op.weight flushAll.length := by
  cases h with
  | nothing =>
    change 0 < _
    cases op <;> simp [QueueOp.weight]
  | one _ _ _ hweight => simpa using hweight
  | spin _ _ _ hweight =>
    rw [List.map_append, List.sum_append, hflush.weight_eq]
    simpa using hweight

end

/-! ### All indices are published -/

/-- All indices of process `p` are published but those that the operations `ops` will publish. -/
def Published (cfg : Config) (s : State) (p : ℕ) (ops : List QueueOp) : Prop :=
  ∀ op ∈ flushAllOps cfg p, op ∈ ops ∨ op.Done s p

/-- A process publishes all its indices before it spins. -/
structure Settled (cfg : Config) (s : State) (p : ℕ) : Prop where
  spins : ∀ front op rest, (s.procs p).pending = front ++ op :: rest → op.spins = true →
    OnlyFlushes front ∧ Published cfg s p front
  spinConsume : ∀ call source, (s.procs p).control = .spinConsume call source →
    OnlyFlushes (s.procs p).pending ∧ Published cfg s p (s.procs p).pending

section

variable {cfg : Config} {script : ℕ → ℕ → List Access} {s s' : State} {p : ℕ} {process : Process}

theorem Published.congr {ops : List QueueOp} (h : Published cfg s p ops)
    (hdone : ∀ op : QueueOp, op.Done s p → op.Done s' p) : Published cfg s' p ops :=
  fun op hop => (h op hop).imp_right (hdone op)

/-- The indices of another process stay published. -/
theorem QueueOp.Done.of_ne {op x : QueueOp} {more : List QueueOp} {ws : List Word} {q : SwQueue} {i : ℕ}
    (h : x.Done s i)
    (hexec : (s.queues (op.queue p).1 (op.queue p).2).exec (flushAllOps cfg p) op = some (q, more, ws))
    (hi : i ≠ p) : x.Done ((s.setQueue (op.queue p) q).setProc p process) i := by
  have hframe := exec_frame hexec p
  cases x with
  | flush dest =>
    simp only [QueueOp.Done, set_queues] at h ⊢
    split_ifs with hk
    · rw [← hk] at hframe
      rcases hframe with ⟨hf, -⟩ | ⟨-, hp, hglb⟩
      · exact absurd hf hi
      · rw [hp, hglb]
        exact h
    · exact h
  | reverseFlush source =>
    simp only [QueueOp.Done, set_queues] at h ⊢
    split_ifs with hk
    · rw [← hk] at hframe
      rcases hframe with ⟨-, hc, hglb⟩ | ⟨hf, -⟩
      · rw [hc, hglb]
        exact h
      · exact absurd hf hi
    · exact h
  | _ => trivial

/-- An operation that publishes an index keeps all others published. -/
theorem exec_flush (process : Process) {op : QueueOp} {more : List QueueOp} {ws : List Word} {q : SwQueue}
    (hflush : (∃ dest, op = .flush dest) ∨ ∃ source, op = .reverseFlush source)
    (hexec : (s.queues (op.queue p).1 (op.queue p).2).exec (flushAllOps cfg p) op = some (q, more, ws)) :
    more = [] ∧ op.Done ((s.setQueue (op.queue p) q).setProc p process) p ∧
      ∀ x : QueueOp, x.Done s p → x.Done ((s.setQueue (op.queue p) q).setProc p process) p := by
  rcases hflush with ⟨dest, rfl⟩ | ⟨source, rfl⟩ <;> cases hexec <;> refine ⟨rfl, ?_, fun x hx => ?_⟩
  · simp only [QueueOp.Done, set_queues, QueueOp.queue, if_true]
    rfl
  · cases x <;> simp only [QueueOp.Done, set_queues, QueueOp.queue] at hx ⊢ <;> split_ifs with hk
    · rfl
    · exact hx
    · cases hk
      exact hx
    · exact hx
  · simp only [QueueOp.Done, set_queues, QueueOp.queue, if_true]
    rfl
  · cases x <;> simp only [QueueOp.Done, set_queues, QueueOp.queue] at hx ⊢ <;> split_ifs with hk
    · cases hk
      exact hx
    · exact hx
    · rfl
    · exact hx

/-- Where a process spins in front of operations that do not, everything was published. -/
theorem Leaves.front_eq {flushAll more rest front back : List QueueOp} {op x : QueueOp}
    (h : Leaves flushAll op more)
    (hflush : OnlyFlushes flushAll) (hrest : ∀ y ∈ rest, y.spins = false)
    (hsplit : more ++ rest = front ++ x :: back) (hx : x.spins = true) : front = flushAll := by
  have hno : x ∉ rest := fun hmem => by
    rw [hrest x hmem] at hx
    cases hx
  have hmem : x ∈ more ++ rest := by
    rw [hsplit]
    exact List.mem_append_right _ List.mem_cons_self
  cases h with
  | nothing => exact absurd hmem hno
  | one hspins _ _ _ =>
    rcases List.mem_cons.1 hmem with rfl | hmem
    · rw [hspins] at hx
      cases hx
    · exact absurd hmem hno
  | spin _ _ _ _ =>
    rw [List.append_assoc] at hsplit
    rcases List.append_eq_append_iff.1 hsplit with ⟨l, hfront, hl⟩ | ⟨l, hfront, hl⟩
    · cases l with
      | nil => rw [hfront, List.append_nil]
      | cons y l =>
        have hback : rest = l ++ x :: back := (List.cons.inj hl).2
        exact absurd (hback ▸ List.mem_append_right _ List.mem_cons_self) hno
    · cases l with
      | nil => rw [hfront, List.append_nil]
      | cons y l =>
        have hxy := (List.cons.inj hl).1
        rw [hflush.not_spins (hfront ▸ List.mem_append_right _ (hxy ▸ List.mem_cons_self))] at hx
        cases hx

namespace Settled

theorem of_ne {op : QueueOp} {more : List QueueOp} {ws : List Word} {q : SwQueue} {i : ℕ} (h : Settled cfg s i)
    (hexec : (s.queues (op.queue p).1 (op.queue p).2).exec (flushAllOps cfg p) op = some (q, more, ws))
    (hi : i ≠ p) : Settled cfg ((s.setQueue (op.queue p) q).setProc p process) i := by
  have hproc : ((s.setQueue (op.queue p) q).setProc p process).procs i = s.procs i := by
    rw [set_procs, if_neg hi]
  constructor
  · intro front x rest hpend hx
    rw [hproc] at hpend
    obtain ⟨hfront, hpublished⟩ := h.spins front x rest hpend hx
    exact ⟨hfront, hpublished.congr fun x hx => hx.of_ne hexec hi⟩
  · intro call source hcontrol
    rw [hproc] at hcontrol ⊢
    obtain ⟨hfront, hpublished⟩ := h.spinConsume call source hcontrol
    exact ⟨hfront, hpublished.congr fun x hx => hx.of_ne hexec hi⟩

/-- Behind an operation that publishes nothing the process does not spin. -/
theorem not_spins {op x : QueueOp} {rest : List QueueOp} (h : Settled cfg s p)
    (hpend : (s.procs p).pending = op :: rest) (hop : ¬ OnlyFlushes [op]) (hx : x ∈ rest) :
    x.spins = false := by
  by_contra hspins
  obtain ⟨front, back, rfl⟩ := List.append_of_mem hx
  have hfront := (h.spins (op :: front) x back hpend (Bool.eq_true_of_not_eq_false hspins)).1
  exact hop fun y hy => hfront y (by rw [List.mem_singleton.1 hy]; exact List.mem_cons_self)

theorem self {op : QueueOp} {rest more : List QueueOp} {ws words : List Word} {q : SwQueue}
    (h : Settled cfg s p)
    (hpend : (s.procs p).pending = op :: rest)
    (hexec : (s.queues (op.queue p).1 (op.queue p).2).exec (flushAllOps cfg p) op = some (q, more, ws)) :
    Settled cfg ((s.setQueue (op.queue p) q).setProc p
      { s.procs p with pending := more ++ rest, words := words }) p := by
  set process : Process := { s.procs p with pending := more ++ rest, words := words } with hprocess
  have hproc : ((s.setQueue (op.queue p) q).setProc p process).procs p = process := by
    rw [set_procs, if_pos rfl]
  by_cases hflush : OnlyFlushes [op]
  · obtain ⟨rfl, hdone, hkeep⟩ := exec_flush process (hflush op (List.mem_singleton.2 rfl)) hexec
    have hnext : ∀ front, OnlyFlushes (op :: front) ∧ Published cfg s p (op :: front) → OnlyFlushes front ∧
        Published cfg ((s.setQueue (op.queue p) q).setProc p process) p front := by
      rintro front ⟨hfront, hpublished⟩
      refine ⟨fun x hx => hfront x (List.mem_cons_of_mem _ hx), fun x hx => ?_⟩
      rcases hpublished x hx with hmem | hx
      · rcases List.mem_cons.1 hmem with rfl | hmem
        · exact .inr hdone
        · exact .inl hmem
      · exact .inr (hkeep x hx)
    constructor
    · intro front x back hsplit hx
      rw [hproc] at hsplit
      have hrest : rest = front ++ x :: back := hsplit
      exact hnext front (h.spins (op :: front) x back (by rw [hpend, hrest]; rfl) hx)
    · intro call source hcontrol
      rw [hproc] at hcontrol ⊢
      exact hnext rest (by rw [← hpend]; exact h.spinConsume call source hcontrol)
  · have hrest : ∀ x ∈ rest, x.spins = false := fun x hx => h.not_spins hpend hflush hx
    constructor
    · intro front x back hsplit hx
      rw [hproc] at hsplit
      obtain rfl := (exec_leaves hexec).front_eq (onlyFlushes_flushAllOps cfg p) hrest hsplit hx
      exact ⟨onlyFlushes_flushAllOps cfg p, fun y hy => .inl hy⟩
    · intro call source hcontrol
      rw [hproc] at hcontrol
      have honly := (h.spinConsume call source hcontrol).1
      rw [hpend] at honly
      exact absurd (fun y hy => honly y (by rw [List.mem_singleton.1 hy]; exact List.mem_cons_self)) hflush

end Settled
end

/-! ### Which processes read from which -/

namespace Config

/-- In front of an iteration process `p` reads the workers below this number. -/
def limit (cfg : Config) (p : ℕ) : ℕ := (cfg.prev p + 1).toNat

/-- Each worker reads, in front of an iteration, exactly those workers that announce their writes to it, and
they come before it. -/
structure Ordered (cfg : Config) : Prop where
  earlier : ∀ w < cfg.workers, cfg.workerPrev w < w
  hears : ∀ f < cfg.workers, ∀ w < cfg.workers, (f : ℤ) ≤ cfg.workerPrev w ↔ cfg.workerNext f ≤ w

variable {cfg : Config} {f p : ℕ}

theorem limit_of_replays (hp : Replays cfg p) : cfg.limit p = cfg.workers := by
  have hge : ¬ p < cfg.workers := by
    unfold Replays tryCommitId commitId at hp
    omega
  unfold limit prev
  rw [if_neg hge]
  omega

theorem worker_or_replays (hp : p < cfg.processes) : p < cfg.workers ∨ Replays cfg p := by
  unfold processes at hp
  unfold Replays tryCommitId commitId
  omega

namespace Ordered

/-- A process reads from those that it hears. -/
theorem lt_limit_iff (h : cfg.Ordered) (hf : f < cfg.workers) (hp : p < cfg.processes) :
    f < cfg.limit p ↔ Hears cfg f p := by
  rcases worker_or_replays hp with hworker | hreplays
  · have hiff := h.hears f hf p hworker
    unfold Hears limit prev next
    rw [if_pos hworker, if_pos hf]
    omega
  · rw [limit_of_replays hreplays]
    exact ⟨fun _ => hreplays.hears hf, fun _ => hf⟩

theorem limit_le (h : cfg.Ordered) (hp : p < cfg.processes) : cfg.limit p ≤ p ∧ cfg.limit p ≤ cfg.workers := by
  rcases worker_or_replays hp with hworker | hreplays
  · have hlt := h.earlier p hworker
    unfold limit prev
    rw [if_pos hworker]
    omega
  · rw [limit_of_replays hreplays]
    unfold Replays tryCommitId commitId at hreplays
    omega

theorem hears_of_lt_limit (h : cfg.Ordered) (hp : p < cfg.processes) (hf : f < cfg.limit p) : Hears cfg f p :=
  (h.lt_limit_iff (hf.trans_le (h.limit_le hp).2) hp).1 hf

end Ordered
end Config

/-! ### Steps while no misspeculation is found -/

/-- How far a process has read the iterations of the workers, at every place before misspeculation is found. -/
def ReadsAt (cfg : Config) (script : ℕ → ℕ → List Access) (p : ℕ) (process : Process)
    (tk : ℕ → List Word) : Prop :=
  match process.control with
  | .idle => Reads cfg script p (cfg.limit p) tk process.iter 0 [] []
  | .check => Reads cfg script p (cfg.limit p) tk process.iter 0 [] []
  | .ended => Reads cfg script p (cfg.limit p) tk process.iter 0 [] []
  | .running => Reads cfg script p (cfg.limit p) tk (process.iter + 1) 0 [] []
  | .enter _ source => Reads cfg script p (cfg.limit p) tk process.iter source [] []
  | .shouldConsume _ source => source < cfg.limit p ∧
      ∃ done, Reads cfg script p (cfg.limit p) tk process.iter source done []
  | .spinConsume _ source => source < cfg.limit p ∧
      ∃ done, Reads cfg script p (cfg.limit p) tk process.iter source done []
  | .apply _ source => source < cfg.limit p ∧
      ∃ done, Reads cfg script p (cfg.limit p) tk process.iter source done process.words
  | .returning _ => False
  | .recovering => False

/-- How a process goes on before misspeculation is found. -/
inductive Turn (cfg : Config) (script : ℕ → ℕ → List Access) (p : ℕ) (process : Process) : Process → Prop
  | enters (call : Call) (hcontrol : process.control = .idle) :
      Turn cfg script p process { process with control := .enter call 0 }
  | asks (hcontrol : process.control = .idle) (hp : p = cfg.commitId) :
      Turn cfg script p process { process with
        pending := [.consume cfg.tryCommitId, .consume cfg.tryCommitId]
        control := .check }
  | looks {call : Call} {source : ℕ} (hcontrol : process.control = .enter call source)
      (hsource : source < cfg.limit p) :
      Turn cfg script p process { process with control := .shouldConsume call source }
  | runs {call : Call} {source : ℕ} (hcontrol : process.control = .enter call source) :
      Turn cfg script p process { process with control := .running }
  | commits {call : Call} {source : ℕ} (hcontrol : process.control = .enter call source) :
      Turn cfg script p process { process with control := .idle, iter := process.iter + 1 }
  | validates {call : Call} {source : ℕ} (hcontrol : process.control = .enter call source) :
      Turn cfg script p process (verEnd cfg p process)
  | takes {call : Call} {source : ℕ}
      (hcontrol : process.control = .shouldConsume call source ∨ process.control = .spinConsume call source) :
      Turn cfg script p process (consumeMessage call source process)
  | spins {call : Call} {source : ℕ} (hcontrol : process.control = .shouldConsume call source) :
      Turn cfg script p process { process with
        pending := flushAllOps cfg p, control := .spinConsume call source }
  | applies {call : Call} {source : ℕ} (mem : Heap) (hcontrol : process.control = .apply call source)
      (hwords : process.words.length = 2) :
      Turn cfg script p process { process with mem := mem, words := [], control := .shouldConsume call source }
  | passes {call : Call} {source : ℕ} (mem : Heap) (hcontrol : process.control = .apply call source)
      (hwords : process.words.length = 2) (hsource : source < cfg.limit p) :
      Turn cfg script p process { process with mem := mem, words := [], control := .enter call (source + 1) }
  | checks (hcontrol : process.control = .check) (hwords : process.words.length = 2) :
      Turn cfg script p process { process with control := .enter .begin 0, words := [] }
  | accesses {a : Access} (hcontrol : process.control = .running)
      (ha : (script p process.iter)[process.pos]? = some a) :
      Turn cfg script p process { process with
        pending := accessOps cfg p a, control := .running, pos := process.pos + 1 }
  | ends (hcontrol : process.control = .running) (ha : (script p process.iter)[process.pos]? = none) :
      Turn cfg script p process (verEnd cfg p process)
  | resumes (hcontrol : process.control = .ended) :
      Turn cfg script p process { process with
        pending := if process.forceFlush then flushOps cfg p else [], forceFlush := false, control := .idle }

section

variable {cfg : Config} {script : ℕ → ℕ → List Access} {s s' : State} {p : ℕ} {process : Process}
  {tk : ℕ → List Word}

/-- A message that was taken in full is applied, or misspeculation is found. -/
theorem applyMessage_turn {call : Call} {source n : ℕ} {done : List Access} {token value : Word}
    (hcfg : cfg.Ordered) (hp : p < cfg.processes) (hcall : call = .tryCommit ↔ p = cfg.tryCommitId)
    (hcontrol : (s.procs p).control = .apply call source) (hwords : (s.procs p).words = [token, value])
    (hsource : source < cfg.limit p)
    (hreads : Reads cfg script p (cfg.limit p) tk (s.procs p).iter source done [token, value])
    (hsent : tk source <+: stream cfg script source p n) :
    ∃ s', applyMessage cfg s p call source token value = some s' ∧
    ((s'.procs p).control.Stopped ∧ p = cfg.tryCommitId ∨
      ∃ process, s' = s.setProc p process ∧ Turn cfg script p (s.procs p) process ∧
        ReadsAt cfg script p process tk) := by
  have hhears := hcfg.hears_of_lt_limit hp hsource
  have hlength : (s.procs p).words.length = 2 := by rw [hwords]; rfl
  rcases hreads.next hsource hhears hsent with ⟨a, rest, hseen, rfl, rfl⟩ | ⟨hseen, rfl, rfl⟩
  · have hcont : ∀ mem, ReadsAt cfg script p { s.procs p with
        mem := mem, words := [], control := .shouldConsume call source } tk := fun mem =>
      ⟨hsource, _, hreads.access hsource hseen⟩
    by_cases htc : p = cfg.tryCommitId
    · obtain rfl := hcall.2 htc
      unfold applyMessage
      dsimp only
      rw [decide_eq_true rfl, applyUpdates_check]
      by_cases hagrees : a.Agrees (s.procs p).mem
      · rw [if_pos hagrees]
        exact ⟨_, rfl, .inr ⟨_, rfl, .applies _ hcontrol hlength, hcont _⟩⟩
      · rw [if_neg hagrees]
        refine ⟨_, rfl, .inl ⟨?_, htc⟩⟩
        unfold State.setProc
        dsimp only
        rw [Function.update_self]
        trivial
    · have hmem : a ∈ seen cfg script p source (s.procs p).iter := by
        rw [hseen]
        exact List.mem_append_right _ List.mem_cons_self
      unfold applyMessage
      dsimp only
      rw [applyUpdates_write _ _ (isWrite_of_sees htc (List.mem_filter.1 hmem).2)]
      exact ⟨_, rfl, .inr ⟨_, rfl, .applies _ hcontrol hlength, hcont _⟩⟩
  · unfold applyMessage
    dsimp only
    rw [applyUpdates_end]
    exact ⟨_, rfl, .inr ⟨_, rfl, .passes _ hcontrol hlength hsource, hreads.endSource hhears hsource hseen⟩⟩

/-- Before misspeculation is found a process goes on in one of these ways. -/
theorem goOn_turn (hcfg : cfg.Ordered) (hp : p < cfg.processes) (hrole : RoleOk cfg p (s.procs p).control)
    (htakes : TakesOk cfg (s.procs p)) (hreads : ReadsAt cfg script p (s.procs p) tk)
    (hsent : ∀ f < cfg.workers, ∃ n, tk f <+: stream cfg script f p n) (hmode : s.mode = .ok)
    (hstep : goOn cfg script s p = some s') (hmode' : s'.mode = .ok)
    (hlive : p = cfg.tryCommitId → ¬ (s'.procs p).control.Stopped) :
    ∃ process, Goes s s' p process ∧ Turn cfg script p (s.procs p) process ∧
    ReadsAt cfg script p process tk := by
  have hle := hcfg.limit_le hp
  have hprev : ∀ source : ℕ, (source : ℤ) ≤ cfg.prev p ↔ source < cfg.limit p := by
    intro source
    unfold Config.limit
    omega
  have hwords := htakes.noWords
  unfold goOn at hstep
  unfold ReadsAt at hreads
  dsimp only at hstep hreads
  cases hcontrol : (s.procs p).control with
  | idle =>
      rw [hcontrol] at hstep hreads
      cases hstep
      unfold nextCall
      split_ifs with htc hcommit
      · exact ⟨_, goes_setProc _ _ _, .enters .tryCommit hcontrol, hreads⟩
      · exact ⟨_, goes_setProc _ _ _, .asks hcontrol hcommit, hreads⟩
      · exact ⟨_, goes_setProc _ _ _, .enters .begin hcontrol, hreads⟩
  | enter call source =>
      rw [hcontrol] at hstep hreads hrole
      dsimp only at hstep hreads
      simp only [hprev] at hstep
      split_ifs at hstep with hsource
      · cases hstep
        exact ⟨_, goes_setProc _ _ _, .looks hcontrol hsource, hsource, [], hreads⟩
      · cases hstep
        have hfinish := hreads.finish (Nat.le_of_not_lt hsource)
        rw [hmode]
        unfold returnFrom
        cases call with
        | begin =>
            dsimp only
            rw [if_pos rfl]
            split_ifs with hcommit
            · exact ⟨_, goes_setProc _ _ _, .commits hcontrol, hfinish⟩
            · exact ⟨_, goes_setProc _ _ _, .runs hcontrol, hfinish⟩
        | tryCommit => exact ⟨_, ⟨rfl, rfl⟩, .validates hcontrol, hfinish⟩
  | shouldConsume call source =>
      rw [hcontrol] at hstep hreads hwords
      dsimp only at hstep hreads
      obtain ⟨hsource, done, hdone⟩ := hreads
      split_ifs at hstep <;> cases hstep
      · refine ⟨_, goes_setProc _ _ _, .takes (.inl hcontrol), hsource, done, ?_⟩
        rw [consumeMessage, hwords rfl]
        exact hdone
      · exact ⟨_, goes_setProc _ _ _, .spins hcontrol, hsource, done, hdone⟩
  | spinConsume call source =>
      rw [hcontrol] at hstep hreads hwords
      dsimp only at hstep hreads
      obtain ⟨hsource, done, hdone⟩ := hreads
      split_ifs at hstep with hconsume hbad
      · cases hstep
        refine ⟨_, goes_setProc _ _ _, .takes (.inr hcontrol), hsource, done, ?_⟩
        rw [consumeMessage, hwords rfl]
        exact hdone
      · exact absurd hmode hbad
  | apply call source =>
      rw [hcontrol] at hstep hreads hrole
      dsimp only at hstep hreads
      obtain ⟨hsource, done, hdone⟩ := hreads
      split at hstep
      · next token value hpair =>
        rw [hpair] at hdone
        obtain ⟨n, hprefix⟩ := hsent source (hsource.trans_le hle.2)
        obtain ⟨t, ht, hstop | ⟨process, rfl, hturn, hat⟩⟩ :=
          applyMessage_turn (s := s) hcfg hp hrole hcontrol hpair hsource hdone hprefix
        · rw [ht] at hstep
          cases hstep
          exact absurd hstop.1 (hlive hstop.2)
        · rw [ht] at hstep
          cases hstep
          exact ⟨process, goes_setProc _ _ _, hturn, hat⟩
      · cases hstep
  | check =>
      rw [hcontrol] at hstep hreads
      dsimp only at hstep hreads
      split at hstep
      · next token value hpair =>
        split_ifs at hstep
        · cases hstep
          exact ⟨_, goes_setProc _ _ _, .checks hcontrol (by rw [hpair]; rfl), hreads⟩
        · cases hstep
          cases hmode'
      · cases hstep
  | running =>
      rw [hcontrol] at hstep hreads
      dsimp only at hstep hreads
      split at hstep
      · next a ha =>
        cases hstep
        exact ⟨_, goes_setProc _ _ _, .accesses hcontrol ha, hreads⟩
      · next ha =>
        cases hstep
        exact ⟨_, goes_setProc _ _ _, .ends hcontrol ha, hreads⟩
  | ended =>
      rw [hcontrol] at hstep hreads
      dsimp only at hreads
      cases hstep
      rw [if_pos hmode]
      exact ⟨_, goes_setProc _ _ _, .resumes hcontrol, hreads⟩
  | returning mode =>
      rw [hcontrol] at hreads
      exact hreads.elim
  | recovering =>
      rw [hcontrol] at hreads
      exact hreads.elim

end

/-! ### The channel before misspeculation is found -/

/-- What a process still has to send belongs to its current iteration, or is the end of the one that it has
ended. -/
structure FlightOk (cfg : Config) (script : ℕ → ℕ → List Access) (f : ℕ) (process : Process) : Prop where
  running : process.control = .running → ∀ t, (outgoing t process.pending).length ≤
    (((script f process.iter).take process.pos).flatMap (accessWords cfg f t)).length
  ended : process.control = .ended → process.pos = 0 ∧ 0 < process.iter ∧
    ∀ t, (outgoing t process.pending).length ≤ (endWords cfg f t).length
  others : process.control ≠ .running → process.control ≠ .ended → ∀ t, outgoing t process.pending = []

/-- A process sends only to those that hear it. -/
def TargetsOk (cfg : Config) (p : ℕ) (ops : List QueueOp) : Prop :=
  ∀ op ∈ ops, ∀ dest, op.target = some dest → Hears cfg p dest

structure Going (cfg : Config) (script : ℕ → ℕ → List Access) (s : State) (sent : ℕ → ℕ → List Word)
    (taken : ℕ → ℕ → ℕ) : Prop where
  reads : ∀ p < cfg.processes, ReadsAt cfg script p (s.procs p) fun f => took sent taken f p
  flight : ∀ p < cfg.processes, FlightOk cfg script p (s.procs p)
  targets : ∀ p < cfg.processes, TargetsOk cfg p (s.procs p).pending
  settled : ∀ p < cfg.processes, Settled cfg s p

section

variable {cfg : Config} {script : ℕ → ℕ → List Access} {mem₀ : Heap} {s s' : State}
  {sent sent' : ℕ → ℕ → List Word} {taken taken' : ℕ → ℕ → ℕ} {p : ℕ} {process process' : Process}
  {tk tk' : ℕ → List Word}

theorem going_start {mem : Heap} (h : Starts cfg mem s) :
    Going cfg script s (fun _ _ => []) fun _ _ => 0 where
  reads p _ := by
    unfold ReadsAt
    rw [h.control, h.iter]
    exact .start
  flight p _ := by
    refine ⟨fun hc => ?_, fun hc => ?_, fun _ _ t => ?_⟩
    · rw [h.control] at hc
      cases hc
    · rw [h.control] at hc
      cases hc
    · rw [h.pending]
      rfl
  targets p _ op hop := by
    rw [h.pending] at hop
    cases hop
  settled p _ := by
    refine ⟨fun front op rest hpend => ?_, fun call source hc => ?_⟩
    · rw [h.pending] at hpend
      cases front <;> cases hpend
    · rw [h.control] at hc
      cases hc

/-! What a step on a queue keeps. -/

/-- Words are taken only where a message is being read. -/
theorem ReadsAt.take {ops' : List QueueOp} {ws : List Word} {source : ℕ} (hcfg : cfg.Ordered)
    (hp : p < cfg.processes) (h : ReadsAt cfg script p process tk)
    (hsource : ws ≠ [] → process.control.source cfg = some source)
    (htk : ∀ f, tk' f = tk f ++ if f = source then ws else []) :
    ReadsAt cfg script p { process with pending := ops', words := process.words ++ ws } tk' := by
  have hsame : ws = [] → ∀ f < cfg.limit p, tk' f = tk f := by
    intro hws f _
    rw [htk, hws, ite_self, List.append_nil]
  unfold ReadsAt at *
  dsimp only at *
  generalize process.control = control at *
  have hnone : control.source cfg = none → ws = [] := by
    intro hc
    by_contra hws
    rw [hsource hws] at hc
    cases hc
  cases control with
  | idle => exact h.congr (hsame (hnone rfl))
  | ended => exact h.congr (hsame (hnone rfl))
  | running => exact h.congr (hsame (hnone rfl))
  | enter call f => exact h.congr (hsame (hnone rfl))
  | shouldConsume call f =>
      obtain ⟨hf, done, hdone⟩ := h
      exact ⟨hf, done, hdone.congr (hsame (hnone rfl))⟩
  | spinConsume call f =>
      obtain ⟨hf, done, hdone⟩ := h
      exact ⟨hf, done, hdone.congr (hsame (hnone rfl))⟩
  | apply call f =>
      obtain ⟨hf, done, hdone⟩ := h
      refine ⟨hf, done, hdone.take fun i _ => ?_⟩
      rw [htk]
      by_cases hws : ws = []
      · rw [hws, ite_self, ite_self]
      · cases hsource hws
        rfl
  | check =>
      refine h.congr fun f hf => ?_
      by_cases hws : ws = []
      · exact hsame hws f hf
      · cases hsource hws
        have hlt : f < cfg.workers := hf.trans_le (hcfg.limit_le hp).2
        rw [htk, if_neg (show f ≠ cfg.tryCommitId from hlt.ne), List.append_nil]
  | returning mode => exact h.elim
  | recovering => exact h.elim

theorem FlightOk.queueStep {op : QueueOp} {rest more : List QueueOp} {words : List Word}
    (h : FlightOk cfg script p process) (hpend : process.pending = op :: rest)
    (hleaves : Leaves (flushAllOps cfg p) op more) :
    FlightOk cfg script p { process with pending := more ++ rest, words := words } := by
  have hout : ∀ t, outgoing t process.pending = op.sends t ++ outgoing t (more ++ rest) := by
    intro t
    rw [hpend, outgoing_cons, outgoing_append, hleaves.outgoing_eq (onlyFlushes_flushAllOps cfg p),
      List.nil_append]
  have hle : ∀ t, (outgoing t (more ++ rest)).length ≤ (outgoing t process.pending).length := by
    intro t
    rw [hout, List.length_append]
    omega
  refine ⟨fun hc t => (hle t).trans (h.running hc t), fun hc => ?_, fun hrun hend t => ?_⟩
  · obtain ⟨hpos, hiter, hend⟩ := h.ended hc
    exact ⟨hpos, hiter, fun t => (hle t).trans (hend t)⟩
  · have hnil := h.others hrun hend t
    rw [hout] at hnil
    exact (List.append_eq_nil_iff.1 hnil).2

theorem TargetsOk.queueStep {op : QueueOp} {rest more : List QueueOp} (h : TargetsOk cfg p (op :: rest))
    (hleaves : Leaves (flushAllOps cfg p) op more) : TargetsOk cfg p (more ++ rest) := by
  intro x hx dest htarget
  rcases List.mem_append.1 hx with hx | hx
  · rcases hleaves.target_eq (onlyFlushes_flushAllOps cfg p) hx with hsame | hnone
    · exact h op List.mem_cons_self dest (hsame ▸ htarget)
    · rw [hnone] at htarget
      cases htarget
  · exact h x (List.mem_cons_of_mem _ hx) dest htarget

theorem Going.queueStep (hcfg : cfg.Ordered) (hp : p < cfg.processes) (htakes : TakesOk cfg (s.procs p))
    (h : Going cfg script s sent taken) {op : QueueOp} {rest more : List QueueOp} {q : SwQueue} {ws : List Word}
    (hpend : (s.procs p).pending = op :: rest)
    (hexec : (s.queues (op.queue p).1 (op.queue p).2).exec (flushAllOps cfg p) op = some (q, more, ws))
    (hmoved : Moved p (op.queue p) (s.procs p).pending (more ++ rest) ws sent sent' taken taken') :
    Going cfg script ((s.setQueue (op.queue p) q).setProc p
      { s.procs p with pending := more ++ rest, words := (s.procs p).words ++ ws }) sent' taken' := by
  have hproc : ∀ i, i ≠ p → ((s.setQueue (op.queue p) q).setProc p { s.procs p with
      pending := more ++ rest, words := (s.procs p).words ++ ws }).procs i = s.procs i := by
    intro i hi
    rw [set_procs, if_neg hi]
  have hself : ((s.setQueue (op.queue p) q).setProc p { s.procs p with
      pending := more ++ rest, words := (s.procs p).words ++ ws }).procs p =
      { s.procs p with pending := more ++ rest, words := (s.procs p).words ++ ws } := by
    rw [set_procs, if_pos rfl]
  have hleaves := exec_leaves hexec
  refine ⟨fun i hi => ?_, fun i hi => ?_, fun i hi => ?_, fun i hi => ?_⟩ <;> by_cases hip : i = p
  · subst hip
    rw [hself]
    exact (h.reads i hi).take hcfg hi (htakes.source_eq hmoved) fun f => took_moved_self hmoved f
  · simp only [hproc i hip, took_moved_of_ne hmoved hip]
    exact h.reads i hi
  · subst hip
    rw [hself]
    exact (h.flight i hi).queueStep hpend hleaves
  · rw [hproc i hip]
    exact h.flight i hi
  · subst hip
    rw [hself]
    exact TargetsOk.queueStep (hpend ▸ h.targets i hi) hleaves
  · rw [hproc i hip]
    exact h.targets i hi
  · subst hip
    exact (h.settled i hi).self hpend hexec
  · exact (h.settled i hi).of_ne hexec hip

/-! What a process that goes on begins with. -/

namespace Turn

theorem not_spins (h : Turn cfg script p process process') (hpend : process.pending = []) {op : QueueOp}
    (hop : op ∈ process'.pending) : op.spins = false := by
  have hproduce : ∀ ops : List QueueOp, (∀ x ∈ ops, x.isProduce = true) → op ∈ ops → op.spins = false := by
    intro ops hops hmem
    have hp := hops op hmem
    cases op <;> first | rfl | cases hp
  have hnil : op ∉ process.pending := by
    rw [hpend]
    exact List.not_mem_nil
  cases h with
  | asks _ _ =>
      rcases List.mem_cons.1 hop with rfl | hop
      · rfl
      · rw [List.mem_singleton.1 hop]
        rfl
  | takes _ =>
      rcases List.mem_cons.1 hop with rfl | hop
      · rfl
      · rw [List.mem_singleton.1 hop]
        rfl
  | validates _ => exact hproduce _ (produce_broadcast cfg p _ _) hop
  | ends _ _ => exact hproduce _ (produce_broadcast cfg p _ _) hop
  | accesses _ _ => exact hproduce _ (produce_accessOps cfg p _) hop
  | spins _ => exact (onlyFlushes_flushAllOps cfg p).not_spins hop
  | resumes _ =>
      dsimp only at hop
      split_ifs at hop
      · exact (onlyFlushes_flushOps cfg p).not_spins hop
      · cases hop
  | _ => exact absurd hop hnil

theorem spinConsume_pending (h : Turn cfg script p process process') {call : Call} {source : ℕ}
    (hcontrol : process'.control = .spinConsume call source) : process'.pending = flushAllOps cfg p := by
  cases h with
  | spins _ => rfl
  | _ => cases hcontrol

theorem flight (h : Turn cfg script p process process') (hpend : process.pending = []) :
    FlightOk cfg script p process' := by
  have hquiet : ∀ process' : Process, process'.control ≠ .ended → (∀ t, outgoing t process'.pending = []) →
      FlightOk cfg script p process' := by
    intro process' hne hout
    refine ⟨fun _ t => ?_, fun hend => absurd hend hne, fun _ _ => hout⟩
    rw [hout t]
    exact Nat.zero_le _
  have hnil : ∀ t, outgoing t process.pending = [] := by
    intro t
    rw [hpend]
    rfl
  have hend : FlightOk cfg script p (verEnd cfg p process) :=
    ⟨fun hc => (by cases hc), fun _ => ⟨rfl, Nat.succ_pos _, fun _ => le_rfl⟩, fun _ hne => absurd rfl hne⟩
  cases h with
  | validates _ => exact hend
  | ends _ _ => exact hend
  | accesses _ ha =>
      refine ⟨fun _ t => ?_, fun hc => (by cases hc), fun hne => absurd rfl hne⟩
      dsimp only
      rw [List.take_add_one, ha, List.flatMap_append, List.length_append]
      change (accessWords cfg p t _).length ≤ _ + (accessWords cfg p t _ ++ []).length
      rw [List.append_nil]
      exact Nat.le_add_left _ _
  | spins _ => exact hquiet _ (by simp) (onlyFlushes_flushAllOps cfg p).outgoing_eq
  | resumes _ =>
      refine hquiet _ (by simp) fun t => ?_
      dsimp only
      split_ifs
      · exact (onlyFlushes_flushOps cfg p).outgoing_eq t
      · rfl
  | asks _ _ => exact hquiet _ (by simp) fun _ => rfl
  | takes _ => exact hquiet _ (by simp [consumeMessage]) fun _ => rfl
  | _ => exact hquiet _ (by simp) hnil

theorem targets (h : Turn cfg script p process process') (hrole : RoleOk cfg p process.control)
    (hpend : process.pending = []) : TargetsOk cfg p process'.pending := by
  have hnone : ∀ ops : List QueueOp, (∀ op ∈ ops, op.target = none) → TargetsOk cfg p ops := by
    intro ops hops op hop dest htarget
    rw [hops op hop] at htarget
    cases htarget
  have hflush : ∀ ops : List QueueOp, OnlyFlushes ops → TargetsOk cfg p ops := fun ops hops =>
    hnone ops fun op hop => by rcases hops op hop with ⟨_, rfl⟩ | ⟨_, rfl⟩ <;> rfl
  have hbroadcast : ∀ a b, TargetsOk cfg p (broadcast cfg p a b) := by
    intro a b op hop dest htarget
    obtain ⟨d, hd, rfl⟩ := List.mem_map.1 hop
    obtain ⟨hle, hlt⟩ := List.mem_range'_1.1 hd
    cases htarget
    exact ⟨hle, by omega⟩
  have hnil : TargetsOk cfg p process.pending := hnone _ (by rw [hpend]; simp)
  cases h with
  | asks _ _ => exact hnone _ (by simp [QueueOp.target])
  | takes _ => exact hnone _ (by simp [consumeMessage, QueueOp.target])
  | validates _ => exact hbroadcast _ _
  | ends _ _ => exact hbroadcast _ _
  | spins _ => exact hflush _ (onlyFlushes_flushAllOps cfg p)
  | resumes _ =>
      dsimp only
      split_ifs
      · exact hflush _ (onlyFlushes_flushOps cfg p)
      · exact hflush _ onlyFlushes_nil
  | accesses hcontrol _ =>
      rw [hcontrol] at hrole
      have hhears : ∀ t, Replays cfg t → Hears cfg p t := fun t ht => ht.hears hrole
      dsimp only
      unfold accessOps
      split
      · intro op hop dest htarget
        rw [List.mem_singleton.1 hop] at htarget
        cases htarget
        exact hhears _ replays_tryCommit
      · exact hbroadcast _ _
      · intro op hop dest htarget
        rcases List.mem_cons.1 hop with rfl | hop
        · cases htarget
          exact hhears _ replays_tryCommit
        · rw [List.mem_singleton.1 hop] at htarget
          cases htarget
          exact hhears _ replays_commit
  | _ => exact hnil

end Turn

theorem Going.goOn (h : Going cfg script s sent taken) (hrole : RoleOk cfg p (s.procs p).control)
    (hpend : (s.procs p).pending = []) (hgoes : Goes s s' p process)
    (hturn : Turn cfg script p (s.procs p) process)
    (hreads : ReadsAt cfg script p process fun f => took sent taken f p) : Going cfg script s' sent taken := by
  have hself : s'.procs p = process := by rw [hgoes.2, Function.update_self]
  have hother : ∀ i, i ≠ p → s'.procs i = s.procs i := fun i hi => by rw [hgoes.2, Function.update_of_ne hi]
  have hdone : ∀ (i : ℕ) (op : QueueOp), op.Done s i → op.Done s' i := by
    intro i op hop
    cases op <;> simp only [QueueOp.Done, hgoes.1] at hop ⊢ <;> exact hop
  refine ⟨fun i hi => ?_, fun i hi => ?_, fun i hi => ?_, fun i hi => ?_⟩ <;> by_cases hip : i = p
  · rw [hip, hself]
    exact hreads
  · rw [hother i hip]
    exact h.reads i hi
  · rw [hip, hself]
    exact hturn.flight hpend
  · rw [hother i hip]
    exact h.flight i hi
  · rw [hip, hself]
    exact hturn.targets hrole hpend
  · rw [hother i hip]
    exact h.targets i hi
  · subst hip
    refine ⟨fun front op rest hsplit hspins => ?_, fun call source hcontrol => ?_⟩
    · rw [hself] at hsplit
      have hno : op.spins = false :=
        hturn.not_spins hpend (by rw [hsplit]; exact List.mem_append_right _ List.mem_cons_self)
      rw [hno] at hspins
      cases hspins
    · rw [hself] at hcontrol ⊢
      rw [hturn.spinConsume_pending hcontrol]
      exact ⟨onlyFlushes_flushAllOps cfg i, fun op hop => .inl hop⟩
  · refine ⟨fun front op rest hsplit hspins => ?_, fun call source hcontrol => ?_⟩
    · rw [hother i hip] at hsplit
      obtain ⟨hfront, hpublished⟩ := (h.settled i hi).spins front op rest hsplit hspins
      exact ⟨hfront, hpublished.congr (hdone i)⟩
    · rw [hother i hip] at hcontrol ⊢
      obtain ⟨hfront, hpublished⟩ := (h.settled i hi).spinConsume call source hcontrol
      exact ⟨hfront, hpublished.congr (hdone i)⟩

end

end Cpf.Smtx
