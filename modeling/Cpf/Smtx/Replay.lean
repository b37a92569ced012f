import Cpf.Smtx.Streams

/-!
# Replaying an iteration

`Reads` says how far a process has read an iteration: which words it has taken from every worker. `Replay` adds
that its memory is the result of the accesses it has seen so far.
-/

namespace Cpf.Smtx

/-- Process `t` has read `k` iterations of the workers below `limit` and, of the next one, those of the workers
before `source` and the accesses `done` of worker `source`; `words` are part of the next message. -/
structure Reads (cfg : Config) (script : ℕ → ℕ → List Access) (t limit : ℕ) (tk : ℕ → List Word)
    (k source : ℕ) (done : List Access) (words : List Word) : Prop where
  le : source ≤ limit
  before : ∀ f < source, tk f = stream cfg script f t (k + 1)
  now : source < limit → tk source = stream cfg script source t k ++ done.flatMap Access.words ++ words
  after : ∀ f, source < f → f < limit → tk f = stream cfg script f t k
  part : source < limit → done <+: seen cfg script t source k
  rest : source = limit → done = []

namespace Reads

variable {cfg : Config} {script : ℕ → ℕ → List Access} {t limit : ℕ} {tk tk' : ℕ → List Word}
  {k source : ℕ} {done : List Access} {words : List Word}

theorem start : Reads cfg script t limit (fun _ => []) 0 0 [] [] where
  le := Nat.zero_le _
  before f hf := absurd hf (Nat.not_lt_zero f)
  now _ := rfl
  after _ _ _ := rfl
  part _ := List.nil_prefix
  rest _ := rfl

theorem congr (h : Reads cfg script t limit tk k source done words) (htk : ∀ f < limit, tk' f = tk f) :
    Reads cfg script t limit tk' k source done words where
  le := h.le
  before f hf := by rw [htk f (hf.trans_le h.le), h.before f hf]
  now hlt := by rw [htk source hlt, h.now hlt]
  after f hf hlt := by rw [htk f hlt, h.after f hf hlt]
  part := h.part
  rest := h.rest

/-- A word is taken from the current worker. -/
theorem take (h : Reads cfg script t limit tk k source done words) {ws : List Word}
    (htk : ∀ f < limit, tk' f = tk f ++ if f = source then ws else []) :
    Reads cfg script t limit tk' k source done (words ++ ws) where
  le := h.le
  before f hf := by rw [htk f (hf.trans_le h.le), if_neg hf.ne, List.append_nil, h.before f hf]
  now hlt := by rw [htk source hlt, if_pos rfl, h.now hlt, List.append_assoc]
  after f hf hlt := by rw [htk f hlt, if_neg hf.ne', List.append_nil, h.after f hf hlt]
  part := h.part
  rest := h.rest

/-- The message that is taken in full is the next access of the worker, or the end of its iteration. -/
theorem next {x y : Word} (h : Reads cfg script t limit tk k source done [x, y])
    (hsource : source < limit) (ht : Hears cfg source t) {n : ℕ}
    (hsent : tk source <+: stream cfg script source t n) :
    (∃ a rest, seen cfg script t source k = done ++ a :: rest ∧ x = a.token ∧ y = a.val) ∨
      (seen cfg script t source k = done ∧ x = 0 ∧ y = 0) := by
  obtain ⟨left, hleft⟩ := h.part hsource
  obtain ⟨more, hmore⟩ : stream cfg script source t (k + 1) <+:
      stream cfg script source t (max n (k + 1)) := stream_isPrefix (le_max_right _ _)
  have hprefix := hsent.trans (stream_isPrefix (le_max_left n (k + 1)))
  rw [h.now hsource, ← hmore, stream_succ, iterWords_eq ht, ← hleft, List.append_assoc,
    List.append_assoc, List.prefix_append_right_inj] at hprefix
  rcases next_message hprefix with ⟨a, rest, rfl, hx, hy⟩ | ⟨rfl, hx, hy⟩
  · exact .inl ⟨a, rest, hleft.symm, hx, hy⟩
  · rw [List.append_nil] at hleft
    exact .inr ⟨hleft.symm, hx, hy⟩

theorem access {a : Access} {rest : List Access} (h : Reads cfg script t limit tk k source done a.words)
    (hsource : source < limit) (hseen : seen cfg script t source k = done ++ a :: rest) :
    Reads cfg script t limit tk k source (done ++ [a]) [] where
  le := h.le
  before := h.before
  now hlt := by
    rw [h.now hlt, List.flatMap_append, List.flatMap_singleton, List.append_nil, List.append_assoc]
  after := h.after
  part _ := ⟨rest, by rw [hseen, List.append_assoc]; rfl⟩
  rest heq := absurd hsource (by omega)

/-- The iteration of the current worker is over. -/
theorem endSource (h : Reads cfg script t limit tk k source done [0, 0]) (ht : Hears cfg source t)
    (hsource : source < limit) (hseen : seen cfg script t source k = done) :
    Reads cfg script t limit tk k (source + 1) [] [] where
  le := hsource
  before f hf := by
    by_cases he : f = source
    · rw [he, h.now hsource, stream_succ, iterWords_eq ht, hseen, List.append_assoc]
    · exact h.before f (by omega)
  now hlt := by rw [h.after (source + 1) (Nat.lt_succ_self _) hlt]; simp
  after f hf hlt := h.after f (by omega) hlt
  part _ := List.nil_prefix
  rest _ := rfl

/-- The iteration of all workers below the limit was read. -/
theorem finish (h : Reads cfg script t limit tk k source [] []) (hsource : limit ≤ source) :
    Reads cfg script t limit tk (k + 1) 0 [] [] := by
  have hle := h.le
  obtain rfl : source = limit := by omega
  refine ⟨Nat.zero_le _, fun f hf => absurd hf (Nat.not_lt_zero f), fun hlt => ?_,
    fun f _ hlt => h.before f hlt,
    fun _ => List.nil_prefix, fun _ => rfl⟩
  rw [h.before 0 hlt]
  simp

end Reads

/-- Process `t` has replayed what it has read of all workers: `mem` is the result. -/
structure Replay (cfg : Config) (script : ℕ → ℕ → List Access) (mem₀ : Heap) (t : ℕ) (tk : ℕ → List Word)
    (k source : ℕ) (done : List Access) (words : List Word) (mem : Heap) : Prop
    extends Reads cfg script t cfg.workers tk k source done words where
  result : mem = memAfter (committed cfg script mem₀ k)
    (((List.range source).flatMap fun w => seen cfg script t w k) ++ done)
  agree : t = cfg.tryCommitId → AllAgree (committed cfg script mem₀ k)
    (((List.range source).flatMap fun w => seen cfg script t w k) ++ done)

theorem replay_start {cfg : Config} {script : ℕ → ℕ → List Access} {mem₀ : Heap} {t : ℕ} :
    Replay cfg script mem₀ t (fun _ => []) 0 0 [] [] mem₀ where
  toReads := .start
  result := rfl
  agree _ := trivial

namespace Replay

variable {cfg : Config} {script : ℕ → ℕ → List Access} {mem₀ mem : Heap} {t : ℕ} {tk tk' : ℕ → List Word}
  {k source : ℕ} {done : List Access} {words : List Word}

theorem congr (h : Replay cfg script mem₀ t tk k source done words mem)
    (htk : ∀ f < cfg.workers, tk' f = tk f) : Replay cfg script mem₀ t tk' k source done words mem where
  toReads := h.toReads.congr htk
  result := h.result
  agree := h.agree

theorem take (h : Replay cfg script mem₀ t tk k source done words mem) {ws : List Word}
    (htk : ∀ f < cfg.workers, tk' f = tk f ++ if f = source then ws else []) :
    Replay cfg script mem₀ t tk' k source done (words ++ ws) mem where
  toReads := h.toReads.take htk
  result := h.result
  agree := h.agree

theorem access {a : Access} {rest : List Access} (h : Replay cfg script mem₀ t tk k source done a.words mem)
    (hsource : source < cfg.workers) (hseen : seen cfg script t source k = done ++ a :: rest)
    (hagrees : t = cfg.tryCommitId → a.Agrees mem) :
    Replay cfg script mem₀ t tk k source (done ++ [a]) [] (a.apply mem) where
  toReads := h.toReads.access hsource hseen
  result := by
    rw [← List.append_assoc, memAfter_append, ← h.result]
    rfl
  agree ht := by
    rw [← List.append_assoc, allAgree_append]
    refine ⟨h.agree ht, ?_, trivial⟩
    rw [← h.result]
    exact hagrees ht

/-- The iteration of the current worker is over. -/
theorem endSource (h : Replay cfg script mem₀ t tk k source done [0, 0] mem) (ht : Hears cfg source t)
    (hsource : source < cfg.workers) (hseen : seen cfg script t source k = done) :
    Replay cfg script mem₀ t tk k (source + 1) [] [] mem where
  toReads := h.toReads.endSource ht hsource hseen
  result := by
    rw [h.result, List.range_succ, List.flatMap_append, List.flatMap_singleton, hseen, List.append_nil]
  agree htc := by
    rw [List.range_succ, List.flatMap_append, List.flatMap_singleton, hseen, List.append_nil]
    exact h.agree htc

theorem finish (h : Replay cfg script mem₀ t tk k source [] [] mem) (ht : Replays cfg t)
    (hsource : cfg.workers ≤ source) : Replay cfg script mem₀ t tk (k + 1) 0 [] [] mem where
  toReads := h.toReads.finish hsource
  result := by
    have hle := h.le
    obtain rfl : source = cfg.workers := by omega
    rw [h.result, committed_succ, List.append_nil, memAfter_seen ht]
    rfl
  agree _ := trivial

theorem allAgree (h : Replay cfg script mem₀ cfg.tryCommitId tk k source [] [] mem)
    (hsource : cfg.workers ≤ source) :
    AllAgree (committed cfg script mem₀ k) (iteration cfg script k) := by
  have hle := h.le
  obtain rfl : source = cfg.workers := by omega
  have hagree := h.agree rfl
  simp only [seen_tryCommit, List.append_nil] at hagree
  exact hagree

theorem not_allAgree {a : Access} {rest : List Access}
    (h : Replay cfg script mem₀ cfg.tryCommitId tk k source done a.words mem)
    (hsource : source < cfg.workers) (hseen : seen cfg script cfg.tryCommitId source k = done ++ a :: rest)
    (hagrees : ¬ a.Agrees mem) : ¬ AllAgree (committed cfg script mem₀ k) (iteration cfg script k) := by
  intro hall
  have hsplit : iteration cfg script k = ((List.range source).flatMap fun w =>
      seen cfg script cfg.tryCommitId w k) ++ done ++ a :: (rest ++
        (List.range' (source + 1) (cfg.workers - (source + 1))).flatMap fun w => script w k) := by
    have hrange : List.range cfg.workers =
        List.range source ++ source :: List.range' (source + 1) (cfg.workers - (source + 1)) := by
      have hadd : List.range' 0 source 1 ++ List.range' (0 + 1 * source) (cfg.workers - source) 1 =
          List.range' 0 (source + (cfg.workers - source)) 1 := List.range'_append
      have hsucc : cfg.workers - source = cfg.workers - (source + 1) + 1 := by omega
      rw [Nat.add_sub_cancel' hsource.le, hsucc, List.range'_succ, Nat.zero_add, Nat.one_mul] at hadd
      rw [List.range_eq_range', List.range_eq_range', ← hadd]
    rw [iteration, hrange, List.flatMap_append, List.flatMap_cons, List.append_assoc]
    rw [seen_tryCommit] at hseen
    simp only [seen_tryCommit, hseen, List.append_assoc, List.cons_append]
  rw [hsplit, allAgree_append, ← h.result] at hall
  exact hagrees hall.2.1

end Replay
end Cpf.Smtx
