import Cpf.Smtx.QueueSteps

/-!
# What the processes send

The words of an iteration, for every process that reads them: the try-commit process sees every access, the
commit process sees the writes and a later worker those that are announced to all, and each of them sees where
an iteration ends.
-/

namespace Cpf.Smtx

section

variable (cfg : Config) (script : ℕ → ℕ → List Access)

def accessWords (f t : ℕ) (a : Access) : List Word := outgoing t (accessOps cfg f a)

def endWords (f t : ℕ) : List Word := outgoing t (endOps cfg f)

def iterWords (f t i : ℕ) : List Word :=
  (script f i).flatMap (accessWords cfg f t) ++ endWords cfg f t

def stream (f t i : ℕ) : List Word := (List.range i).flatMap (iterWords cfg script f t)

def sees (t : ℕ) (a : Access) : Bool :=
  t = cfg.tryCommitId || a.kind = .writeAll || (t = cfg.commitId && a.isWrite)

def seen (t f i : ℕ) : List Access := (script f i).filter (sees cfg t)

end

variable {cfg : Config} {script : ℕ → ℕ → List Access} {f t i : ℕ}

theorem outgoing_range' (a b : Word) (start n : ℕ) :
    outgoing t ((List.range' start n).map fun dest => .produce2 dest a b) =
      if start ≤ t ∧ t < start + n then [a, b] else [] := by
  induction n generalizing start with
  | zero => rw [if_neg (by omega)]; rfl
  | succ n ih =>
      rw [List.range'_succ, List.map_cons, outgoing_cons, ih, QueueOp.sends]
      by_cases ht : start = t
      · rw [if_pos ht, if_neg (by omega), if_pos (by omega)]
        rfl
      · rw [if_neg ht, List.nil_append]
        by_cases hin : start + 1 ≤ t ∧ t < start + 1 + n
        · rw [if_pos hin, if_pos (by omega)]
        · rw [if_neg hin, if_neg (by omega)]

theorem outgoing_broadcast (a b : Word) (hnext : cfg.next f ≤ t) (ht : t < cfg.processes) :
    outgoing t (broadcast cfg f a b) = [a, b] := by
  rw [broadcast, outgoing_range', if_pos (by omega)]

theorem next_le_of_worker (hf : f < cfg.workers) : cfg.next f ≤ cfg.workers := by
  rw [Config.next, if_pos hf]
  exact cfg.next_le f

/-- The two processes that replay iterations. -/
def Replays (cfg : Config) (t : ℕ) : Prop := t = cfg.tryCommitId ∨ t = cfg.commitId

def Hears (cfg : Config) (f t : ℕ) : Prop := cfg.next f ≤ t ∧ t < cfg.processes

theorem Replays.hears (ht : Replays cfg t) (hf : f < cfg.workers) : Hears cfg f t := by
  have hnext := next_le_of_worker hf
  unfold Replays Config.tryCommitId Config.commitId at ht
  unfold Hears Config.processes
  omega

theorem endWords_eq (ht : Hears cfg f t) : endWords cfg f t = [0, 0] := outgoing_broadcast _ _ ht.1 ht.2

theorem accessWords_eq (ht : Hears cfg f t) (a : Access) :
    accessWords cfg f t a = if sees cfg t a then a.words else [] := by
  have hne : cfg.commitId ≠ cfg.tryCommitId := by
    unfold Config.commitId Config.tryCommitId
    omega
  unfold accessWords accessOps sees Access.isWrite
  cases a.kind with
  | read =>
      by_cases htc : t = cfg.tryCommitId
      · simp [outgoing, QueueOp.sends, Access.words, htc]
      · simp [outgoing, QueueOp.sends, AccessKind.type, htc, Ne.symm htc]
  | writeAll =>
      simp only [outgoing_broadcast _ _ ht.1 ht.2]
      simp [Access.words]
  | writeSilent =>
      by_cases htc : t = cfg.tryCommitId
      · simp [outgoing, QueueOp.sends, Access.words, htc, hne]
      · by_cases hcommit : t = cfg.commitId
        · simp [outgoing, QueueOp.sends, Access.words, AccessKind.type, hcommit, hne.symm]
        · simp [outgoing, QueueOp.sends, htc, Ne.symm htc, hcommit, Ne.symm hcommit]

theorem iterWords_eq (ht : Hears cfg f t) :
    iterWords cfg script f t i = (seen cfg script t f i).flatMap Access.words ++ [0, 0] := by
  have hwords : ∀ l : List Access, l.flatMap (accessWords cfg f t) =
      (l.filter (sees cfg t)).flatMap Access.words := by
    intro l
    induction l with
    | nil => rfl
    | cons a l ih =>
        rw [List.flatMap_cons, ih, accessWords_eq ht]
        cases ha : sees cfg t a with
        | true => rw [if_pos rfl, List.filter_cons_of_pos ha, List.flatMap_cons]
        | false =>
            rw [if_neg Bool.false_ne_true, List.filter_cons_of_neg (by rw [ha]; exact Bool.false_ne_true),
              List.nil_append]
  rw [iterWords, endWords_eq ht, hwords]
  rfl

theorem stream_succ : stream cfg script f t (i + 1) =
    stream cfg script f t i ++ iterWords cfg script f t i := by
  rw [stream, List.range_succ, List.flatMap_append, List.flatMap_singleton]
  rfl

theorem stream_isPrefix {j : ℕ} (h : i ≤ j) : stream cfg script f t i <+: stream cfg script f t j := by
  induction j, h using Nat.le_induction with
  | base => exact List.prefix_refl _
  | succ j _ ih =>
      rw [stream_succ]
      exact ih.trans (List.prefix_append _ _)

theorem stream_length_mono {j : ℕ} (h : i ≤ j) :
    (stream cfg script f t i).length ≤ (stream cfg script f t j).length :=
  (stream_isPrefix h).length_le

theorem seen_tryCommit : seen cfg script cfg.tryCommitId f i = script f i := by
  unfold seen
  apply List.filter_eq_self.2
  intro a _
  unfold sees
  simp

/-- A process that replays iterations sees every write. -/
theorem sees_of_isWrite {a : Access} (ht : Replays cfg t) (ha : a.isWrite = true) : sees cfg t a = true := by
  unfold sees
  rcases ht with rfl | rfl <;> simp [ha]

theorem isWrite_of_sees {a : Access} (ht : t ≠ cfg.tryCommitId) (ha : sees cfg t a = true) :
    a.isWrite = true := by
  unfold sees at ha
  rw [decide_eq_false ht, Bool.false_or, Bool.or_eq_true] at ha
  rcases ha with ha | ha
  · rw [Access.isWrite, of_decide_eq_true ha]
    rfl
  · exact (Bool.and_eq_true _ _ ▸ ha).2

theorem memAfter_seen (ht : Replays cfg t) (mem : Heap) (n : ℕ) :
    memAfter mem ((List.range n).flatMap fun w => seen cfg script t w i) =
      memAfter mem ((List.range n).flatMap fun w => script w i) := by
  have hfilter : ((List.range n).flatMap fun w => seen cfg script t w i) =
      ((List.range n).flatMap fun w => script w i).filter (sees cfg t) := by
    rw [List.filter_flatMap]
    rfl
  rw [hfilter]
  exact memAfter_filter _ _ _ fun a ha => sees_of_isWrite ht ha

theorem committed_succ {mem : Heap} : committed cfg script mem (i + 1) =
    memAfter (committed cfg script mem i) (iteration cfg script i) := by
  rw [committed, List.range_succ, List.flatMap_append, List.flatMap_singleton, memAfter_append]
  rfl

/-- The next two words behind those of `done`: the next access, or the end of the iteration. -/
theorem next_message {done left : List Access} {x y : Word} {more : List Word}
    (h : done.flatMap Access.words ++ [x, y] <+: (done ++ left).flatMap Access.words ++ [0, 0] ++ more) :
    (∃ a rest, left = a :: rest ∧ x = a.token ∧ y = a.val) ∨ (left = [] ∧ x = 0 ∧ y = 0) := by
  rw [List.flatMap_append, List.append_assoc, List.append_assoc, List.prefix_append_right_inj] at h
  cases left with
  | nil =>
      right
      exact ⟨rfl, (List.cons_prefix_cons.1 h).1, (List.cons_prefix_cons.1 (List.cons_prefix_cons.1 h).2).1⟩
  | cons a rest =>
      left
      exact ⟨a, rest, rfl, (List.cons_prefix_cons.1 h).1,
        (List.cons_prefix_cons.1 (List.cons_prefix_cons.1 h).2).1⟩

end Cpf.Smtx
