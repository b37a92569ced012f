import Cpf.Smtx.Version

/-!
# Steps of a process on a queue

The words that were ever sent and the number of those taken are followed for every queue. A step on a queue
sends what the process had to send, or takes the next word, or changes only indices.
-/

namespace Cpf.Smtx

namespace QueueOp

def isProduce : QueueOp → Bool
  | .produce2 .. => true
  | _ => false

def isWait : QueueOp → Bool
  | .waitConsumer _ => true
  | .spinConsumer _ => true
  | _ => false

def sends (t : ℕ) : QueueOp → List Word
  | .produce2 dest a b => if dest = t then [a, b] else []
  | _ => []

/-- The number of words that an operation will take from process `f`. -/
def takes (f : ℕ) : QueueOp → ℕ
  | .consume source => if source = f then 1 else 0
  | .waitAllocated source => if source = f then 1 else 0
  | .spinAllocated source => if source = f then 1 else 0
  | .refill source => if source = f then 1 else 0
  | _ => 0

end QueueOp

def outgoing (t : ℕ) (ops : List QueueOp) : List Word := ops.flatMap (QueueOp.sends t)

def incoming (f : ℕ) (ops : List QueueOp) : ℕ := (ops.map (QueueOp.takes f)).sum

theorem outgoing_append (t : ℕ) (ops ops' : List QueueOp) :
    outgoing t (ops ++ ops') = outgoing t ops ++ outgoing t ops' := List.flatMap_append

theorem incoming_append (f : ℕ) (ops ops' : List QueueOp) :
    incoming f (ops ++ ops') = incoming f ops + incoming f ops' := by
  rw [incoming, List.map_append, List.sum_append]
  rfl

theorem incoming_cons (f : ℕ) (op : QueueOp) (ops : List QueueOp) :
    incoming f (op :: ops) = op.takes f + incoming f ops := rfl

theorem outgoing_cons (t : ℕ) (op : QueueOp) (ops : List QueueOp) :
    outgoing t (op :: ops) = op.sends t ++ outgoing t ops := rfl

def Waits (t : ℕ) (ops : List QueueOp) : Prop := .waitConsumer t ∈ ops ∨ .spinConsumer t ∈ ops

/-- A refill is the next thing to do, and nothing is sent before a wait is over. -/
structure PendingOk (ops : List QueueOp) : Prop where
  refillFirst : ∀ f, .refill f ∉ ops.tail
  waitFirst : ops.Pairwise fun x y => x.isProduce = true → y.isWait = false

def OnlyFlushes (ops : List QueueOp) : Prop :=
  ∀ op ∈ ops, (∃ dest, op = .flush dest) ∨ ∃ source, op = .reverseFlush source

theorem onlyFlushes_flushOps (cfg : Config) (p : ℕ) : OnlyFlushes (flushOps cfg p) := by
  intro op hop
  obtain ⟨dest, -, rfl⟩ := List.mem_map.1 hop
  exact .inl ⟨dest, rfl⟩

theorem onlyFlushes_flushAllOps (cfg : Config) (p : ℕ) : OnlyFlushes (flushAllOps cfg p) := by
  intro op hop
  rcases List.mem_append.1 hop with hop | hop
  · exact onlyFlushes_flushOps cfg p op hop
  · right
    rcases List.mem_append.1 hop with hop | hop
    · obtain ⟨source, -, rfl⟩ := List.mem_map.1 hop
      exact ⟨source, rfl⟩
    · split_ifs at hop
      · exact ⟨_, List.mem_singleton.1 hop⟩
      · cases hop

namespace OnlyFlushes

variable {ops : List QueueOp}

theorem not_produce (h : OnlyFlushes ops) {op : QueueOp} (hop : op ∈ ops) : op.isProduce = false := by
  rcases h op hop with ⟨_, rfl⟩ | ⟨_, rfl⟩ <;> rfl

theorem not_refill (h : OnlyFlushes ops) (f : ℕ) : .refill f ∉ ops := by
  intro hop
  rcases h _ hop with ⟨_, he⟩ | ⟨_, he⟩ <;> cases he

theorem outgoing_eq (h : OnlyFlushes ops) (t : ℕ) : outgoing t ops = [] := by
  apply List.flatMap_eq_nil_iff.2
  intro op hop
  rcases h op hop with ⟨_, rfl⟩ | ⟨_, rfl⟩ <;> rfl

theorem incoming_eq (h : OnlyFlushes ops) (f : ℕ) : incoming f ops = 0 := by
  apply List.sum_eq_zero
  intro n hn
  obtain ⟨op, hop, rfl⟩ := List.mem_map.1 hn
  rcases h op hop with ⟨_, rfl⟩ | ⟨_, rfl⟩ <;> rfl

theorem pendingOk (h : OnlyFlushes ops) : PendingOk ops where
  refillFirst f hop := h.not_refill f (List.mem_of_mem_tail hop)
  waitFirst := List.pairwise_of_forall_mem_list fun x hx y _ hp => by
    rw [h.not_produce hx] at hp
    cases hp

end OnlyFlushes

theorem PendingOk.push {op : QueueOp} {rest more : List QueueOp} (h : PendingOk (op :: rest))
    (hproduce : ∀ x ∈ more, x.isProduce = false) (hrefill : ∀ f, .refill f ∉ more.tail) :
    PendingOk (more ++ rest) := by
  constructor
  · intro f hmem
    cases more with
    | nil => exact h.refillFirst f (List.mem_of_mem_tail hmem)
    | cons x more =>
        rcases List.mem_append.1 hmem with hmem | hmem
        · exact hrefill f hmem
        · exact h.refillFirst f hmem
  · apply List.pairwise_append.2
    refine ⟨?_, (List.pairwise_cons.1 h.waitFirst).2, fun x hx y _ hp => ?_⟩
    · apply List.pairwise_of_forall_mem_list
      intro x hx y _ hp
      rw [hproduce x hx] at hp
      cases hp
    · rw [hproduce x hx] at hp
      cases hp

/-- Operations that send come without a wait. -/
theorem pendingOk_of_produce {ops : List QueueOp} (h : ∀ op ∈ ops, op.isProduce = true) :
    PendingOk ops where
  refillFirst f hop := by
    have hp := h _ (List.mem_of_mem_tail hop)
    cases hp
  waitFirst := List.pairwise_of_forall_mem_list fun x _ y hy _ => by
    have hp := h y hy
    cases y <;> cases hp
    rfl

/-- Every queue holds the words that were sent and not taken. -/
structure Linked (s : State) (sent : ℕ → ℕ → List Word) (taken : ℕ → ℕ → ℕ) : Prop where
  holds : ∀ f t, Holds (s.queues f t) (sent f t) (taken f t) (Waits t (s.procs f).pending)
    (.refill f ∈ (s.procs t).pending)
  pendingOk : ∀ p, PendingOk (s.procs p).pending

def took (sent : ℕ → ℕ → List Word) (taken : ℕ → ℕ → ℕ) (f t : ℕ) : List Word :=
  (sent f t).take (taken f t)

/-- What a step of process `p` on its queues does to the words: it sends what it no longer has to send, and it
takes the words `ws` from the queue `k`. -/
structure Moved (p : ℕ) (k : ℕ × ℕ) (ops ops' : List QueueOp) (ws : List Word)
    (sent sent' : ℕ → ℕ → List Word) (taken taken' : ℕ → ℕ → ℕ) : Prop where
  others : ∀ f t, f ≠ p → sent' f t = sent f t
  sends : ∀ t, sent' p t ++ outgoing t ops' = sent p t ++ outgoing t ops
  took : ∀ f t, took sent' taken' f t = took sent taken f t ++ if (f, t) = k then ws else []
  takes : ∀ f, incoming f ops' + (if f = k.1 then ws.length else 0) = incoming f ops
  taker : ws ≠ [] → k.2 = p

theorem Moved.quiet {p : ℕ} {k : ℕ × ℕ} {ops ops' : List QueueOp} {sent : ℕ → ℕ → List Word}
    {taken : ℕ → ℕ → ℕ} (hout : ∀ t, outgoing t ops' = outgoing t ops)
    (hin : ∀ f, incoming f ops' = incoming f ops) : Moved p k ops ops' [] sent sent taken taken where
  others f t _ := rfl
  sends t := by rw [hout]
  took f t := by rw [ite_self, List.append_nil]
  takes f := by rw [hin, List.length_nil, ite_self, Nat.add_zero]
  taker hne := absurd rfl hne

theorem set_queues {s : State} {k : ℕ × ℕ} {q : SwQueue} {p : ℕ} {process : Process} (f t : ℕ) :
    ((s.setQueue k q).setProc p process).queues f t = if (f, t) = k then q else s.queues f t := by
  unfold State.setQueue State.setProc
  dsimp only
  obtain ⟨k1, k2⟩ := k
  by_cases hf : f = k1
  · subst hf
    rw [Function.update_self]
    by_cases ht : t = k2
    · subst ht
      rw [Function.update_self, if_pos rfl]
    · rw [Function.update_of_ne ht, if_neg fun he => ht (Prod.ext_iff.1 he).2]
  · rw [Function.update_of_ne hf, if_neg fun he => hf (Prod.ext_iff.1 he).1]

theorem set_procs {s : State} {k : ℕ × ℕ} {q : SwQueue} {p : ℕ} {process : Process} (i : ℕ) :
    ((s.setQueue k q).setProc p process).procs i = if i = p then process else s.procs i := by
  unfold State.setQueue State.setProc
  dsimp only
  split_ifs with hi
  · rw [hi, Function.update_self]
  · rw [Function.update_of_ne hi]

section

variable {s : State} {sent : ℕ → ℕ → List Word} {taken : ℕ → ℕ → ℕ} {p : ℕ} {process : Process}
  {op : QueueOp} {rest more : List QueueOp} {q : SwQueue}

theorem Linked.produceSide (h : Linked s sent taken) {dest : ℕ} {ws : List Word}
    (hok : PendingOk process.pending)
    (hq : Holds q (sent p dest ++ ws) (taken p dest) (Waits dest process.pending)
      (.refill p ∈ (s.procs dest).pending))
    (hwaits : ∀ t, t ≠ dest → Waits t (s.procs p).pending → Waits t process.pending)
    (hrefill : ∀ f, .refill f ∈ process.pending → .refill f ∈ (s.procs p).pending) :
    Linked ((s.setQueue (p, dest) q).setProc p process)
      (fun f t => if (f, t) = (p, dest) then sent p dest ++ ws else sent f t) taken := by
  have hrefill' : ∀ f t, .refill f ∈ (if t = p then process else s.procs t).pending →
      .refill f ∈ (s.procs t).pending := by
    intro f t hmem
    split_ifs at hmem with ht
    · rw [ht]
      exact hrefill f hmem
    · exact hmem
  constructor
  · intro f t
    rw [set_queues, set_procs, set_procs]
    by_cases hk : (f, t) = (p, dest)
    · obtain ⟨rfl, rfl⟩ := Prod.ext_iff.1 hk
      rw [if_pos hk, if_pos hk, if_pos rfl]
      exact hq.congr id (hrefill' f t)
    · rw [if_neg hk, if_neg hk]
      apply (h.holds f t).congr ?_ (hrefill' f t)
      intro hw
      split_ifs with hf
      · subst hf
        exact hwaits t (fun ht => hk (by rw [ht])) hw
      · exact hw
  · intro i
    rw [set_procs]
    split_ifs
    · exact hok
    · exact h.pendingOk i

theorem Linked.consumeSide (h : Linked s sent taken) {source n : ℕ} (hok : PendingOk process.pending)
    (hq : Holds q (sent source p) n (Waits p (s.procs source).pending)
      (.refill source ∈ process.pending))
    (hwaits : ∀ t, Waits t (s.procs p).pending → Waits t process.pending)
    (hrefill : ∀ f, f ≠ source → .refill f ∈ process.pending → .refill f ∈ (s.procs p).pending) :
    Linked ((s.setQueue (source, p) q).setProc p process) sent
      (fun f t => if (f, t) = (source, p) then n else taken f t) := by
  have hwaits' : ∀ f t, Waits t (s.procs f).pending →
      Waits t (if f = p then process else s.procs f).pending := by
    intro f t hw
    split_ifs with hf
    · rw [hf] at hw
      exact hwaits t hw
    · exact hw
  constructor
  · intro f t
    rw [set_queues, set_procs, set_procs]
    by_cases hk : (f, t) = (source, p)
    · obtain ⟨rfl, rfl⟩ := Prod.ext_iff.1 hk
      rw [if_pos hk, if_pos hk, if_pos rfl]
      exact hq.congr (hwaits' f t) id
    · rw [if_neg hk, if_neg hk]
      apply (h.holds f t).congr (hwaits' f t)
      intro hmem
      split_ifs at hmem with ht
      · subst ht
        exact hrefill f (fun hf => hk (by rw [hf])) hmem
      · exact hmem
  · intro i
    rw [set_procs]
    split_ifs
    · exact hok
    · exact h.pendingOk i

theorem took_advance {source : ℕ} {w : Word} (hw : (sent source p)[taken source p]? = some w) (f t : ℕ) :
    took sent (fun f t => if (f, t) = (source, p) then taken source p + 1 else taken f t) f t =
      took sent taken f t ++ if (f, t) = (source, p) then [w] else [] := by
  unfold took
  dsimp only
  split_ifs with hk
  · cases hk
    rw [List.take_add_one, hw]
    rfl
  · rw [List.append_nil]

theorem Linked.produce2 (h : Linked s sent taken) {dest : ℕ} {a b : Word} {ws : List Word}
    (hpend : (s.procs p).pending = .produce2 dest a b :: rest)
    (hmore : more =
      if ((s.queues p dest).write2 a b).pInx % chunkSize = 0 then [.waitConsumer dest] else []) :
    ∃ sent' taken', Linked ((s.setQueue (p, dest) ((s.queues p dest).write2 a b)).setProc p
        { s.procs p with pending := more ++ rest, words := ws }) sent' taken' ∧
      Moved p (p, dest) (.produce2 dest a b :: rest) (more ++ rest) [] sent sent' taken taken' := by
  have hok := h.pendingOk p
  rw [hpend] at hok
  have hfree : ∀ t, ¬ Waits t (s.procs p).pending := by
    intro t hw
    rw [hpend] at hw
    have hno := (List.pairwise_cons.1 hok.waitFirst).1
    rcases hw with hw | hw <;> rcases List.mem_cons.1 hw with hw | hw
    · cases hw
    · cases hno _ hw rfl
    · cases hw
    · cases hno _ hw rfl
  have honly : ∀ x ∈ more, x = .waitConsumer dest := by
    intro x hx
    rw [hmore] at hx
    split_ifs at hx
    · exact List.mem_singleton.1 hx
    · cases hx
  have hwaits : ((s.queues p dest).write2 a b).pInx % chunkSize = 0 → Waits dest (more ++ rest) := by
    intro hz
    rw [hmore, if_pos hz]
    exact .inl List.mem_cons_self
  have hholds := (h.holds p dest).write2 (hfree dest) a b hwaits
  refine ⟨_, _, h.produceSide (hok.push (fun x hx => ?_) fun f hf => ?_) hholds
    (fun t _ hw => absurd hw (hfree t)) fun f hf => ?_, ?_⟩
  · rw [honly x hx]
    rfl
  · have heq := honly _ (List.mem_of_mem_tail hf)
    cases heq
  · rw [hpend]
    rcases List.mem_append.1 hf with hf | hf
    · have heq := honly _ hf
      cases heq
    · exact List.mem_cons_of_mem _ hf
  · have hout : ∀ t, outgoing t more = [] := fun t =>
      List.flatMap_eq_nil_iff.2 fun x hx => by rw [honly x hx]; rfl
    have hin : ∀ f, incoming f more = 0 := by
      intro f
      rw [hmore]
      split_ifs <;> rfl
    refine ⟨fun f t hf => ?_, fun t => ?_, fun f t => ?_, fun f => ?_, fun hne => absurd rfl hne⟩
    · rw [if_neg fun he => hf (Prod.ext_iff.1 he).1]
    · rw [outgoing_append, hout, List.nil_append, outgoing_cons, QueueOp.sends]
      by_cases ht : dest = t
      · rw [if_pos (by rw [ht]), if_pos ht, ht, List.append_assoc]
      · rw [if_neg fun he => ht (Prod.ext_iff.1 he).2.symm, if_neg ht, List.nil_append]
    · rw [ite_self, List.append_nil]
      unfold took
      dsimp only
      split_ifs with hk
      · cases hk
        rw [List.take_append_of_le_length (h.holds p dest).taken_le]
      · rfl
    · rw [incoming_append, incoming_cons, hin, List.length_nil, ite_self]
      rfl

theorem Waits.append {t : ℕ} {ops : List QueueOp} (h : Waits t ops) (front : List QueueOp) :
    Waits t (front ++ ops) :=
  h.imp (List.mem_append_right front) (List.mem_append_right front)

theorem Waits.of_cons {t : ℕ} (h : Waits t (op :: rest)) (hwait : op ≠ .waitConsumer t)
    (hspin : op ≠ .spinConsumer t) : Waits t rest :=
  h.imp (fun hmem => (List.mem_cons.1 hmem).resolve_left fun he => hwait he.symm)
    fun hmem => (List.mem_cons.1 hmem).resolve_left fun he => hspin he.symm

theorem Linked.produceIndex (h : Linked s sent taken) {dest : ℕ} (hok : PendingOk process.pending)
    (hq : Holds q (sent p dest) (taken p dest) (Waits dest process.pending)
      (.refill p ∈ (s.procs dest).pending))
    (hwaits : ∀ t, t ≠ dest → Waits t (s.procs p).pending → Waits t process.pending)
    (hrefill : ∀ f, .refill f ∈ process.pending → .refill f ∈ (s.procs p).pending) :
    Linked ((s.setQueue (p, dest) q).setProc p process) sent taken := by
  have hq' : Holds q (sent p dest ++ []) (taken p dest) (Waits dest process.pending)
      (.refill p ∈ (s.procs dest).pending) := by rwa [List.append_nil]
  have hlinked := h.produceSide hok hq' hwaits hrefill
  have hsent : (fun f t => if (f, t) = (p, dest) then sent p dest ++ [] else sent f t) = sent := by
    funext f t
    split_ifs with hk
    · cases hk
      rw [List.append_nil]
    · rfl
  rwa [hsent] at hlinked

theorem Linked.produceDone (h : Linked s sent taken) {dest : ℕ} {ws : List Word}
    (hpend : (s.procs p).pending = op :: rest) (hkey : ∀ t, t ≠ dest → op ≠ .waitConsumer t)
    (hkey' : ∀ t, t ≠ dest → op ≠ .spinConsumer t)
    (hq : Holds q (sent p dest) (taken p dest) (Waits dest rest) (.refill p ∈ (s.procs dest).pending)) :
    Linked ((s.setQueue (p, dest) q).setProc p { s.procs p with pending := [] ++ rest, words := ws })
      sent taken := by
  have hok := h.pendingOk p
  rw [hpend] at hok
  refine h.produceIndex (hok.push (fun x hx => by cases hx) fun f hf => by cases hf) hq
    (fun t ht hw => ?_) fun f hf => ?_
  · rw [hpend] at hw
    exact hw.of_cons (hkey t ht) (hkey' t ht)
  · rw [hpend]
    exact List.mem_cons_of_mem _ hf

/-- A wait begins: everything is published first. -/
theorem Linked.produceWait (h : Linked s sent taken) {dest : ℕ} {ws : List Word} {flushAll : List QueueOp}
    (hflush : OnlyFlushes flushAll) (hpend : (s.procs p).pending = .waitConsumer dest :: rest) :
    Linked ((s.setQueue (p, dest) (s.queues p dest)).setProc p
      { s.procs p with pending := flushAll ++ [.spinConsumer dest] ++ rest, words := ws }) sent taken := by
  have hok := h.pendingOk p
  rw [hpend] at hok
  have hspin : Waits dest (flushAll ++ [.spinConsumer dest] ++ rest) :=
    .inr (List.mem_append_left _ (List.mem_append_right _ (List.mem_singleton.2 rfl)))
  refine h.produceIndex (hok.push (fun x hx => ?_) fun f hf => ?_)
    ((h.holds p dest).congr (fun _ => hspin) id) (fun t ht hw => ?_) fun f hf => ?_
  · rcases List.mem_append.1 hx with hx | hx
    · exact hflush.not_produce hx
    · rw [List.mem_singleton.1 hx]
      rfl
  · rcases List.mem_append.1 (List.mem_of_mem_tail hf) with hf | hf
    · exact hflush.not_refill f hf
    · cases List.mem_singleton.1 hf
  · rw [hpend] at hw
    exact (hw.of_cons (fun he => ht (by cases he; rfl)) (fun he => by cases he)).append _
  · rw [hpend]
    rcases List.mem_append.1 hf with hf | hf
    · rcases List.mem_append.1 hf with hf | hf
      · exact absurd hf (hflush.not_refill f)
      · cases List.mem_singleton.1 hf
    · exact List.mem_cons_of_mem _ hf

/-- A consumer goes on with `more`, in which it may refill from `source` only. -/
theorem Linked.consumeMore (h : Linked s sent taken) {source : ℕ} {ws : List Word} {n : ℕ}
    (hpend : (s.procs p).pending = op :: rest) (hwait : op.isWait = false)
    (hproduce : ∀ x ∈ more, x.isProduce = false) (htail : ∀ f, .refill f ∉ more.tail)
    (honly : ∀ f, f ≠ source → .refill f ∉ more)
    (hq : Holds q (sent source p) n (Waits p (s.procs source).pending) (.refill source ∈ more)) :
    Linked ((s.setQueue (source, p) q).setProc p { s.procs p with pending := more ++ rest, words := ws })
      sent (fun f t => if (f, t) = (source, p) then n else taken f t) := by
  have hok := h.pendingOk p
  rw [hpend] at hok
  refine h.consumeSide (hok.push hproduce htail) (hq.congr id fun hmem => ?_) (fun t hw => ?_)
    fun f hf hmem => ?_
  · exact (List.mem_append.1 hmem).resolve_right (hok.refillFirst source)
  · rw [hpend] at hw
    refine (hw.of_cons (fun he => ?_) fun he => ?_).append _ <;> rw [he] at hwait <;> cases hwait
  · rcases List.mem_append.1 hmem with hmem | hmem
    · exact absurd hmem (honly f hf)
    · rw [hpend]
      exact List.mem_cons_of_mem _ hmem

/-- A consumer changes only an index, and goes on with `more`. -/
theorem Linked.consumeIndex (h : Linked s sent taken) {source : ℕ} {ws : List Word}
    (hpend : (s.procs p).pending = op :: rest) (hwait : op.isWait = false)
    (hproduce : ∀ x ∈ more, x.isProduce = false) (htail : ∀ f, .refill f ∉ more.tail)
    (honly : ∀ f, f ≠ source → .refill f ∉ more)
    (hq : Holds q (sent source p) (taken source p) (Waits p (s.procs source).pending)
      (.refill source ∈ more)) :
    Linked ((s.setQueue (source, p) q).setProc p { s.procs p with pending := more ++ rest, words := ws })
      sent taken := by
  have hlinked : Linked ((s.setQueue (source, p) q).setProc p
      { s.procs p with pending := more ++ rest, words := ws }) _ _ :=
    h.consumeMore hpend hwait hproduce htail honly hq
  have htaken : (fun f t => if (f, t) = (source, p) then taken source p else taken f t) = taken := by
    funext f t
    split_ifs with hk
    · cases hk
      rfl
    · rfl
  rwa [htaken] at hlinked

theorem Linked.consumeWord (h : Linked s sent taken) {source : ℕ} {ws : List Word} {w : Word}
    (hpend : (s.procs p).pending = op :: rest) (hwait : op.isWait = false)
    (hsends : ∀ t, op.sends t = []) (htakes : ∀ f, op.takes f = if source = f then 1 else 0)
    (hword : (sent source p)[taken source p]? = some w)
    (hq : Holds q (sent source p) (taken source p + 1) (Waits p (s.procs source).pending) False) :
    ∃ sent' taken', Linked ((s.setQueue (source, p) q).setProc p
        { s.procs p with pending := [] ++ rest, words := ws }) sent' taken' ∧
      Moved p (source, p) (op :: rest) ([] ++ rest) [w] sent sent' taken taken' := by
  refine ⟨_, _, h.consumeMore hpend hwait (fun x hx => by cases hx) (fun f hf => by cases hf)
    (fun f _ hf => by cases hf) (hq.congr id fun hf => by cases hf), fun _ _ _ => rfl, fun t => ?_,
    took_advance hword, fun f => ?_, fun _ => rfl⟩
  · rw [outgoing_cons, hsends, List.nil_append, List.nil_append]
  · rw [incoming_cons, htakes, List.nil_append, List.length_singleton, Nat.add_comm]
    split_ifs with h1 h2 h2
    · rfl
    · exact absurd h1.symm h2
    · exact absurd h2.symm h1
    · rfl

theorem Linked.queueStep (h : Linked s sent taken) {flushAll : List QueueOp} {ws : List Word}
    (hflush : OnlyFlushes flushAll) (hpend : (s.procs p).pending = op :: rest)
    (hexec : (s.queues (op.queue p).1 (op.queue p).2).exec flushAll op = some (q, more, ws)) :
    ∃ sent' taken', Linked ((s.setQueue (op.queue p) q).setProc p
        { s.procs p with pending := more ++ rest, words := (s.procs p).words ++ ws }) sent' taken' ∧
      Moved p (op.queue p) (op :: rest) (more ++ rest) ws sent sent' taken taken' := by
  have hspins : ∀ (last : QueueOp), last.isProduce = false → (∀ f, last ≠ .refill f) →
      (∀ x ∈ flushAll ++ [last], x.isProduce = false) ∧ ∀ f, .refill f ∉ flushAll ++ [last] := by
    intro last hlast hno
    refine ⟨fun x hx => ?_, fun f hf => ?_⟩
    · rcases List.mem_append.1 hx with hx | hx
      · exact hflush.not_produce hx
      · rwa [List.mem_singleton.1 hx]
    · rcases List.mem_append.1 hf with hf | hf
      · exact hflush.not_refill f hf
      · exact hno f (List.mem_singleton.1 hf).symm
  have hout : ∀ last t, outgoing t (flushAll ++ [last] ++ rest) = outgoing t (last :: rest) := by
    intro last t
    rw [List.append_assoc, outgoing_append, hflush.outgoing_eq, List.nil_append, List.singleton_append]
  have hin : ∀ last f, incoming f (flushAll ++ [last] ++ rest) = incoming f (last :: rest) := by
    intro last f
    rw [List.append_assoc, incoming_append, hflush.incoming_eq, Nat.zero_add, List.singleton_append]
  cases op with
  | produce2 dest a b =>
      cases hexec
      exact h.produce2 hpend rfl
  | waitConsumer dest =>
      change (if (s.queues p dest).crowded then _ else _) = _ at hexec
      split_ifs at hexec with hcrowded <;> cases hexec
      · exact ⟨sent, taken, h.produceWait hflush hpend, .quiet (hout _) (hin _)⟩
      · refine ⟨sent, taken, h.produceDone hpend (fun t ht he => ht (by cases he; rfl))
          (fun t _ he => by cases he) ?_, .quiet (fun _ => rfl) fun _ => (Nat.zero_add _).symm⟩
        exact ((h.holds p dest).passed hcrowded _).flush
  | spinConsumer dest =>
      change (if (s.queues p dest).crowded then _ else _) = _ at hexec
      split_ifs at hexec with hcrowded
      cases hexec
      refine ⟨sent, taken, h.produceDone hpend (fun t _ he => by cases he)
        (fun t ht he => ht (by cases he; rfl)) ?_, .quiet (fun _ => rfl) fun _ => (Nat.zero_add _).symm⟩
      exact (h.holds p dest).passed hcrowded _
  | flush dest =>
      cases hexec
      refine ⟨sent, taken, h.produceDone hpend (fun t _ he => by cases he) (fun t _ he => by cases he) ?_,
        .quiet (fun _ => rfl) fun _ => (Nat.zero_add _).symm⟩
      refine (h.holds p dest).flush.congr (fun hw => ?_) id
      rw [hpend] at hw
      exact hw.of_cons (fun he => by cases he) fun he => by cases he
  | reverseFlush source =>
      cases hexec
      refine ⟨sent, taken, h.consumeIndex hpend rfl (fun x hx => by cases hx) (fun f hf => by cases hf)
        (fun f _ hf => by cases hf) ?_, .quiet (fun _ => rfl) fun _ => (Nat.zero_add _).symm⟩
      exact (h.holds source p).reverseFlush.congr id fun hf => by cases hf
  | consume source =>
      change (if (s.queues source p).cInx = (s.queues source p).cMargin then _ else _) = _ at hexec
      split_ifs at hexec with hmargin <;> cases hexec
      · refine ⟨sent, taken, h.consumeIndex hpend rfl (fun x hx => ?_) (fun f hf => by cases hf)
          (fun f _ hf => by cases List.mem_singleton.1 hf) ?_, .quiet (fun _ => rfl) fun _ => rfl⟩
        · rw [List.mem_singleton.1 hx]
          rfl
        · exact (h.holds source p).congr id fun hf => by cases List.mem_singleton.1 hf
      · obtain ⟨hword, hq⟩ := (h.holds source p).take hmargin
        exact h.consumeWord hpend rfl (fun _ => rfl) (fun _ => rfl) hword hq
  | waitAllocated source =>
      change (if (s.queues source p).pGlbInx = (s.queues source p).cInx then _ else _) = _ at hexec
      split_ifs at hexec with hseen <;> cases hexec
      · obtain ⟨hproduce, hno⟩ := hspins (.spinAllocated source) rfl fun f he => by cases he
        refine ⟨sent, taken, h.consumeIndex hpend rfl hproduce (fun f hf => hno f (List.mem_of_mem_tail hf))
          (fun f _ => hno f) ?_, .quiet (hout _) (hin _)⟩
        exact (h.holds source p).congr id fun hf => absurd hf (hno source)
      · refine ⟨sent, taken, h.consumeIndex hpend rfl (fun x hx => ?_) (fun f hf => by cases hf)
          (fun f hf hmem => hf (by cases List.mem_singleton.1 hmem; rfl)) ?_,
            .quiet (fun _ => rfl) fun _ => rfl⟩
        · rw [List.mem_singleton.1 hx]
          rfl
        · exact ((h.holds source p).see hseen).reverseFlush.congr id fun _ => trivial
  | spinAllocated source =>
      change (if (s.queues source p).pGlbInx = (s.queues source p).cInx then _ else _) = _ at hexec
      split_ifs at hexec with hseen
      cases hexec
      refine ⟨sent, taken, h.consumeIndex hpend rfl (fun x hx => ?_) (fun f hf => by cases hf)
        (fun f hf hmem => hf (by cases List.mem_singleton.1 hmem; rfl)) ?_, .quiet (fun _ => rfl) fun _ => rfl⟩
      · rw [List.mem_singleton.1 hx]
        rfl
      · exact ((h.holds source p).see hseen).congr id fun _ => trivial
  | refill source =>
      cases hexec
      have hholds := h.holds source p
      have hrefill : .refill source ∈ (s.procs p).pending := by
        rw [hpend]
        exact List.mem_cons_self
      obtain ⟨hword, hq⟩ := (hholds.congr id fun _ => hrefill).refill
      exact h.consumeWord hpend rfl (fun _ => rfl) (fun _ => rfl) hword hq

end

end Cpf.Smtx
