import Cpf.Basics.RingIndex
import Cpf.Basics.Trans

/-!
# The chunk queue

One producer sends values to one consumer. The producer fills a chunk of its own, and hands it over through
the pathway when it is full or flushed; the consumer reads it and frees it. The threads share nothing but the
pointer in the pathway. A use of a chunk that is not allocated, a second free and an index out of a chunk are
faults.
-/

namespace Cpf.Nq

/-- `CHUNK_SIZE`: 32 cache lines without the word for the fill. -/
def chunkSize : ℕ := (32 * 128 - 8) / 8

/-- Where the producer is; in `spin`, `send` and `alloc` it is in `nq_flush`. -/
inductive ProducerPc
  | idle
  | spin
  | send
  | alloc
  | deleted
  deriving DecidableEq

inductive ConsumerPc
  | idle
  | spin
  | grab
  | clear
  | read
  | deleted
  deriving DecidableEq

/-- A chunk is the list of the values it is filled with, and 0 is the null pointer. The pathway is `none` when
it is freed. `lost` are the values that were in a chunk when it was deleted. -/
structure State (V : Type*) where
  heap : ℕ → Option (List V)
  pathway : Option ℕ
  producerPc : ProducerPc
  producerChunk : ℕ
  consumerPc : ConsumerPc
  consumerChunk : ℕ
  offset : ℕ
  failed : Bool
  produced : List V
  consumed : List V
  lost : List V

inductive Action (V : Type*)
  | produce (v : V)
  | flush
  | producerStep
  | malloc (a : ℕ)
  | deleteProducer
  | consume
  | consumerStep
  | deleteConsumer

variable {V : Type*}

namespace State

/-- `nq_new_consumer` and `nq_new_producer`, whose chunk is at an address `a`. -/
def init (a : ℕ) : State V where
  heap := Function.update (fun _ => none) a (some [])
  pathway := some 0
  producerPc := .idle
  producerChunk := a
  consumerPc := .idle
  consumerChunk := 0
  offset := 0
  failed := false
  produced := []
  consumed := []
  lost := []

variable (s : State V)

def fail : State V := { s with failed := true }

def chunkAt (a : ℕ) : List V := (s.heap a).getD []

def free (a : ℕ) : State V :=
  if (s.heap a).isSome then { s with heap := Function.update s.heap a none } else s.fail

/-- `nq_flush` as far as the producer's own chunk goes. -/
def flush : State V :=
  match s.heap s.producerChunk with
  | none => s.fail
  | some c => if c.length = 0 then s else { s with producerPc := .spin }

def produce (v : V) : State V :=
  match s.heap s.producerChunk with
  | none => s.fail
  | some c =>
      if c.length < chunkSize then
        let s := { s with
          heap := Function.update s.heap s.producerChunk (some (c ++ [v]))
          produced := s.produced ++ [v] }
        if c.length + 1 = chunkSize then s.flush else s
      else s.fail

/-- The rest of `nq_flush`; `malloc` is an action of its own. -/
def producerStep : Option (State V) :=
  match s.producerPc with
  | .spin =>
      match s.pathway with
      | none => some s.fail
      | some p => if p = 0 then some { s with producerPc := .send } else none
  | .send =>
      match s.pathway with
      | none => some s.fail
      | some _ => some { s with pathway := some s.producerChunk, producerPc := .alloc }
  | _ => none

def deleteProducer : State V :=
  let lost := s.chunkAt s.producerChunk
  { s.free s.producerChunk with producerPc := .deleted, lost := lost ++ s.lost }

def consume : State V :=
  if s.consumerChunk = 0 then { s with consumerPc := .spin }
  else
    match s.heap s.consumerChunk with
    | none => s.fail
    | some c =>
        if s.offset = c.length then { s.free s.consumerChunk with consumerPc := .spin }
        else { s with consumerPc := .read }

def consumerStep : Option (State V) :=
  match s.consumerPc with
  | .spin =>
      match s.pathway with
      | none => some s.fail
      | some p => if p = 0 then none else some { s with consumerPc := .grab }
  | .grab =>
      match s.pathway with
      | none => some s.fail
      | some p => some { s with consumerChunk := p, offset := 0, consumerPc := .clear }
  | .clear =>
      match s.pathway with
      | none => some s.fail
      | some _ => some { s with pathway := some 0, consumerPc := .read }
  | .read =>
      match (s.heap s.consumerChunk).bind fun chunk => chunk[s.offset]? with
      | none => some s.fail
      | some v => some { s with offset := s.offset + 1, consumerPc := .idle, consumed := s.consumed ++ [v] }
  | _ => none

def deleteConsumer : State V :=
  match s.pathway with
  | none => s.fail
  | some p =>
      let lost := (s.chunkAt s.consumerChunk).drop s.offset ++ s.chunkAt p
      let s := if s.consumerChunk = 0 then s else s.free s.consumerChunk
      let s := if p = 0 then s else s.free p
      { s with pathway := none, consumerPc := .deleted, lost := lost ++ s.lost }

def step : Action V → Option (State V)
  | .produce v => if s.producerPc = .idle then some (s.produce v) else none
  | .flush => if s.producerPc = .idle then some s.flush else none
  | .producerStep => s.producerStep
  | .malloc a =>
      if s.producerPc = .alloc ∧ a ≠ 0 ∧ s.heap a = none then
        some { s with heap := Function.update s.heap a (some []), producerChunk := a, producerPc := .idle }
      else none
  | .deleteProducer => if s.producerPc = .idle then some s.deleteProducer else none
  | .consume => if s.consumerPc = .idle then some s.consume else none
  | .consumerStep => s.consumerStep
  | .deleteConsumer => if s.consumerPc = .idle then some s.deleteConsumer else none

end State

/-- The consumer, which owns the pathway, is deleted after the producer. -/
def Proper (s : State V) : Action V → Prop
  | .deleteConsumer => s.producerPc = .deleted
  | _ => True

instance (s : State V) : ∀ a, Decidable (Proper s a)
  | .deleteConsumer => inferInstanceAs (Decidable (s.producerPc = .deleted))
  | .produce _ => isTrue trivial
  | .flush => isTrue trivial
  | .producerStep => isTrue trivial
  | .malloc _ => isTrue trivial
  | .deleteProducer => isTrue trivial
  | .consume => isTrue trivial
  | .consumerStep => isTrue trivial

/-! ### Who owns which chunk -/

namespace State

variable (s : State V)

def filling : Option ℕ :=
  match s.producerPc with
  | .idle | .spin | .send => some s.producerChunk
  | _ => none

def inTransit : Option ℕ :=
  match s.pathway with
  | none => none
  | some p => if p = 0 ∨ s.consumerPc = .clear then none else some p

def draining : Option ℕ :=
  match s.consumerPc with
  | .idle | .clear | .read => if s.consumerChunk = 0 then none else some s.consumerChunk
  | _ => none

def contents (o : Option ℕ) : List V := o.elim [] s.chunkAt

/-- The values that were produced and neither consumed nor lost, in the order of the queue. -/
def queued : List V := (s.contents s.draining).drop s.offset ++ s.contents s.inTransit ++ s.contents s.filling

end State

structure Owned (s : State V) : Prop where
  live : ∀ a, (s.heap a).isSome ↔ s.filling = some a ∨ s.inTransit = some a ∨ s.draining = some a
  filling_ne : ∀ a, s.filling = some a → s.inTransit ≠ some a ∧ s.draining ≠ some a
  inTransit_ne : ∀ a, s.inTransit = some a → s.draining ≠ some a
  null : s.heap 0 = none

structure Ok (s : State V) : Prop where
  failed_eq : s.failed = false
  owned : Owned s
  filled : ∀ a, (s.chunkAt a).length ≤ chunkSize
  room : s.producerPc = .idle → (s.chunkAt s.producerChunk).length < chunkSize
  flushed : s.producerPc = .spin ∨ s.producerPc = .send → s.chunkAt s.producerChunk ≠ []
  transit : ∀ a, s.inTransit = some a → s.chunkAt a ≠ []
  send : s.producerPc = .send → s.pathway = some 0
  grab : s.consumerPc = .grab → ∃ p, s.pathway = some p ∧ p ≠ 0
  clear : s.consumerPc = .clear → s.pathway = some s.consumerChunk ∧ s.consumerChunk ≠ 0 ∧ s.offset = 0
  read : s.consumerPc = .clear ∨ s.consumerPc = .read →
    s.consumerChunk ≠ 0 ∧ s.offset < (s.chunkAt s.consumerChunk).length
  offset_le : s.consumerPc = .idle → s.offset ≤ (s.chunkAt s.consumerChunk).length
  pathway : s.pathway = none ↔ s.consumerPc = .deleted
  deleted : s.consumerPc = .deleted → s.producerPc = .deleted
  ledger : s.consumed ++ s.queued ++ s.lost = s.produced
  lost_nil : s.producerPc ≠ .deleted → s.lost = []

variable {s s' : State V} {a : ℕ}

theorem ok_init (ha : a ≠ 0) : Ok (State.init a : State V) := by
  have hat : ∀ b, (State.init a : State V).chunkAt b = [] := by
    intro b
    by_cases hb : b = a <;> simp [State.init, State.chunkAt, hb]
  refine ⟨rfl, ⟨fun b => ?_, fun b hb => ?_, fun b hb => ?_, ?_⟩, fun b => by rw [hat]; exact Nat.zero_le _,
    fun _ => by rw [hat]; exact Nat.succ_pos _, ?_, ?_, ?_, ?_, ?_, ?_, fun _ => Nat.zero_le _, ?_, ?_, ?_,
      fun _ => rfl⟩
  · by_cases hb : b = a
    · simp [State.init, State.filling, hb]
    · simp [State.init, State.filling, State.inTransit, State.draining, hb, Ne.symm hb]
  · simp [State.init, State.inTransit, State.draining]
  · simp [State.init, State.inTransit] at hb
  · simp [State.init, ha.symm]
  · simp [State.init]
  · simp [State.init, State.inTransit]
  · simp [State.init]
  · simp [State.init]
  · simp [State.init]
  · simp [State.init]
  · simp [State.init]
  · simp [State.init]
  · simp [State.queued, State.contents, State.filling, State.inTransit, State.draining, State.init,
      State.chunkAt]

namespace Ok

theorem chunkAt_eq {c : List V} (hc : s.heap a = some c) :
    s.chunkAt a = c := by rw [State.chunkAt, hc, Option.getD_some]

theorem heap_eq (h : Ok s) (ha : s.filling = some a ∨ s.inTransit = some a ∨ s.draining = some a) :
    s.heap a = some (s.chunkAt a) ∧ a ≠ 0 := by
  obtain ⟨c, hc⟩ := Option.isSome_iff_exists.1 ((h.owned.live a).2 ha)
  refine ⟨by rw [chunkAt_eq hc, hc], ?_⟩
  rintro rfl
  rw [h.owned.null] at hc
  cases hc

theorem filling_eq (h : s.producerPc = .idle ∨ s.producerPc = .spin ∨ s.producerPc = .send) :
    s.filling = some s.producerChunk := by
  rcases h with h | h | h <;> simp only [State.filling, h]

theorem draining_eq (h : s.consumerPc = .idle ∨ s.consumerPc = .clear ∨ s.consumerPc = .read)
    (hne : s.consumerChunk ≠ 0) : s.draining = some s.consumerChunk := by
  rcases h with h | h | h <;> simp only [State.draining, h, if_neg hne]

theorem pathway_ne (h : Ok s) (hp : s.producerPc ≠ .deleted) : s.pathway ≠ none := fun hpath =>
  hp (h.deleted (h.pathway.1 hpath))

theorem contents_some (s : State V) (a : ℕ) : s.contents (some a) = s.chunkAt a := rfl

theorem chunkAt_congr {a : ℕ} (h : s'.heap a = s.heap a) : s'.chunkAt a = s.chunkAt a := by
  rw [State.chunkAt, State.chunkAt, h]

/-- What the consumer and the pathway are is a matter of these fields. -/
structure SameConsumer (s s' : State V) : Prop where
  pathway : s'.pathway = s.pathway
  pc : s'.consumerPc = s.consumerPc
  chunk : s'.consumerChunk = s.consumerChunk
  offset : s'.offset = s.offset
  consumed : s'.consumed = s.consumed
  failed : s'.failed = s.failed

/-- A step of the producer that changes no chunk but its own. -/
theorem producerChanges (h : Ok s) (hsame : SameConsumer s s') (hold : s.producerPc ≠ .deleted)
    (hheap : ∀ b, s.filling ≠ some b → s'.filling ≠ some b → s'.heap b = s.heap b)
    (hnew : ∀ b, s'.filling = some b → b ≠ 0 ∧ (s'.heap b).isSome ∧ s.inTransit ≠ some b ∧ s.draining ≠ some b)
    (hgone : ∀ b, s.filling = some b → s'.filling ≠ some b → s'.heap b = none)
    (hfilled : ∀ b, s'.filling = some b → (s'.chunkAt b).length ≤ chunkSize)
    (hroom : s'.producerPc = .idle → (s'.chunkAt s'.producerChunk).length < chunkSize)
    (hflushed : s'.producerPc = .spin ∨ s'.producerPc = .send → s'.chunkAt s'.producerChunk ≠ [])
    (hsend : s'.producerPc = .send → s'.pathway = some 0) (hlost : s'.producerPc ≠ .deleted → s'.lost = [])
    (hledger : ∀ values, values ++ s.contents s.filling = s.produced →
      values ++ s'.contents s'.filling ++ s'.lost = s'.produced) : Ok s' := by
  have htransit : s'.inTransit = s.inTransit := by simp only [State.inTransit, hsame.pathway, hsame.pc]
  have hdraining : s'.draining = s.draining := by simp only [State.draining, hsame.pc, hsame.chunk]
  have hkeep : ∀ b, s.inTransit = some b ∨ s.draining = some b → s'.heap b = s.heap b := by
    intro b hb
    refine hheap b (fun hf => ?_) fun hf => ?_
    · exact hb.elim (h.owned.filling_ne b hf).1 (h.owned.filling_ne b hf).2
    · exact hb.elim (hnew b hf).2.2.1 (hnew b hf).2.2.2
  have hzero : s'.heap 0 = none := by
    by_cases hf : s.filling = some 0
    · exact absurd rfl (h.heap_eq (.inl hf)).2
    · rw [hheap 0 hf fun hf' => (hnew 0 hf').1 rfl, h.owned.null]
  have hconsumer : s.consumerPc = .idle ∨ s.consumerPc = .clear ∨ s.consumerPc = .read →
      s'.chunkAt s.consumerChunk = s.chunkAt s.consumerChunk := by
    intro hpc
    apply chunkAt_congr
    by_cases hc : s.consumerChunk = 0
    · rw [hc, hzero, h.owned.null]
    · exact hkeep _ (.inr (draining_eq hpc hc))
  have hvalues : ∀ o, (∀ b, o = some b → s.inTransit = some b ∨ s.draining = some b) →
      s'.contents o = s.contents o := by
    intro o ho
    cases o with
    | none => rfl
    | some b => exact chunkAt_congr (hkeep b (ho b rfl))
  refine ⟨hsame.failed.trans h.failed_eq, ⟨fun b => ?_, fun b hb => ?_, fun b hb => ?_, hzero⟩,
    fun b => ?_, hroom,
    hflushed, fun b hb => ?_, hsend, fun hpc => ?_, fun hpc => ?_, fun hpc => ?_, fun hpc => ?_, ?_,
      fun hpc => ?_, ?_,
    hlost⟩
  · rw [htransit, hdraining]
    by_cases hf' : s'.filling = some b
    · exact iff_of_true (hnew b hf').2.1 (.inl hf')
    · by_cases hf : s.filling = some b
      · rw [hgone b hf hf']
        obtain ⟨ht, hd⟩ := h.owned.filling_ne b hf
        exact iff_of_false Bool.false_ne_true (by simp [hf', ht, hd])
      · rw [hheap b hf hf', h.owned.live b]
        simp [hf, hf']
  · rw [htransit, hdraining]
    exact (hnew b hb).2.2
  · rw [htransit] at hb
    rw [hdraining]
    exact h.owned.inTransit_ne b hb
  · by_cases hf' : s'.filling = some b
    · exact hfilled b hf'
    · by_cases hf : s.filling = some b
      · simp [State.chunkAt, hgone b hf hf']
      · rw [chunkAt_congr (hheap b hf hf')]
        exact h.filled b
  · rw [htransit] at hb
    rw [chunkAt_congr (hkeep b (.inl hb))]
    exact h.transit b hb
  · rw [hsame.pathway]
    exact h.grab (hsame.pc ▸ hpc)
  · rw [hsame.pathway, hsame.chunk, hsame.offset]
    exact h.clear (hsame.pc ▸ hpc)
  · rw [hsame.pc] at hpc
    rw [hsame.chunk, hsame.offset, hconsumer (.inr hpc)]
    exact h.read hpc
  · rw [hsame.pc] at hpc
    rw [hsame.chunk, hsame.offset, hconsumer (.inl hpc)]
    exact h.offset_le hpc
  · rw [hsame.pathway, hsame.pc]
    exact h.pathway
  · exact absurd (h.deleted (hsame.pc ▸ hpc)) hold
  · have hold_ledger := h.ledger
    rw [State.queued, h.lost_nil hold, List.append_nil, ← List.append_assoc, ← List.append_assoc] at hold_ledger
    have hnew_ledger := hledger _ hold_ledger
    rw [State.queued, htransit, hdraining, hsame.offset, hsame.consumed, hvalues _ fun b => .inl,
      hvalues _ fun b => .inr]
    simpa only [List.append_assoc] using hnew_ledger

/-- A step that only moves the producer within its call. -/
theorem producerMoves (h : Ok s) {pc : ProducerPc} (hpc : pc = .idle ∨ pc = .spin ∨ pc = .send)
    (hold : s.producerPc = .idle ∨ s.producerPc = .spin ∨ s.producerPc = .send)
    (hroom : pc = .idle → (s.chunkAt s.producerChunk).length < chunkSize)
    (hflushed : pc = .spin ∨ pc = .send → s.chunkAt s.producerChunk ≠ [])
    (hsend : pc = .send → s.pathway = some 0) : Ok { s with producerPc := pc } := by
  have hfilling : ({ s with producerPc := pc } : State V).filling = s.filling := by
    rw [filling_eq hold]
    exact filling_eq hpc
  have hnot : s.producerPc ≠ .deleted := by rcases hold with h | h | h <;> rw [h] <;> decide
  refine h.producerChanges ⟨rfl, rfl, rfl, rfl, rfl, rfl⟩ hnot (fun _ _ _ => rfl) (fun b hb => ?_)
    (fun b hb hb' => absurd (hfilling.trans hb) hb') (fun b _ => h.filled b) hroom hflushed hsend
    (fun _ => h.lost_nil hnot) fun values hvalues => ?_
  · rw [hfilling] at hb
    have hheap := h.heap_eq (.inl hb)
    exact ⟨hheap.2, by rw [hheap.1]; rfl, h.owned.filling_ne b hb⟩
  · rw [hfilling]
    show values ++ s.contents s.filling ++ s.lost = s.produced
    rw [h.lost_nil hnot, List.append_nil, hvalues]

theorem flush (h : Ok s) (hidle : s.producerPc = .idle) : Ok s.flush := by
  rw [State.flush, (h.heap_eq (.inl (filling_eq (.inl hidle)))).1]
  dsimp only
  split_ifs with hempty
  · exact h
  · exact h.producerMoves (.inr (.inl rfl))
      (.inl hidle) nofun (fun _ => by rwa [ne_eq, ← List.length_eq_zero_iff]) nofun

theorem produce (h : Ok s) (hidle : s.producerPc = .idle) (v : V) : Ok (s.produce v) := by
  have hfilling : s.filling = some s.producerChunk := filling_eq (.inl hidle)
  have hroom := h.room hidle
  have hnot : s.producerPc ≠ .deleted := by rw [hidle]; decide
  obtain ⟨hheap, hne⟩ := h.heap_eq (.inl hfilling)
  set c := s.chunkAt s.producerChunk with hc
  set pc : ProducerPc := if c.length + 1 = chunkSize then .spin else .idle with hpc
  set s' : State V := { s with
    heap := Function.update s.heap s.producerChunk (some (c ++ [v]))
    produced := s.produced ++ [v]
    producerPc := pc } with hs'
  have hproduce : s.produce v = s' := by
    simp only [State.produce, hheap, if_pos hroom, State.flush, Function.update_self, List.length_append,
      List.length_singleton, Nat.succ_ne_zero, if_false, hs', hpc]
    split_ifs
    · rfl
    · rw [← hidle]
  have hfilling' : s'.filling = some s.producerChunk := filling_eq (by simp only [hs', hpc]; split_ifs <;> simp)
  have hself : s'.chunkAt s.producerChunk = c ++ [v] := by simp [hs', State.chunkAt]
  rw [hproduce]
  refine h.producerChanges ⟨rfl, rfl, rfl, rfl, rfl, rfl⟩ hnot (fun b hb _ => ?_) (fun b hb => ?_)
    (fun b hb hb' => absurd (hfilling'.trans (hfilling.symm.trans hb)) hb') (fun b hb => ?_) (fun hp => ?_)
      (fun _ => ?_)
    (fun hp => ?_) (fun _ => h.lost_nil hnot) fun values hvalues => ?_
  · exact Function.update_of_ne (fun heq : b = s.producerChunk => hb (heq ▸ hfilling)) _ _
  · obtain rfl : s.producerChunk = b := Option.some.inj (hfilling'.symm.trans hb)
    exact ⟨hne, by simp [hs'], h.owned.filling_ne _ hfilling⟩
  · obtain rfl : s.producerChunk = b := Option.some.inj (hfilling'.symm.trans hb)
    rw [hself, List.length_append]
    exact hroom
  · have hnotFull : c.length + 1 ≠ chunkSize := by
      intro hfull
      simp only [hs', hpc, if_pos hfull] at hp
      cases hp
    show (s'.chunkAt s.producerChunk).length < chunkSize
    rw [hself, List.length_append]
    exact lt_of_le_of_ne hroom hnotFull
  · show s'.chunkAt s.producerChunk ≠ []
    rw [hself]
    exact List.append_ne_nil_of_right_ne_nil _ (List.cons_ne_nil _ _)
  · simp only [hs', hpc] at hp
    split_ifs at hp
  · rw [hfilling, contents_some] at hvalues
    rw [hfilling', contents_some, hself]
    show values ++ (c ++ [v]) ++ s.lost = s.produced ++ [v]
    rw [h.lost_nil hnot, ← hvalues]
    simp [hc]

theorem malloc (h : Ok s) (hpc : s.producerPc = .alloc) (ha : a ≠ 0) (hfree : s.heap a = none) :
    Ok { s with heap := Function.update s.heap a (some []), producerChunk := a, producerPc := .idle } := by
  have hnone : ¬ (s.filling = some a ∨ s.inTransit = some a ∨ s.draining = some a) := by
    rw [← h.owned.live, hfree]
    exact Bool.false_ne_true
  have hnil : s.filling = none := by simp only [State.filling, hpc]
  have hnot : s.producerPc ≠ .deleted := by rw [hpc]; decide
  set s' : State V := { s with
    heap := Function.update s.heap a (some []), producerChunk := a, producerPc := .idle } with hs'
  have hfilling' : s'.filling = some a := filling_eq (.inl rfl)
  have hself : s'.chunkAt a = [] := by simp [hs', State.chunkAt]
  refine h.producerChanges ⟨rfl, rfl, rfl, rfl, rfl, rfl⟩ hnot (fun b _ hb => ?_) (fun b hb => ?_)
    (fun b hb => by rw [hnil] at hb; cases hb) (fun b hb => ?_) (fun _ => ?_)
    (fun hp => by rcases hp with hp | hp <;> cases hp)
    nofun (fun _ => h.lost_nil hnot) fun values hvalues => ?_
  · exact Function.update_of_ne (fun heq => hb (by rw [hfilling', heq])) _ _
  · obtain rfl : a = b := Option.some.inj (hfilling'.symm.trans hb)
    exact ⟨ha, by simp [hs'], fun ht => hnone (.inr (.inl ht)), fun hd => hnone (.inr (.inr hd))⟩
  · obtain rfl : a = b := Option.some.inj (hfilling'.symm.trans hb)
    rw [hself]
    exact Nat.zero_le _
  · show (s'.chunkAt a).length < chunkSize
    rw [hself]
    exact Nat.succ_pos _
  · rw [hnil] at hvalues
    rw [hfilling', contents_some, hself]
    show values ++ [] ++ s.lost = s.produced
    rw [h.lost_nil hnot, List.append_nil, ← hvalues]
    rfl

theorem deleteProducer (h : Ok s) (hidle : s.producerPc = .idle) : Ok s.deleteProducer := by
  have hfilling : s.filling = some s.producerChunk := filling_eq (.inl hidle)
  obtain ⟨hheap, hne⟩ := h.heap_eq (.inl hfilling)
  have hnot : s.producerPc ≠ .deleted := by rw [hidle]; decide
  have hdelete : s.deleteProducer = { s with
      heap := Function.update s.heap s.producerChunk none
      producerPc := .deleted
      lost := s.chunkAt s.producerChunk ++ s.lost } := by
    simp [State.deleteProducer, State.free, hheap]
  rw [hdelete]
  refine h.producerChanges ⟨rfl, rfl, rfl, rfl, rfl, rfl⟩ hnot (fun b hb _ => ?_) nofun
    (fun b hb _ => ?_) nofun nofun
    (fun hp => by rcases hp with hp | hp <;> cases hp) nofun (fun hp => absurd rfl hp) fun values hvalues => ?_
  · exact Function.update_of_ne (fun heq : b = s.producerChunk => hb (heq ▸ hfilling)) _ _
  · obtain rfl : s.producerChunk = b := Option.some.inj (hfilling.symm.trans hb)
    exact Function.update_self _ _ _
  · rw [hfilling, contents_some] at hvalues
    show values ++ [] ++ (s.chunkAt s.producerChunk ++ s.lost) = s.produced
    rw [h.lost_nil hnot, List.append_nil, List.append_nil, hvalues]

theorem sends (h : Ok s) (hpc : s.producerPc = .send) :
    Ok { s with pathway := some s.producerChunk, producerPc := .alloc } := by
  have hfilling : s.filling = some s.producerChunk := filling_eq (.inr (.inr hpc))
  obtain ⟨_, hne⟩ := h.heap_eq (.inl hfilling)
  have hpathway := h.send hpc
  have hclear : s.consumerPc ≠ .clear := by
    intro hclear
    obtain ⟨hpath, hzero, _⟩ := h.clear hclear
    rw [hpathway] at hpath
    exact hzero (Option.some.inj hpath).symm
  have hdeleted : s.consumerPc ≠ .deleted := fun hd => by
    rw [h.pathway.2 hd] at hpathway
    cases hpathway
  set s' : State V := { s with pathway := some s.producerChunk, producerPc := .alloc } with hs'
  have htransit : s.inTransit = none := by simp [State.inTransit, hpathway]
  have htransit' : s'.inTransit = some s.producerChunk := by simp [hs', State.inTransit, hne, hclear]
  have hfilling' : s'.filling = none := rfl
  have hdraining' : s'.draining = s.draining := rfl
  refine { h with
    owned := ⟨fun b => ?_, nofun, fun b hb => ?_, h.owned.null⟩
    room := nofun
    flushed := fun hp => by rcases hp with hp | hp <;> cases hp
    transit := fun b hb => ?_
    send := nofun
    grab := fun _ => ⟨_, rfl, hne⟩
    clear := fun hc => absurd hc hclear
    pathway := iff_of_false nofun hdeleted
    deleted := fun hd => absurd hd hdeleted
    ledger := ?_
    lost_nil := fun _ => h.lost_nil (by rw [hpc]; decide) }
  · have hlive := h.owned.live b
    rw [hfilling, htransit] at hlive
    rw [htransit', hfilling', hdraining']
    simpa using hlive
  · rw [htransit'] at hb
    rw [← Option.some.inj hb]
    exact (h.owned.filling_ne _ hfilling).2
  · rw [htransit'] at hb
    rw [← Option.some.inj hb]
    exact h.flushed (.inr hpc)
  · have hledger := h.ledger
    rw [State.queued, hfilling, htransit] at hledger
    rw [State.queued, htransit', hfilling', hdraining']
    have hsame : ∀ o, s'.contents o = s.contents o := fun _ => rfl
    have hnone : s.contents none = [] := rfl
    rw [hnone, List.append_nil] at hledger
    rw [hsame, hsame, hsame, hnone, List.append_nil]
    exact hledger

theorem producerStep (h : Ok s) (hs : s.producerStep = some s') : Ok s' := by
  cases hpc : s.producerPc <;> simp only [State.producerStep, hpc] at hs
  case idle => cases hs
  case alloc => cases hs
  case deleted => cases hs
  case spin =>
    split at hs
    · next hp => exact absurd hp (h.pathway_ne (by rw [hpc]; decide))
    · next p hp =>
      split_ifs at hs with hzero
      cases hs
      exact h.producerMoves (.inr (.inr rfl)) (.inr (.inl hpc)) nofun (fun _ => h.flushed (.inl hpc))
        fun _ => by rw [hp, hzero]
  case send =>
    rw [h.send hpc] at hs
    cases hs
    exact h.sends hpc

/-! ### The consumer -/

structure SameProducer (s s' : State V) : Prop where
  pc : s'.producerPc = s.producerPc
  chunk : s'.producerChunk = s.producerChunk
  produced : s'.produced = s.produced
  lost : s'.lost = s.lost
  failed : s'.failed = s.failed

/-- A step of the consumer, which may take the chunk in the pathway and free its old one. -/
theorem consumerChanges (h : Ok s) (hsame : SameProducer s s')
    (hheap : ∀ b, (s.draining = some b → s'.draining = some b) → s'.heap b = s.heap b)
    (hgone : ∀ b, s.draining = some b → s'.draining ≠ some b → s'.heap b = none)
    (htransit : ∀ b, s'.inTransit = some b → s.inTransit = some b ∧ s'.draining ≠ some b)
    (hdraining : ∀ b, s'.draining = some b → s.inTransit = some b ∨ s.draining = some b)
    (hpassed : ∀ b, s.inTransit = some b → s'.inTransit = some b ∨ s'.draining = some b)
    (hpathway : s'.pathway ≠ none) (hpc : s'.consumerPc ≠ .deleted)
    (hsend : s.pathway = some 0 → s'.pathway = some 0)
    (hgrab : s'.consumerPc = .grab → ∃ p, s'.pathway = some p ∧ p ≠ 0)
    (hclear : s'.consumerPc = .clear → s'.pathway = some s'.consumerChunk ∧ s'.consumerChunk ≠ 0 ∧
    s'.offset = 0)
    (hread : s'.consumerPc = .clear ∨ s'.consumerPc = .read →
      s'.consumerChunk ≠ 0 ∧ s'.offset < (s'.chunkAt s'.consumerChunk).length)
    (hoffset : s'.consumerPc = .idle → s'.offset ≤ (s'.chunkAt s'.consumerChunk).length)
    (hledger : s'.consumed ++ ((s'.contents s'.draining).drop s'.offset ++ s'.contents s'.inTransit) =
      s.consumed ++ ((s.contents s.draining).drop s.offset ++ s.contents s.inTransit)) : Ok s' := by
  have hfilling : s'.filling = s.filling := by simp only [State.filling, hsame.pc, hsame.chunk]
  have hfill : ∀ b, s.filling = some b → s'.heap b = s.heap b := fun b hb =>
    hheap b fun hd => absurd hd (h.owned.filling_ne b hb).2
  have hsmall : ∀ b, s'.heap b = s.heap b ∨ s'.heap b = none := by
    intro b
    by_cases hd : s.draining = some b → s'.draining = some b
    · exact .inl (hheap b hd)
    · obtain ⟨hd, hd'⟩ := Classical.not_imp.1 hd
      exact .inr (hgone b hd hd')
  have hproducer : s'.producerPc = .idle ∨ s'.producerPc = .spin ∨ s'.producerPc = .send →
      s'.chunkAt s'.producerChunk = s.chunkAt s.producerChunk := by
    intro hp
    rw [hsame.pc] at hp
    rw [hsame.chunk]
    exact chunkAt_congr (hfill _ (filling_eq hp))
  refine ⟨hsame.failed.trans h.failed_eq, ⟨fun b => ?_, fun b hb => ?_, fun b hb => (htransit b hb).2, ?_⟩,
    fun b => ?_,
    fun hp => ?_, fun hp => ?_, fun b hb => ?_, fun hp => ?_, hgrab, hclear, hread, hoffset,
    iff_of_false hpathway hpc, fun hp => absurd hp hpc, ?_, fun hp => ?_⟩
  · rw [hfilling]
    by_cases hd : s.draining = some b ∧ s'.draining ≠ some b
    · rw [hgone b hd.1 hd.2]
      refine iff_of_false Bool.false_ne_true ?_
      rintro (hf | ht | hd')
      · exact (h.owned.filling_ne b hf).2 hd.1
      · exact h.owned.inTransit_ne b (htransit b ht).1 hd.1
      · exact hd.2 hd'
    · have hstays : s.draining = some b → s'.draining = some b := fun hb => by_contra fun hb' => hd ⟨hb, hb'⟩
      rw [hheap b hstays, h.owned.live b]
      constructor
      · rintro (hf | ht | hd)
        · exact .inl hf
        · exact .inr (hpassed b ht)
        · exact .inr (.inr (hstays hd))
      · rintro (hf | ht | hd)
        · exact .inl hf
        · exact .inr (.inl (htransit b ht).1)
        · exact .inr (hdraining b hd)
  · rw [hfilling] at hb
    obtain ⟨ht, hd⟩ := h.owned.filling_ne b hb
    exact ⟨fun ht' => ht (htransit b ht').1, fun hd' => (hdraining b hd').elim ht hd⟩
  · exact (hsmall 0).elim (fun hzero => hzero.trans h.owned.null) id
  · rcases hsmall b with hb | hb
    · rw [chunkAt_congr hb]
      exact h.filled b
    · simp [State.chunkAt, hb]
  · rw [hproducer (.inl hp)]
    exact h.room (hsame.pc ▸ hp)
  · rw [hproducer (.inr hp)]
    exact h.flushed (hsame.pc ▸ hp)
  · have hold := (htransit b hb).1
    have hheap' : s'.heap b = s.heap b := hheap b fun hd => absurd hd (h.owned.inTransit_ne b hold)
    rw [chunkAt_congr hheap']
    exact h.transit b hold
  · exact hsend (h.send (hsame.pc ▸ hp))
  · have hold := h.ledger
    have hF : s'.contents s'.filling = s.contents s.filling := by
      rw [hfilling]
      cases hf : s.filling with
      | none => rfl
      | some b => exact chunkAt_congr (hfill b hf)
    rw [State.queued] at hold
    rw [State.queued, hF, hsame.lost, hsame.produced, ← hold, ← List.append_assoc, hledger]
    simp only [List.append_assoc]
  · rw [hsame.lost]
    exact h.lost_nil (hsame.pc ▸ hp)

/-- The consumer has nothing to read any more, and waits at the pathway. -/
theorem spins (h : Ok s) (hidle : s.consumerPc = .idle) {heap : ℕ → Option (List V)}
    (hread : (s.contents s.draining).drop s.offset = []) (hheap : ∀ b, s.draining ≠ some b → heap b = s.heap b)
    (hgone : ∀ b, s.draining = some b → heap b = none) : Ok { s with heap := heap, consumerPc := .spin } := by
  have hpath : s.pathway ≠ none := fun hnone => by
    rw [h.pathway.1 hnone] at hidle
    cases hidle
  set s' : State V := { s with heap := heap, consumerPc := .spin } with hs'
  have hdraining' : s'.draining = none := rfl
  have htransit' : s'.inTransit = s.inTransit := by simp [hs', State.inTransit, hidle]
  have hvalues : s'.contents s.inTransit = s.contents s.inTransit := by
    cases ht : s.inTransit with
    | none => rfl
    | some b => exact chunkAt_congr (hheap b (h.owned.inTransit_ne b ht))
  refine h.consumerChanges ⟨rfl, rfl, rfl, rfl, rfl⟩ (fun b hb => ?_) (fun b hb _ => hgone b hb)
    (fun b hb => ⟨htransit' ▸ hb, nofun⟩) nofun (fun b hb => .inl (htransit'.trans hb)) hpath nofun id
      nofun nofun
    (fun hp => by rcases hp with hp | hp <;> cases hp) nofun ?_
  · exact hheap b fun hd => nomatch hb hd
  · rw [hdraining', htransit', hread, hvalues]
    simp [hs', State.contents]

theorem consume (h : Ok s) (hidle : s.consumerPc = .idle) : Ok s.consume := by
  rw [State.consume]
  split_ifs with hzero
  · have hnone : s.draining = none := by simp only [State.draining, hidle, if_pos hzero]
    exact h.spins hidle (by rw [hnone]; exact List.drop_nil)
      (fun _ _ => rfl) fun b hb => by rw [hnone] at hb; cases hb
  · have hdraining : s.draining = some s.consumerChunk := draining_eq (.inl hidle) hzero
    obtain ⟨hheap, _⟩ := h.heap_eq (.inr (.inr hdraining))
    rw [hheap]
    dsimp only
    split_ifs with hend
    · have hfree : s.free s.consumerChunk = { s with heap := Function.update s.heap s.consumerChunk none } := by
        rw [State.free, hheap]
        rfl
      rw [hfree]
      refine h.spins hidle (by rw [hdraining, contents_some, hend, List.drop_length])
        (fun b hb => ?_) fun b hb => ?_
      · exact Function.update_of_ne (fun heq : b = s.consumerChunk => hb (heq ▸ hdraining)) _ _
      · obtain rfl : s.consumerChunk = b := Option.some.inj (hdraining.symm.trans hb)
        exact Function.update_self _ _ _
    · have hlt : s.offset < (s.chunkAt s.consumerChunk).length := lt_of_le_of_ne (h.offset_le hidle) hend
      have hpath : s.pathway ≠ none := fun hnone => by
        rw [h.pathway.1 hnone] at hidle
        cases hidle
      set s' : State V := { s with consumerPc := .read } with hs'
      have hdraining' : s'.draining = s.draining := by
        rw [hdraining]
        exact draining_eq (.inr (.inr rfl)) hzero
      have htransit' : s'.inTransit = s.inTransit := by simp [hs', State.inTransit, hidle]
      refine h.consumerChanges ⟨rfl, rfl, rfl, rfl, rfl⟩ (fun _ _ => rfl)
        (fun b hb hb' => absurd (hdraining'.trans hb) hb') (fun b hb => ?_) (fun b hb => .inr (hdraining' ▸ hb))
        (fun b hb => .inl (htransit'.trans hb)) hpath nofun id nofun nofun (fun _ => ⟨hzero, hlt⟩) nofun ?_
      · rw [htransit'] at hb
        rw [hdraining']
        exact ⟨hb, h.owned.inTransit_ne b hb⟩
      · rw [hdraining', htransit']
        rfl

/-- The consumer takes the chunk that it has seen in the pathway. -/
theorem grabs (h : Ok s) (hpc : s.consumerPc = .grab) {p : ℕ} (hp : s.pathway = some p) :
    Ok { s with consumerChunk := p, offset := 0, consumerPc := .clear } := by
  obtain ⟨q, hq, hne⟩ := h.grab hpc
  obtain rfl : p = q := Option.some.inj (hp.symm.trans hq)
  have htransit : s.inTransit = some p := by simp [State.inTransit, hp, hne, hpc]
  have hdraining : s.draining = none := by simp only [State.draining, hpc]
  set s' : State V := { s with consumerChunk := p, offset := 0, consumerPc := .clear } with hs'
  have htransit' : s'.inTransit = none := by simp [hs', State.inTransit, hp]
  have hdraining' : s'.draining = some p := draining_eq (.inr (.inl rfl)) hne
  refine h.consumerChanges ⟨rfl, rfl, rfl, rfl, rfl⟩ (fun _ _ => rfl)
    (fun b hb => by rw [hdraining] at hb; cases hb)
    (fun b hb => by rw [htransit'] at hb; cases hb) (fun b hb => .inl ?_) (fun b hb => .inr ?_)
    (by rw [hs', hp]; exact nofun) nofun (fun hzero => absurd (Option.some.inj (hp.symm.trans hzero)) hne) nofun
    (fun _ => ⟨hp, hne, rfl⟩) (fun _ => ⟨hne, ?_⟩) nofun ?_
  · rw [htransit, ← hdraining', hb]
  · rw [hdraining', ← htransit, hb]
  · exact List.length_pos_iff.2 (h.transit p htransit)
  · rw [hdraining', htransit', hdraining, htransit]
    simp [hs', State.contents, State.chunkAt]

/-- The pathway is free for the next chunk. -/
theorem clears (h : Ok s) (hpc : s.consumerPc = .clear) :
    Ok { s with pathway := some 0, consumerPc := .read } := by
  have hread := h.read (.inl hpc)
  have htransit : s.inTransit = none := by simp [State.inTransit, (h.clear hpc).1, hpc]
  set s' : State V := { s with pathway := some 0, consumerPc := .read } with hs'
  have htransit' : s'.inTransit = none := by simp [hs', State.inTransit]
  have hdraining' : s'.draining = s.draining :=
    (draining_eq (s := s') (.inr (.inr rfl)) hread.1).trans (draining_eq (.inr (.inl hpc)) hread.1).symm
  refine h.consumerChanges ⟨rfl, rfl, rfl, rfl, rfl⟩ (fun _ _ => rfl)
    (fun b hb hb' => absurd (hdraining'.trans hb) hb')
    (fun b hb => by rw [htransit'] at hb; cases hb) (fun b hb => .inr (hdraining' ▸ hb))
    (fun b hb => by rw [htransit] at hb; cases hb) nofun nofun (fun _ => rfl) nofun nofun
      (fun _ => hread) nofun ?_
  rw [hdraining', htransit', htransit]
  rfl

theorem reads (h : Ok s) (hpc : s.consumerPc = .read) {v : V}
    (hv : (s.chunkAt s.consumerChunk)[s.offset]? = some v) :
    Ok { s with offset := s.offset + 1, consumerPc := .idle, consumed := s.consumed ++ [v] } := by
  obtain ⟨hne, hlt⟩ := h.read (.inr hpc)
  have hpath : s.pathway ≠ none := fun hnone => by
    rw [h.pathway.1 hnone] at hpc
    cases hpc
  set s' : State V := { s with offset := s.offset + 1, consumerPc := .idle, consumed :=
    s.consumed ++ [v] } with hs'
  have hdraining : s.draining = some s.consumerChunk := draining_eq (.inr (.inr hpc)) hne
  have hdraining' : s'.draining = s.draining := (draining_eq (s := s') (.inl rfl) hne).trans hdraining.symm
  have htransit' : s'.inTransit = s.inTransit := by simp [hs', State.inTransit, hpc]
  refine h.consumerChanges ⟨rfl, rfl, rfl, rfl, rfl⟩ (fun _ _ => rfl)
    (fun b hb hb' => absurd (hdraining'.trans hb) hb')
    (fun b hb => ?_) (fun b hb => .inr (hdraining' ▸ hb)) (fun b hb => .inl (htransit'.trans hb)) hpath
    nofun id nofun nofun
    (fun hp => by rcases hp with hp | hp <;> cases hp) (fun _ => hlt) ?_
  · rw [htransit'] at hb
    rw [hdraining']
    exact ⟨hb, h.owned.inTransit_ne b hb⟩
  · obtain ⟨_, hget⟩ := List.getElem?_eq_some_iff.1 hv
    rw [hdraining', htransit', hdraining, contents_some, contents_some, List.drop_eq_getElem_cons hlt, hget]
    show s.consumed ++ [v] ++ (List.drop (s.offset + 1)
        (s.chunkAt s.consumerChunk) ++ s.contents s.inTransit) = _
    simp

theorem consumerStep (h : Ok s) (hs : s.consumerStep = some s') : Ok s' := by
  have hpath : s.consumerPc ≠ .deleted → s.pathway ≠ none := fun hp hnone => hp (h.pathway.1 hnone)
  cases hpc : s.consumerPc <;> simp only [State.consumerStep, hpc] at hs
  case idle => cases hs
  case deleted => cases hs
  case spin =>
    split at hs
    · next hp => exact absurd hp (hpath (by rw [hpc]; decide))
    · next p hp =>
      split_ifs at hs with hzero
      cases hs
      have htransit' : ({ s with consumerPc := .grab } : State V).inTransit = s.inTransit := by
        simp [State.inTransit, hpc]
      have hdraining : s.draining = none := by simp only [State.draining, hpc]
      refine h.consumerChanges ⟨rfl, rfl, rfl, rfl, rfl⟩ (fun _ _ => rfl)
        (fun b hb => by rw [hdraining] at hb; cases hb) (fun b hb => ⟨htransit' ▸ hb, nofun⟩) nofun
        (fun b hb => .inl (htransit'.trans hb)) (hpath (by rw [hpc]; decide)) nofun id
          (fun _ => ⟨p, hp, hzero⟩) nofun
        (fun hp => by rcases hp with hp | hp <;> cases hp) nofun ?_
      rw [htransit', hdraining]
      rfl
  case grab =>
    split at hs
    · next hp => exact absurd hp (hpath (by rw [hpc]; decide))
    · next p hp =>
      cases hs
      exact h.grabs hpc hp
  case clear =>
    rw [(h.clear hpc).1] at hs
    cases hs
    exact h.clears hpc
  case read =>
    have hlt := (h.read (.inr hpc)).2
    have hheap := (h.heap_eq (.inr (.inr (draining_eq (.inr (.inr hpc)) (h.read (.inr hpc)).1)))).1
    rw [hheap, Option.bind_some, List.getElem?_eq_getElem hlt] at hs
    cases hs
    exact h.reads hpc (List.getElem?_eq_getElem hlt)

/-- A chunk pointer is freed unless it is null. -/
theorem free_eq (hnull : s.heap 0 = none) (ha : a ≠ 0 → (s.heap a).isSome) :
    (if a = 0 then s else s.free a) = { s with heap := Function.update s.heap a none } := by
  split_ifs with hzero
  · rw [hzero, ← hnull, Function.update_eq_self]
  · rw [State.free, if_pos (ha hzero)]

/-- The consumer is deleted after the producer; what it had not read is lost. -/
theorem deleteConsumer (h : Ok s) (hidle : s.consumerPc = .idle) (hproducer : s.producerPc = .deleted) :
    Ok s.deleteConsumer := by
  have hfilling : s.filling = none := by simp only [State.filling, hproducer]
  have hdeleted : s.consumerPc ≠ .deleted := by rw [hidle]; decide
  cases hpath : s.pathway with
  | none => exact absurd (h.pathway.1 hpath) hdeleted
  | some p =>
    have htransit : p ≠ 0 → s.inTransit = some p := fun hp => by simp [State.inTransit, hpath, hp, hidle]
    have hdraining : s.consumerChunk ≠ 0 → s.draining = some s.consumerChunk := draining_eq (.inl hidle)
    have hfirst := free_eq (s := s) h.owned.null fun hc => (h.owned.live _).2 (.inr (.inr (hdraining hc)))
    have hsecond := free_eq (a := p) (s := { s with heap := Function.update s.heap s.consumerChunk none })
      (by simp only [Function.update_apply, h.owned.null, ite_self])
      fun hp => by
        have hne : p ≠ s.consumerChunk := fun heq =>
          h.owned.inTransit_ne p (htransit hp) (heq ▸ hdraining (heq ▸ hp))
        simp only [Function.update_of_ne hne]
        exact (h.owned.live p).2 (.inr (.inl (htransit hp)))
    have hempty : Function.update (Function.update s.heap s.consumerChunk none) p none = fun _ => none := by
      funext b
      by_cases hb : b = p
      · rw [hb, Function.update_self]
      by_cases hb' : b = s.consumerChunk
      · rw [Function.update_of_ne hb, hb', Function.update_self]
      rw [Function.update_of_ne hb, Function.update_of_ne hb', ← Option.not_isSome_iff_eq_none,
        h.owned.live b, hfilling]
      rintro (hf | ht | hd)
      · cases hf
      · have hp : p ≠ 0 := fun hp => by simp [State.inTransit, hpath, hp] at ht
        exact hb (Option.some.inj (ht.symm.trans (htransit hp)))
      · have hc : s.consumerChunk ≠ 0 := fun hc => by simp [State.draining, hidle, hc] at hd
        exact hb' (Option.some.inj (hd.symm.trans (hdraining hc)))
    have heq : s.deleteConsumer = { s with
        heap := fun _ => none, pathway := none, consumerPc := .deleted,
        lost := (s.chunkAt s.consumerChunk).drop s.offset ++ s.chunkAt p ++ s.lost } := by
      rw [State.deleteConsumer, hpath]
      dsimp only
      rw [hfirst, hsecond, hempty]
    have hledger := h.ledger
    have hnull : s.chunkAt 0 = [] := by rw [State.chunkAt, h.owned.null, Option.getD_none]
    have hread : s.contents s.draining = s.chunkAt s.consumerChunk := by
      by_cases hc : s.consumerChunk = 0
      · simp [State.draining, hidle, hc, hnull, State.contents]
      · rw [hdraining hc, contents_some]
    have hpassed : s.contents s.inTransit = s.chunkAt p := by
      by_cases hp : p = 0
      · simp [State.inTransit, hpath, hp, hnull, State.contents]
      · rw [htransit hp, contents_some]
    rw [State.queued, hfilling, hread, hpassed] at hledger
    rw [heq]
    refine ⟨h.failed_eq, ⟨fun b => ?_, fun b hb => ?_, nofun, rfl⟩, fun b => Nat.zero_le _, fun hp => ?_,
      fun hp => ?_, nofun, fun hp => ?_, nofun, nofun, fun hp => ?_, nofun, iff_of_true rfl rfl,
      fun _ => hproducer, ?_, fun hp => absurd hproducer hp⟩
    · refine iff_of_false Bool.false_ne_true ?_
      rintro (hf | ht | hd)
      · exact (nomatch hfilling.symm.trans hf)
      · cases ht
      · cases hd
    · exact (nomatch hfilling.symm.trans hb)
    · exact (nomatch hproducer.symm.trans hp)
    · exact hp.elim (fun hp => (nomatch hproducer.symm.trans hp)) fun hp => (nomatch hproducer.symm.trans hp)
    · exact (nomatch hproducer.symm.trans hp)
    · rcases hp with hp | hp <;> cases hp
    · rw [← hledger]
      simp [State.queued, State.contents, State.filling, State.inTransit, State.draining, hproducer]

theorem step (h : Ok s) {e : Action V} (he : Proper s e) (hs : s.step e = some s') : Ok s' := by
  cases e with
  | produce v =>
    simp only [State.step] at hs
    split_ifs at hs with hidle
    cases hs
    exact h.produce hidle v
  | flush =>
    simp only [State.step] at hs
    split_ifs at hs with hidle
    cases hs
    exact h.flush hidle
  | producerStep => exact h.producerStep hs
  | malloc a =>
    simp only [State.step] at hs
    split_ifs at hs with hmalloc
    cases hs
    exact h.malloc hmalloc.1 hmalloc.2.1 hmalloc.2.2
  | deleteProducer =>
    simp only [State.step] at hs
    split_ifs at hs with hidle
    cases hs
    exact h.deleteProducer hidle
  | consume =>
    simp only [State.step] at hs
    split_ifs at hs with hidle
    cases hs
    exact h.consume hidle
  | consumerStep => exact h.consumerStep hs
  | deleteConsumer =>
    simp only [State.step] at hs
    split_ifs at hs with hidle
    cases hs
    exact h.deleteConsumer hidle he

theorem of_run (ha : a ≠ 0) (h : Run State.step Proper (State.init a) s) : Ok s :=
  h.invariant Ok (ok_init ha) fun _ _ _ hok he hs => hok.step he hs

/-- A consumer that finds the pathway empty has consumed all that was handed over. -/
theorem waits (h : Ok s) (hpc : s.consumerPc = .spin) (hblocked : s.consumerStep = none) :
    s.consumed ++ s.contents s.filling ++ s.lost = s.produced ∧ s.pathway = some 0 := by
  simp only [State.consumerStep, hpc] at hblocked
  split at hblocked
  · cases hblocked
  · next p hp =>
    split_ifs at hblocked with hzero
    have hledger := h.ledger
    have hdraining : s.draining = none := by simp only [State.draining, hpc]
    have htransit : s.inTransit = none := by simp [State.inTransit, hp, hzero]
    rw [State.queued, hdraining, htransit] at hledger
    exact ⟨by simpa [State.contents] using hledger, hzero ▸ hp⟩

/-- Nothing is left allocated when both ends are deleted. -/
theorem freed (h : Ok s) (hpc : s.consumerPc = .deleted) (b : ℕ) : s.heap b = none := by
  have hfilling : s.filling = none := by simp only [State.filling, h.deleted hpc]
  have htransit : s.inTransit = none := by simp only [State.inTransit, h.pathway.2 hpc]
  have hdraining : s.draining = none := by simp only [State.draining, hpc]
  rw [← Option.not_isSome_iff_eq_none, h.owned.live b, hfilling, htransit, hdraining]
  simp

end Ok

/-- What is produced is consumed in the same order, whatever the threads' interleaving is; no thread touches a
chunk that it does not own, and none is leaked. A consumer waits only when all that was handed over is
consumed, and the producer is then not waiting for it. -/
theorem queue_safe (ha : a ≠ 0) (h : Run State.step Proper (State.init a) s) :
    s.failed = false ∧ (∀ b, (s.chunkAt b).length ≤ chunkSize) ∧
      s.consumed ++ s.queued ++ s.lost = s.produced ∧ (s.producerPc ≠ .deleted → s.lost = []) ∧
      (s.consumerPc = .spin → s.consumerStep = none →
        s.consumed ++ s.contents s.filling ++ s.lost = s.produced ∧
        (s.producerPc = .spin → s.producerStep ≠ none)) ∧
      (s.consumerPc = .deleted → ∀ b, s.heap b = none) := by
  have hok : Ok s := .of_run ha h
  refine ⟨hok.failed_eq, hok.filled, hok.ledger, hok.lost_nil, fun hpc hblocked => ?_, hok.freed⟩
  obtain ⟨hall, hpath⟩ := hok.waits hpc hblocked
  refine ⟨hall, fun hproducer => ?_⟩
  simp [State.producerStep, hproducer, hpath]

/-- A value that is flushed and consumed. -/
theorem queue_safe_flushed : ∃ s : State ℕ, Run State.step Proper (State.init 1) s ∧ s.consumed = [5] ∧
    s.failed = false ∧ s.consumed ++ s.queued ++ s.lost = s.produced := by
  have hreplay : (Run.replay State.step Proper (State.init 1 : State ℕ) [.produce 5, .flush, .producerStep,
      .consume, .producerStep, .consumerStep, .malloc 2, .consumerStep, .produce 6, .consumerStep,
      .consumerStep]).any fun s => decide (s.consumed = [5]) := by decide
  obtain ⟨s, hrun, hs⟩ := Run.exists_of_any hreplay
  obtain ⟨hfailed, -, hledger, -⟩ := queue_safe (by decide) hrun
  exact ⟨s, hrun, of_decide_eq_true hs, hfailed, hledger⟩

end Cpf.Nq
