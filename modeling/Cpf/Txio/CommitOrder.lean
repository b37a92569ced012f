import Cpf.Txio.CommitEvents
import Cpf.Txio.TimeVectors
import Cpf.Basics.Trans

/-!
# The order of operations

What comes before an operation in nested time order has run before it, as long as no transaction is
finished that waits in the queue of its parent without being ready. The mark `upto` of a transaction
stands for all its children up to that time, a queue has its first event at the front, and everything
before a ready transaction is finished.
-/

namespace Cpf.Txio.TxTree

variable {N : Type}

def Above (T : TxTree N) (u x : N) : Prop :=
  Relation.ReflTransGen (fun p c => T.parent c = some p) u x

/-- `x` comes before `y` in nested time order. -/
def Precedes (T : TxTree N) (x y : N) : Prop :=
  ∃ p u v, T.parent u = some p ∧ T.parent v = some p ∧ T.time u < T.time v ∧ T.Above u x ∧ T.Above v y

def InOrder (T : TxTree N) (log : List (Action N)) : Prop :=
  ∀ before y after, log = before ++ .run y :: after →
    ∀ x, T.isTx x = false → T.Precedes x y → .run x ∈ before

/-- The children of a transaction have distinct times of one length. -/
structure TimesOk (T : TxTree N) : Prop where
  length : ∀ x y p, T.parent x = some p → T.parent y = some p →
    (T.time x).length = (T.time y).length
  distinct : ∀ x y p, T.parent x = some p → T.parent y = some p → T.time x = T.time y → x = y
  small : ∀ x, ∀ i ∈ T.time x, i.toNat < 2 ^ 32 - 1

variable {T : TxTree N} {p x c : N}

theorem lte_refl (x : N) : T.lte x x = true := compareTvLte_refl _

theorem lte_trans (x y z : N) : T.lte x y = true → T.lte y z = true → T.lte x z = true :=
  compareTvLte_trans _ _ _

theorem lte_total (x y : N) : T.lte x y = true ∨ T.lte y x = true := compareTvLte_total _ _

theorem TimesOk.lt_or_eq (h : T.TimesOk) (hx : T.parent x = some p) (hc : T.parent c = some p)
    (hnot : ¬ T.time x < T.time c) : T.time c < T.time x ∨ c = x := by
  have hlength := h.length c x p hc hx
  rcases eq_or_lt_of_compareTvLte hlength ((compareTvLte_iff hlength).2 hnot) with heq | hlt
  · exact Or.inr (h.distinct c x p hc hx heq)
  · exact Or.inl hlt

theorem TimesOk.not_lt (h : T.TimesOk) (hx : T.parent x = some p) (hc : T.parent c = some p)
    (hlte : T.lte x c = true) : ¬ T.time c < T.time x :=
  (compareTvLte_iff (h.length x c p hx hc)).1 hlte

/-! ### Logs -/

theorem InOrder.append {log : List (Action N)} (h : T.InOrder log) {a : Action N}
    (ha : ∀ y, a = .run y → ∀ x, T.isTx x = false → T.Precedes x y → .run x ∈ log) :
    T.InOrder (log ++ [a]) := by
  intro before y after heq
  rcases List.eq_nil_or_concat after with rfl | ⟨after', b, rfl⟩
  · obtain ⟨rfl, hab⟩ := List.append_inj' heq rfl
    rw [List.singleton_inj] at hab
    exact ha y hab
  · have hsplit : log ++ [a] = (before ++ .run y :: after') ++ [b] := by
      rw [heq]
      simp
    obtain ⟨rfl, -⟩ := List.append_inj' hsplit rfl
    exact h before y after' rfl

variable [DecidableEq N]

/-! ### Order in the records -/

structure Ordered (T : TxTree N) (s : State N) (p : N) (t : TX N) : Prop where
  heap : BinaryHeap.Heap T.lte t.queue
  upto : ∀ mark, t.upto = some mark → ∃ u, T.parent u = some p ∧ T.time u = mark ∧
    ∀ c, T.parent c = some p → ¬ T.time u < T.time c → T.finished s c = true
  ready : t.ready = true → ∀ q c, T.parent p = some q → T.parent c = some q →
    T.time c < T.time p → T.finished s c = true

structure OrderOk (T : TxTree N) (s : State N) : Prop where
  ordered : ∀ p t, s.tx p = some t → T.Ordered s p t
  log : T.InOrder s.log

variable {arrived : Finset N} {s s' : State N} {t parent : TX N}

theorem Ordered.mono (h : T.Ordered s p t) (hf : ∀ c, T.finished s c = true → T.finished s' c = true) :
    T.Ordered s' p t where
  heap := h.heap
  upto mark hmark := by
    obtain ⟨u, hu, htime, hall⟩ := h.upto mark hmark
    exact ⟨u, hu, htime, fun c hc hnot => hf c (hall c hc hnot)⟩
  ready hready q c hq hc hlt := hf c (h.ready hready q c hq hc hlt)

theorem OrderOk.set (h : T.OrderOk s) {t' : TX N} (htx : ∀ y, y ≠ x → ∀ u, s'.tx y = some u →
      s.tx y = some u) (hx : ∀ u, s'.tx x = some u → u = t')
    (hf : ∀ c, T.finished s c = true → T.finished s' c = true) (ht' : T.Ordered s' x t')
    (hlog : T.InOrder s'.log) : T.OrderOk s' where
  ordered p t hp := by
    by_cases hpx : p = x
    · subst hpx
      rw [hx t hp]
      exact ht'
    · exact (h.ordered p t (htx p hpx t hp)).mono hf
  log := hlog

omit [DecidableEq N] in
theorem Heap.front_lte {queue : List N} {front : N} {rest : List N}
    (h : BinaryHeap.Heap T.lte queue) (hqueue : queue = front :: rest) (hc : c ∈ queue) :
    T.lte front c = true := by
  apply BinaryHeap.Heap.head_le lte_refl lte_trans h _ hc
  rw [hqueue]
  rfl

variable [Fintype N]

/-- An event may be executed only if all events before it are finished. -/
theorem Ordered.mayExecute (h : T.Ordered s x t) (htimes : T.TimesOk) (hok : T.TxOk arrived s x t)
    (hsmall : (T.children x).card < 2 ^ 32) {front : N} {rest : List N}
    (hqueue : t.queue = front :: rest) (hmay : T.mayExecute t front = true)
    (hc : T.parent c = some x) (hlt : T.time c < T.time front) : T.finished s c = true := by
  have hmem : front ∈ t.queue := by
    rw [hqueue]
    exact List.mem_cons_self
  have hfront := ((hok.mem_queue front).1 hmem).1
  unfold TxTree.mayExecute at hmay
  rw [Bool.or_eq_true, decide_eq_true_iff] at hmay
  rcases hmay with ⟨hknown, hpigeon⟩ | hadj
  · -- all children are finished or in the queue, and the front is the first in the queue
    have hsum := hok.length_add_already
    have hbound := hsum.trans_lt hsmall
    have htotal : t.total = (T.children x).card := by
      have htotal := hok.total
      split_ifs at htotal with harr
      · exact htotal
      · exact absurd htotal hknown
    rw [sizeQ, Nat.mod_eq_of_lt (by omega), Nat.mod_eq_of_lt (by omega)] at hpigeon
    have hall : (t.queue.toFinset ∪ (T.children x).filter fun y => T.finished s y = true) =
        T.children x := by
      apply Finset.eq_of_subset_of_card_le hok.queue_union_subset
      rw [hok.card_queue_union]
      omega
    have hcmem := mem_children.2 hc
    rw [← hall, Finset.mem_union, List.mem_toFinset, Finset.mem_filter] at hcmem
    rcases hcmem with hcq | ⟨-, hfin⟩
    · exact absurd hlt (htimes.not_lt hfront hc (Heap.front_lte h.heap hqueue hcq))
    · exact hfin
  · cases hupto : t.upto with
    | none =>
        rw [hupto] at hadj
        exact absurd hlt (not_lt_of_isAllZero (htimes.length c front x hc hfront) hadj)
    | some mark =>
        rw [hupto] at hadj
        obtain ⟨u, hu, htime, hall⟩ := h.upto mark hupto
        by_cases huc : T.time u < T.time c
        · rw [← htime] at hadj
          exact absurd hlt (not_lt_of_areAdjacentFrom (htimes.length u front x hu hfront)
            (htimes.length u c x hu hc) (htimes.small u) hadj huc)
        · exact hall c hc huc

/-! ### What is above an operation that is run -/

omit [DecidableEq N] [Fintype N] in
theorem Above.cases {u y : N} (h : T.Above u y) : u = y ∨ ∃ q, T.parent y = some q ∧ T.Above u q := by
  rcases Relation.ReflTransGen.cases_tail h with heq | ⟨q, hq, hp⟩
  · exact Or.inl heq.symm
  · exact Or.inr ⟨q, hp, hq⟩

theorem Ok.finished_of_above (h : T.Ok arrived s) {u y : N} (huy : T.Above u y)
    (hu : T.finished s u = true) : T.finished s y = true := by
  induction huy with
  | refl => exact hu
  | @tail q y _ hp ih =>
      have hq := T.isTx_parent y q hp
      rw [finished, if_pos hq] at ih
      exact (h.freed q hq (Option.isNone_iff_eq_none.1 ih)).2 y hp

omit [DecidableEq N] [Fintype N] in
theorem FlagsOk.ready_of_above (h : T.FlagsOk s) {u y : N} (huy : T.Above u y)
    (hy : ∃ t, s.tx y = some t ∧ t.ready = true) : ∃ t, s.tx u = some t ∧ t.ready = true := by
  induction huy using Relation.ReflTransGen.head_induction_on with
  | refl => exact hy
  | @head u q hp _ ih =>
      obtain ⟨t, ht, hr⟩ := ih
      exact (h.ready q t u ht hr hp).2

theorem OrderOk.run_before (h : T.OrderOk s) (htimes : T.TimesOk) (hok : T.Ok arrived s)
    (hsmall : (T.children x).card < 2 ^ 32) (hx : s.tx x = some t) (hready : t.ready = true)
    {front : N} {rest : List N} (hqueue : t.queue = front :: rest)
    (hmay : T.mayExecute t front = true) {y : N} (hop : T.isTx y = false)
    (hprec : T.Precedes y front) : Action.run y ∈ s.log := by
  obtain ⟨q, u, v, hu, hv, hlt, huy, hvf⟩ := hprec
  have hmem : front ∈ t.queue := by
    rw [hqueue]
    exact List.mem_cons_self
  have hfront := hok.parent_of_mem hx front hmem
  have hfin : T.finished s u = true := by
    rcases hvf.cases with rfl | ⟨q', hq', hvq⟩
    · rw [hfront] at hv
      cases hv
      exact (h.ordered x t hx).mayExecute htimes (hok.txOk x t hx) hsmall hqueue hmay hu hlt
    · rw [hfront] at hq'
      cases hq'
      obtain ⟨r, hr, hrr⟩ := hok.toFlagsOk.ready_of_above hvq ⟨t, hx, hready⟩
      exact (h.ordered v r hr).ready hrr q u hv hu hlt
  have hyfin := hok.finished_of_above huy hfin
  rw [finished, hop] at hyfin
  exact of_decide_eq_true hyfin

/-! ### Rounds -/

omit [Fintype N] in
theorem finished_mono_set {t' : TX N} (hx : s.tx x = some t) (hc : T.finished s c = true) :
    T.finished (s.set x t') c = true := (finished_set hx c).trans hc

omit [Fintype N] in
theorem finished_mono_free (htx : T.isTx x = true) (hc : T.finished s c = true) :
    T.finished (s.free x) c = true := by
  rw [finished_free htx c, hc, Bool.true_or]

omit [DecidableEq N] [Fintype N] in
theorem inserted_heap (h : BinaryHeap.Heap T.lte t.queue) :
    BinaryHeap.Heap T.lte (T.inserted x t).queue :=
  BinaryHeap.insert_heap lte_trans lte_total h x

omit [DecidableEq N] [Fintype N] in
theorem removePos_heap {queue : List N} (h : BinaryHeap.Heap T.lte queue) :
    BinaryHeap.Heap T.lte (BinaryHeap.removePos T.lte 0 queue) :=
  BinaryHeap.removePos_zero_heap lte_trans lte_total h

theorem OrderOk.head_of_ready (h : T.OrderOk s) (htimes : T.TimesOk) (hok : T.Ok arrived s)
    (hx : s.tx x = some t) (hp : T.parent x = some p) (hparent : s.tx p = some parent)
    (hready : t.ready = true) (hmem : x ∈ parent.queue) : ∃ rest, parent.queue = x :: rest := by
  have hpok := hok.txOk p parent hparent
  cases hqueue : parent.queue with
  | nil =>
      rw [hqueue] at hmem
      cases hmem
  | cons front rest =>
      have hfmem : front ∈ parent.queue := by
        rw [hqueue]
        exact List.mem_cons_self
      obtain ⟨hfront, hfw⟩ := (hpok.mem_queue front).1 hfmem
      have hnot := htimes.not_lt hfront hp (Heap.front_lte (h.ordered p parent hparent).heap hqueue hmem)
      rcases htimes.lt_or_eq hp hfront hnot with hlt | rfl
      · have hfin := (h.ordered x t hx).ready hready p front hp hfront hlt
        rw [not_finished_of_waiting hfw] at hfin
        cases hfin
      · exact ⟨rest, rfl⟩

theorem OrderOk.finish (h : T.OrderOk s) (htimes : T.TimesOk) (hok : T.Ok arrived s)
    (hx : s.tx x = some t) (hp : T.parent x = some p) (hparent : s.tx p = some parent)
    (hprompt : t.inParentQ = true → t.ready = true) :
    T.OrderOk ((s.free x).set p (T.released x t parent)) := by
  have hxtx := hok.isTx x t hx
  have hparent' : (s.free x).tx p = some parent := by
    rw [State.free_tx, if_neg (parent_ne hp)]
    exact hparent
  have hf : ∀ c, T.finished s c = true →
      T.finished ((s.free x).set p (T.released x t parent)) c = true := fun c hc =>
    finished_mono_set hparent' (finished_mono_free hxtx hc)
  have hxfin : T.finished ((s.free x).set p (T.released x t parent)) x = true := by
    rw [finished_set hparent', finished_free hxtx]
    simp
  have hpord := (h.ordered p parent hparent).mono hf
  apply h.set (x := p)
  · intro y hyp u hu
    rw [State.set_tx, if_neg hyp, State.free_tx] at hu
    split_ifs at hu
    exact hu
  · intro u hu
    rw [State.set_tx, if_pos rfl] at hu
    exact (Option.some.inj hu).symm
  · exact hf
  · cases hq : t.inParentQ with
    | false =>
        refine ⟨?_, ?_, hpord.ready⟩
        · rw [released, hq]
          exact hpord.heap
        · intro mark hmark
          rw [released, hq] at hmark
          exact hpord.upto mark (by simpa using hmark)
    | true =>
        have hmem : x ∈ parent.queue := by
          rw [(hok.txOk p parent hparent).mem_queue x, waiting, if_pos hxtx, hx, Option.any_some]
          exact ⟨hp, hq⟩
        obtain ⟨rest, hqueue⟩ := h.head_of_ready htimes hok hx hp hparent (hprompt hq) hmem
        refine ⟨?_, ?_, hpord.ready⟩
        · have hidx : parent.queue.idxOf x = 0 := by
            rw [hqueue]
            exact List.idxOf_cons_self
          rw [released, hq]
          dsimp only
          rw [if_pos rfl, removeFromQ, if_pos hmem, hidx]
          exact removePos_heap hpord.heap
        · intro mark hmark
          rw [released, hq, hqueue] at hmark
          refine ⟨x, hp, by simpa using hmark, fun c hc hnot => ?_⟩
          rcases htimes.lt_or_eq hp hc hnot with hlt | rfl
          · exact hf c ((h.ordered x t hx).ready (hprompt hq) p c hp hc hlt)
          · exact hxfin
  · rw [State.set_log, State.free_log]
    apply h.log.append
    intro y hy
    cases hy

theorem OrderOk.run (h : T.OrderOk s) (htimes : T.TimesOk) (hok : T.Ok arrived s)
    (hsmall : (T.children x).card < 2 ^ 32) (hx : s.tx x = some t) (hready : t.ready = true)
    {front : N} {rest : List N} (hqueue : t.queue = front :: rest)
    (hmay : T.mayExecute t front = true) (hop : T.isTx front = false) :
    T.OrderOk (s.ran x (T.executed t front) front) := by
  have hmem : front ∈ t.queue := by
    rw [hqueue]
    exact List.mem_cons_self
  have hfront := hok.parent_of_mem hx front hmem
  have hfs : ∀ c, T.finished (s.ran x (T.executed t front) front) c =
      (T.finished s c || decide (c = front)) := finished_ran hx hop
  have hf : ∀ c, T.finished s c = true →
      T.finished (s.ran x (T.executed t front) front) c = true := by
    intro c hc
    rw [hfs c, hc, Bool.true_or]
  have hord := h.ordered x t hx
  apply h.set (x := x)
  · intro y hyx u hu
    rw [State.ran_tx, if_neg hyx] at hu
    exact hu
  · intro u hu
    rw [State.ran_tx, if_pos rfl] at hu
    exact (Option.some.inj hu).symm
  · exact hf
  · refine ⟨removePos_heap hord.heap, fun mark hmark => ?_, (hord.mono hf).ready⟩
    refine ⟨front, hfront, Option.some.inj hmark, fun c hc hnot => ?_⟩
    rcases htimes.lt_or_eq hfront hc hnot with hlt | rfl
    · exact hf c (hord.mayExecute htimes (hok.txOk x t hx) hsmall hqueue hmay hc hlt)
    · rw [hfs c]
      simp
  · rw [State.ran_log]
    apply h.log.append
    intro y hy z hz hprec
    cases hy
    exact h.run_before htimes hok hsmall hx hready hqueue hmay hz hprec

/-- Every round that does not finish a waiting transaction before it is ready keeps the order. -/
theorem OrderOk.round (h : T.OrderOk s) (htimes : T.TimesOk) (hok : T.Ok arrived s)
    (hsmall : ∀ p, (T.children p).card < 2 ^ 32) (hx : s.tx x = some t) {l : Progress N}
    (hround : T.Round s x t (some l)) (hprompt : t.Done → t.inParentQ = true → t.ready = true) :
    T.OrderOk l.state := by
  cases hround with
  | finishRoot hdone hp =>
      refine ⟨fun y u hy => ?_, ?_⟩
      · rw [State.free_tx] at hy
        split_ifs at hy
        exact (h.ordered y u hy).mono fun c => finished_mono_free (hok.isTx x t hx)
      · rw [State.free_log]
        apply h.log.append
        intro y hy
        cases hy
  | finish hdone hp hparent => exact h.finish htimes hok hx hp hparent (hprompt hdone)
  | @enqueue p parent hdone hp hq hparent hroom =>
      have hparent' : (s.set x { t with inParentQ := true }).tx p = some parent := by
        rw [State.set_tx, if_neg (parent_ne hp)]
        exact hparent
      have hf : ∀ c, T.finished s c = true → T.finished
          ((s.set x { t with inParentQ := true }).set p (T.inserted x parent)) c = true := fun c hc =>
        finished_mono_set hparent' (finished_mono_set hx hc)
      refine ⟨fun y u hy => ?_, h.log⟩
      rw [State.set_tx] at hy
      split_ifs at hy with hyp
      · cases hy
        subst hyp
        have hord := (h.ordered y parent hparent).mono hf
        exact ⟨inserted_heap hord.heap, hord.upto, hord.ready⟩
      · rw [State.set_tx] at hy
        split_ifs at hy with hyx
        · cases hy
          subst hyx
          have hord := (h.ordered y t hx).mono hf
          exact ⟨hord.heap, hord.upto, hord.ready⟩
        · exact (h.ordered y u hy).mono hf
  | climb hdone hp hq hready hparent hpready => exact h
  | @descend front rest child hdone hq hready hqueue hmay htx hchild =>
      have hf : ∀ c, T.finished s c = true →
          T.finished (s.set front { child with ready := true }) c = true := fun c hc =>
        finished_mono_set hchild hc
      refine ⟨fun y u hy => ?_, h.log⟩
      rw [State.set_tx] at hy
      split_ifs at hy with hyf
      · cases hy
        subst hyf
        have hord := (h.ordered y child hchild).mono hf
        refine ⟨hord.heap, hord.upto, fun _ q c hq' hc hlt => hf c ?_⟩
        have hmem : y ∈ t.queue := by
          rw [hqueue]
          exact List.mem_cons_self
        have hp := hok.parent_of_mem hx y hmem
        rw [hp] at hq'
        cases hq'
        exact (h.ordered x t hx).mayExecute htimes (hok.txOk x t hx) (hsmall x) hqueue hmay hc hlt
      · exact (h.ordered y u hy).mono hf
  | run hdone hq hready hqueue hmay hop =>
      exact h.run htimes hok (hsmall x) hx hready hqueue hmay hop

/-! ### Runs -/

/-- The commit thread between two rounds or events, with the events that have arrived. -/
structure Moment (N : Type) where
  arrived : Finset N
  loop : Progress N

inductive Move (N : Type)
  | receive (x : N)
  | round

def move (T : TxTree N) (m : Moment N) : Move N → Option (Moment N)
  | .receive x =>
      match T.progressStep m.loop, T.receive m.loop.state x with
      | .ok none, .ok (s, z) =>
          if x ∈ m.arrived then none else some ⟨insert x m.arrived, ⟨s, some z⟩⟩
      | _, _ => none
  | .round =>
      match T.progressStep m.loop with
      | .ok (some l) => some ⟨m.arrived, l⟩
      | _ => none

def begin (T : TxTree N) : Moment N := ⟨∅, ⟨T.initial, none⟩⟩

/-- A round does not finish a transaction that waits in the queue of its parent and is not ready. -/
def Prompt (m : Moment N) : Move N → Prop
  | .receive _ => True
  | .round => ∀ t ∈ m.loop.tx.bind m.loop.state.tx, t.Done → t.inParentQ = true → t.ready = true

instance (m : Moment N) : (a : Move N) → Decidable (Prompt m a)
  | .receive _ => inferInstanceAs (Decidable True)
  | .round => inferInstanceAs (Decidable (∀ t ∈ m.loop.tx.bind m.loop.state.tx, _ → _ → _))

structure MomentOk (T : TxTree N) (m : Moment N) : Prop where
  ok : T.Ok m.arrived m.loop.state
  current : ∀ x, m.loop.tx = some x → ∃ t, m.loop.state.tx x = some t
  settled : ∀ y u, m.loop.tx ≠ some y → m.loop.state.tx y = some u →
    T.Settled m.arrived m.loop.state y u
  order : T.OrderOk m.loop.state

theorem begin_ok : T.MomentOk T.begin := by
  refine ⟨initial_still.ok, fun x hx => ?_, fun y u _ => initial_still.settled y u, ?_⟩
  · cases hx
  · refine ⟨fun p t hp => ?_, fun before y after heq => ?_⟩
    · have ht : t = T.opened p := by
        change (if T.isTx p then some (T.opened p) else none) = some t at hp
        split_ifs at hp
        exact (Option.some.inj hp).symm
      rw [ht]
      refine ⟨?_, fun mark hmark => ?_, fun hready q c hq => ?_⟩
      · intro i _ a b _ hb
        cases hb
      · cases hmark
      · have hroot : p = T.root := of_decide_eq_true hready
        rw [hroot, T.parent_root] at hq
        cases hq
    · exact absurd heq (by simp [begin, initial])

theorem MomentOk.round {m m' : Moment N} (h : T.MomentOk m) (htimes : T.TimesOk)
    (hsmall : ∀ p, (T.children p).card < 2 ^ 32) (hprompt : Prompt m .round)
    (hm : T.move m .round = some m') : T.MomentOk m' := by
  obtain ⟨arrived, ⟨s, tx⟩⟩ := m
  cases tx with
  | none => cases hm
  | some x =>
      obtain ⟨t, hx⟩ := h.current x rfl
      rcases h.ok.round_or_full hx with ⟨r, hr, hround⟩ | ⟨herror, -⟩
      · unfold move at hm
        dsimp only at hm
        rw [hr] at hm
        cases r with
        | none => cases hm
        | some l =>
            cases hm
            have hloop : T.LoopOk arrived ⟨s, some x⟩ :=
              ⟨h.ok, h.current, (fun hn => by cases hn), h.settled⟩
            have hnext := hloop.round hsmall hx hround
            have horder := h.order.round htimes h.ok hsmall hx hround (hprompt t hx)
            exact ⟨hnext.ok, hnext.current, hnext.settled, horder⟩
      · unfold move at hm
        dsimp only at hm
        rw [herror] at hm
        cases hm

/-- An event changes no more than a count or a queue. -/
theorem OrderOk.receive (h : T.OrderOk s) {s' : State N} {z : N}
    (hs' : T.receive s x = .ok (s', z)) : T.OrderOk s' := by
  unfold TxTree.receive at hs'
  cases hxtx : T.isTx x with
  | true =>
      rw [hxtx, if_pos rfl] at hs'
      cases hx : s.tx x with
      | none =>
          rw [hx] at hs'
          cases hs'
      | some t =>
          rw [hx] at hs'
          obtain ⟨rfl, rfl⟩ := Prod.mk.inj (Except.ok.inj hs')
          refine ⟨fun y u hy => ?_, h.log⟩
          rw [State.set_tx] at hy
          by_cases hyx : y = x
          · rw [if_pos hyx] at hy
            have hsame : u.queue = t.queue ∧ u.upto = t.upto ∧ u.ready = t.ready := by
              rw [← Option.some.inj hy]
              split_ifs <;> exact ⟨rfl, rfl, rfl⟩
            obtain ⟨hqueue, hupto, hready⟩ := hsame
            obtain ⟨hheap, hmark, hbefore⟩ := (h.ordered x t hx).mono fun c =>
              @finished_mono_set N T x c _ s t _ hx
            rw [← hqueue] at hheap
            rw [← hupto] at hmark
            rw [← hready] at hbefore
            rw [hyx]
            exact ⟨hheap, hmark, hbefore⟩
          · rw [if_neg hyx] at hy
            exact (h.ordered y u hy).mono fun c => finished_mono_set hx
  | false =>
      rw [hxtx, if_neg (by decide)] at hs'
      cases hp : T.parent x with
      | none =>
          rw [hp] at hs'
          cases hs'
      | some p =>
          rw [hp] at hs'
          dsimp only at hs'
          cases hparent : s.tx p with
          | none =>
              rw [hparent] at hs'
              cases hs'
          | some parent =>
              rw [hparent] at hs'
              dsimp only at hs'
              rw [insertEvt] at hs'
              split_ifs at hs' with hfull
              · cases hs'
              · obtain ⟨rfl, rfl⟩ := Prod.mk.inj (Except.ok.inj hs')
                refine ⟨fun y u hy => ?_, h.log⟩
                rw [State.set_tx] at hy
                split_ifs at hy with hyp
                · cases hy
                  subst hyp
                  have hord : T.Ordered (s.set y (T.inserted x parent)) y parent :=
                    (h.ordered y parent hparent).mono fun c => finished_mono_set hparent
                  exact ⟨inserted_heap hord.heap, hord.upto, hord.ready⟩
                · exact (h.ordered y u hy).mono fun c => finished_mono_set hparent

theorem MomentOk.receive {m m' : Moment N} (h : T.MomentOk m)
    (hsmall : ∀ p, (T.children p).card < 2 ^ 32) (hm : T.move m (.receive x) = some m') :
    T.MomentOk m' := by
  unfold move at hm
  dsimp only at hm
  split at hm
  · next s z hlast hs =>
    split_ifs at hm with hx
    cases hm
    have hsettled : ∀ y u, m.loop.state.tx y = some u → T.Settled m.arrived m.loop.state y u := by
      obtain ⟨arrived, ⟨s₀, tx⟩⟩ := m
      cases tx with
      | none => exact fun y u hy => h.settled y u (by simp) hy
      | some w =>
          obtain ⟨t, ht⟩ := h.current w rfl
          have hloop : T.LoopOk arrived ⟨s₀, some w⟩ :=
            ⟨h.ok, h.current, (fun hn => by cases hn), h.settled⟩
          rcases h.ok.round_or_full ht with ⟨r, hr, hround⟩ | ⟨herror, -⟩
          · rw [hlast] at hr
            cases hr
            exact hloop.settled_of_last ht hround
          · rw [hlast] at herror
            cases herror
    have hstill : T.Still m.arrived m.loop.state := ⟨h.ok, hsettled⟩
    have hloop := hstill.receive hsmall hx hs
    exact ⟨hloop.ok, hloop.current, hloop.settled, h.order.receive hs⟩
  · cases hm

/-- Operations are run in nested time order. -/
theorem run_in_order (htimes : T.TimesOk) (hsmall : ∀ p, (T.children p).card < 2 ^ 32)
    {m : Moment N} (hrun : Run T.move Prompt T.begin m) : T.InOrder m.loop.state.log := by
  have hok : T.MomentOk m := by
    apply hrun.invariant _ begin_ok
    intro m a m' hm hprompt hmove
    cases a with
    | receive x => exact hm.receive hsmall hmove
    | round => exact hm.round htimes hsmall hprompt hmove
  exact hok.order.log

theorem early_small (x : Fin 5) (i : UInt32) (hi : i ∈ early.time x) : i.toNat < 2 ^ 32 - 1 := by
  have hall : ∀ x, (early.time x).all (fun i => decide (i.toNat < 2 ^ 32 - 1)) = true := by decide
  exact of_decide_eq_true (List.all_eq_true.1 (hall x) i hi)

theorem run_in_order_early : ∃ m, Run early.move Prompt early.begin m ∧
    m.loop.state.log = [.run 1, .free 4, .free 2, .run 3, .free 0] ∧
      early.InOrder m.loop.state.log := by
  have hreplay : (Run.replay early.move Prompt early.begin [.receive 1, .round, .receive 4, .round,
      .round, .round, .receive 2, .round, .receive 3, .round, .receive 0, .round]).any
      (fun m => decide (m.loop.state.log = [.run 1, .free 4, .free 2, .run 3, .free 0])) = true := by
    decide +kernel
  obtain ⟨m, hrun, hlog⟩ := Run.exists_of_any hreplay
  refine ⟨m, hrun, of_decide_eq_true hlog, run_in_order ?_ ?_ hrun⟩
  · exact ⟨by decide, by decide, early_small⟩
  · exact fun p => (Finset.card_le_univ _).trans_lt (by decide)

/-- A transaction with an empty transaction is finished while it waits, and the operation after it is
run before the one in front of it. -/
theorem early_not_in_order : early.TimesOk ∧ ([2, 4, 3, 1, 0] : List (Fin 5)).Nodup ∧
    (∀ x, x ∈ ([2, 4, 3, 1, 0] : List (Fin 5))) ∧ ∃ s dones,
      early.processEvts early.fuelBound [2, 4, 3, 1, 0] early.initial = .ok (s, dones) ∧
        ¬ early.InOrder s.log := by
  have hlog : ((early.processEvts early.fuelBound [2, 4, 3, 1, 0] early.initial).toOption.map
      fun r => r.1.log) = some [.free 4, .free 2, .run 3, .run 1, .free 0] := by decide +kernel
  refine ⟨⟨by decide, by decide, early_small⟩, by decide, by decide, ?_⟩
  cases hr : early.processEvts early.fuelBound [2, 4, 3, 1, 0] early.initial with
  | error e =>
      rw [hr] at hlog
      cases hlog
  | ok r =>
      obtain ⟨s, dones⟩ := r
      rw [hr] at hlog
      refine ⟨s, dones, rfl, fun horder => ?_⟩
      have hprec : early.Precedes 1 3 :=
        ⟨0, 1, 3, by decide, by decide, by decide, Relation.ReflTransGen.refl,
          Relation.ReflTransGen.refl⟩
      have hrun := horder [.free 4, .free 2] 3 [.run 1, .free 0] (Option.some.inj hlog) 1
        (by decide) hprec
      revert hrun
      decide

end Cpf.Txio.TxTree
