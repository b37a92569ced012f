import Cpf.Txio.CommitSteps

/-!
# The loop of `progress` ends

A transaction is settled when `progress` has nothing left to do there. Every transaction except the
one the loop is at stays settled, and every round frees or queues a transaction, runs an operation, or
moves on in the tree.
-/

namespace Cpf.Txio.TxTree

variable {N : Type} [DecidableEq N]

structure Settled (T : TxTree N) (arrived : Finset N) (s : State N) (x : N) (t : TX N) : Prop where
  notDone : ¬ t.Done
  queued : x ∈ arrived → t.inParentQ = true
  quiet : t.ready = true → ∀ front rest, t.queue = front :: rest → T.mayExecute t front = true →
    ∃ child, s.tx front = some child ∧ child.ready = true

variable {T : TxTree N} {arrived : Finset N} {s s' : State N} {p x y : N} {t parent : TX N}

omit [DecidableEq N] in
theorem Settled.congr (h : T.Settled arrived s x t) (hqueue : ∀ c ∈ t.queue, T.parent c = some x)
    (hchild : ∀ c child, T.parent c = some x → s.tx c = some child → child.ready = true →
      ∃ child', s'.tx c = some child' ∧ child'.ready = true) : T.Settled arrived s' x t where
  notDone := h.notDone
  queued := h.queued
  quiet hready front rest hfront hmay := by
    obtain ⟨child, hc, hcr⟩ := h.quiet hready front rest hfront hmay
    have hmem : front ∈ t.queue := by
      rw [hfront]
      exact List.mem_cons_self
    exact hchild front child (hqueue front hmem) hc hcr

omit [DecidableEq N] in
theorem Settled.of_not_ready (hdone : ¬ t.Done) (hq : t.inParentQ = true) (hready : t.ready = false) :
    T.Settled arrived s x t where
  notDone := hdone
  queued _ := hq
  quiet hr := by
    rw [hready] at hr
    cases hr

variable [Fintype N]

structure LoopOk (T : TxTree N) (arrived : Finset N) (l : Progress N) : Prop where
  ok : T.Ok arrived l.state
  current : ∀ x, l.tx = some x → ∃ t, l.state.tx x = some t
  rootDone : l.tx = none → l.state.tx T.root = none
  settled : ∀ y u, l.tx ≠ some y → l.state.tx y = some u → T.Settled arrived l.state y u

theorem Ok.parent_of_mem (h : T.Ok arrived s) (hx : s.tx x = some t) :
    ∀ c ∈ t.queue, T.parent c = some x := fun c hc => (((h.txOk x t hx).mem_queue c).1 hc).1

/-- A round changes only the records of the transaction it is at and of the one it goes to. -/
theorem LoopOk.of_round (h : T.LoopOk arrived ⟨s, some x⟩) {l : Progress N} (hok : T.Ok arrived l.state)
    (hcurrent : ∀ y, l.tx = some y → ∃ u, l.state.tx y = some u)
    (hroot : l.tx = none → l.state.tx T.root = none)
    (hx : ∀ u, l.tx ≠ some x → l.state.tx x = some u → T.Settled arrived l.state x u)
    (hsame : ∀ y, y ≠ x → l.tx ≠ some y → l.state.tx y = s.tx y)
    (hready : ∀ c child q, T.parent c = some q → l.tx ≠ some q → s.tx c = some child →
      child.ready = true → ∃ child', l.state.tx c = some child' ∧ child'.ready = true) :
    T.LoopOk arrived l where
  ok := hok
  current := hcurrent
  rootDone := hroot
  settled y u hne hy := by
    by_cases hyx : y = x
    · rw [hyx] at hne hy ⊢
      exact hx u hne hy
    · rw [hsame y hyx hne] at hy
      have hsettled := h.settled y u (fun he => hyx (Option.some.inj he).symm) hy
      apply hsettled.congr (h.ok.parent_of_mem hy)
      exact fun c child hc => hready c child y hc hne

theorem LoopOk.finishRoot (h : T.LoopOk arrived ⟨s, some x⟩) (hx : s.tx x = some t) (hdone : t.Done)
    (hp : T.parent x = none) : T.LoopOk arrived ⟨s.free x, none⟩ := by
  apply h.of_round
  · exact h.ok.finishRoot hx hdone hp
  · intro y hy
    cases hy
  · intro _
    rw [State.free_tx, if_pos (T.eq_root x hp).symm]
  · intro u _ hu
    rw [State.free_tx, if_pos rfl] at hu
    cases hu
  · intro y hyx _
    rw [State.free_tx, if_neg hyx]
  · intro c child q hc _ hchild hr
    refine ⟨child, ?_, hr⟩
    rw [State.free_tx, if_neg]
    · exact hchild
    · rintro rfl
      rw [hp] at hc
      cases hc

theorem LoopOk.finish (h : T.LoopOk arrived ⟨s, some x⟩) (hx : s.tx x = some t) (hdone : t.Done)
    (hp : T.parent x = some p) (hparent : s.tx p = some parent)
    (hsmall : (T.children p).card < 2 ^ 32) :
    T.LoopOk arrived ⟨(s.free x).set p (T.released x t parent), some p⟩ := by
  have htx : ∀ y, y ≠ x → y ≠ p → ((s.free x).set p (T.released x t parent)).tx y = s.tx y := by
    intro y hyx hyp
    rw [State.set_tx, if_neg hyp, State.free_tx, if_neg hyx]
  apply h.of_round
  · exact h.ok.finish hx hdone hp hparent hsmall
  · intro y hy
    cases hy
    exact ⟨T.released x t parent, by rw [State.set_tx, if_pos rfl]⟩
  · intro hn
    cases hn
  · intro u _ hu
    rw [State.set_tx, if_neg (parent_ne hp).symm, State.free_tx, if_pos rfl] at hu
    cases hu
  · intro y hyx hyp
    exact htx y hyx fun he => hyp (congrArg some he.symm)
  · intro c child q hc hqp hchild hr
    have hcx : c ≠ x := by
      rintro rfl
      exact hqp (hp.symm.trans hc)
    by_cases hcp : c = p
    · subst hcp
      rw [hparent] at hchild
      cases hchild
      exact ⟨T.released x t parent, by rw [State.set_tx, if_pos rfl], hr⟩
    · exact ⟨child, (htx c hcx hcp).trans hchild, hr⟩

theorem LoopOk.enqueue (h : T.LoopOk arrived ⟨s, some x⟩) (hx : s.tx x = some t) (hdone : ¬ t.Done)
    (hp : T.parent x = some p) (hq : t.inParentQ = false) (hparent : s.tx p = some parent)
    (hroom : parent.queue.length < maybeGrow parent.queue.length parent.capacity) :
    T.LoopOk arrived ⟨(s.set x { t with inParentQ := true }).set p (T.inserted x parent), some p⟩ := by
  have htx : ∀ y, y ≠ x → y ≠ p → ((s.set x { t with inParentQ := true }).set p (T.inserted x parent)).tx y =
      s.tx y := by
    intro y hyx hyp
    rw [State.set_tx, if_neg hyp, State.set_tx, if_neg hyx]
  have hnot : t.ready = false := by
    cases hr : t.ready with
    | false => rfl
    | true =>
        obtain ⟨hqueued, -⟩ := h.ok.ready x t p hx hr hp
        rw [hq] at hqueued
        cases hqueued
  apply h.of_round
  · exact h.ok.enqueue hx hp hq hparent hroom
  · intro y hy
    cases hy
    exact ⟨T.inserted x parent, by rw [State.set_tx, if_pos rfl]⟩
  · intro hn
    cases hn
  · intro u _ hu
    rw [State.set_tx, if_neg (parent_ne hp).symm, State.set_tx, if_pos rfl] at hu
    cases hu
    exact Settled.of_not_ready hdone rfl hnot
  · intro y hyx hyp
    exact htx y hyx fun he => hyp (congrArg some he.symm)
  · intro c child q hc hqp hchild hr
    have hcx : c ≠ x := by
      rintro rfl
      exact hqp (hp.symm.trans hc)
    by_cases hcp : c = p
    · subst hcp
      rw [hparent] at hchild
      cases hchild
      exact ⟨T.inserted x parent,
        by rw [State.set_tx, if_pos rfl], hr⟩
    · exact ⟨child, (htx c hcx hcp).trans hchild, hr⟩

theorem LoopOk.climb (h : T.LoopOk arrived ⟨s, some x⟩) (hx : s.tx x = some t) (hdone : ¬ t.Done)
    (hq : t.inParentQ = true) (hready : t.ready = false) (hparent : s.tx p = some parent) :
    T.LoopOk arrived ⟨s, some p⟩ := by
  apply h.of_round
  · exact h.ok
  · intro y hy
    cases hy
    exact ⟨parent, hparent⟩
  · intro hn
    cases hn
  · intro u _ hu
    rw [hx] at hu
    cases hu
    exact Settled.of_not_ready hdone hq hready
  · exact fun _ _ _ => rfl
  · exact fun c child _ _ _ hchild hr => ⟨child, hchild, hr⟩

/-- The root counts as queued, so a transaction that is ready is queued. -/
theorem Ok.inParentQ (h : T.Ok arrived s) (hx : s.tx x = some t)
    (hq : T.parent x ≠ none → t.inParentQ = true) : t.inParentQ = true := by
  by_cases hp : T.parent x = none
  · rw [T.eq_root x hp] at hx
    exact (h.rootReady t hx).2
  · exact hq hp

theorem LoopOk.descend (h : T.LoopOk arrived ⟨s, some x⟩) (hx : s.tx x = some t) (hdone : ¬ t.Done)
    (hq : T.parent x ≠ none → t.inParentQ = true) (hready : t.ready = true) {front : N}
    {rest : List N} (hqueue : t.queue = front :: rest) {child : TX N} (hc : s.tx front = some child) :
    T.LoopOk arrived ⟨s.set front { child with ready := true }, some front⟩ := by
  have hmem : front ∈ t.queue := by
    rw [hqueue]
    exact List.mem_cons_self
  obtain ⟨hp, hw⟩ := ((h.ok.txOk x t hx).mem_queue front).1 hmem
  rw [waiting, if_pos (h.ok.isTx front child hc), hc, Option.any_some] at hw
  apply h.of_round
  · exact h.ok.descend hx hready hp hc hw
  · intro y hy
    cases hy
    exact ⟨{ child with ready := true }, by rw [State.set_tx, if_pos rfl]⟩
  · intro hn
    cases hn
  · intro u _ hu
    rw [State.set_tx, if_neg (parent_ne hp), hx] at hu
    cases hu
    refine ⟨hdone, fun _ => h.ok.inParentQ hx hq, fun _ front' rest' hqueue' _ => ?_⟩
    rw [hqueue] at hqueue'
    cases hqueue'
    exact ⟨{ child with ready := true }, by rw [State.set_tx, if_pos rfl], rfl⟩
  · intro y _ hyf
    rw [State.set_tx, if_neg]
    exact fun he => hyf (congrArg some he.symm)
  · intro c child' q _ _ hchild' hr
    by_cases hcf : c = front
    · exact ⟨{ child with ready := true }, by rw [State.set_tx, if_pos hcf], rfl⟩
    · exact ⟨child', by rw [State.set_tx, if_neg hcf, hchild'], hr⟩

theorem LoopOk.run (h : T.LoopOk arrived ⟨s, some x⟩) (hx : s.tx x = some t) {front : N}
    {rest : List N} (hqueue : t.queue = front :: rest) (hop : T.isTx front = false)
    (hsmall : (T.children x).card < 2 ^ 32) :
    T.LoopOk arrived ⟨s.ran x (T.executed t front) front, some x⟩ := by
  apply h.of_round
  · exact h.ok.run hx hqueue hop hsmall
  · intro y hy
    cases hy
    exact ⟨T.executed t front, by rw [State.ran_tx, if_pos rfl]⟩
  · intro hn
    cases hn
  · intro u hne _
    exact absurd rfl hne
  · intro y hyx _
    rw [State.ran_tx, if_neg hyx]
  · intro c child q _ _ hchild hr
    by_cases hcx : c = x
    · subst hcx
      rw [hx] at hchild
      cases hchild
      exact ⟨T.executed t front, by rw [State.ran_tx, if_pos rfl], hr⟩
    · exact ⟨child, by rw [State.ran_tx, if_neg hcx, hchild], hr⟩

theorem LoopOk.round (h : T.LoopOk arrived ⟨s, some x⟩) (hsmall : ∀ p, (T.children p).card < 2 ^ 32)
    (hx : s.tx x = some t) {l : Progress N} (hround : T.Round s x t (some l)) :
    T.LoopOk arrived l := by
  cases hround with
  | finishRoot hdone hp => exact h.finishRoot hx hdone hp
  | finish hdone hp hparent => exact h.finish hx hdone hp hparent (hsmall _)
  | enqueue hdone hp hq hparent hroom => exact h.enqueue hx hdone hp hq hparent hroom
  | climb hdone hp hq hready hparent hpready => exact h.climb hx hdone hq hready hparent
  | descend hdone hq hready hqueue hmay htx hchild => exact h.descend hx hdone hq hready hqueue hchild
  | run hdone hq hready hqueue hmay hop => exact h.run hx hqueue hop (hsmall _)

/-- When the loop is left, the last transaction is settled, too. -/
theorem LoopOk.settled_of_last (h : T.LoopOk arrived ⟨s, some x⟩) (hx : s.tx x = some t)
    (hround : T.Round s x t none) : ∀ y u, s.tx y = some u → T.Settled arrived s y u := by
  have hlast : T.Settled arrived s x t := by
    cases hround with
    | wait hdone hp hq hready => exact Settled.of_not_ready hdone hq hready
    | idle hdone hq hready hfront =>
        refine ⟨hdone, fun _ => h.ok.inParentQ hx hq, fun _ front rest hqueue hmay => ?_⟩
        rw [hfront front rest hqueue] at hmay
        cases hmay
  intro y u hy
  by_cases hyx : y = x
  · subst hyx
    rw [hx] at hy
    cases hy
    exact hlast
  · exact h.settled y u (fun he => hyx (Option.some.inj he).symm) hy

/-! ### The measure -/

/-- What is left to do for a node: to run or free it, and to queue it before. -/
def weight (T : TxTree N) (s : State N) (y : N) : ℕ :=
  if T.isTx y then
    match s.tx y with
    | none => 0
    | some t => if t.inParentQ then 1 else 2
  else if Action.run y ∈ s.log then 0 else 1

def height (T : TxTree N) : ℕ := Finset.univ.sup T.depth

/-- The loop goes up once, to a ready transaction, and then only down. -/
def phase (T : TxTree N) (l : Progress N) : ℕ :=
  match l.tx.bind l.state.tx, l.tx with
  | some t, some x => if t.ready then T.height - T.depth x else T.height + 1
  | _, _ => 0

def loopMeasure (T : TxTree N) (l : Progress N) : ℕ :=
  (T.height + 2) * (∑ y, T.weight l.state y) + T.phase l

omit [DecidableEq N] in
theorem phase_le (l : Progress N) : T.phase l ≤ T.height + 1 := by
  unfold phase
  split
  · split_ifs <;> omega
  · omega

omit [DecidableEq N] in
theorem phase_of_ready (hx : s.tx x = some t) (hready : t.ready = true) :
    T.phase ⟨s, some x⟩ = T.height - T.depth x := by
  simp [phase, hx, hready]

omit [DecidableEq N] in
theorem phase_of_not_ready (hx : s.tx x = some t) (hready : t.ready = false) :
    T.phase ⟨s, some x⟩ = T.height + 1 := by
  simp [phase, hx, hready]

theorem loopMeasure_lt_of_weight {l l' : Progress N}
    (hle : ∀ y, T.weight l'.state y ≤ T.weight l.state y)
    (hlt : ∃ y, T.weight l'.state y < T.weight l.state y) : T.loopMeasure l' < T.loopMeasure l := by
  have hsum : ∑ y, T.weight l'.state y < ∑ y, T.weight l.state y := by
    obtain ⟨y, hy⟩ := hlt
    exact Finset.sum_lt_sum (fun z _ => hle z) ⟨y, Finset.mem_univ y, hy⟩
  have hmul : (T.height + 2) * (∑ y, T.weight l'.state y + 1) ≤
      (T.height + 2) * ∑ y, T.weight l.state y := Nat.mul_le_mul_left _ hsum
  have hphase : T.phase l' ≤ T.height + 1 := phase_le l'
  unfold loopMeasure
  rw [Nat.mul_add] at hmul
  omega

omit [Fintype N] in
theorem weight_set_le {t' : TX N} (hx : s.tx x = some t)
    (hq : t.inParentQ = true → t'.inParentQ = true) (y : N) :
    T.weight (s.set x t') y ≤ T.weight s y := by
  unfold weight
  rw [State.set_tx, State.set_log]
  by_cases hyx : y = x
  · subst hyx
    rw [if_pos rfl, hx]
    dsimp only
    cases ht : t.inParentQ with
    | true => simp [hq ht]
    | false =>
        simp only [Bool.false_eq_true, if_false]
        split_ifs <;> omega
  · rw [if_neg hyx]

omit [Fintype N] in
theorem weight_free_le (y : N) : T.weight (s.free x) y ≤ T.weight s y := by
  unfold weight
  rw [State.free_tx, State.free_log]
  by_cases hyx : y = x
  · subst hyx
    rw [if_pos rfl]
    split_ifs
    · exact Nat.zero_le _
    all_goals simp_all
  · rw [if_neg hyx]
    simp

omit [Fintype N] in
theorem weight_free_lt (hx : s.tx x = some t) (htx : T.isTx x = true) :
    T.weight (s.free x) x < T.weight s x := by
  unfold weight
  rw [State.free_tx, if_pos htx, if_pos htx, if_pos rfl, hx]
  dsimp only
  split_ifs <;> omega

omit [Fintype N] in
theorem weight_of_same {s' : State N} (htx : s'.tx y = s.tx y)
    (hlog : Action.run y ∈ s.log → Action.run y ∈ s'.log) : T.weight s' y ≤ T.weight s y := by
  unfold weight
  rw [htx]
  split_ifs with h1 h2 h3 h4
  · exact le_refl _
  · exact le_refl _
  · exact Nat.zero_le _
  · exact absurd (hlog h4) h2
  · exact le_refl _

theorem LoopOk.loopMeasure_lt (h : T.LoopOk arrived ⟨s, some x⟩) (hx : s.tx x = some t)
    {l : Progress N} (hround : T.Round s x t (some l)) :
    T.loopMeasure l < T.loopMeasure ⟨s, some x⟩ := by
  have hxtx := h.ok.isTx x t hx
  have hdepth : ∀ y, T.depth y ≤ T.height := fun y => Finset.le_sup (Finset.mem_univ y)
  cases hround with
  | finishRoot hdone hp =>
      apply loopMeasure_lt_of_weight weight_free_le
      exact ⟨x, weight_free_lt hx hxtx⟩
  | @finish p parent hdone hp hparent =>
      have hparent' : (s.free x).tx p = some parent := by
        rw [State.free_tx, if_neg (parent_ne hp)]
        exact hparent
      have hle : ∀ y, T.weight ((s.free x).set p (T.released x t parent)) y ≤
          T.weight (s.free x) y := by
        intro y
        apply weight_set_le hparent'
        exact fun hq => hq
      apply loopMeasure_lt_of_weight
      · exact fun y => (hle y).trans (weight_free_le y)
      · exact ⟨x, (hle x).trans_lt (weight_free_lt hx hxtx)⟩
  | @enqueue p parent hdone hp hq hparent hroom =>
      have hparent' : (s.set x { t with inParentQ := true }).tx p = some parent := by
        rw [State.set_tx, if_neg (parent_ne hp)]
        exact hparent
      have hle : ∀ y, T.weight ((s.set x { t with inParentQ := true }).set p (T.inserted x parent)) y ≤
          T.weight (s.set x { t with inParentQ := true }) y := by
        intro y
        apply weight_set_le hparent'
        exact fun hq => hq
      apply loopMeasure_lt_of_weight
      · intro y
        apply (hle y).trans
        apply weight_set_le hx
        exact fun _ => rfl
      · refine ⟨x, (hle x).trans_lt ?_⟩
        unfold weight
        rw [State.set_tx, if_pos hxtx, if_pos hxtx, if_pos rfl, hx]
        dsimp only
        rw [hq, if_pos rfl, if_neg (by decide)]
        decide
  | climb hdone hp hq hready hparent hpready =>
      unfold loopMeasure
      rw [phase_of_ready hparent hpready, phase_of_not_ready hx hready]
      dsimp only
      omega
  | @descend front rest child hdone hq hready hqueue hmay htx hchild =>
      have hmem : front ∈ t.queue := by
        rw [hqueue]
        exact List.mem_cons_self
      have hp := h.ok.parent_of_mem hx front hmem
      have hlower := T.depth_parent front x hp
      have hfront := hdepth front
      have hset : (s.set front { child with ready := true }).tx front =
          some { child with ready := true } := by rw [State.set_tx, if_pos rfl]
      have hsum : ∑ y, T.weight (s.set front { child with ready := true }) y ≤
          ∑ y, T.weight s y := by
        apply Finset.sum_le_sum
        intro y _
        apply weight_set_le hchild
        exact fun hq => hq
      have hmul := Nat.mul_le_mul_left (T.height + 2) hsum
      unfold loopMeasure
      rw [phase_of_ready hset rfl, phase_of_ready hx hready]
      dsimp only
      omega
  | @run front rest hdone hq hready hqueue hmay hop =>
      have hmem : front ∈ t.queue := by
        rw [hqueue]
        exact List.mem_cons_self
      obtain ⟨-, hw⟩ := ((h.ok.txOk x t hx).mem_queue front).1 hmem
      have hnot : Action.run front ∉ s.log := by
        rw [waiting, hop] at hw
        have hw' : front ∈ arrived ∧ Action.run front ∉ s.log := by simpa using hw
        exact hw'.2
      apply loopMeasure_lt_of_weight
      · intro y
        have hset : T.weight (s.set x (T.executed t front)) y ≤ T.weight s y := by
          apply weight_set_le hx
          exact fun hq => hq
        apply le_trans _ hset
        apply weight_of_same
        · rfl
        intro hy
        rw [State.ran_log]
        exact List.mem_append_left _ hy
      · refine ⟨front, ?_⟩
        unfold weight
        rw [hop, State.ran_log]
        simp [hnot]

theorem Ok.root_alive (h : T.Ok arrived s) {t : TX N} (hx : s.tx x = some t) :
    ∃ r, s.tx T.root = some r := by
  induction hd : T.depth x generalizing x t with
  | zero =>
      cases hp : T.parent x with
      | none => exact ⟨t, T.eq_root x hp ▸ hx⟩
      | some p =>
          have := T.depth_parent x p hp
          omega
  | succ d ih =>
      cases hp : T.parent x with
      | none => exact ⟨t, T.eq_root x hp ▸ hx⟩
      | some p =>
          obtain ⟨parent, hparent⟩ := h.parent_alive hx hp
          have := T.depth_parent x p hp
          exact ih hparent (by omega)

/-- `progress` ends without an error, and then nothing is left to do at any transaction. -/
theorem LoopOk.progress (h : T.LoopOk arrived ⟨s, some x⟩) (hsmall : ∀ p, (T.children p).card ≤ 2 ^ 31)
    {fuel : ℕ} (hfuel : T.loopMeasure ⟨s, some x⟩ < fuel) :
    ∃ s', T.progress fuel s x = .ok (s', (s'.tx T.root).isNone) ∧ T.Ok arrived s' ∧
      ∀ y u, s'.tx y = some u → T.Settled arrived s' y u := by
  have hstep : ∀ l, T.LoopOk arrived l → ∃ r, T.progressStep l = .ok r ∧
      ∀ l', r = some l' → T.LoopOk arrived l' ∧ T.loopMeasure l' < T.loopMeasure l := by
    rintro ⟨s, tx⟩ hl
    cases tx with
    | none => exact ⟨none, rfl, fun l' hl' => by cases hl'⟩
    | some x =>
        obtain ⟨t, hx⟩ := hl.current x rfl
        obtain ⟨r, hr, hround⟩ := hl.ok.progressStep hsmall hx
        refine ⟨r, hr, ?_⟩
        rintro l' rfl
        exact ⟨hl.round (fun p => (hsmall p).trans_lt (by decide)) hx hround, hl.loopMeasure_lt hx hround⟩
  obtain ⟨⟨s', tx⟩, hl, hok, hlast⟩ := @iterate_total _ _ Failure.outOfFuel _ _ _ hstep _ _ h hfuel
  have hsettled : ∀ y u, s'.tx y = some u → T.Settled arrived s' y u := by
    cases tx with
    | none => exact fun y u hy => hok.settled y u (by simp) hy
    | some x =>
        obtain ⟨t, hx⟩ := hok.current x rfl
        obtain ⟨r, hr, hround⟩ := hok.ok.progressStep hsmall hx
        rw [hlast] at hr
        cases hr
        exact hok.settled_of_last hx hround
  have hroot : tx.isNone = (s'.tx T.root).isNone := by
    cases tx with
    | none =>
        rw [hok.rootDone rfl]
        rfl
    | some x =>
        obtain ⟨t, hx⟩ := hok.current x rfl
        obtain ⟨r, hr⟩ := hok.ok.root_alive hx
        rw [hr]
        rfl
  refine ⟨s', ?_, hok.ok, hsettled⟩
  unfold TxTree.progress
  rw [hl, ← hroot]
  rfl

end Cpf.Txio.TxTree
