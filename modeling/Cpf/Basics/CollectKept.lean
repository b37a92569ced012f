import Cpf.Basics.Collect

/-!
# Collecting values that the workers keep

A worker that keeps its accumulator when it merges puts into every batch all it has run so far.
When the amounts are idempotent, a batch with all its members holds the items up to its round, and
so the older one of a combination can be dropped.
-/

namespace Cpf.Collect

variable {V : Type*} {n : ℕ} [AddCommMonoid V] {plan : Plan V n} {t t' : Team V n} {start : V}

/-- What a worker, a batch or the main accumulator holds that has taken in the items with `p`. -/
def held (plan : Plan V n) (start : V) (t : Team V n) (p : ℕ → Prop) [DecidablePred p] : V :=
  start + ∑ i ∈ t.done with p i, plan.amount i

/-- With idempotent amounts, taking in two sets of items is taking in their union. -/
theorem held_add_held (hidem : ∀ a : V, a + a = a) {p q r : ℕ → Prop} [DecidablePred p]
    [DecidablePred q] [DecidablePred r] (hr : ∀ i ∈ t.done, r i ↔ p i ∨ q i) :
    held plan start t p + held plan start t q = held plan start t r := by
  have hsum : ∑ i ∈ t.done with p i, plan.amount i + ∑ i ∈ t.done with q i, plan.amount i =
      ∑ i ∈ t.done with r i, plan.amount i := by
    have hunion : t.done.filter r = t.done.filter p ∪ t.done.filter q := by
      rw [← Finset.filter_or]
      exact Finset.filter_congr hr
    have hinter : ∑ i ∈ t.done.filter p ∪ t.done.filter q, plan.amount i +
        ∑ i ∈ t.done.filter p ∩ t.done.filter q, plan.amount i =
        ∑ i ∈ t.done with p i, plan.amount i + ∑ i ∈ t.done with q i, plan.amount i :=
      Finset.sum_union_inter
    have hsub : ∀ s u : Finset ℕ, s ⊆ u →
        ∑ i ∈ u, plan.amount i + ∑ i ∈ s, plan.amount i = ∑ i ∈ u, plan.amount i := by
      intro s u hsu
      rw [← Finset.sum_sdiff hsu, add_assoc, hidem]
    rw [hunion, ← hinter, hsub _ _ (Finset.inter_subset_union)]
  rw [held, held, held, ← hsum, add_add_add_comm, hidem]

/-- A batch holds the items of its members up to its round. -/
structure BatchOk (plan : Plan V n) (start : V) (t : Team V n) (c : Batch V) : Prop where
  acc : c.acc = held plan start t
    (fun i => plan.round i ≤ c.round ∧ c.round < (t.workers (plan.owner i)).merges)
  members : c.members = (Finset.univ.filter (fun w => c.round < (t.workers w).merges)).card
  nonempty : ∃ w, c.round < (t.workers w).merges
  adopted_le : t.adopted ≤ c.round

/-- What is where when the workers keep what they merge; the main accumulator holds the items of the
adopted rounds. -/
structure Cumulative (plan : Plan V n) (start : V) (t : Team V n) : Prop where
  ordered : Ordered plan t
  acc : ∀ w, (t.workers w).acc = held plan start t (fun i => plan.owner i = w)
  batch : ∀ c ∈ t.used, BatchOk plan start t c
  main : t.main = held plan start t (fun i => plan.round i < t.adopted)
  sorted : t.used.Pairwise (fun c d => c.round < d.round)
  adopted : ∀ w, t.adopted ≤ (t.workers w).merges
  covered : ∀ w, ∀ r < (t.workers w).merges, r < t.adopted ∨ ∃ c ∈ t.used, r ≤ c.round
  present : ∀ w, ∀ r < (t.workers w).merges, (∃ c ∈ t.used, c.round = r) ∨
    ∀ v, r < (t.workers v).merges

theorem BatchOk.complete {c : Batch V} (h : BatchOk plan start t c) (hn : c.members = n)
    (w : Fin n) : c.round < (t.workers w).merges := by
  have hcard := h.members
  rw [hn] at hcard
  have huniv : Finset.univ.filter (fun w => c.round < (t.workers w).merges) = Finset.univ := by
    refine Finset.eq_univ_of_card _ ?_
    rw [← hcard, Fintype.card_fin]
  have hw := Finset.mem_univ w
  rw [← huniv] at hw
  exact (Finset.mem_filter.1 hw).2

omit [AddCommMonoid V] in
theorem lt_merge_merges_of_ne [Add V] {w : Fin n} {rest : V} {d : ℕ}
    (hd : d ≠ (t.workers w).merges) (v : Fin n) :
    d < ((t.merge w rest).workers v).merges ↔ d < (t.workers v).merges := by
  rw [Team.merge_merges]
  split_ifs with hv
  · rw [hv]
    omega
  · rfl

omit [AddCommMonoid V] in
theorem lt_merge_merges_self [Add V] {w : Fin n} {rest : V} (v : Fin n) :
    (t.workers w).merges < ((t.merge w rest).workers v).merges ↔
      (t.workers w).merges < (t.workers v).merges ∨ v = w := by
  rw [Team.merge_merges]
  split_ifs with hv
  · simp [hv]
  · simp [hv]

theorem held_merge (w : Fin n) (rest : V) (p : ℕ → Prop) [DecidablePred p] :
    held plan start (t.merge w rest) p = held plan start t p := rfl

theorem held_congr {p q : ℕ → Prop} [DecidablePred p] [DecidablePred q]
    (h : ∀ i ∈ t.done, p i ↔ q i) : held plan start t p = held plan start t q := by
  rw [held, held, Finset.filter_congr h]

namespace BatchOk

variable {c : Batch V} {w : Fin n} {rest : V}

theorem merge_of_ne (h : BatchOk plan start t c) (hne : c.round ≠ (t.workers w).merges) :
    BatchOk plan start (t.merge w rest) c := by
  refine ⟨?_, ?_, ?_, h.adopted_le⟩
  · rw [held_merge, h.acc]
    exact held_congr (fun i _ => by rw [lt_merge_merges_of_ne hne])
  · simp only [lt_merge_merges_of_ne hne]
    exact h.members
  · simp only [lt_merge_merges_of_ne hne]
    exact h.nonempty

theorem join (hidem : ∀ a : V, a + a = a) (hord : Ordered plan t)
    (hacc : (t.workers w).acc = held plan start t (fun i => plan.owner i = w))
    (h : BatchOk plan start t c) (hround : c.round = (t.workers w).merges) :
    BatchOk plan start (t.merge w rest)
      { c with members := c.members + 1, acc := c.acc + (t.workers w).acc } := by
  refine ⟨?_, ?_, ?_, h.adopted_le⟩
  · rw [held_merge]
    dsimp only
    rw [h.acc, hacc]
    refine held_add_held hidem (fun i hi => ?_)
    rw [hround, lt_merge_merges_self]
    constructor
    · rintro ⟨hle, hlt | ho⟩
      · exact .inl ⟨hle, hlt⟩
      · exact .inr ho
    · rintro (⟨hle, hlt⟩ | ho)
      · exact ⟨hle, .inl hlt⟩
      · exact ⟨ho ▸ hord.round_le i hi, .inr ho⟩
  · dsimp only
    rw [h.members, hround]
    simp only [lt_merge_merges_self]
    rw [Finset.filter_or, Finset.filter_eq', if_pos (Finset.mem_univ w), Finset.union_comm,
      ← Finset.insert_eq, Finset.card_insert_of_notMem]
    simp
  · refine ⟨w, ?_⟩
    dsimp only
    rw [hround, lt_merge_merges_self]
    exact .inr rfl

theorem fresh (hord : Ordered plan t)
    (hacc : (t.workers w).acc = held plan start t (fun i => plan.owner i = w))
    (hnone : ∀ v, ¬ (t.workers w).merges < (t.workers v).merges)
    (hadopted : t.adopted ≤ (t.workers w).merges) :
    BatchOk plan start (t.merge w rest) ⟨(t.workers w).merges, 1, (t.workers w).acc⟩ := by
  refine ⟨?_, ?_, ⟨w, (lt_merge_merges_self w).2 (.inr rfl)⟩, hadopted⟩
  · rw [held_merge]
    refine hacc.trans (held_congr (fun i hi => ?_))
    rw [lt_merge_merges_self]
    constructor
    · intro ho
      exact ⟨ho ▸ hord.round_le i hi, .inr ho⟩
    · rintro ⟨_, hlt | ho⟩
      · exact absurd hlt (hnone _)
      · exact ho
  · dsimp only
    simp only [lt_merge_merges_self, hnone, false_or]
    rw [Finset.filter_eq', if_pos (Finset.mem_univ w), Finset.card_singleton]

end BatchOk

namespace Cumulative

theorem initial (start : V) :
    Cumulative plan start (Team.start start (fun _ => start) : Team V n) := by
  have hempty : ∀ (p : ℕ → Prop) [DecidablePred p],
      held plan start (Team.start start (fun _ => start) : Team V n) p = start := by
    intro p _
    simp [held, Team.start]
  exact ⟨⟨fun i hi => absurd hi (Finset.notMem_empty i),
    fun i hi => absurd hi (Finset.notMem_empty i)⟩, fun w => (hempty _).symm,
    fun c hc => absurd hc List.not_mem_nil, (hempty _).symm, List.Pairwise.nil,
    fun w => Nat.zero_le _, fun w r hr => absurd hr (Nat.not_lt_zero r),
    fun w r hr => absurd hr (Nat.not_lt_zero r)⟩

theorem run (h : Cumulative plan start t) {i : ℕ} (hnext : (t.workers (plan.owner i)).next ≤ i)
    (hround : plan.round i = (t.workers (plan.owner i)).merges) :
    Cumulative plan start (t.run plan i) := by
  have hnew := h.ordered.not_mem hnext
  have hsame : ∀ (p : ℕ → Prop) [DecidablePred p], ¬ p i →
      held plan start t p = held plan start (t.run plan i) p := by
    intro p _ hi
    rw [held, held, Team.run_done, Finset.filter_insert, if_neg hi]
  refine ⟨h.ordered.run hnext hround, fun w => ?_, fun c hc => ?_, ?_, h.sorted, fun w => ?_,
    fun w r hr => ?_, fun w r hr => ?_⟩
  · rw [Team.run_acc]
    by_cases hw : w = plan.owner i
    · subst w
      rw [if_pos rfl, h.acc, held, held, Team.run_done, Finset.filter_insert, if_pos rfl,
        Finset.sum_insert (fun hi => hnew (Finset.mem_filter.1 hi).1), add_assoc,
        add_comm (plan.amount i)]
    · rw [if_neg hw, h.acc]
      exact hsame _ (fun he => hw he.symm)
  · have hb := h.batch c hc
    refine ⟨?_, ?_, ?_, hb.adopted_le⟩
    · simp only [Team.run_merges]
      rw [hb.acc]
      refine hsame _ (fun hi => ?_)
      rw [← hround] at hi
      exact absurd hi.1 (not_le.2 hi.2)
    · simp only [Team.run_merges]
      exact hb.members
    · simp only [Team.run_merges]
      exact hb.nonempty
  · rw [show (t.run plan i).main = t.main from rfl, h.main]
    refine hsame _ (fun hi => ?_)
    have hle := h.adopted (plan.owner i)
    rw [← hround] at hle
    exact absurd hi (not_lt.2 hle)
  · rw [Team.run_merges]
    exact h.adopted w
  · rw [Team.run_merges] at hr
    exact h.covered w r hr
  · rw [Team.run_merges] at hr
    simp only [Team.run_merges]
    exact h.present w r hr

/-- The invariant after a merge, given what has become of the batches: they have the rounds they had
and that of the worker. -/
theorem of_merge (h : Cumulative plan start t) {w : Fin n} {used : List (Batch V)}
    (hused : (t.merge w (t.workers w).acc).used = used)
    (hbatch : ∀ c ∈ used, BatchOk plan start (t.merge w (t.workers w).acc) c)
    (hsorted : used.Pairwise (fun c d => c.round < d.round))
    (hrounds : ∀ r, r ∈ used.map Batch.round ↔
      r ∈ t.used.map Batch.round ∨ r = (t.workers w).merges) :
    Cumulative plan start (t.merge w (t.workers w).acc) := by
  subst hused
  refine ⟨h.ordered.merge w _, fun v => ?_, hbatch, h.main, hsorted, fun v => ?_, fun v r hr => ?_,
    fun v r hr => ?_⟩
  · rw [Team.merge_acc, held_merge]
    split_ifs with hv
    · rw [hv]
      exact h.acc w
    · exact h.acc v
  · rw [Team.merge_merges]
    split_ifs with hv
    · exact (h.adopted w).trans (Nat.le_succ _)
    · exact h.adopted v
  · by_cases hrw : r = (t.workers w).merges
    · obtain ⟨c, hc, hround⟩ := List.mem_map.1 ((hrounds r).2 (.inr hrw))
      exact .inr ⟨c, hc, hround.ge⟩
    · refine (h.covered v r ((lt_merge_merges_of_ne hrw v).1 hr)).imp id ?_
      rintro ⟨c, hc, hle⟩
      obtain ⟨d, hd, hround⟩ := List.mem_map.1 ((hrounds c.round).2 (.inl (List.mem_map_of_mem hc)))
      exact ⟨d, hd, hround ▸ hle⟩
  · by_cases hrw : r = (t.workers w).merges
    · exact .inl (List.mem_map.1 ((hrounds r).2 (.inr hrw)))
    · simp only [lt_merge_merges_of_ne hrw]
      refine (h.present v r ((lt_merge_merges_of_ne hrw v).1 hr)).imp ?_ id
      rintro ⟨c, hc, rfl⟩
      exact List.mem_map.1 ((hrounds c.round).2 (.inl (List.mem_map_of_mem hc)))

theorem merge (hidem : ∀ a : V, a + a = a) (h : Cumulative plan start t) (w : Fin n) :
    Cumulative plan start (t.merge w (t.workers w).acc) := by
  rcases mergeInto_cases (t.workers w).merges (t.workers w).acc t.used with
    ⟨as, c, bs, hused, hround, hmerge⟩ | ⟨hno, hmerge⟩
  · have hsorted := h.sorted
    have hbatch := h.batch
    rw [hused] at hsorted hbatch
    obtain ⟨has, hcbs, hacbs⟩ := List.pairwise_append.1 hsorted
    refine h.of_merge hmerge (fun d hd => ?_) ?_ (fun r => ?_)
    · rcases List.mem_append.1 hd with hd | hd
      · have hlt := hacbs d hd c List.mem_cons_self
        exact (hbatch d (List.mem_append_left _ hd)).merge_of_ne (by omega)
      · rcases List.mem_cons.1 hd with rfl | hd
        · exact (hbatch c (List.mem_append_right _ List.mem_cons_self)).join hidem h.ordered
            (h.acc w) hround
        · have hlt := (List.pairwise_cons.1 hcbs).1 d hd
          exact (hbatch d (List.mem_append_right _ (List.mem_cons_of_mem _ hd))).merge_of_ne
            (by omega)
    · refine List.pairwise_append.2 ⟨has, List.pairwise_cons.2 (List.pairwise_cons.1 hcbs), ?_⟩
      intro d hd e he
      rcases List.mem_cons.1 he with rfl | he
      · exact hacbs d hd c List.mem_cons_self
      · exact hacbs d hd e (List.mem_cons_of_mem _ he)
    · have hmem : (t.workers w).merges ∈ t.used.map Batch.round := by
        rw [hused, ← hround]
        exact List.mem_map_of_mem (List.mem_append_right _ List.mem_cons_self)
      have hsame : (as ++ { c with members := c.members + 1, acc := c.acc + (t.workers w).acc } ::
          bs).map Batch.round = t.used.map Batch.round := by
        rw [hused]
        simp
      rw [hsame]
      exact ⟨.inl, fun hr => hr.elim id (fun he => he ▸ hmem)⟩
  · -- No worker is beyond this round: its batch would be there, or all would have merged into it.
    have hnone : ∀ v, ¬ (t.workers w).merges < (t.workers v).merges := by
      intro v hv
      rcases h.present v _ hv with ⟨c, hc, hround⟩ | hall
      · exact hno c hc hround
      · exact absurd (hall w) (lt_irrefl _)
    refine h.of_merge hmerge (fun d hd => ?_) ?_ (fun r => ?_)
    · rcases List.mem_append.1 hd with hd | hd
      · exact (h.batch d hd).merge_of_ne (hno d hd)
      · rw [List.mem_singleton.1 hd]
        exact BatchOk.fresh h.ordered (h.acc w) hnone (h.adopted w)
    · refine List.pairwise_append.2 ⟨h.sorted, List.pairwise_singleton _ _, fun d hd e he => ?_⟩
      rw [List.mem_singleton.1 he]
      obtain ⟨v, hv⟩ := (h.batch d hd).nonempty
      exact lt_of_lt_of_le hv (not_lt.1 (hnone v))
    · rw [List.map_append, List.mem_append, List.map_singleton, List.mem_singleton]

theorem combine (h : Cumulative plan start t) {as bs : List (Batch V)} {a b : Batch V}
    (hused : t.used = as ++ a :: b :: bs) (ha : a.members = n) :
    Cumulative plan start { t with used := as ++ b :: bs } := by
  have hsorted := h.sorted
  have hbatch := h.batch
  rw [hused] at hsorted hbatch
  obtain ⟨has, habs, hcross⟩ := List.pairwise_append.1 hsorted
  have hcomplete := (hbatch a (List.mem_append_right _ List.mem_cons_self)).complete ha
  have hmem : ∀ c ∈ as ++ a :: b :: bs, c ∈ as ++ b :: bs ∨ c = a := by
    intro c hc
    rcases List.mem_append.1 hc with hc | hc
    · exact .inl (List.mem_append_left _ hc)
    · exact (List.mem_cons.1 hc).symm.imp (List.mem_append_right _) id
  have hsub : ∀ c ∈ as ++ b :: bs, c ∈ as ++ a :: b :: bs := by
    intro c hc
    rcases List.mem_append.1 hc with hc | hc
    · exact List.mem_append_left _ hc
    · exact List.mem_append_right _ (List.mem_cons_of_mem _ hc)
  refine ⟨⟨h.ordered.next, h.ordered.round_le⟩, h.acc, fun c hc => ?_, h.main, ?_, h.adopted,
    fun w r hr => ?_, fun w r hr => ?_⟩
  · have hb := hbatch c (hsub c hc)
    exact ⟨hb.acc, hb.members, hb.nonempty, hb.adopted_le⟩
  · exact List.pairwise_append.2 ⟨has, (List.pairwise_cons.1 habs).2,
      fun c hc d hd => hcross c hc d (List.mem_cons_of_mem _ hd)⟩
  · refine (h.covered w r hr).imp id ?_
    rintro ⟨c, hc, hle⟩
    rw [hused] at hc
    rcases hmem c hc with hc | rfl
    · exact ⟨c, hc, hle⟩
    · have hlt := (List.pairwise_cons.1 habs).1 b List.mem_cons_self
      exact ⟨b, List.mem_append_right _ List.mem_cons_self, hle.trans hlt.le⟩
  · rcases h.present w r hr with ⟨c, hc, rfl⟩ | hall
    · rw [hused] at hc
      rcases hmem c hc with hc | rfl
      · exact .inl ⟨c, hc, rfl⟩
      · exact .inr hcomplete
    · exact .inr hall

theorem adopt (hidem : ∀ a : V, a + a = a) (h : Cumulative plan start t) {c : Batch V}
    {cs : List (Batch V)} (hused : t.used = c :: cs) (hc : c.members = n) :
    Cumulative plan start
      { t with main := t.main + c.acc, used := cs, adopted := c.round + 1 } := by
  have hsorted := h.sorted
  have hbatch := h.batch
  rw [hused] at hsorted hbatch
  have hok := hbatch c List.mem_cons_self
  have hcomplete := hok.complete hc
  refine ⟨⟨h.ordered.next, h.ordered.round_le⟩, h.acc, fun d hd => ?_, ?_,
    (List.pairwise_cons.1 hsorted).2, hcomplete, fun w r hr => ?_, fun w r hr => ?_⟩
  · have hb := hbatch d (List.mem_cons_of_mem _ hd)
    exact ⟨hb.acc, hb.members, hb.nonempty, (List.pairwise_cons.1 hsorted).1 d hd⟩
  · have hle := hok.adopted_le
    have hacc := hok.acc
    change t.main + c.acc = held plan start t (fun i => plan.round i < c.round + 1)
    rw [h.main, hacc]
    refine held_add_held hidem (fun i _ => ⟨fun hlt => .inr ⟨?_, hcomplete _⟩, ?_⟩)
    · omega
    · rintro (hlt | ⟨hlt, _⟩)
      · omega
      · omega
  · rcases h.covered w r hr with hlt | ⟨d, hd, hle⟩
    · exact .inl (lt_of_lt_of_le hlt (hok.adopted_le.trans (Nat.le_succ _)))
    · rw [hused] at hd
      rcases List.mem_cons.1 hd with rfl | hd
      · exact .inl (Nat.lt_succ_of_le hle)
      · exact .inr ⟨d, hd, hle⟩
  · rcases h.present w r hr with ⟨d, hd, rfl⟩ | hall
    · rw [hused] at hd
      rcases List.mem_cons.1 hd with rfl | hd
      · exact .inr hcomplete
      · exact .inl ⟨d, hd, rfl⟩
    · exact .inr hall

theorem step (hidem : ∀ a : V, a + a = a) (h : Cumulative plan start t) {a : Action V n}
    (hstep : t.step plan true a = some t') : Cumulative plan start t' := by
  cases a with
  | run i =>
      simp only [Team.step] at hstep
      split_ifs at hstep with hi
      cases hstep
      exact h.run hi.1 hi.2
  | merge w rest =>
      cases hstep
      exact h.merge hidem w
  | combine k =>
      obtain ⟨used, hcomb, rfl⟩ := Option.map_eq_some_iff.1 hstep
      obtain ⟨as, a, b, bs, hcs, ha, _, rfl⟩ := combineAt_cases hcomb
      exact h.combine hcs ha
  | adopt =>
      simp only [Team.step] at hstep
      cases hused : t.used with
      | nil =>
          rw [hused] at hstep
          cases hstep
      | cons c cs =>
          rw [hused] at hstep
          dsimp only at hstep
          split_ifs at hstep with hc
          cases hstep
          exact h.adopt hidem hused hc

theorem of_run (hidem : ∀ a : V, a + a = a) {P : Team V n → Action V n → Prop}
    (h : Run (Team.step plan true) P (Team.start start (fun _ => start)) t) :
    Cumulative plan start t :=
  h.invariant _ (initial start) (fun _ _ _ hc _ hs => hc.step hidem hs)

/-- In the end the main accumulator has taken in every item. -/
theorem main_eq (h : Cumulative plan start t) (hfin : t.Finished plan) :
    t.main = start + ∑ i ∈ t.done, plan.amount i := by
  rw [h.main, held, Finset.filter_true_of_mem]
  intro i hi
  rcases h.covered _ _ (hfin.2 i hi) with hlt | ⟨c, hc, _⟩
  · exact hlt
  · rw [hfin.1] at hc
    exact absurd hc List.not_mem_nil

end Cumulative
end Cpf.Collect
