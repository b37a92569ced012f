import Cpf.Smtx.QueueAccess

/-!
# The queue is a FIFO

Counters that never wrap around stand behind the indices: how much was produced, published, seen by the
consumer as its margin, consumed or skipped, and published by the consumer. As the producer looks at the
consumer's index once in a chunk, it is at most a chunk ahead of the threshold. This is less than the
size of the ring, so that the indices determine the distances of the counters.
-/

namespace Cpf.Smtx

open Cpf.RingIndex

namespace QueueSizes

variable {c : QueueSizes}

/-! ### Sizes -/

/-- The producer looks at the consumer's index after so many values. -/
def stride (c : QueueSizes) : ℕ := max c.chunkSize c.width

theorem qSize_pos : 0 < c.qSize := Nat.two_pow_pos _

theorem qSize_dvd : c.qSize ∣ 2 ^ 32 := Nat.pow_dvd_pow 2 (by have := c.index; omega)

theorem and_qMask (x : ℕ) : x &&& c.qMask = x % c.qSize := Nat.and_two_pow_sub_one_eq_mod x c.qLog

theorem and_chunkMask (x : ℕ) : x &&& (c.chunkSize - 1) = x % c.chunkSize :=
  Nat.and_two_pow_sub_one_eq_mod x c.chunkLog

theorem width_eq (c : QueueSizes) : c.width = 2 ^ (if c.pairs then 1 else 0) := by
  unfold width
  split_ifs <;> rfl

theorem width_pos : 0 < c.width := by
  rw [width_eq]
  exact Nat.two_pow_pos _

theorem stride_eq (c : QueueSizes) : c.stride = 2 ^ max c.chunkLog (if c.pairs then 1 else 0) := by
  rw [stride, width_eq]
  exact ((pow_right_mono₀ (by norm_num : (1 : ℕ) ≤ 2)).map_max).symm

theorem stride_pos : 0 < c.stride := width_pos.trans_le (le_max_right _ _)

theorem width_dvd_stride : c.width ∣ c.stride := by
  rw [width_eq, stride_eq]
  exact Nat.pow_dvd_pow 2 (le_max_right _ _)

theorem chunk_dvd_stride : c.chunkSize ∣ c.stride := by
  rw [stride_eq]
  exact Nat.pow_dvd_pow 2 (le_max_left _ _)

theorem Roomy.threshold_add_stride_lt (h : c.Roomy) : c.threshold + c.stride < c.qSize := by
  have hthreshold : c.threshold * c.qMargin ≤ (c.qMargin - 1) * c.qSize := Nat.div_mul_le_self _ _
  have hstride : c.stride * c.qMargin < c.qSize := h
  have hsum : (c.qMargin - 1) * c.qSize + c.qSize = c.qSize * c.qMargin := by
    obtain ⟨m, hm⟩ := Nat.exists_eq_succ_of_ne_zero c.margin_pos.ne'
    rw [hm, Nat.succ_sub_one, Nat.mul_succ, Nat.mul_comm]
  have hmul : (c.threshold + c.stride) * c.qMargin < c.qSize * c.qMargin := by
    rw [Nat.add_mul]
    omega
  exact Nat.lt_of_mul_lt_mul_right hmul

theorem Roomy.stride_dvd (h : c.Roomy) : c.stride ∣ c.qSize := by
  have hlt := h.threshold_add_stride_lt
  rw [stride_eq] at *
  apply Nat.pow_dvd_pow 2
  by_contra hle
  have hpow := Nat.pow_le_pow_right (show 0 < 2 by norm_num) (not_le.1 hle).le
  unfold qSize at hlt
  omega

theorem mod_chunk_eq_zero_iff {x : ℕ} (hx : c.width ∣ x) : x % c.chunkSize = 0 ↔ x % c.stride = 0 := by
  constructor
  · intro hz
    rcases le_total c.width c.chunkSize with hle | hle
    · rw [stride, max_eq_left hle]
      exact hz
    · rw [stride, max_eq_right hle]
      exact Nat.mod_eq_zero_of_dvd hx
  · exact fun hz => Nat.mod_eq_zero_of_dvd (chunk_dvd_stride.trans (Nat.dvd_of_mod_eq_zero hz))

end QueueSizes

/-! ### The invariant -/

/-- `sq_waitConsumer` has not found room yet. -/
def ProducerPc.Waits (pc : ProducerPc) : Prop := pc = .test ∨ pc = .callback ∨ pc = .spin

structure RingHolds (c : QueueSizes) (s : QueueState) (margin published : ℕ) : Prop where
  visible_le : s.visible ≤ s.produced.length
  margin_le : margin ≤ s.visible
  taken_le : s.fates.length ≤ margin
  published_le : published ≤ s.fates.length
  pInx : s.queue.pInx = s.produced.length % c.qSize
  pGlbInx : s.queue.pGlbInx = s.visible % c.qSize
  cMargin : s.queue.cMargin = margin % c.qSize
  cInx : s.queue.cInx = s.fates.length % c.qSize
  cGlbInx : s.queue.cGlbInx = published % c.qSize
  whole : c.width ∣ s.produced.length ∧ c.width ∣ s.visible ∧ c.width ∣ margin
  few : s.produced.length ≤ published + c.threshold + c.stride
  room : ¬ s.producer.Waits → s.produced.length ≤ published + c.threshold + s.produced.length % c.stride
  data : ∀ k, s.fates.length ≤ k → k < s.produced.length →
    s.produced[k]? = some (s.queue.data (k % c.qSize))
  values : ∀ (i : ℕ) (value : Word), s.fates[i]? = some (some value) → s.produced[i]? = some value
  stored : ∀ values i, s.producer = .store values i → values.length = c.width ∧
    ∀ j < i, ∀ value, values[j]? = some value → s.queue.data ((s.produced.length + j) % c.qSize) = value
  refilling : s.consumer = .fastPath ∨ s.consumer = .refill → s.fates.length < s.visible
  loading : s.consumer = .load → s.fates.length < margin

namespace RingHolds

variable {c : QueueSizes} {s : QueueState} {margin published : ℕ}

theorem produced_lt (h : RingHolds c s margin published) (hc : c.Roomy) :
    s.produced.length < published + c.qSize := by
  have hfew := h.few
  have hlt := hc.threshold_add_stride_lt
  omega

theorem modSub_eq (h : RingHolds c s margin published) (hc : c.Roomy) :
    c.modSub s.queue.pInx s.queue.cGlbInx = s.produced.length - published := by
  have hvisible := h.visible_le
  have hmargin := h.margin_le
  have htaken := h.taken_le
  have hpublished := h.published_le
  unfold QueueSizes.modSub
  rw [QueueSizes.and_qMask, h.pInx, h.cGlbInx]
  apply mod_sub_mod QueueSizes.qSize_pos QueueSizes.qSize_dvd (by norm_num) (by omega)
  exact h.produced_lt hc

theorem crowded_iff (h : RingHolds c s margin published) (hc : c.Roomy) :
    c.Crowded s.queue ↔ published + c.threshold < s.produced.length := by
  unfold QueueSizes.Crowded
  rw [h.modSub_eq hc]
  omega

theorem cInx_eq_cMargin_iff (h : RingHolds c s margin published) (hc : c.Roomy) :
    s.queue.cInx = s.queue.cMargin ↔ s.fates.length = margin := by
  have hlt := h.produced_lt hc
  have hvisible := h.visible_le
  have hmargin := h.margin_le
  have hpublished := h.published_le
  rw [h.cInx, h.cMargin]
  exact mod_eq_mod_iff h.taken_le (by omega)

theorem pGlbInx_eq_cInx_iff (h : RingHolds c s margin published) (hc : c.Roomy) :
    s.queue.pGlbInx = s.queue.cInx ↔ s.visible = s.fates.length := by
  have hlt := h.produced_lt hc
  have hvisible := h.visible_le
  have hpublished := h.published_le
  rw [h.pGlbInx, h.cInx, eq_comm, mod_eq_mod_iff (h.taken_le.trans h.margin_le) (by omega), eq_comm]

theorem next_eq (h : RingHolds c s margin published) (hlt : s.fates.length < s.produced.length) :
    s.produced[s.fates.length]? = some s.queue.next := by
  rw [SwQueue.next, h.cInx]
  exact h.data _ le_rfl hlt

/-- Behind the end of a chunk the producer waits; in it there is room for one more call. -/
theorem room_of_not_waits (h : RingHolds c s margin published) (hw : ¬ s.producer.Waits) :
    s.produced.length + c.width ≤ published + c.threshold + c.stride := by
  have hroom := h.room hw
  obtain ⟨k, hk⟩ := (Nat.dvd_mod_iff QueueSizes.width_dvd_stride).2 h.whole.1
  obtain ⟨l, hl⟩ := QueueSizes.width_dvd_stride (c := c)
  have hlt : s.produced.length % c.stride < c.stride := Nat.mod_lt _ QueueSizes.stride_pos
  have hkl : k + 1 ≤ l := by
    rw [hk, hl] at hlt
    exact Nat.lt_of_mul_lt_mul_left hlt
  have hmul := Nat.mul_le_mul_left c.width hkl
  rw [Nat.mul_succ, ← hk, ← hl] at hmul
  omega

/-! ### Steps of the producer -/

theorem producerAt (h : RingHolds c s margin published) {next : ProducerPc}
    (hstore : ∀ values i, next = .store values i → i = 0 ∧ values.length = c.width)
    (hroom : ¬ next.Waits →
      s.produced.length ≤ published + c.threshold + s.produced.length % c.stride) :
    RingHolds c { s with producer := next } margin published :=
  { h with
    room := hroom
    stored := fun values i hnext => by
      obtain ⟨rfl, hlen⟩ := hstore values i hnext
      exact ⟨hlen, fun j hj => absurd hj (Nat.not_lt_zero j)⟩ }

theorem storeValue (h : RingHolds c s margin published) (hc : c.Roomy) {values : List Word} {i : ℕ}
    {value : Word} (hpc : s.producer = .store values i) (hvalue : values[i]? = some value) :
    RingHolds c { s with
      queue := { s.queue with data := Function.update s.queue.data (s.queue.pInx + i) value }
      producer := .store values (i + 1) } margin published := by
  have hidle : ¬ s.producer.Waits := by
    rw [hpc]
    rintro (hw | hw | hw) <;> cases hw
  have hfits := h.room_of_not_waits hidle
  have hsize := hc.threshold_add_stride_lt
  have hwidth : c.width ≤ c.stride := le_max_right _ _
  have hpublished := h.published_le
  obtain ⟨hlen, hstored⟩ := h.stored values i hpc
  have hi : i < c.width := by
    rw [← hlen]
    exact (List.getElem?_eq_some_iff.1 hvalue).1
  have hcell : s.queue.pInx + i = (s.produced.length + i) % c.qSize := by
    rw [h.pInx]
    exact mod_add_of_lt (QueueSizes.width_dvd_stride.trans hc.stride_dvd) QueueSizes.qSize_pos h.whole.1 hi
  refine { h with room := fun _ => h.room hidle, data := fun k hk hlt => ?_, stored := fun vs j hnext => ?_ }
  · change s.fates.length ≤ k at hk
    change k < s.produced.length at hlt
    have hne : k % c.qSize ≠ (s.produced.length + i) % c.qSize := by
      rw [Ne, mod_eq_mod_iff (by omega) (by omega)]
      omega
    dsimp only
    rw [hcell, Function.update_of_ne hne]
    exact h.data k hk hlt
  · cases hnext
    refine ⟨hlen, fun l hl v hv => ?_⟩
    dsimp only
    rw [hcell]
    rcases Nat.lt_succ_iff_lt_or_eq.1 hl with hlt | rfl
    · have hne : (s.produced.length + l) % c.qSize ≠ (s.produced.length + i) % c.qSize := by
        rw [Ne, mod_eq_mod_iff (by omega) (by omega)]
        omega
      rw [Function.update_of_ne hne]
      exact hstored l hlt v hv
    · rw [Function.update_self]
      rw [hvalue] at hv
      exact Option.some_inj.1 hv

/-- All values of a call are stored, and the producer's index moves behind them. -/
theorem produceDone (h : RingHolds c s margin published) (hc : c.Roomy) {values : List Word} {i : ℕ}
    (hpc : s.producer = .store values i) (hvalue : values[i]? = none) :
    RingHolds c (s.store c values i) margin published := by
  have hidle : ¬ s.producer.Waits := by
    rw [hpc]
    rintro (hw | hw | hw) <;> cases hw
  have hfits := h.room_of_not_waits hidle
  obtain ⟨hlen, hstored⟩ := h.stored values i hpc
  have hi := List.getElem?_eq_none_iff.1 hvalue
  have hlen' : (s.produced ++ values).length = s.produced.length + c.width := by
    rw [List.length_append, hlen]
  have hpInx : (s.queue.pInx + values.length) &&& c.qMask = (s.produced.length + c.width) % c.qSize := by
    rw [QueueSizes.and_qMask, h.pInx, hlen, Nat.mod_add_mod]
  have hwhole : c.width ∣ s.produced.length + c.width := (Nat.dvd_add_self_right).2 h.whole.1
  unfold QueueState.store
  rw [hvalue]
  dsimp only
  rw [hpInx]
  refine { h with
    visible_le := ?_
    pInx := ?_
    whole := ?_
    few := ?_
    room := fun hw => ?_
    data := fun k hk hlt => ?_
    values := fun j v hv => ?_
    stored := fun vs j hnext => ?_ }
  · dsimp only
    have hvisible := h.visible_le
    omega
  · dsimp only
    rw [hlen']
  · dsimp only
    rw [hlen']
    exact ⟨hwhole, h.whole.2⟩
  · dsimp only
    omega
  · dsimp only at hw ⊢
    have hne : (s.produced.length + c.width) % c.stride ≠ 0 := by
      intro hz
      apply hw
      rw [QueueSizes.and_chunkMask, if_pos]
      · exact Or.inl rfl
      · rw [Nat.mod_mod_of_dvd _ (QueueSizes.chunk_dvd_stride.trans hc.stride_dvd)]
        exact (QueueSizes.mod_chunk_eq_zero_iff hwhole).2 hz
    have hroom := h.room hidle
    rw [hlen', add_mod_of_ne_zero QueueSizes.width_dvd_stride QueueSizes.stride_pos h.whole.1 hne]
    omega
  · dsimp only at hk hlt ⊢
    by_cases hold : k < s.produced.length
    · rw [List.getElem?_append_left hold]
      exact h.data k hk hold
    · obtain ⟨j, rfl⟩ := Nat.exists_eq_add_of_le (not_lt.1 hold)
      have hj : j < values.length := by omega
      rw [List.getElem?_append_right (Nat.le_add_right _ _), Nat.add_sub_cancel_left,
        List.getElem?_eq_getElem hj,
        hstored j (hj.trans_le hi) _ (List.getElem?_eq_getElem hj)]
  · exact (List.getElem?_append_left (List.getElem?_eq_some_iff.1 (h.values j v hv)).1).trans
      (h.values j v hv)
  · dsimp only at hnext
    split_ifs at hnext

theorem flush (h : RingHolds c s margin published) {next : ProducerPc}
    (hstore : ∀ values i, next ≠ .store values i) (hw : s.producer.Waits → next.Waits) :
    RingHolds c (s.flush next) margin published :=
  { h with
    visible_le := le_rfl
    margin_le := h.margin_le.trans h.visible_le
    pGlbInx := h.pInx
    whole := ⟨h.whole.1, h.whole.1, h.whole.2.2⟩
    room := fun hnext => h.room fun hs => hnext (hw hs)
    stored := fun values i hnext => absurd hnext (hstore values i)
    refilling := fun hpc => (h.refilling hpc).trans_le h.visible_le }

/-! ### Steps of the consumer -/

theorem consumerAt (h : RingHolds c s margin published) {next : ConsumerPc}
    (hrefill : next = .fastPath ∨ next = .refill → s.fates.length < s.visible)
    (hload : next = .load → s.fates.length < margin) :
    RingHolds c { s with consumer := next } margin published :=
  { h with
    refilling := hrefill
    loading := hload }

theorem reverseFlush (h : RingHolds c s margin published) {next : ConsumerPc}
    (hrefill : next = .fastPath ∨ next = .refill → s.fates.length < s.visible)
    (hload : next = .load → s.fates.length < margin) :
    RingHolds c (s.reverseFlush next) margin s.fates.length :=
  { h with
    published_le := le_rfl
    cGlbInx := h.cInx
    few := by
      have hpublished := h.published_le
      have hfew := h.few
      change s.produced.length ≤ _
      omega
    room := fun hw => by
      have hpublished := h.published_le
      have hroom := h.room hw
      change s.produced.length ≤ _ + s.produced.length % _
      omega
    refilling := hrefill
    loading := hload }

theorem refill (h : RingHolds c s margin published) (hpc : s.consumer = .refill) :
    RingHolds c { s with queue := s.queue.refill, consumer := .load } s.visible published :=
  { h with
    margin_le := le_rfl
    taken_le := h.taken_le.trans h.margin_le
    cMargin := h.pGlbInx
    whole := ⟨h.whole.1, h.whole.2.1, h.whole.2.1⟩
    refilling := fun he => by rcases he with he | he <;> cases he
    loading := fun _ => h.refilling (Or.inr hpc) }

theorem load (h : RingHolds c s margin published) (hpc : s.consumer = .load) :
    RingHolds c (s.load c) margin published := by
  have hlt := h.loading hpc
  have hmargin := h.margin_le
  have hvisible := h.visible_le
  have hlen : (s.fates ++ [some s.queue.next]).length = s.fates.length + 1 := by
    rw [List.length_append, List.length_singleton]
  refine { h with
    taken_le := ?_
    published_le := ?_
    cInx := ?_
    data := fun k hk => ?_
    values := fun i value hi => ?_
    refilling := fun he => by rcases he with he | he <;> cases he
    loading := fun he => by cases he }
  · change (s.fates ++ [some s.queue.next]).length ≤ margin
    omega
  · change published ≤ (s.fates ++ [some s.queue.next]).length
    have hpublished := h.published_le
    omega
  · change (s.queue.cInx + 1) &&& c.qMask = (s.fates ++ [some s.queue.next]).length % c.qSize
    rw [QueueSizes.and_qMask, h.cInx, Nat.mod_add_mod, hlen]
  · change (s.fates ++ [some s.queue.next]).length ≤ k at hk
    exact h.data k (by omega)
  · change (s.fates ++ [some s.queue.next])[i]? = some (some value) at hi
    rcases lt_trichotomy i s.fates.length with hi' | rfl | hi'
    · rw [List.getElem?_append_left hi'] at hi
      exact h.values i value hi
    · rw [List.getElem?_concat_length] at hi
      cases hi
      exact h.next_eq (by omega)
    · rw [List.getElem?_eq_none (by omega)] at hi
      cases hi

theorem skipAll (h : RingHolds c s margin published) : RingHolds c s.skipAll s.visible published := by
  have hle := h.taken_le.trans h.margin_le
  have hlen : s.skipAll.fates.length = s.visible := by
    change (s.fates ++ List.replicate (s.visible - s.fates.length) none).length = _
    rw [List.length_append, List.length_replicate]
    omega
  refine { h with
    margin_le := le_rfl
    taken_le := hlen.le
    published_le := ?_
    cMargin := h.pGlbInx
    cInx := ?_
    whole := ⟨h.whole.1, h.whole.2.1, h.whole.2.1⟩
    data := fun k hk => ?_
    values := fun i value hi => ?_
    refilling := fun he => by rcases he with he | he <;> cases he
    loading := fun he => by cases he }
  · rw [hlen]
    exact h.published_le.trans hle
  · rw [hlen]
    exact h.pGlbInx
  · rw [hlen] at hk
    exact h.data k (hle.trans hk)
  · change (s.fates ++ List.replicate (s.visible - s.fates.length) none)[i]? = some (some value) at hi
    by_cases hi' : i < s.fates.length
    · rw [List.getElem?_append_left hi'] at hi
      exact h.values i value hi
    · rw [List.getElem?_append_right (not_lt.1 hi')] at hi
      cases List.eq_of_mem_replicate (List.mem_of_getElem? hi)

/-! ### Runs -/

theorem produceStep {s' : QueueState} (h : RingHolds c s margin published) (hc : c.Roomy)
    (hstep : s.produceStep c = some s') : RingHolds c s' margin published := by
  unfold QueueState.produceStep at hstep
  cases hpc : s.producer with
  | idle =>
      rw [hpc] at hstep
      cases hstep
  | store values i =>
      rw [hpc] at hstep
      cases hstep
      cases hvalue : values[i]? with
      | none => exact h.produceDone hc hpc hvalue
      | some value =>
          unfold QueueState.store
          rw [hvalue]
          exact h.storeValue hc hpc hvalue
  | test =>
      rw [hpc] at hstep
      cases hstep
      refine h.producerAt (fun values i hnext => ?_) fun hw => ?_
      · split_ifs at hnext
      · split_ifs at hw with hcrowded
        · exact absurd (Or.inr (Or.inl rfl)) hw
        · rw [h.crowded_iff hc] at hcrowded
          omega
  | callback =>
      rw [hpc] at hstep
      cases hstep
      exact h.flush (fun _ _ he => by cases he) fun _ => Or.inr (Or.inr rfl)
  | spin =>
      rw [hpc] at hstep
      cases hstep
      refine h.producerAt (fun values i hnext => ?_) fun hw => ?_
      · split_ifs at hnext
      · split_ifs at hw with hcrowded
        · exact absurd (Or.inr (Or.inr rfl)) hw
        · rw [h.crowded_iff hc] at hcrowded
          omega
  | flush =>
      rw [hpc] at hstep
      cases hstep
      refine h.flush (fun _ _ he => by cases he) fun hw => ?_
      rw [hpc] at hw
      rcases hw with hw | hw | hw <;> cases hw

theorem consumeStep {s' : QueueState} (h : RingHolds c s margin published) (hc : c.Roomy)
    (hstep : s.consumeStep c = some s') : ∃ margin' published', RingHolds c s' margin' published' := by
  have hseen : ¬ s.queue.pGlbInx = s.queue.cInx → s.fates.length < s.visible := by
    intro hne
    rw [h.pGlbInx_eq_cInx_iff hc] at hne
    have hle := h.taken_le.trans h.margin_le
    omega
  unfold QueueState.consumeStep at hstep
  cases hpc : s.consumer with
  | idle =>
      rw [hpc] at hstep
      cases hstep
  | test =>
      rw [hpc] at hstep
      cases hstep
      refine ⟨margin, published, h.consumerAt (fun hnext => ?_) fun hnext => ?_⟩
      · split_ifs at hnext with hempty
        · rcases hnext with hnext | hnext <;> cases hnext
        · exact hseen hempty
      · split_ifs at hnext
  | callback =>
      rw [hpc] at hstep
      cases hstep
      exact ⟨margin, _, h.reverseFlush (fun he => by rcases he with he | he <;> cases he)
        fun he => by cases he⟩
  | spin =>
      rw [hpc] at hstep
      cases hstep
      refine ⟨margin, published, h.consumerAt (fun hnext => ?_) fun hnext => ?_⟩
      · split_ifs at hnext with hempty
        · rcases hnext with hnext | hnext <;> cases hnext
        · exact hseen hempty
      · split_ifs at hnext
  | fastPath =>
      rw [hpc] at hstep
      cases hstep
      exact ⟨margin, _, h.reverseFlush (fun _ => h.refilling (Or.inl hpc)) fun he => by cases he⟩
  | refill =>
      rw [hpc] at hstep
      cases hstep
      exact ⟨_, published, h.refill hpc⟩
  | load =>
      rw [hpc] at hstep
      cases hstep
      exact ⟨margin, published, h.load hpc⟩
  | empty =>
      rw [hpc] at hstep
      cases hstep
      exact ⟨_, published, h.skipAll⟩
  | reverseFlush =>
      rw [hpc] at hstep
      cases hstep
      exact ⟨margin, _, h.reverseFlush (fun he => by rcases he with he | he <;> cases he)
        fun he => by cases he⟩

theorem begins (h : RingHolds c s margin published) (hidle : s.producer = .idle) {next : ProducerPc}
    (hstore : ∀ values i, next = .store values i → i = 0 ∧ values.length = c.width) :
    RingHolds c { s with producer := next } margin published := by
  refine h.producerAt hstore fun _ => h.room fun hw => ?_
  rw [hidle] at hw
  rcases hw with hw | hw | hw <;> cases hw

theorem move {s' : QueueState} {m : QueueMove} (h : RingHolds c s margin published) (hc : c.Roomy)
    (hstep : s.move c m = some s') : ∃ margin' published', RingHolds c s' margin' published' := by
  unfold QueueState.move at hstep
  cases m with
  | produce value =>
      dsimp only at hstep
      split_ifs at hstep with hidle
      cases hstep
      refine ⟨margin, published, h.begins hidle.1 fun values i hnext => ?_⟩
      cases hnext
      exact ⟨rfl, by rw [QueueSizes.width, hidle.2]; rfl⟩
  | produce2 a b =>
      dsimp only at hstep
      split_ifs at hstep with hidle
      cases hstep
      refine ⟨margin, published, h.begins hidle.1 fun values i hnext => ?_⟩
      cases hnext
      exact ⟨rfl, by rw [QueueSizes.width, hidle.2]; rfl⟩
  | flushQueue =>
      dsimp only at hstep
      split_ifs at hstep with hidle
      cases hstep
      exact ⟨margin, published, h.begins hidle fun _ _ hnext => by cases hnext⟩
  | producer => exact ⟨margin, published, h.produceStep hc hstep⟩
  | consume =>
      dsimp only at hstep
      split_ifs at hstep with hidle
      cases hstep
      refine ⟨margin, published, h.consumerAt (fun hnext => ?_) fun hnext => ?_⟩
      · unfold sqConsume at hnext
        split_ifs at hnext <;> rcases hnext with hnext | hnext <;> cases hnext
      · unfold sqConsume at hnext
        split_ifs at hnext with hmargin
        rw [h.cInx_eq_cMargin_iff hc] at hmargin
        exact h.taken_le.lt_of_ne hmargin
  | reverseFlush =>
      dsimp only at hstep
      split_ifs at hstep with hidle
      cases hstep
      exact ⟨margin, published, h.consumerAt (fun he => by rcases he with he | he <;> cases he)
        fun he => by cases he⟩
  | emptyQueue =>
      dsimp only at hstep
      split_ifs at hstep with hidle
      cases hstep
      exact ⟨margin, published, h.consumerAt (fun he => by rcases he with he | he <;> cases he)
        fun he => by cases he⟩
  | consumer => exact h.consumeStep hc hstep

theorem initial (c : QueueSizes) : RingHolds c .initial 0 0 where
  visible_le := le_rfl
  margin_le := le_rfl
  taken_le := le_rfl
  published_le := le_rfl
  pInx := (Nat.zero_mod _).symm
  pGlbInx := (Nat.zero_mod _).symm
  cMargin := (Nat.zero_mod _).symm
  cInx := (Nat.zero_mod _).symm
  cGlbInx := (Nat.zero_mod _).symm
  whole := ⟨Nat.dvd_zero _, Nat.dvd_zero _, Nat.dvd_zero _⟩
  few := Nat.zero_le _
  room _ := Nat.zero_le _
  data k _ hlt := absurd hlt (Nat.not_lt_zero k)
  values i value hi := by cases hi
  stored values i he := by cases he
  refilling he := by rcases he with he | he <;> cases he
  loading he := by cases he

theorem run (hc : c.Roomy) {moves : List QueueMove} (hrun : runQueue c moves = some s) :
    ∃ margin published, RingHolds c s margin published := by
  induction moves using List.reverseRecOn generalizing s with
  | nil =>
      cases hrun
      exact ⟨0, 0, initial c⟩
  | append_singleton moves m ih =>
      unfold runQueue at *
      rw [List.foldlM_append, Option.bind_eq_bind, Option.bind_eq_some_iff] at hrun
      obtain ⟨t, ht, hlast⟩ := hrun
      obtain ⟨margin, published, h⟩ := ih ht
      rw [List.foldlM_cons, Option.bind_eq_bind, Option.bind_eq_some_iff] at hlast
      obtain ⟨t', ht', hnil⟩ := hlast
      cases hnil
      exact h.move hc ht'

theorem fifo (h : RingHolds c s margin published) (hc : c.Roomy) : Fifo c s where
  taken_le := h.taken_le.trans h.margin_le
  visible_le := h.visible_le
  values := h.values
  readPublished hpc := (h.loading hpc).trans_le h.margin_le
  readNext hpc := h.next_eq ((h.loading hpc).trans_le (h.margin_le.trans h.visible_le))
  notOverwritten values i hpc := by
    have hfits := h.room_of_not_waits (by
      rw [hpc]
      rintro (hw | hw | hw) <;> cases hw)
    have hsize := hc.threshold_add_stride_lt
    have hpublished := h.published_le
    rw [(h.stored values i hpc).1]
    omega
  waitsIfEmpty := h.pGlbInx_eq_cInx_iff hc
  wholePairs hpairs := by
    have hwidth : c.width = 2 := by rw [QueueSizes.width, if_pos hpairs]
    have hwhole := h.whole
    rw [hwidth] at hwhole
    refine ⟨Nat.mod_eq_zero_of_dvd hwhole.2.1, fun hodd hmargin => ?_⟩
    rw [h.cInx_eq_cMargin_iff hc] at hmargin
    have heven := Nat.mod_eq_zero_of_dvd hwhole.2.2
    omega

end RingHolds

/-- With sizes that leave room, the queue is a FIFO after every interleaving. -/
theorem queue_fifo (c : QueueSizes) (hc : c.Roomy) (moves : List QueueMove) (s : QueueState)
    (hrun : runQueue c moves = some s) : Fifo c s := by
  obtain ⟨margin, published, h⟩ := RingHolds.run hc hrun
  exact h.fifo hc

def defaultSizes : QueueSizes := ⟨21, 14, 4, false, by decide, by decide, by decide⟩

theorem queue_fifo_default : ∃ s, runQueue defaultSizes [.produce 7, .producer, .producer, .flushQueue,
    .producer, .consume, .consumer, .consumer, .consumer, .consumer] = some s ∧ s.fates = [some 7] ∧
      Fifo defaultSizes s := by
  have hroomy : defaultSizes.Roomy := by
    change max (2 ^ 14) 1 * 4 < 2 ^ 21
    norm_num
  have hrun : (runQueue defaultSizes [.produce 7, .producer, .producer, .flushQueue, .producer, .consume,
      .consumer, .consumer, .consumer, .consumer]).map QueueState.fates = some [some 7] := by
    decide +kernel
  obtain ⟨s, hs, hfates⟩ := Option.map_eq_some_iff.1 hrun
  exact ⟨s, hs, hfates, queue_fifo defaultSizes hroomy _ s hs⟩

def endsAt (c : QueueSizes) (moves : List QueueMove) : Option (ProducerPc × ℕ × ℕ) :=
  (runQueue c moves).map fun s => (s.producer, s.produced.length, s.fates.length)

theorem not_fifo_of_endsAt {c : QueueSizes} {moves : List QueueMove} {values : List Word} {n : ℕ}
    (hend : endsAt c moves = some (.store values 0, n, 0)) (hfull : c.qSize < n + values.length) :
    ¬ ∀ moves s, runQueue c moves = some s → Fifo c s := by
  intro h
  obtain ⟨s, hs, heq⟩ := Option.map_eq_some_iff.1 hend
  obtain ⟨hpc, hlen, hfates⟩ := Prod.ext_iff.1 heq |>.imp_right Prod.ext_iff.1
  have hroom := (h moves s hs).notOverwritten values 0 hpc
  dsimp only at hlen hfates
  omega

/-- With a chunk of exactly `QSIZE / QMARGIN` a full ring looks empty to the producer. So it does with chunks
of one value if the values come in pairs. -/
theorem full_ring_looks_empty :
    (¬ ∀ c : QueueSizes, c.AtMost → c.pairs = false → ∀ moves s, runQueue c moves = some s → Fifo c s) ∧
    ¬ ∀ c : QueueSizes, c.chunkSize * c.qMargin < c.qSize → c.pairs = true →
      ∀ moves s, runQueue c moves = some s → Fifo c s := by
  constructor
  · intro h
    have hend : endsAt ⟨1, 0, 2, false, by decide, by decide, by decide⟩ [.produce 7, .producer, .producer,
        .producer, .producer, .produce 8, .producer, .producer, .producer, .producer, .produce 9] =
          some (.store [9] 0, 2, 0) := by decide +kernel
    exact not_fifo_of_endsAt hend (by decide) (h _ (by decide) rfl)
  · intro h
    have hend : endsAt ⟨2, 0, 2, true, by decide, by decide, by decide⟩ [.produce2 5 6, .producer, .producer,
        .producer, .producer, .producer, .produce2 7 8, .producer, .producer, .producer, .producer,
        .producer, .produce2 9 10] = some (.store [9, 10] 0, 4, 0) := by decide +kernel
    exact not_fifo_of_endsAt hend (by decide) (h _ (by decide) rfl)

end Cpf.Smtx
