import Cpf.Basics.Channels

/-!
# The ring of a software queue

A ring has 8192 entries of two words, a flag and a value. One process produces and one consumes, and
each of their loads and stores is a step. `RingOk` relates a ring in the middle of such calls to the
list of values that it holds.
-/

namespace Cpf.Pipeline

def queueSize : ℕ := 8192 * 2

def swQueueNull : UInt64 := 0

def swQueueOccupied : UInt64 := 1

structure Ring where
  head : ℕ
  tail : ℕ
  data : ℕ → UInt64

def Ring.reset : Ring := ⟨0, 0, fun _ => swQueueNull⟩

/-- No entry is occupied, and the next one to fill is the next one to empty. -/
def Ring.HoldsNothing (ring : Ring) : Prop :=
  ring.head = ring.tail ∧ ∀ j < 8192, ring.data (2 * j) = swQueueNull

def nextEntry (i : ℕ) : ℕ := if queueSize ≤ i + 2 then 0 else i + 2

/-- The next access of `__sw_queue_produce`. -/
inductive ProducePc
  | wait
  | value
  | flag
  | advance
  deriving DecidableEq

/-- The next access of `__sw_queue_consume`, and the value it has loaded. -/
inductive ConsumePc
  | wait
  | load
  | clear (value : UInt64)
  | release (value : UInt64)
  | advance (value : UInt64)
  deriving DecidableEq

/-- One access of `__sw_queue_produce`; behind the last one it returns. -/
def Ring.produce (ring : Ring) (value : UInt64) : ProducePc → Option (Ring × Option ProducePc)
  | .wait => if ring.data ring.head = swQueueNull then some (ring, some .value) else none
  | .value => some ({ ring with data := Function.update ring.data (ring.head + 1) value }, some .flag)
  | .flag =>
      some ({ ring with data := Function.update ring.data ring.head swQueueOccupied }, some .advance)
  | .advance => some ({ ring with head := nextEntry ring.head }, none)

/-- One access of `__sw_queue_consume`; behind the last one it returns the value. -/
def Ring.consume (ring : Ring) : ConsumePc → Option (Ring × (ConsumePc ⊕ UInt64))
  | .wait => if ring.data ring.tail = swQueueNull then none else some (ring, .inl .load)
  | .load => some (ring, .inl (.clear (ring.data (ring.tail + 1))))
  | .clear value =>
      some ({ ring with data := Function.update ring.data (ring.tail + 1) swQueueNull },
        .inl (.release value))
  | .release value =>
      some ({ ring with data := Function.update ring.data ring.tail (ring.data (ring.tail + 1)) },
        .inl (.advance value))
  | .advance value => some ({ ring with tail := nextEntry ring.tail }, .inr value)

/-- The ring holds the values `q` from entry `t` on; its producer, which sends `v`, is at `ppc` and
its consumer at `cpc`. -/
structure RingOk (ring : Ring) (ppc : ProducePc) (v : UInt64) (cpc : ConsumePc) (t : ℕ)
    (q : List UInt64) : Prop where
  lt : t < 8192
  length_le : q.length ≤ 8192
  flags : ∀ j < 8192, ring.data (2 * ((t + j) % 8192)) =
    if j < q.length then swQueueOccupied else swQueueNull
  values : ∀ j x, q[j]? = some x → (j = 0 → ∀ y, cpc ≠ .release y) →
    ring.data (2 * ((t + j) % 8192) + 1) = x
  head : ppc ≠ .advance → ring.head = 2 * ((t + q.length) % 8192)
  headNext : ppc = .advance → nextEntry ring.head = 2 * ((t + q.length) % 8192)
  room : ppc = .value ∨ ppc = .flag → q.length < 8192
  written : ppc = .flag → ring.data (ring.head + 1) = v
  tail : (∀ x, cpc ≠ .advance x) → ring.tail = 2 * t
  tailNext : ∀ x, cpc = .advance x → nextEntry ring.tail = 2 * t
  loads : cpc = .load → q ≠ []
  clears : ∀ x, cpc = .clear x → q.head? = some x
  releases : ∀ x, cpc = .release x → q.head? = some x ∧ ring.data (2 * t + 1) = swQueueNull

namespace RingOk

variable {ring : Ring} {ppc : ProducePc} {v v' : UInt64} {cpc : ConsumePc} {t : ℕ} {q : List UInt64}

theorem reset (v : UInt64) : RingOk Ring.reset .wait v .wait 0 [] := by
  constructor <;> simp [Ring.reset]

theorem nextEntry_two_mul (h : t < 8192) : nextEntry (2 * t) = 2 * ((t + 1) % 8192) := by
  unfold nextEntry queueSize
  split_ifs <;> omega

/-- The producer goes on from its test if there is room. -/
theorem produce_wait (h : RingOk ring .wait v cpc t q) :
    ring.data ring.head = swQueueNull ↔ q.length < 8192 := by
  have hlen := h.length_le
  rw [h.head ProducePc.noConfusion]
  constructor
  · intro hnull
    by_contra hfull
    obtain hlen : q.length = 8192 := by omega
    have hflag := h.flags 0 (by omega)
    have ht := h.lt
    rw [if_pos (by omega), Nat.add_zero] at hflag
    rw [hlen, Nat.add_mod_right, hflag] at hnull
    exact absurd hnull (by decide)
  · intro hlt
    rw [h.flags q.length hlt, if_neg (lt_irrefl _)]

/-- The consumer goes on from its test if the ring holds a value. -/
theorem consume_wait (h : RingOk ring ppc v .wait t q) :
    ring.data ring.tail = swQueueNull ↔ q = [] := by
  have ht := h.lt
  have hflag := h.flags 0 (by omega)
  rw [Nat.add_zero, Nat.mod_eq_of_lt ht] at hflag
  rw [h.tail (fun _ => ConsumePc.noConfusion), hflag]
  cases q with
  | nil => simp
  | cons x q => simp [swQueueNull, swQueueOccupied]

theorem holdsNothing (h : RingOk ring .wait v .wait t []) : ring.HoldsNothing := by
  have ht := h.lt
  refine ⟨?_, fun j hj => ?_⟩
  · rw [h.head ProducePc.noConfusion, h.tail (fun _ => ConsumePc.noConfusion), List.length_nil,
      Nat.add_zero, Nat.mod_eq_of_lt ht]
  · have hflag := h.flags ((j + 8192 - t) % 8192) (Nat.mod_lt _ (by omega))
    have hslot : (t + (j + 8192 - t) % 8192) % 8192 = j := by omega
    rw [hslot, List.length_nil, if_neg (Nat.not_lt_zero _)] at hflag
    exact hflag

theorem begins (h : RingOk ring .wait v cpc t q) (v' : UInt64) : RingOk ring .wait v' cpc t q where
  lt := h.lt
  length_le := h.length_le
  flags := h.flags
  values := h.values
  head := h.head
  headNext := h.headNext
  room := h.room
  written he := by cases he
  tail := h.tail
  tailNext := h.tailNext
  loads := h.loads
  clears := h.clears
  releases := h.releases

theorem produce_room (h : RingOk ring .wait v cpc t q) (hroom : q.length < 8192) :
    RingOk ring .value v cpc t q where
  lt := h.lt
  length_le := h.length_le
  flags := h.flags
  values := h.values
  head _ := h.head ProducePc.noConfusion
  headNext he := by cases he
  room _ := hroom
  written he := by cases he
  tail := h.tail
  tailNext := h.tailNext
  loads := h.loads
  clears := h.clears
  releases := h.releases

/-- The store of the value, into a free entry. -/
theorem produce_value (h : RingOk ring .value v cpc t q) :
    RingOk { ring with data := Function.update ring.data (ring.head + 1) v } .flag v cpc t q := by
  have hhead := h.head ProducePc.noConfusion
  have hroom := h.room (Or.inl rfl)
  have ht := h.lt
  refine ⟨ht, h.length_le, fun j hj => ?_, fun j x hx hn => ?_, fun _ => hhead,
    fun he => (by cases he), fun _ => hroom, fun _ => Function.update_self _ _ _, h.tail, h.tailNext,
    h.loads, h.clears, fun x hx => ?_⟩
  · dsimp only
    rw [Function.update_of_ne (by omega)]
    exact h.flags j hj
  · have hj := (List.getElem?_eq_some_iff.1 hx).1
    dsimp only
    rw [Function.update_of_ne (by omega)]
    exact h.values j x hx hn
  · obtain ⟨hfirst, hnull⟩ := h.releases x hx
    have hpos : 0 < q.length := List.length_pos_iff.2 (fun hq => by rw [hq] at hfirst; cases hfirst)
    refine ⟨hfirst, ?_⟩
    dsimp only
    rw [Function.update_of_ne (by omega)]
    exact hnull

/-- The store of the flag, with which the ring holds the value. -/
theorem produce_flag (h : RingOk ring .flag v cpc t q) :
    RingOk { ring with data := Function.update ring.data ring.head swQueueOccupied } .advance v cpc t
      (q ++ [v]) := by
  have hhead := h.head ProducePc.noConfusion
  have hroom := h.room (Or.inr rfl)
  have hwritten := h.written rfl
  have ht := h.lt
  have hlen : (q ++ [v]).length = q.length + 1 := by rw [List.length_append, List.length_singleton]
  have hfirst : ∀ {x}, q.head? = some x → (q ++ [v]).head? = some x := fun hx => by
    rw [List.head?_append, hx]
    rfl
  refine ⟨ht, by omega, fun j hj => ?_, fun j x hx hn => ?_, fun he => absurd rfl he, fun _ => ?_,
    fun he => (by rcases he with he | he <;> cases he), fun he => (by cases he), h.tail, h.tailNext,
    fun he hq => ?_, fun x hx => hfirst (h.clears x hx), fun x hx => ?_⟩
  · dsimp only
    rw [hlen, hhead]
    by_cases hj' : j = q.length
    · rw [hj', Function.update_self, if_pos (by omega)]
    · rw [Function.update_of_ne (by omega), h.flags j hj]
      by_cases hlt : j < q.length
      · rw [if_pos hlt, if_pos (by omega)]
      · rw [if_neg hlt, if_neg (by omega)]
  · have hj := (List.getElem?_eq_some_iff.1 hx).1
    rw [hlen] at hj
    dsimp only
    rw [Function.update_of_ne (by omega)]
    by_cases hj' : j = q.length
    · rw [hj', List.getElem?_concat_length, Option.some_inj] at hx
      rw [hj', ← hhead, hwritten, hx]
    · rw [List.getElem?_append_left (by omega)] at hx
      exact h.values j x hx hn
  · dsimp only
    rw [hlen, hhead, nextEntry_two_mul (Nat.mod_lt _ (by omega))]
    omega
  · rw [List.append_eq_nil_iff] at hq
    cases hq.2
  · obtain ⟨hx', hnull⟩ := h.releases x hx
    refine ⟨hfirst hx', ?_⟩
    dsimp only
    rw [Function.update_of_ne (by omega)]
    exact hnull

theorem produce_advance (h : RingOk ring .advance v cpc t q) :
    RingOk { ring with head := nextEntry ring.head } .wait v cpc t q where
  lt := h.lt
  length_le := h.length_le
  flags := h.flags
  values := h.values
  head _ := h.headNext rfl
  headNext he := by cases he
  room he := by rcases he with he | he <;> cases he
  written he := by cases he
  tail := h.tail
  tailNext := h.tailNext
  loads := h.loads
  clears := h.clears
  releases := h.releases

theorem consume_some (h : RingOk ring ppc v .wait t q) (hq : q ≠ []) :
    RingOk ring ppc v .load t q where
  lt := h.lt
  length_le := h.length_le
  flags := h.flags
  values j x hx _ := h.values j x hx (fun _ _ => ConsumePc.noConfusion)
  head := h.head
  headNext := h.headNext
  room := h.room
  written := h.written
  tail _ := h.tail (fun _ => ConsumePc.noConfusion)
  tailNext x he := by cases he
  loads _ := hq
  clears x he := by cases he
  releases x he := by cases he

theorem consume_load (h : RingOk ring ppc v .load t q) :
    RingOk ring ppc v (.clear (ring.data (ring.tail + 1))) t q ∧
      q.head? = some (ring.data (ring.tail + 1)) := by
  have ht := h.lt
  have htail := h.tail (fun _ => ConsumePc.noConfusion)
  obtain ⟨x, r, rfl⟩ := List.exists_cons_of_ne_nil (h.loads rfl)
  have hx := h.values 0 x rfl (fun _ _ => ConsumePc.noConfusion)
  have hslot : (t + 0) % 8192 = t := by omega
  rw [hslot, ← htail] at hx
  rw [hx]
  refine ⟨⟨ht, h.length_le, h.flags, fun j y hy _ => h.values j y hy (fun _ _ => ConsumePc.noConfusion),
    h.head, h.headNext, h.room, h.written, fun _ => htail, fun y he => (by cases he),
    fun he => (by cases he), fun y he => ?_, fun y he => (by cases he)⟩, rfl⟩
  cases he
  rfl

theorem consume_clear {x : UInt64} (h : RingOk ring ppc v (.clear x) t q) :
    RingOk { ring with data := Function.update ring.data (ring.tail + 1) swQueueNull } ppc v
      (.release x) t q := by
  have ht := h.lt
  have htail := h.tail (fun _ => ConsumePc.noConfusion)
  have hfirst := h.clears x rfl
  have hlen := h.length_le
  have hpos : 0 < q.length := List.length_pos_iff.2 (fun hq => by rw [hq] at hfirst; cases hfirst)
  refine ⟨ht, h.length_le, fun j hj => ?_, fun j y hy hn => ?_, h.head, h.headNext, h.room,
    fun hp => ?_, fun _ => htail, fun y he => (by cases he), fun he => (by cases he),
    fun y he => (by cases he), fun y he => ?_⟩
  · dsimp only
    rw [Function.update_of_ne (by omega)]
    exact h.flags j hj
  · have hj := (List.getElem?_eq_some_iff.1 hy).1
    have hne : j ≠ 0 := fun he => hn he x rfl
    dsimp only
    rw [Function.update_of_ne (by omega)]
    exact h.values j y hy (fun _ _ => ConsumePc.noConfusion)
  · have hhead := h.head (by rw [hp]; exact ProducePc.noConfusion)
    have hroom := h.room (Or.inr hp)
    dsimp only
    rw [Function.update_of_ne (by omega)]
    exact h.written hp
  · cases he
    refine ⟨hfirst, ?_⟩
    dsimp only
    rw [htail, Function.update_self]

/-- The store of the flag, with which the ring no longer holds the value. -/
theorem consume_release {x : UInt64} (h : RingOk ring ppc v (.release x) t q) :
    RingOk { ring with data := Function.update ring.data ring.tail (ring.data (ring.tail + 1)) } ppc v
      (.advance x) ((t + 1) % 8192) q.tail := by
  have ht := h.lt
  have htail := h.tail (fun _ => ConsumePc.noConfusion)
  obtain ⟨hfirst, hnull⟩ := h.releases x rfl
  have hlen := h.length_le
  obtain ⟨r, rfl⟩ : ∃ r, q = x :: r := by
    cases q with
    | nil => cases hfirst
    | cons y r =>
        cases hfirst
        exact ⟨r, rfl⟩
  rw [List.length_cons] at hlen
  rw [List.tail_cons]
  have hsum : ((t + 1) % 8192 + r.length) % 8192 = (t + (x :: r).length) % 8192 := by
    rw [List.length_cons]
    omega
  refine ⟨Nat.mod_lt _ (by omega), by omega, fun j hj => ?_, fun j y hy _ => ?_, fun hp => ?_,
    fun hp => ?_, fun hp => ?_, fun hp => ?_, fun he => absurd rfl (he x), fun y he => ?_,
    fun he => (by cases he), fun y he => (by cases he), fun y he => (by cases he)⟩
  · dsimp only
    by_cases hlast : j + 1 = 8192
    · have hslot : 2 * (((t + 1) % 8192 + j) % 8192) = ring.tail := by omega
      rw [hslot, Function.update_self, htail, hnull, if_neg (by omega)]
    · have hslot : ((t + 1) % 8192 + j) % 8192 = (t + (j + 1)) % 8192 := by omega
      rw [hslot, Function.update_of_ne (by omega), h.flags (j + 1) (by omega), List.length_cons]
      by_cases hj' : j < r.length
      · rw [if_pos (by omega), if_pos hj']
      · rw [if_neg (by omega), if_neg hj']
  · have hslot : ((t + 1) % 8192 + j) % 8192 = (t + (j + 1)) % 8192 := by omega
    dsimp only
    rw [hslot, Function.update_of_ne (by omega)]
    exact h.values (j + 1) y hy (fun he => absurd he (Nat.succ_ne_zero j))
  · rw [hsum]
    exact h.head hp
  · rw [hsum]
    exact h.headNext hp
  · have hroom := h.room hp
    rw [List.length_cons] at hroom
    omega
  · have hhead := h.head (by rw [hp]; exact ProducePc.noConfusion)
    dsimp only
    rw [Function.update_of_ne (by omega)]
    exact h.written hp
  · dsimp only
    rw [htail, nextEntry_two_mul ht]

theorem consume_advance {x : UInt64} (h : RingOk ring ppc v (.advance x) t q) :
    RingOk { ring with tail := nextEntry ring.tail } ppc v .wait t q where
  lt := h.lt
  length_le := h.length_le
  flags := h.flags
  values j y hy _ := h.values j y hy (fun _ _ => ConsumePc.noConfusion)
  head := h.head
  headNext := h.headNext
  room := h.room
  written := h.written
  tail _ := h.tailNext x rfl
  tailNext y he := by cases he
  loads he := by cases he
  clears y he := by cases he
  releases y he := by cases he

end RingOk
end Cpf.Pipeline
