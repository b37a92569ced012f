import Mathlib.Tactic

/-!
# The ring of a versioned-memory queue

The producer writes words into a ring of `qSize` words and publishes its index when a chunk is full or when
it waits; the consumer reads up to the index that it saw last and publishes its own index when it looks for
more. `Holds` relates a ring to the words that were ever sent and to those that were taken.
-/

namespace Cpf.Smtx

abbrev Word := BitVec 64

def qSize : ℕ := 2 ^ 21

def chunkSize : ℕ := 2 ^ 14

def threshold : ℕ := (4 - 1) * qSize / 4

/-- `sw_queue_t`; the upper half of `p_data` is `pInx`. -/
structure SwQueue where
  data : ℕ → Word
  pInx : ℕ
  pGlbInx : ℕ
  cInx : ℕ
  cMargin : ℕ
  cGlbInx : ℕ

def modSub (minuend subtrahend : ℕ) : ℕ := (minuend + 2 ^ 32 - subtrahend) % 2 ^ 32 % qSize

namespace SwQueue

def init : SwQueue := ⟨fun _ => 0, 0, 0, 0, 0, 0⟩

def flush (q : SwQueue) : SwQueue := { q with pGlbInx := q.pInx }

def reverseFlush (q : SwQueue) : SwQueue := { q with cGlbInx := q.cInx }

/-- The test of `sq_waitConsumer`. -/
def crowded (q : SwQueue) : Prop := threshold < modSub q.pInx q.cGlbInx

instance (q : SwQueue) : Decidable q.crowded := inferInstanceAs (Decidable (_ < _))

def write2 (q : SwQueue) (a b : Word) : SwQueue :=
  { q with
    data := Function.update (Function.update q.data q.pInx a) (q.pInx + 1) b
    pInx := (q.pInx + 2) % qSize }

def canConsume (q : SwQueue) : Prop := q.cMargin ≠ q.cInx ∨ q.pGlbInx ≠ q.cInx

instance (q : SwQueue) : Decidable q.canConsume := inferInstanceAs (Decidable (_ ∨ _))

/-- The load at the end of `sq_consume`. -/
def next (q : SwQueue) : Word := q.data q.cInx

def advance (q : SwQueue) : SwQueue := { q with cInx := (q.cInx + 1) % qSize }

def refill (q : SwQueue) : SwQueue := { q with cMargin := q.pGlbInx }

def Empty (q : SwQueue) : Prop :=
  q.pInx < qSize ∧ q.pInx % 2 = 0 ∧ q.pGlbInx = q.pInx ∧ q.cInx = q.pInx ∧ q.cMargin = q.pInx ∧
    q.cGlbInx = q.pInx

end SwQueue

/-- The words `sent` were written to the ring, and the first `taken` of them were read. While the producer
waits for the consumer it may be one chunk ahead. -/
structure HoldsAt (q : SwQueue) (sent : List Word) (flushed margin taken published : ℕ)
    (waiting : Prop) : Prop where
  even : sent.length % 2 = 0
  flushed_le : flushed ≤ sent.length
  margin_le : margin ≤ flushed
  taken_le : taken ≤ margin
  published_le : published ≤ taken
  pInx : q.pInx = sent.length % qSize
  pGlbInx : q.pGlbInx = flushed % qSize
  cMargin : q.cMargin = margin % qSize
  cInx : q.cInx = taken % qSize
  cGlbInx : q.cGlbInx = published % qSize
  few : sent.length ≤ published + threshold + chunkSize
  room : ¬ waiting → sent.length ≤ published + threshold + sent.length % chunkSize
  data : ∀ k, published ≤ k → k < sent.length → sent[k]? = some (q.data (k % qSize))

namespace HoldsAt

variable {q : SwQueue} {sent : List Word} {flushed margin taken published : ℕ} {waiting : Prop}

theorem crowded_iff (h : HoldsAt q sent flushed margin taken published waiting) :
    q.crowded ↔ published + threshold < sent.length := by
  have h1 := h.pInx
  have h2 := h.cGlbInx
  have h3 := h.few
  have h4 := h.flushed_le
  have h5 := h.margin_le
  have h6 := h.taken_le
  have h7 := h.published_le
  unfold SwQueue.crowded modSub
  unfold threshold chunkSize qSize at *
  omega

theorem margin_eq_iff (h : HoldsAt q sent flushed margin taken published waiting) :
    q.cInx = q.cMargin ↔ taken = margin := by
  have h1 := h.cInx
  have h2 := h.cMargin
  have h3 := h.few
  have h4 := h.flushed_le
  have h5 := h.margin_le
  have h6 := h.taken_le
  have h7 := h.published_le
  unfold threshold chunkSize qSize at *
  omega

theorem pGlb_eq_iff (h : HoldsAt q sent flushed margin taken published waiting) :
    q.pGlbInx = q.cInx ↔ flushed = taken := by
  have h1 := h.cInx
  have h2 := h.pGlbInx
  have h3 := h.few
  have h4 := h.flushed_le
  have h5 := h.margin_le
  have h6 := h.taken_le
  have h7 := h.published_le
  unfold threshold chunkSize qSize at *
  omega

theorem next_eq (h : HoldsAt q sent flushed margin taken published waiting) (hlt : taken < margin) :
    sent[taken]? = some q.next := by
  have hflushed := h.flushed_le
  have hmargin := h.margin_le
  rw [SwQueue.next, h.cInx]
  exact h.data taken h.published_le (by omega)

theorem flush (h : HoldsAt q sent flushed margin taken published waiting) :
    HoldsAt q.flush sent sent.length margin taken published waiting where
  even := h.even
  flushed_le := le_rfl
  margin_le := h.margin_le.trans h.flushed_le
  taken_le := h.taken_le
  published_le := h.published_le
  pInx := h.pInx
  pGlbInx := h.pInx
  cMargin := h.cMargin
  cInx := h.cInx
  cGlbInx := h.cGlbInx
  few := h.few
  room := h.room
  data := h.data

theorem reverseFlush (h : HoldsAt q sent flushed margin taken published waiting) :
    HoldsAt q.reverseFlush sent flushed margin taken taken waiting := by
  have hpublished := h.published_le
  refine ⟨h.even, h.flushed_le, h.margin_le, h.taken_le, le_rfl, h.pInx, h.pGlbInx, h.cMargin, h.cInx, h.cInx,
    ?_, fun hw => ?_, fun k hk => ?_⟩
  · have hfew := h.few
    omega
  · have hroom := h.room hw
    omega
  · exact h.data k (by omega)

theorem passed (h : HoldsAt q sent flushed margin taken published waiting) (hfree : ¬ q.crowded)
    (waiting' : Prop) : HoldsAt q sent flushed margin taken published waiting' := by
  rw [h.crowded_iff] at hfree
  refine ⟨h.even, h.flushed_le, h.margin_le, h.taken_le, h.published_le, h.pInx, h.pGlbInx, h.cMargin, h.cInx,
    h.cGlbInx, h.few, fun _ => ?_, h.data⟩
  omega

theorem congr (h : HoldsAt q sent flushed margin taken published waiting) {waiting' : Prop}
    (hw : waiting → waiting') : HoldsAt q sent flushed margin taken published waiting' :=
  ⟨h.even, h.flushed_le, h.margin_le, h.taken_le, h.published_le, h.pInx, h.pGlbInx, h.cMargin, h.cInx,
    h.cGlbInx, h.few, fun hn => h.room fun hwait => hn (hw hwait), h.data⟩

/-- Two words are written; at the end of a chunk the producer has to wait. -/
theorem write2 (h : HoldsAt q sent flushed margin taken published waiting) (hw : ¬ waiting) (a b : Word)
    {waiting' : Prop} (hwait : (q.write2 a b).pInx % chunkSize = 0 → waiting') :
    HoldsAt (q.write2 a b) (sent ++ [a, b]) flushed margin taken published waiting' := by
  have hlen : (sent ++ [a, b]).length = sent.length + 2 := by
    rw [List.length_append, List.length_cons, List.length_singleton]
  have heven := h.even
  have hflushed := h.flushed_le
  have hmargin := h.margin_le
  have htaken := h.taken_le
  have hpublished := h.published_le
  have hinx := h.pInx
  have hroom := h.room hw
  have hfew : sent.length + 2 ≤ published + threshold + chunkSize := by
    unfold chunkSize threshold qSize at *
    omega
  have hnext : (q.write2 a b).pInx = (sent.length + 2) % qSize := by
    unfold SwQueue.write2
    dsimp only
    rw [hinx, Nat.mod_add_mod]
  rw [hnext] at hwait
  refine ⟨?_, ?_, hmargin, htaken, hpublished, ?_, h.pGlbInx, h.cMargin, h.cInx, h.cGlbInx, ?_, fun hn => ?_,
    fun k hk hlt => ?_⟩
  · omega
  · omega
  · rw [hnext, hlen]
  · omega
  · have hoff : (sent.length + 2) % qSize % chunkSize ≠ 0 := fun hz => hn (hwait hz)
    rw [hlen]
    unfold chunkSize threshold qSize at *
    omega
  · rw [hlen] at hlt
    have hodd : q.pInx + 1 = (sent.length + 1) % qSize := by
      unfold qSize at *
      omega
    unfold SwQueue.write2
    dsimp only
    rw [hodd, hinx]
    by_cases hlast : k = sent.length + 1
    · rw [hlast, Function.update_self, List.getElem?_append_right (by omega)]
      have hsub : sent.length + 1 - sent.length = 1 := by omega
      rw [hsub]
      rfl
    · have hne : k % qSize ≠ (sent.length + 1) % qSize := by
        unfold chunkSize threshold qSize at *
        omega
      rw [Function.update_of_ne hne]
      by_cases hfirst : k = sent.length
      · rw [hfirst, Function.update_self, List.getElem?_append_right le_rfl, Nat.sub_self]
        rfl
      · have hne' : k % qSize ≠ sent.length % qSize := by
          unfold chunkSize threshold qSize at *
          omega
        rw [Function.update_of_ne hne', List.getElem?_append_left (by omega)]
        exact h.data k hk (by omega)

theorem advance (h : HoldsAt q sent flushed margin taken published waiting) (hlt : taken < margin) :
    HoldsAt q.advance sent flushed margin (taken + 1) published waiting := by
  refine ⟨h.even, h.flushed_le, h.margin_le, hlt, h.published_le.trans (Nat.le_succ _), h.pInx, h.pGlbInx,
    h.cMargin, ?_, h.cGlbInx, h.few, h.room, h.data⟩
  unfold SwQueue.advance
  dsimp only
  rw [h.cInx, Nat.mod_add_mod]

theorem refill (h : HoldsAt q sent flushed margin taken published waiting) :
    HoldsAt q.refill sent flushed flushed taken published waiting :=
  ⟨h.even, h.flushed_le, le_rfl, h.taken_le.trans h.margin_le, h.published_le, h.pInx, h.pGlbInx, h.pGlbInx,
    h.cInx, h.cGlbInx, h.few, h.room, h.data⟩

end HoldsAt

/-- The words `sent` went into the ring behind earlier ones, and the first `taken` of them were read. A consumer
that is about to refill has seen something that it has not taken. -/
def Holds (q : SwQueue) (sent : List Word) (taken : ℕ) (waiting refilling : Prop) : Prop :=
  ∃ (earlier : List Word) (flushed margin published : ℕ),
    HoldsAt q (earlier ++ sent) flushed margin (earlier.length + taken) published waiting ∧
      (refilling → earlier.length + taken < flushed)

theorem holds_of_empty {q : SwQueue} (h : q.Empty) (waiting : Prop) : Holds q [] 0 waiting False := by
  obtain ⟨hlt, heven, h1, h2, h3, h4⟩ := h
  have hmod := Nat.mod_eq_of_lt hlt
  refine ⟨List.replicate q.pInx 0, q.pInx, q.pInx, q.pInx, ?_, False.elim⟩
  rw [List.append_nil, Nat.add_zero, List.length_replicate]
  constructor <;> simp only [List.length_replicate, le_refl, h1, h2, h3, h4, hmod, heven]
  · omega
  · exact fun _ => by omega
  · intro k hk hlt'
    omega

namespace Holds

variable {q : SwQueue} {sent : List Word} {taken : ℕ} {waiting refilling : Prop}

theorem taken_le (h : Holds q sent taken waiting refilling) : taken ≤ sent.length := by
  obtain ⟨earlier, flushed, margin, published, hat, -⟩ := h
  have hflushed := hat.flushed_le
  have hmargin := hat.margin_le
  have htaken := hat.taken_le
  rw [List.length_append] at hflushed
  omega

theorem congr (h : Holds q sent taken waiting refilling) {waiting' refilling' : Prop}
    (hw : waiting → waiting') (hr : refilling' → refilling) : Holds q sent taken waiting' refilling' := by
  obtain ⟨earlier, flushed, margin, published, hat, hseen⟩ := h
  exact ⟨earlier, flushed, margin, published, hat.congr hw, fun hr' => hseen (hr hr')⟩

theorem flush (h : Holds q sent taken waiting refilling) : Holds q.flush sent taken waiting refilling := by
  obtain ⟨earlier, flushed, margin, published, hat, hseen⟩ := h
  exact ⟨earlier, _, margin, published, hat.flush, fun hr => (hseen hr).trans_le hat.flushed_le⟩

theorem reverseFlush (h : Holds q sent taken waiting refilling) :
    Holds q.reverseFlush sent taken waiting refilling := by
  obtain ⟨earlier, flushed, margin, published, hat, hseen⟩ := h
  exact ⟨earlier, flushed, margin, _, hat.reverseFlush, hseen⟩

theorem passed (h : Holds q sent taken waiting refilling) (hfree : ¬ q.crowded) (waiting' : Prop) :
    Holds q sent taken waiting' refilling := by
  obtain ⟨earlier, flushed, margin, published, hat, hseen⟩ := h
  exact ⟨earlier, flushed, margin, published, hat.passed hfree waiting', hseen⟩

theorem write2 (h : Holds q sent taken waiting refilling) (hw : ¬ waiting) (a b : Word)
    {waiting' : Prop} (hwait : (q.write2 a b).pInx % chunkSize = 0 → waiting') :
    Holds (q.write2 a b) (sent ++ [a, b]) taken waiting' refilling := by
  obtain ⟨earlier, flushed, margin, published, hat, hseen⟩ := h
  refine ⟨earlier, flushed, margin, published, ?_, hseen⟩
  rw [← List.append_assoc]
  exact hat.write2 hw a b hwait

/-- The consumer has not reached its margin and takes a word. -/
theorem take (h : Holds q sent taken waiting refilling) (hne : q.cInx ≠ q.cMargin) :
    sent[taken]? = some q.next ∧ Holds q.advance sent (taken + 1) waiting False := by
  obtain ⟨earlier, flushed, margin, published, hat, hseen⟩ := h
  have hlt : earlier.length + taken < margin := by
    have hle := hat.taken_le
    have hneq := mt hat.margin_eq_iff.2 hne
    omega
  have hnext := hat.next_eq hlt
  rw [List.getElem?_append_right (by omega), Nat.add_sub_cancel_left] at hnext
  exact ⟨hnext, earlier, flushed, margin, published, hat.advance hlt, False.elim⟩

/-- The consumer has seen more words than it has taken. -/
theorem see (h : Holds q sent taken waiting refilling) (hne : q.pGlbInx ≠ q.cInx) :
    Holds q sent taken waiting True := by
  obtain ⟨earlier, flushed, margin, published, hat, hseen⟩ := h
  refine ⟨earlier, flushed, margin, published, hat, fun _ => ?_⟩
  have hmargin := hat.margin_le
  have htaken := hat.taken_le
  have hneq := mt hat.pGlb_eq_iff.2 hne
  omega

theorem refill (h : Holds q sent taken waiting True) :
    sent[taken]? = some q.refill.next ∧ Holds q.refill.advance sent (taken + 1) waiting False := by
  obtain ⟨earlier, flushed, margin, published, hat, hseen⟩ := h
  have hnext := hat.refill.next_eq (hseen trivial)
  rw [List.getElem?_append_right (by omega), Nat.add_sub_cancel_left] at hnext
  exact ⟨hnext, earlier, flushed, flushed, published, hat.refill.advance (hseen trivial), False.elim⟩

/-- A producer is not further ahead than the queue is long. -/
theorem length_le (h : Holds q sent taken waiting refilling) : sent.length ≤ taken + threshold + chunkSize := by
  obtain ⟨earlier, flushed, margin, published, hat, -⟩ := h
  have hfew := hat.few
  have hpublished := hat.published_le
  rw [List.length_append] at hfew
  omega

/-- A consumer that sees no words has taken all of them, if the producer has published its index. -/
theorem taken_eq (h : Holds q sent taken waiting refilling) (hseen : q.pGlbInx = q.cInx)
    (hpublished : q.pGlbInx = q.pInx) : sent.length = taken := by
  obtain ⟨earlier, flushed, margin, published, hat, -⟩ := h
  have h1 := hat.pGlb_eq_iff.1 hseen
  have h2 := hat.pInx
  have h3 := hat.pGlbInx
  have h4 := hat.few
  have h5 := hat.flushed_le
  have h6 := hat.margin_le
  have h7 := hat.taken_le
  have h8 := hat.published_le
  rw [List.length_append] at *
  unfold threshold chunkSize qSize at *
  omega

/-- A producer that finds the queue crowded is ahead, if the consumer has published its index. -/
theorem ahead_of_crowded (h : Holds q sent taken waiting refilling) (hcrowded : q.crowded)
    (hpublished : q.cGlbInx = q.cInx) : taken + threshold < sent.length := by
  obtain ⟨earlier, flushed, margin, published, hat, -⟩ := h
  have h1 := hat.crowded_iff.1 hcrowded
  have h2 := hat.cInx
  have h3 := hat.cGlbInx
  have h4 := hat.few
  have h5 := hat.flushed_le
  have h6 := hat.margin_le
  have h7 := hat.taken_le
  have h8 := hat.published_le
  rw [List.length_append] at *
  unfold threshold chunkSize qSize at *
  omega

end Holds
end Cpf.Smtx
