import Cpf.Basics.Iterate
import Cpf.Executive.DeferredIO
import Mathlib.Data.List.TakeWhile

/-!
# The merge of the deferred output

The loop of `__specpriv_commit_io` with the positions of the entries it looks at and of those it
writes. The search for the least time stays in front of the ends of the lists, but the inner loop
only ends at an entry of another iteration: it always looks at one entry behind the last event of
a list, and writes what it finds there while it carries the iteration of that event.
-/

namespace Cpf.Executive
namespace IOEvtSet

/-- Where the loop is: the positions are pairs of a worker and an index in its list. -/
structure Commit where
  offsets : ℕ → ℕ
  inspected : List (ℕ × ℕ)
  written : List (ℕ × ℕ)

def Commit.start : Commit := ⟨fun _ => 0, [], []⟩

def entry (s : IOEvtSet) (p : ℕ × ℕ) : Option IOEvt := (s.lists p.1)[p.2]?

/-- The number of entries from index `ow` on that the inner loop writes. -/
def batchLength (s : IOEvtSet) (wid ow iter : ℕ) : ℕ :=
  (((s.lists wid).drop ow).takeWhile (fun e => e.iter = iter)).length

def positions (wid ow len : ℕ) : List (ℕ × ℕ) := (List.range' ow len).map (fun k => (wid, k))

/-- The entries that the search for the least time compares. -/
def searched (numWorkers : ℕ) (s : IOEvtSet) (offsets : ℕ → ℕ) : List (ℕ × ℕ) :=
  ((List.range numWorkers).filter (fun wid => ¬ offsets wid ≥ s.num wid)).map
    (fun wid => (wid, offsets wid))

def commitRound (numWorkers : ℕ) (s : IOEvtSet) (c : Commit) : Option Commit :=
  match minTime numWorkers s c.offsets with
  | none => none
  | some b =>
      let ow := c.offsets b.1
      let len := s.batchLength b.1 ow b.2
      some
        { offsets := Function.update c.offsets b.1 (ow + len)
          inspected := c.inspected ++ searched numWorkers s c.offsets ++ positions b.1 ow (len + 1)
          written := c.written ++ positions b.1 ow len }

/-- The whole loop, given that it ends in less than `fuel` rounds. -/
def commitRun (numWorkers : ℕ) (s : IOEvtSet) (fuel : ℕ) (c : Commit) : Except Unit Commit :=
  iterate () (fun c => .ok (commitRound numWorkers s c)) fuel c

/-- The set as the end of `__specpriv_commit_io` leaves it. -/
def emptied (numWorkers : ℕ) (s : IOEvtSet) : IOEvtSet where
  lists := fun w => if w < numWorkers then [] else s.lists w
  num := fun w => if w < numWorkers then 0 else s.num w

/-- The events of every list are there, in the order of their iterations. -/
structure Ordered (numWorkers : ℕ) (s : IOEvtSet) : Prop where
  num_le : ∀ w < numWorkers, s.num w ≤ (s.lists w).length
  sorted : ∀ w < numWorkers, ∀ j k, j ≤ k → k < s.num w →
    ∀ e ∈ s.entry (w, j), ∀ e' ∈ s.entry (w, k), e.iter ≤ e'.iter

/-- The loop ends and has written every event once, by iteration and for each worker by index. -/
def WritesExactly (numWorkers : ℕ) (s : IOEvtSet) : Prop :=
  ∃ fuel c, commitRun numWorkers s fuel .start = .ok c ∧
    (∀ p, p ∈ c.written ↔ p.1 < numWorkers ∧ p.2 < s.num p.1) ∧
    c.written.Pairwise (fun p q => p.1 = q.1 → p.2 < q.2) ∧
    c.written.Pairwise (fun p q => ∀ e ∈ s.entry p, ∀ e' ∈ s.entry q, e.iter ≤ e'.iter)

/-- The loop looks at no entry behind the events of a list. -/
def StaysInside (numWorkers : ℕ) (s : IOEvtSet) : Prop :=
  ∃ fuel c, commitRun numWorkers s fuel .start = .ok c ∧ ∀ p ∈ c.inspected, p.2 < s.num p.1

def MergesExactly (numWorkers : ℕ) (s : IOEvtSet) : Prop :=
  WritesExactly numWorkers s ∧ StaysInside numWorkers s ∧
    ∀ w < numWorkers, (emptied numWorkers s).num w = 0 ∧ (emptied numWorkers s).lists w = []

variable {numWorkers : ℕ} {s : IOEvtSet} {c c' : Commit}

theorem mem_positions {wid ow len : ℕ} {p : ℕ × ℕ} :
    p ∈ positions wid ow len ↔ p.1 = wid ∧ ow ≤ p.2 ∧ p.2 < ow + len := by
  obtain ⟨w, k⟩ := p
  simp only [positions, List.mem_map, List.mem_range'_1, Prod.mk.injEq]
  constructor
  · rintro ⟨j, hj, rfl, rfl⟩
    exact ⟨rfl, hj⟩
  · rintro ⟨rfl, hk⟩
    exact ⟨k, hk, rfl, rfl⟩

theorem pairwise_positions (wid ow len : ℕ) :
    (positions wid ow len).Pairwise (fun p q => p.1 = q.1 ∧ p.2 < q.2) := by
  refine List.pairwise_map.2 ?_
  exact (List.pairwise_lt_range' (s := ow) (n := len) 1).imp (fun h => ⟨rfl, h⟩)

theorem entry_of_lt_batchLength (s : IOEvtSet) (wid ow iter : ℕ) {k : ℕ}
    (hk : k < s.batchLength wid ow iter) :
    ∃ e, s.entry (wid, ow + k) = some e ∧ e.iter = iter := by
  have hpre := List.takeWhile_prefix (l := (s.lists wid).drop ow) (fun e => e.iter = iter)
  refine ⟨_, ?_, by simpa using List.mem_takeWhile_imp (List.getElem_mem hk)⟩
  rw [entry, ← List.getElem?_drop, hpre.getElem hk]
  exact List.getElem?_eq_getElem _

/-- The entry behind a batch carries another iteration. -/
theorem entry_batchLength_ne {wid ow iter : ℕ} {e : IOEvt}
    (he : s.entry (wid, ow + s.batchLength wid ow iter) = some e) : e.iter ≠ iter := by
  rw [entry, ← List.getElem?_drop] at he
  unfold batchLength at he
  generalize (s.lists wid).drop ow = l at he
  induction l with
  | nil => simp at he
  | cons a l ih =>
      by_cases ha : a.iter = iter
      · rw [List.takeWhile_cons_of_pos (by simpa using ha), List.length_cons,
          List.getElem?_cons_succ] at he
        exact ih he
      · rw [List.takeWhile_cons_of_neg (by simpa using ha)] at he
        cases he
        exact ha

/-- What one round does: it takes a worker with the least next iteration, and writes its batch. -/
theorem commitRound_eq_some (h : commitRound numWorkers s c = some c') :
    ∃ w iter, w < numWorkers ∧ c.offsets w < s.num w ∧
      (∀ v < numWorkers, c.offsets v < s.num v → ∀ e ∈ s.entry (v, c.offsets v), iter ≤ e.iter) ∧
      0 < s.batchLength w (c.offsets w) iter ∧
      c' =
        { offsets := Function.update c.offsets w (c.offsets w + s.batchLength w (c.offsets w) iter)
          inspected := c.inspected ++ searched numWorkers s c.offsets ++
            positions w (c.offsets w) (s.batchLength w (c.offsets w) iter + 1)
          written := c.written ++ positions w (c.offsets w) (s.batchLength w (c.offsets w) iter) }
        := by
  have hmin := isMin_minTime numWorkers s c.offsets
  rw [commitRound] at h
  cases hm : minTime numWorkers s c.offsets with
  | none =>
      rw [hm] at h
      cases h
  | some b =>
      rw [hm] at h hmin
      obtain ⟨⟨hb, e, he, hiter⟩, hle⟩ := hmin
      have hlt : c.offsets b.1 < s.num b.1 := by
        by_contra hge
        rw [peek, if_pos (not_lt.1 hge)] at he
        cases he
      refine ⟨b.1, b.2, List.mem_range.1 hb, hlt, fun v hv hlt' e' he' => ?_, ?_,
        (Option.some.inj h).symm⟩
      · refine hle v (List.mem_range.2 hv) e' ?_
        rw [peek, if_neg (not_le.2 hlt')]
        exact he'
      · rw [peek, if_neg (not_le.2 hlt), ← List.head?_drop] at he
        unfold batchLength
        obtain ⟨es, hes⟩ := List.head?_eq_some_iff.1 he
        rw [hes, List.takeWhile_cons_of_pos (by simpa using hiter)]
        exact Nat.succ_pos _

theorem commitRound_eq_none (hord : Ordered numWorkers s)
    (h : commitRound numWorkers s c = none) {w : ℕ} (hw : w < numWorkers) :
    s.num w ≤ c.offsets w := by
  have hmin := isMin_minTime numWorkers s c.offsets
  rw [commitRound] at h
  cases hm : minTime numWorkers s c.offsets with
  | some b =>
      rw [hm] at h
      cases h
  | none =>
      rw [hm] at hmin
      by_contra hlt
      have hpeek := hmin w (List.mem_range.2 hw)
      rw [peek, if_neg hlt] at hpeek
      have hlen := List.getElem?_eq_none_iff.1 hpeek
      have hnum := hord.num_le w hw
      omega

def remaining (numWorkers : ℕ) (s : IOEvtSet) (c : Commit) : ℕ :=
  ∑ w ∈ Finset.range numWorkers, (s.num w - c.offsets w)

theorem remaining_lt (h : commitRound numWorkers s c = some c') :
    remaining numWorkers s c' < remaining numWorkers s c := by
  obtain ⟨w, iter, hw, hlt, _, hpos, rfl⟩ := commitRound_eq_some h
  refine Finset.sum_lt_sum (fun v _ => ?_) ⟨w, Finset.mem_range.2 hw, ?_⟩
  · by_cases hv : v = w
    · subst v
      simp only [Function.update_self]
      omega
    · simp only [Function.update_of_ne hv, le_refl]
  · simp only [Function.update_self]
    omega

/-- The loop ends, and keeps what every round keeps. -/
theorem exists_commitRun (hord : Ordered numWorkers s) (I : Commit → Prop) (hs : I .start)
    (hround : ∀ c c', I c → commitRound numWorkers s c = some c' → I c') :
    ∃ fuel c, commitRun numWorkers s fuel .start = .ok c ∧ I c ∧
      ∀ w < numWorkers, s.num w ≤ c.offsets w := by
  obtain ⟨c, hc, hI, hend⟩ := @iterate_total _ _ ()
    (fun c => .ok (commitRound numWorkers s c)) I (remaining numWorkers s)
    (fun c hc => ⟨_, rfl, fun c' h => ⟨hround c c' hc h, remaining_lt h⟩⟩) _ _ hs
    (Nat.lt_succ_self _)
  exact ⟨_, c, hc, hI, fun w hw => commitRound_eq_none hord (Except.ok.inj hend) hw⟩

theorem commitRun_invariant (hord : Ordered numWorkers s) (I : Commit → Prop) (hs : I .start)
    (hround : ∀ c c', I c → commitRound numWorkers s c = some c' → I c') {fuel : ℕ}
    (h : commitRun numWorkers s fuel .start = .ok c) :
    I c ∧ ∀ w < numWorkers, s.num w ≤ c.offsets w := by
  obtain ⟨hI, hend⟩ := iterate_invariant I
    (fun c c' hc hc' => hround c c' hc (Except.ok.inj hc')) hs h
  exact ⟨hI, fun w hw => commitRound_eq_none hord (Except.ok.inj hend) hw⟩

/-- A batch of a list without an overrun ends at the end of the list at the latest. -/
theorem add_batchLength_le {w iter ow : ℕ} (hrun : s.NoOverrun w) (hlt : ow < s.num w) :
    ow + s.batchLength w ow iter ≤ s.num w := by
  by_contra hgt
  obtain ⟨e, he, hiter⟩ : ∃ e, s.entry (w, s.num w - 1) = some e ∧ e.iter = iter := by
    have hin := entry_of_lt_batchLength s w ow iter (k := s.num w - 1 - ow) (by omega)
    rwa [show ow + (s.num w - 1 - ow) = s.num w - 1 by omega] at hin
  obtain ⟨e', he', hiter'⟩ : ∃ e, s.entry (w, s.num w) = some e ∧ e.iter = iter := by
    have hin := entry_of_lt_batchLength s w ow iter (k := s.num w - ow) (by omega)
    rwa [show ow + (s.num w - ow) = s.num w by omega] at hin
  exact hrun e he e' he' (by omega) (hiter'.trans hiter.symm)

/-- What holds between the rounds when no list is overrun. -/
structure WriteInv (numWorkers : ℕ) (s : IOEvtSet) (c : Commit) : Prop where
  offsets_le : ∀ w < numWorkers, c.offsets w ≤ s.num w
  mem_written : ∀ p, p ∈ c.written ↔ p.1 < numWorkers ∧ p.2 < c.offsets p.1
  own : c.written.Pairwise (fun p q => p.1 = q.1 → p.2 < q.2)
  sorted : c.written.Pairwise (fun p q => ∀ e ∈ s.entry p, ∀ e' ∈ s.entry q, e.iter ≤ e'.iter)
  next : ∀ p ∈ c.written, ∀ e ∈ s.entry p, ∀ w < numWorkers, c.offsets w < s.num w →
    ∀ e' ∈ s.entry (w, c.offsets w), e.iter ≤ e'.iter

theorem WriteInv.start : WriteInv numWorkers s .start where
  offsets_le := fun w _ => Nat.zero_le _
  mem_written := fun p => by simp [Commit.start]
  own := List.Pairwise.nil
  sorted := List.Pairwise.nil
  next := fun p hp => by cases hp

theorem WriteInv.round (hord : Ordered numWorkers s) (hrun : ∀ w < numWorkers, s.NoOverrun w)
    (hinv : WriteInv numWorkers s c) (h : commitRound numWorkers s c = some c') :
    WriteInv numWorkers s c' := by
  obtain ⟨w, iter, hw, hlt, hleast, hpos, rfl⟩ := commitRound_eq_some h
  have hbatch : ∀ p ∈ positions w (c.offsets w) (s.batchLength w (c.offsets w) iter),
      ∃ e, s.entry p = some e ∧ e.iter = iter := by
    intro p hp
    obtain ⟨hpw, hle, hplt⟩ := mem_positions.1 hp
    have hin := entry_of_lt_batchLength s w (c.offsets w) iter (k := p.2 - c.offsets w) (by omega)
    rwa [show c.offsets w + (p.2 - c.offsets w) = p.2 by omega, ← hpw] at hin
  have hhead : ∃ e, s.entry (w, c.offsets w) = some e ∧ e.iter = iter :=
    hbatch (w, c.offsets w) (mem_positions.2 ⟨rfl, le_rfl, by simpa using hpos⟩)
  have hold : ∀ p ∈ c.written, ∀ e ∈ s.entry p, e.iter ≤ iter := by
    intro p hp e he
    obtain ⟨e', he', rfl⟩ := hhead
    exact hinv.next p hp e he w hw hlt e' he'
  refine ⟨fun v hv => ?_, fun p => ?_, ?_, ?_, ?_⟩
  · by_cases hvw : v = w
    · subst v
      simp only [Function.update_self]
      exact add_batchLength_le (hrun w hw) hlt
    · simp only [Function.update_of_ne hvw]
      exact hinv.offsets_le v hv
  · rw [List.mem_append, hinv.mem_written, mem_positions]
    by_cases hpw : p.1 = w
    · simp only [hpw, hw, true_and, Function.update_self]
      omega
    · simp only [hpw, Function.update_of_ne hpw, false_and, or_false]
  · refine List.pairwise_append.2 ⟨hinv.own, (pairwise_positions _ _ _).imp (fun h _ => h.2), ?_⟩
    intro p hp q hq hpq
    have hplt := ((hinv.mem_written p).1 hp).2
    obtain ⟨hqw, hle, _⟩ := mem_positions.1 hq
    rw [hpq, hqw] at hplt
    omega
  · refine List.pairwise_append.2 ⟨hinv.sorted, ?_, ?_⟩
    · refine List.pairwise_of_forall_mem_list (fun p hp q hq e he e' he' => ?_)
      obtain ⟨f, hf, hfi⟩ := hbatch p hp
      obtain ⟨f', hf', hfi'⟩ := hbatch q hq
      rw [hf] at he
      rw [hf'] at he'
      cases he
      cases he'
      omega
    · intro p hp q hq e he e' he'
      obtain ⟨f, hf, hfi⟩ := hbatch q hq
      rw [hf] at he'
      cases he'
      rw [hfi]
      exact hold p hp e he
  · intro p hp e he v hv hvlt e' he'
    have hiter : iter ≤ e'.iter := by
      by_cases hvw : v = w
      · subst v
        simp only [Function.update_self] at hvlt he'
        obtain ⟨f, hf, rfl⟩ := hhead
        exact hord.sorted w hw _ _ (Nat.le_add_right _ _) hvlt f hf e' he'
      · simp only [Function.update_of_ne hvw] at hvlt he'
        exact hleast v hv hvlt e' he'
    rcases List.mem_append.1 hp with hp | hp
    · exact (hold p hp e he).trans hiter
    · obtain ⟨f, hf, hfi⟩ := hbatch p hp
      rw [hf] at he
      cases he
      omega

/-- A list that is through has had the entry behind its end looked at, and written with an
overrun. -/
def EndInv (s : IOEvtSet) (c : Commit) : Prop :=
  ∀ w, s.num w ≤ c.offsets w → s.num w ≠ 0 →
    (w, s.num w) ∈ c.inspected ∧ (¬ s.NoOverrun w → (w, s.num w) ∈ c.written)

theorem EndInv.start : EndInv s .start := by
  intro w hle hne
  exact absurd (Nat.le_zero.1 hle) hne

theorem EndInv.round (hinv : EndInv s c) (h : commitRound numWorkers s c = some c') :
    EndInv s c' := by
  obtain ⟨w, iter, hw, hlt, _, hpos, rfl⟩ := commitRound_eq_some h
  intro v hle hne
  by_cases hvw : v = w
  · subst v
    simp only [Function.update_self] at hle
    have hlook : (w, s.num w) ∈
        positions w (c.offsets w) (s.batchLength w (c.offsets w) iter + 1) :=
      mem_positions.2 ⟨rfl, hlt.le, by dsimp only; omega⟩
    refine ⟨List.mem_append_right _ hlook, fun hover => List.mem_append_right _ ?_⟩
    refine mem_positions.2 ⟨rfl, hlt.le, lt_of_le_of_ne hle (fun heq => hover ?_)⟩
    -- The batch ends with the last event, so what is behind it is of another iteration.
    intro e he e' he' _
    obtain ⟨f, hf, rfl⟩ := entry_of_lt_batchLength s w (c.offsets w) iter
      (k := s.num w - 1 - c.offsets w) (by omega)
    rw [show c.offsets w + (s.num w - 1 - c.offsets w) = s.num w - 1 by omega, entry, he] at hf
    cases hf
    refine @entry_batchLength_ne s w (c.offsets w) _ _ ?_
    rw [← heq]
    exact he'
  · simp only [Function.update_of_ne hvw] at hle
    obtain ⟨hlook, hwrite⟩ := hinv v hle hne
    exact ⟨List.mem_append_left _ (List.mem_append_left _ hlook),
      fun hover => List.mem_append_left _ (hwrite hover)⟩

theorem writesExactly_of_noOverrun (hord : Ordered numWorkers s)
    (hrun : ∀ w < numWorkers, s.NoOverrun w) : WritesExactly numWorkers s := by
  obtain ⟨fuel, c, hc, hinv, hend⟩ := exists_commitRun hord (WriteInv numWorkers s) .start
    (fun c c' hinv h => hinv.round hord hrun h)
  refine ⟨fuel, c, hc, fun p => ?_, hinv.own, hinv.sorted⟩
  rw [hinv.mem_written]
  refine and_congr_right (fun hp => ?_)
  rw [le_antisymm (hinv.offsets_le p.1 hp) (hend p.1 hp)]

theorem noOverrun_of_writesExactly (hord : Ordered numWorkers s)
    (h : WritesExactly numWorkers s) : ∀ w < numWorkers, s.NoOverrun w := by
  obtain ⟨fuel, c, hc, hmem, _, _⟩ := h
  obtain ⟨hinv, hend⟩ := commitRun_invariant hord (EndInv s) .start
    (fun c c' hinv h => hinv.round h) hc
  intro w hw
  by_contra hover
  have hne : s.num w ≠ 0 := by
    intro hz
    exact hover (fun _ _ _ _ hne => absurd hz hne)
  have hwrite := (hinv w (hend w hw) hne).2 hover
  exact absurd ((hmem _).1 hwrite).2 (lt_irrefl _)

theorem num_eq_zero_of_staysInside (hord : Ordered numWorkers s)
    (h : StaysInside numWorkers s) {w : ℕ} (hw : w < numWorkers) : s.num w = 0 := by
  obtain ⟨fuel, c, hc, hin⟩ := h
  obtain ⟨hinv, hend⟩ := commitRun_invariant hord (EndInv s) .start
    (fun c c' hinv h => hinv.round h) hc
  by_contra hne
  exact absurd (hin _ (hinv w (hend w hw) hne).1) (lt_irrefl _)

theorem staysInside_of_num_eq_zero (hnum : ∀ w < numWorkers, s.num w = 0) :
    StaysInside numWorkers s := by
  have hnone : commitRound numWorkers s .start = none := by
    rw [commitRound, minTime_eq_none]
    intro v hv
    rw [peek, if_pos (by rw [hnum v hv]; exact Nat.zero_le _)]
  refine ⟨1, .start, ?_, fun p hp => by cases hp⟩
  rw [commitRun, iterate, hnone]

theorem emptied_spec (numWorkers : ℕ) (s : IOEvtSet) {w : ℕ} (hw : w < numWorkers) :
    (emptied numWorkers s).num w = 0 ∧ (emptied numWorkers s).lists w = [] :=
  ⟨if_pos hw, if_pos hw⟩

/-- The merge stays inside the lists only when there is nothing to write; it writes the right
events whenever no list is overrun. -/
theorem mergesExactly_iff (hord : Ordered numWorkers s) :
    (MergesExactly numWorkers s ↔ ∀ w < numWorkers, s.num w = 0) ∧
      (WritesExactly numWorkers s ↔ ∀ w < numWorkers, s.NoOverrun w) := by
  have hwrite : WritesExactly numWorkers s ↔ ∀ w < numWorkers, s.NoOverrun w :=
    ⟨noOverrun_of_writesExactly hord, writesExactly_of_noOverrun hord⟩
  refine ⟨⟨fun h w hw => num_eq_zero_of_staysInside hord h.2.1 hw, fun hnum => ?_⟩, hwrite⟩
  refine ⟨hwrite.2 (fun w hw e _ e' _ hne => absurd (hnum w hw) hne),
    staysInside_of_num_eq_zero hnum, fun w hw => emptied_spec numWorkers s hw⟩

/-- One event of iteration `0`, and behind the list the bytes of an older event of it. -/
def staleTail : IOEvtSet where
  lists := fun _ => [⟨0, 1, [65]⟩, ⟨0, 1, [66]⟩]
  num := fun _ => 1

theorem staleTail_ordered : Ordered 1 staleTail := by
  refine ⟨fun w _ => Nat.le_succ 1, fun w _ j k hjk hk e he e' he' => ?_⟩
  · change k < 1 at hk
    obtain rfl : k = 0 := by omega
    obtain rfl : j = 0 := by omega
    cases he
    cases he'
    exact le_rfl

theorem mergesExactly_iff_staleTail :
    ¬ MergesExactly 1 staleTail ∧ ¬ WritesExactly 1 staleTail := by
  obtain ⟨hmerges, hwrites⟩ := mergesExactly_iff staleTail_ordered
  refine ⟨fun h => ?_, fun h => ?_⟩
  · exact absurd (hmerges.1 h 0 Nat.one_pos) (by decide)
  · exact hwrites.1 h 0 Nat.one_pos _ rfl _ rfl (by decide) rfl

/-- The stale entry is looked at and written. -/
theorem staleTail_not_mergesExactly :
    Ordered 1 staleTail ∧ ¬ MergesExactly 1 staleTail ∧
      commitIo 1 staleTail = [⟨0, 1, [65]⟩, ⟨0, 1, [66]⟩] := by
  refine ⟨staleTail_ordered, fun h => ?_, by decide⟩
  exact absurd (num_eq_zero_of_staysInside staleTail_ordered h.2.1 Nat.one_pos) (by decide)

end IOEvtSet
end Cpf.Executive
