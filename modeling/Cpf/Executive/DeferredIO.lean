import Mathlib.Data.List.Nodup
import Mathlib.Tactic

/-!
# Deferred output

`io.c` keeps the output of speculative iterations in per-worker lists and writes the events of a
checkpoint when it is committed, always taking next the events of the least iteration. A batch of
events of one iteration is delimited by the iteration number of the entry behind it, also behind
the last event of the list.
-/

namespace Cpf.Executive

structure IOEvt where
  iter : ℕ
  stream : ℕ
  buffer : List UInt8
  deriving DecidableEq

theorem iter_of_mem_nil (i : ℕ) (e : IOEvt) (h : e ∈ []) : e.iter = i := absurd h List.not_mem_nil

/-- The events of a checkpoint by worker. `lists w` are the entries that can be read from the start
of the list of `w` on: its `num w` events, and the memory behind them. -/
structure IOEvtSet where
  lists : ℕ → List IOEvt
  num : ℕ → ℕ

namespace IOEvtSet

def empty : IOEvtSet := ⟨fun _ => [], fun _ => 0⟩

/-- `__specpriv_copy_io_to_redux`; `behind` is what the redux heap holds behind the new list. -/
def copyIoToRedux (s : IOEvtSet) (w : ℕ) (events behind : List IOEvt) : IOEvtSet where
  lists := if events.length < 1 then s.lists else Function.update s.lists w (events ++ behind)
  num := Function.update s.num w events.length

/-- The next event of worker `wid`, if it has one left. -/
def peek (s : IOEvtSet) (offsets : ℕ → ℕ) (wid : ℕ) : Option IOEvt :=
  if offsets wid ≥ s.num wid then none else (s.lists wid)[offsets wid]?

/-- The worker with the least next event time, and this time. -/
def minTime (numWorkers : ℕ) (s : IOEvtSet) (offsets : ℕ → ℕ) : Option (ℕ × ℕ) :=
  (List.range numWorkers).foldl (fun best wid =>
    match s.peek offsets wid, best with
    | none, _ => best
    | some evt, none => some (wid, evt.iter)
    | some evt, some b => if evt.iter < b.2 then some (wid, evt.iter) else best) none

/-- The loop of `__specpriv_commit_io`; every round writes at least one event. -/
def commitLoop (numWorkers : ℕ) (s : IOEvtSet) : ℕ → (ℕ → ℕ) → List IOEvt
  | 0, _ => []
  | rounds + 1, offsets =>
      match minTime numWorkers s offsets with
      | none => []
      | some b =>
          let batch := ((s.lists b.1).drop (offsets b.1)).takeWhile (fun e => e.iter = b.2)
          batch ++ commitLoop numWorkers s rounds
            (Function.update offsets b.1 (offsets b.1 + batch.length))

/-- `__specpriv_commit_io`: the events in the order in which they are written. -/
def commitIo (numWorkers : ℕ) (s : IOEvtSet) : List IOEvt :=
  commitLoop numWorkers s ((List.range numWorkers).map s.num).sum (fun _ => 0)

/-- The entry behind the last event of `wid` does not look like one more event of its iteration. -/
def NoOverrun (s : IOEvtSet) (wid : ℕ) : Prop :=
  ∀ e ∈ (s.lists wid)[s.num wid - 1]?, ∀ e' ∈ (s.lists wid)[s.num wid]?,
    s.num wid ≠ 0 → e'.iter ≠ e.iter

variable {numWorkers : ℕ} {s : IOEvtSet} {offsets : ℕ → ℕ}

/-- What the search has found among the workers `vs`. -/
def IsMin (s : IOEvtSet) (offsets : ℕ → ℕ) (vs : List ℕ) : Option (ℕ × ℕ) → Prop
  | none => ∀ v ∈ vs, s.peek offsets v = none
  | some b => (b.1 ∈ vs ∧ ∃ e, s.peek offsets b.1 = some e ∧ e.iter = b.2) ∧
      ∀ v ∈ vs, ∀ e, s.peek offsets v = some e → b.2 ≤ e.iter

theorem isMin_foldl (vs us : List ℕ) (best : Option (ℕ × ℕ)) (h : IsMin s offsets us best) :
    IsMin s offsets (us ++ vs) (vs.foldl (fun best wid =>
      match s.peek offsets wid, best with
      | none, _ => best
      | some evt, none => some (wid, evt.iter)
      | some evt, some b => if evt.iter < b.2 then some (wid, evt.iter) else best) best) := by
  induction vs generalizing us best with
  | nil => rwa [List.append_nil]
  | cons v vs ih =>
      rw [List.foldl_cons, ← List.singleton_append, ← List.append_assoc]
      refine ih (us ++ [v]) _ ?_
      cases hp : s.peek offsets v with
      | none =>
          cases best with
          | none =>
              intro u hu
              rcases List.mem_append.1 hu with hu | hu
              · exact h u hu
              · rwa [List.mem_singleton.1 hu]
          | some b =>
              refine ⟨⟨List.mem_append_left _ h.1.1, h.1.2⟩, fun u hu e he => ?_⟩
              rcases List.mem_append.1 hu with hu | hu
              · exact h.2 u hu e he
              · rw [List.mem_singleton.1 hu, hp] at he
                cases he
      | some evt =>
          have hlast : ∀ u ∈ [v], ∀ e, s.peek offsets u = some e → e = evt := by
            intro u hu e he
            rw [List.mem_singleton.1 hu, hp] at he
            exact (Option.some.inj he).symm
          cases best with
          | none =>
              refine ⟨⟨by simp, evt, hp, rfl⟩, fun u hu e he => ?_⟩
              rcases List.mem_append.1 hu with hu | hu
              · rw [h u hu] at he
                cases he
              · rw [hlast u hu e he]
          | some b =>
              dsimp only
              split_ifs with hlt
              · refine ⟨⟨by simp, evt, hp, rfl⟩, fun u hu e he => ?_⟩
                rcases List.mem_append.1 hu with hu | hu
                · exact hlt.le.trans (h.2 u hu e he)
                · rw [hlast u hu e he]
              · refine ⟨⟨List.mem_append_left _ h.1.1, h.1.2⟩, fun u hu e he => ?_⟩
                rcases List.mem_append.1 hu with hu | hu
                · exact h.2 u hu e he
                · rw [hlast u hu e he]
                  exact not_lt.1 hlt

theorem isMin_minTime (numWorkers : ℕ) (s : IOEvtSet) (offsets : ℕ → ℕ) :
    IsMin s offsets (List.range numWorkers) (minTime numWorkers s offsets) :=
  isMin_foldl (List.range numWorkers) [] none (by simp [IsMin])

/-- A worker whose next event is before those of all others is taken. -/
theorem minTime_eq_some {w : ℕ} {evt : IOEvt} (hw : w < numWorkers)
    (hp : s.peek offsets w = some evt)
    (hall : ∀ v < numWorkers, v ≠ w → ∀ e, s.peek offsets v = some e → evt.iter < e.iter) :
    minTime numWorkers s offsets = some (w, evt.iter) := by
  have hmin := isMin_minTime numWorkers s offsets
  cases hm : minTime numWorkers s offsets with
  | none =>
      rw [hm] at hmin
      rw [hmin w (List.mem_range.2 hw)] at hp
      cases hp
  | some b =>
      rw [hm] at hmin
      obtain ⟨⟨hb, e, he, hiter⟩, hle⟩ := hmin
      have hbw : b.1 = w := by
        by_contra hne
        have hlt := hall b.1 (List.mem_range.1 hb) hne e he
        have hle' := hle w (List.mem_range.2 hw) evt hp
        omega
      rw [hbw, hp] at he
      cases he
      rw [← hbw, hiter]

theorem minTime_eq_none (h : ∀ v < numWorkers, s.peek offsets v = none) :
    minTime numWorkers s offsets = none := by
  have hmin := isMin_minTime numWorkers s offsets
  cases hm : minTime numWorkers s offsets with
  | none => rfl
  | some b =>
      rw [hm] at hmin
      obtain ⟨⟨hb, e, he, _⟩, _⟩ := hmin
      rw [h b.1 (List.mem_range.1 hb)] at he
      cases he

def ownEvents (owner : ℕ → ℕ) (evts : ℕ → List IOEvt) (its : List ℕ) (w : ℕ) : List IOEvt :=
  (its.filter (fun i => owner i = w)).flatMap evts

theorem mem_ownEvents {owner : ℕ → ℕ} {evts : ℕ → List IOEvt} {its : List ℕ} {w : ℕ} {e : IOEvt} :
    e ∈ ownEvents owner evts its w ↔ ∃ i ∈ its, owner i = w ∧ e ∈ evts i := by
  simp [ownEvents, and_assoc]

/-- What is left to be written is the output of the iterations `its`. -/
structure Pending (numWorkers : ℕ) (owner : ℕ → ℕ) (evts : ℕ → List IOEvt) (s : IOEvtSet)
    (offsets : ℕ → ℕ) (its : List ℕ) : Prop where
  left : ∀ w < numWorkers, ∃ behind,
    (s.lists w).drop (offsets w) = ownEvents owner evts its w ++ behind ∧
    ∀ e ∈ (ownEvents owner evts its w).getLast?, ∀ e' ∈ behind.head?, e'.iter ≠ e.iter
  num : ∀ w < numWorkers, offsets w + (ownEvents owner evts its w).length = s.num w

section Loop

variable {owner : ℕ → ℕ} {evts : ℕ → List IOEvt} {its : List ℕ}

theorem Pending.peek_eq (hp : Pending numWorkers owner evts s offsets its) {w : ℕ}
    (hw : w < numWorkers) : s.peek offsets w = (ownEvents owner evts its w).head? := by
  obtain ⟨behind, hleft, _⟩ := hp.left w hw
  have hnum := hp.num w hw
  unfold peek
  cases hown : ownEvents owner evts its w with
  | nil =>
      rw [hown] at hnum
      rw [if_pos (by simpa using hnum.ge)]
      rfl
  | cons e es =>
      rw [hown, List.length_cons] at hnum
      rw [if_neg (by omega), ← List.head?_drop, hleft, hown]
      rfl

/-- Writing the batch of the least iteration leaves the output of the others. -/
theorem Pending.batch (hiter : ∀ i, ∀ e ∈ evts i, e.iter = i) {i : ℕ}
    (howner : owner i < numWorkers) (hinc : ∀ j ∈ its, i < j)
    (hp : Pending numWorkers owner evts s offsets (i :: its)) (hne : evts i ≠ []) :
    ((s.lists (owner i)).drop (offsets (owner i))).takeWhile (fun e => e.iter = i) = evts i ∧
      Pending numWorkers owner evts s
        (Function.update offsets (owner i) (offsets (owner i) + (evts i).length)) its := by
  have hown : ownEvents owner evts (i :: its) (owner i) =
      evts i ++ ownEvents owner evts its (owner i) := by
    simp [ownEvents]
  have hother : ∀ w, w ≠ owner i →
      ownEvents owner evts (i :: its) w = ownEvents owner evts its w := by
    intro w hw
    simp [ownEvents, Ne.symm hw]
  obtain ⟨behind, hleft, hlast⟩ := hp.left (owner i) howner
  rw [hown, List.append_assoc] at hleft
  have hnext : ∀ e ∈ (ownEvents owner evts its (owner i) ++ behind).head?, e.iter ≠ i := by
    intro e he
    cases hrest : ownEvents owner evts its (owner i) with
    | nil =>
        rw [hrest, List.nil_append] at he
        obtain ⟨l, hl⟩ := Option.ne_none_iff_exists'.1
          (fun hnone => hne (List.getLast?_eq_none_iff.1 hnone))
        have hmem : l ∈ evts i := List.mem_of_getLast? hl
        have hdiff := hlast l (by rw [hown, hrest, List.append_nil, hl]; rfl) e he
        rwa [hiter i l hmem] at hdiff
    | cons e' es =>
        rw [hrest] at he
        have heq : e' = e := Option.some.inj he
        subst heq
        have hmem : e' ∈ ownEvents owner evts its (owner i) := by rw [hrest]; simp
        obtain ⟨j, hj, _, hej⟩ := mem_ownEvents.1 hmem
        rw [hiter j e' hej]
        exact (hinc j hj).ne'
  refine ⟨?_, ?_, ?_⟩
  · rw [hleft, List.takeWhile_append_of_pos (fun e he => by simpa using hiter i e he)]
    have hstop : (ownEvents owner evts its (owner i) ++ behind).takeWhile (fun e => e.iter = i) = [] := by
      cases hrest : ownEvents owner evts its (owner i) ++ behind with
      | nil => rfl
      | cons e es =>
          rw [hrest] at hnext
          rw [List.takeWhile_cons_of_neg]
          simpa using hnext e rfl
    rw [hstop, List.append_nil]
  · intro w hwn
    by_cases hw : w = owner i
    · subst w
      refine ⟨behind, ?_, fun e he => ?_⟩
      · rw [Function.update_self, ← List.drop_drop, hleft, List.drop_left]
      · refine hlast e ?_
        rw [hown]
        cases hrest : ownEvents owner evts its (owner i) with
        | nil =>
            rw [hrest] at he
            cases he
        | cons e' es =>
            rw [hrest] at he
            rw [List.getLast?_append, he]
            rfl
    · obtain ⟨behind', hleft', hlast'⟩ := hp.left w hwn
      rw [hother w hw] at hleft' hlast'
      rw [Function.update_of_ne hw]
      exact ⟨behind', hleft', hlast'⟩
  · intro w hwn
    by_cases hw : w = owner i
    · subst w
      have hnum := hp.num (owner i) howner
      rw [hown, List.length_append] at hnum
      rw [Function.update_self]
      omega
    · have hnum := hp.num w hwn
      rw [hother w hw] at hnum
      rwa [Function.update_of_ne hw]

theorem Pending.skip {i : ℕ} (hp : Pending numWorkers owner evts s offsets (i :: its)) (hnil : evts i = []) :
    Pending numWorkers owner evts s offsets its := by
  have hsame : ∀ w, ownEvents owner evts (i :: its) w = ownEvents owner evts its w := by
    intro w
    by_cases hw : owner i = w <;> simp [ownEvents, hw, hnil]
  exact ⟨fun w => hsame w ▸ hp.left w, fun w => hsame w ▸ hp.num w⟩

/-- The loop writes the output of the pending iterations in their order. -/
theorem commitLoop_eq (hiter : ∀ i, ∀ e ∈ evts i, e.iter = i) (howner : ∀ i, owner i < numWorkers)
    (hinc : its.Pairwise (· < ·)) (hp : Pending numWorkers owner evts s offsets its) {rounds : ℕ}
    (hrounds : (its.flatMap evts).length ≤ rounds) :
    commitLoop numWorkers s rounds offsets = its.flatMap evts := by
  induction its generalizing rounds offsets with
  | nil =>
      cases rounds with
      | zero => rfl
      | succ rounds =>
          have hnone : minTime numWorkers s offsets = none := by
            refine minTime_eq_none (fun v hv => ?_)
            rw [hp.peek_eq hv]
            rfl
          rw [commitLoop, hnone]
          rfl
  | cons i its ih =>
      obtain ⟨hlt, hinc'⟩ := List.pairwise_cons.1 hinc
      rw [List.flatMap_cons] at hrounds ⊢
      by_cases hnil : evts i = []
      · rw [hnil, List.nil_append] at hrounds ⊢
        exact ih hinc' (hp.skip hnil) hrounds
      · obtain ⟨e, es, hevts⟩ := List.exists_cons_of_ne_nil hnil
        have hei : e.iter = i := hiter i e (by rw [hevts]; simp)
        rw [List.length_append, hevts, List.length_cons] at hrounds
        obtain ⟨rounds, rfl⟩ : ∃ m, rounds = m + 1 := ⟨rounds - 1, by omega⟩
        have hmin : minTime numWorkers s offsets = some (owner i, i) := by
          rw [← hei]
          refine minTime_eq_some (hei ▸ howner i) ?_ ?_
          · rw [hp.peek_eq (hei ▸ howner i), hei]
            simp [ownEvents, hevts]
          · intro v hvn hv e' he'
            rw [hp.peek_eq hvn] at he'
            obtain ⟨j, hj, how, hej⟩ := mem_ownEvents.1 (List.mem_of_mem_head? he')
            rcases List.mem_cons.1 hj with rfl | hj
            · exact absurd (hei ▸ how.symm) hv
            · rw [hei, hiter j e' hej]
              exact hlt j hj
        obtain ⟨hbatch, hpend⟩ := hp.batch hiter (howner i) hlt hnil
        rw [commitLoop, hmin]
        dsimp only
        rw [hbatch, ih hinc' hpend (by omega)]

theorem sum_range_single (n m c : ℕ) :
    ((List.range n).map (fun w => if m = w then c else 0)).sum = if m < n then c else 0 := by
  induction n with
  | zero => simp
  | succ n ih =>
      rw [List.range_succ, List.map_append, List.sum_append, ih]
      simp only [List.map_cons, List.map_nil, List.sum_cons, List.sum_nil]
      split_ifs <;> omega

theorem length_flatMap_eq_sum (howner : ∀ i, owner i < numWorkers) (its : List ℕ) :
    (its.flatMap evts).length =
      ((List.range numWorkers).map (fun w => (ownEvents owner evts its w).length)).sum := by
  induction its with
  | nil => simp [ownEvents]
  | cons i its ih =>
      have hsplit : ∀ w, (ownEvents owner evts (i :: its) w).length =
          (if owner i = w then (evts i).length else 0) + (ownEvents owner evts its w).length := by
        intro w
        by_cases hw : owner i = w <;> simp [ownEvents, hw]
      have hone : ((List.range numWorkers).map
          (fun w => if owner i = w then (evts i).length else 0)).sum = (evts i).length := by
        rw [sum_range_single, if_pos (howner i)]
      simp only [hsplit, List.flatMap_cons, List.length_append, List.sum_map_add, hone, ih]

/-- A set that holds the output of increasing iterations, each with its own worker, is written in
the order of the iterations. -/
theorem commitIo_eq (hiter : ∀ i, ∀ e ∈ evts i, e.iter = i) (howner : ∀ i, owner i < numWorkers)
    (hinc : its.Pairwise (· < ·))
    (hlists : ∀ w < numWorkers, ownEvents owner evts its w <+: s.lists w ∧
      s.num w = (ownEvents owner evts its w).length)
    (hrun : ∀ w < numWorkers, s.NoOverrun w) :
    commitIo numWorkers s = its.flatMap evts := by
  have hpend : Pending numWorkers owner evts s (fun _ => 0) its := by
    refine ⟨fun w hw => ?_, fun w hw => ?_⟩
    · obtain ⟨⟨behind, hb⟩, hnum⟩ := hlists w hw
      refine ⟨behind, by rw [List.drop_zero, hb], fun e he e' he' => ?_⟩
      have hpos : s.num w ≠ 0 := by
        rintro hz
        rw [hz] at hnum
        rw [List.length_eq_zero_iff.1 hnum.symm] at he
        cases he
      refine hrun w hw e ?_ e' ?_ hpos
      · rw [← hb, hnum, List.getElem?_append_left (by omega), ← List.getLast?_eq_getElem?]
        exact he
      · rw [← hb, hnum, List.getElem?_append_right (le_refl _), Nat.sub_self,
          ← List.head?_eq_getElem?]
        exact he'
    · rw [(hlists w hw).2, Nat.zero_add]
  refine commitLoop_eq hiter howner hinc hpend ?_
  rw [length_flatMap_eq_sum howner]
  refine le_of_eq (congrArg List.sum (List.map_congr_left (fun w hw => ?_)))
  exact ((hlists w (List.mem_range.1 hw)).2).symm

end Loop

end IOEvtSet
end Cpf.Executive
