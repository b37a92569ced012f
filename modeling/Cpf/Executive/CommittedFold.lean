import Cpf.Executive.Merge

/-!
# Folding committed checkpoints

Complete checkpoints are merged pairwise, the older one into the newer one. The fold of a list of
checkpoints reports a conflict exactly when a byte written in one of them is read as live-in by a
later one; otherwise adopting the folded checkpoint is the same as adopting all of them in order.
-/

namespace Cpf.Executive
open Heap

/-- The private heap of a complete checkpoint; its range covers every byte that has a mark. -/
structure CommittedHeap (size : ℕ) extends Image where
  covered : ∀ k, shadow k ≠ liveIn → range.Covers k
  within : range.Within size

namespace Image

variable {size : HeapLen} {older newer out : Image} {k : ℕ}

def foldCommitted (sizeofPrivate : ℕ) (oldest : Image) (cs : List Image) : Except Image Image :=
  cs.foldlM (fun older newer => distillCommittedPrivateIntoPartial sizeofPrivate older newer) oldest

def FlowsInto (older newer : Image) : Prop :=
  ∃ k, wasWrittenEver (older.shadow k) = true ∧ newer.shadow k = readLiveIn

theorem commitCell_eq_none {sp ss : UInt8} {c : UInt8 × UInt8} :
    commitCell sp ss c = none ↔ wasWrittenEver ss = true ∧ c.2 = readLiveIn := by
  unfold commitCell
  split_ifs with hl hw hr hw' <;> simp_all [liveIn, readLiveIn]

/-- A committed merge keeps the newer checkpoint's own marks; a byte it has not touched gets the
older value, as old, if the older checkpoint has written it. -/
theorem commitCell_eq_some {sp ss : UInt8} {c c' : UInt8 × UInt8}
    (h : commitCell sp ss c = some c') :
    (c.2 = liveIn ∧ wasWrittenEver ss = true ∧ c' = (sp, oldIteration)) ∨
    (c' = c ∧ (c.2 = liveIn → wasWrittenEver ss = false) ∧
      (c.2 = readLiveIn → wasWrittenEver ss = false)) := by
  unfold commitCell at h
  split_ifs at h with hl hw hr hw'
  · exact Or.inl ⟨hl, hw, (Option.some.inj h).symm⟩
  · refine Or.inr ⟨(Option.some.inj h).symm, fun _ => Bool.eq_false_iff.2 hw, fun hr => ?_⟩
    exact absurd (hl.symm.trans hr) (by decide)
  · exact Or.inr ⟨(Option.some.inj h).symm, fun hl' => absurd hl' hl,
      fun _ => Bool.eq_false_iff.2 hw'⟩
  · exact Or.inr ⟨(Option.some.inj h).symm, fun hl' => absurd hl' hl, fun hr' => absurd hr' hr⟩

variable (size) in
/-- Every byte with a mark lies in the range, and the range in the heap. -/
structure Tight (c : Image) : Prop where
  covered : ∀ k, c.shadow k ≠ liveIn → c.range.Covers k
  within : c.range.Within size.val

/-- The main process takes exactly the bytes that a tight checkpoint has written. -/
theorem Tight.adopt_apply {c : Image} (hc : Tight size c) (main : Heap) (k : ℕ) :
    distillCommittedPrivateIntoMain size.val c main k =
      if wasWrittenEver (c.shadow k) then c.priv k else main k := by
  rw [distillCommittedPrivateIntoMain_apply hc.within]
  by_cases hw : wasWrittenEver (c.shadow k) = true
  · rw [if_pos ⟨hc.covered k (wasWrittenEver_iff.1 hw).1, hw⟩, if_pos hw]
  · rw [if_neg (fun hand => hw hand.2), if_neg hw]

theorem Committed.cases (h : Committed older newer out) (ho : Tight size older) (k : ℕ) :
    (newer.shadow k = liveIn ∧ wasWrittenEver (older.shadow k) = true ∧
      out.cell k = (older.priv k, oldIteration)) ∨
    (out.cell k = newer.cell k ∧
      (newer.shadow k = liveIn → wasWrittenEver (older.shadow k) = false) ∧
      (newer.shadow k = readLiveIn → wasWrittenEver (older.shadow k) = false)) := by
  by_cases hk : older.range.Covers k
  · exact commitCell_eq_some (h.covered k hk)
  · have hl : older.shadow k = liveIn := by
      by_contra hne
      exact hk (ho.covered k hne)
    rw [hl]
    exact Or.inr ⟨h.frame k hk, fun _ => rfl, fun _ => rfl⟩

theorem Committed.tight (h : Committed older newer out) (ho : Tight size older)
    (hn : Tight size newer) : Tight size out := by
  refine ⟨fun k hk => ?_, ?_⟩
  · rw [h.range]
    rcases h.cases ho k with ⟨_, hw, _⟩ | ⟨he, _, _⟩
    · exact (ho.covered k (wasWrittenEver_iff.1 hw).1).widen_right _
    · have hmark : out.shadow k = newer.shadow k := congrArg Prod.snd he
      exact (hn.covered k (hmark ▸ hk)).widen _
  · rw [h.range]
    exact hn.within.widen ho.within size.lt

theorem Committed.wasWrittenEver_eq (h : Committed older newer out) (ho : Tight size older)
    (k : ℕ) : wasWrittenEver (out.shadow k) =
      (wasWrittenEver (older.shadow k) || wasWrittenEver (newer.shadow k)) := by
  rcases h.cases ho k with ⟨hl, hw, he⟩ | ⟨he, hlive, hread⟩
  · have hmark : out.shadow k = oldIteration := congrArg Prod.snd he
    rw [hmark, hw]
    rfl
  · have hmark : out.shadow k = newer.shadow k := congrArg Prod.snd he
    rw [hmark]
    by_cases hl : newer.shadow k = liveIn
    · rw [hlive hl, Bool.false_or]
    · by_cases hr : newer.shadow k = readLiveIn
      · rw [hread hr, Bool.false_or]
      · rw [wasWrittenEver_iff.2 ⟨hl, hr⟩, Bool.or_true]

/-- Adopting the merged checkpoint is adopting the older one and then the newer one. -/
theorem Committed.adopt (h : Committed older newer out) (ho : Tight size older)
    (hn : Tight size newer) (main : Heap) :
    distillCommittedPrivateIntoMain size.val out main =
      distillCommittedPrivateIntoMain size.val newer
        (distillCommittedPrivateIntoMain size.val older main) := by
  funext k
  rw [(h.tight ho hn).adopt_apply, hn.adopt_apply, ho.adopt_apply]
  simp only [h.wasWrittenEver_eq ho, Bool.or_eq_true]
  rcases h.cases ho k with ⟨hl, hw, he⟩ | ⟨he, hlive, hread⟩
  · have hval : out.priv k = older.priv k := congrArg Prod.fst he
    have hno : ¬ wasWrittenEver (newer.shadow k) = true := by
      rw [hl]
      decide
    rw [if_pos (Or.inl hw), if_neg hno, if_pos hw, hval]
  · have hval : out.priv k = newer.priv k := congrArg Prod.fst he
    by_cases hw : wasWrittenEver (newer.shadow k) = true
    · rw [if_pos (Or.inr hw), if_pos hw, hval]
    · have ho' : wasWrittenEver (older.shadow k) = false := by
        by_cases hl : newer.shadow k = liveIn
        · exact hlive hl
        · by_cases hr : newer.shadow k = readLiveIn
          · exact hread hr
          · exact absurd (wasWrittenEver_iff.2 ⟨hl, hr⟩) hw
      simp [hw, ho']

theorem exists_committed_iff (ho : Tight size older) :
    (∃ d, distillCommittedPrivateIntoPartial size.val older newer = .ok d) ↔
      ¬ FlowsInto older newer := by
  rw [exists_distillCommittedPrivateIntoPartial ho.within]
  constructor
  · rintro hall ⟨k, hw, hr⟩
    exact hall k (ho.covered k (wasWrittenEver_iff.1 hw).1) (commitCell_eq_none.2 ⟨hw, hr⟩)
  · intro hno k _ hnone
    obtain ⟨hw, hr⟩ := commitCell_eq_none.1 hnone
    exact hno ⟨k, hw, hr⟩

/-- The fold runs to its end exactly when no checkpoint flows into a later one. -/
theorem exists_foldCommitted_iff {cs : List Image} (hc : Tight size older)
    (hcs : ∀ c ∈ cs, Tight size c) :
    (∃ p, foldCommitted size.val older cs = .ok p) ↔
      (older :: cs).Pairwise (fun a b => ¬ FlowsInto a b) := by
  induction cs generalizing older with
  | nil => simp [foldCommitted, pure, Except.pure]
  | cons c cs ih =>
      have htc : Tight size c := hcs c List.mem_cons_self
      have hrest : ∀ d ∈ cs, Tight size d := fun d hd => hcs d (List.mem_cons_of_mem c hd)
      have hstep : ∀ d, distillCommittedPrivateIntoPartial size.val older c = .ok d →
          ((∃ p, foldCommitted size.val d cs = .ok p) ↔
            (older :: cs).Pairwise (fun a b => ¬ FlowsInto a b) ∧
            (c :: cs).Pairwise (fun a b => ¬ FlowsInto a b)) := by
        intro d hd
        have hcom := distillCommittedPrivateIntoPartial_committed hc.within hd
        rw [ih (hcom.tight hc htc) hrest]
        simp only [List.pairwise_cons]
        have hflow : ∀ e, ¬ FlowsInto d e ↔ ¬ FlowsInto older e ∧ ¬ FlowsInto c e := by
          intro e
          simp only [FlowsInto, hcom.wasWrittenEver_eq hc, Bool.or_eq_true]
          constructor
          · exact fun hno => ⟨fun ⟨k, hw, hr⟩ => hno ⟨k, Or.inl hw, hr⟩,
              fun ⟨k, hw, hr⟩ => hno ⟨k, Or.inr hw, hr⟩⟩
          · rintro ⟨ho, hn⟩ ⟨k, hw | hw, hr⟩
            · exact ho ⟨k, hw, hr⟩
            · exact hn ⟨k, hw, hr⟩
        simp only [hflow]
        exact ⟨fun ⟨hall, hp⟩ => ⟨⟨fun e he => (hall e he).1, hp⟩, fun e he => (hall e he).2, hp⟩,
          fun ⟨⟨ho, hp⟩, hn, _⟩ => ⟨fun e he => ⟨ho e he, hn e he⟩, hp⟩⟩
      constructor
      · rintro ⟨p, hp⟩
        obtain ⟨d, hd, hfold⟩ := foldlM_cons_eq_ok.1 hp
        obtain ⟨ho, hn⟩ := (hstep d hd).1 ⟨p, hfold⟩
        refine List.pairwise_cons.2 ⟨fun e he => ?_, hn⟩
        rcases List.mem_cons.1 he with rfl | he
        · exact (exists_committed_iff hc).1 ⟨d, hd⟩
        · exact (List.pairwise_cons.1 ho).1 e he
      · intro hp
        obtain ⟨hhead, hn⟩ := List.pairwise_cons.1 hp
        obtain ⟨d, hd⟩ := (exists_committed_iff hc).2 (hhead c List.mem_cons_self)
        have ho : (older :: cs).Pairwise (fun a b => ¬ FlowsInto a b) :=
          List.pairwise_cons.2 ⟨fun e he => hhead e (List.mem_cons_of_mem c he),
            (List.pairwise_cons.1 hn).2⟩
        obtain ⟨p, hfold⟩ := (hstep d hd).2 ⟨ho, hn⟩
        exact ⟨p, foldlM_cons_eq_ok.2 ⟨d, hd, hfold⟩⟩

/-- The folded checkpoint is tight, and adopting it is adopting all of the list in order. -/
theorem foldCommitted_adopt {cs : List Image} {p : Image} (hc : Tight size older)
    (hcs : ∀ c ∈ cs, Tight size c) (h : foldCommitted size.val older cs = .ok p) :
    Tight size p ∧ ∀ main, distillCommittedPrivateIntoMain size.val p main =
      (older :: cs).foldl (fun m c => distillCommittedPrivateIntoMain size.val c m) main := by
  induction cs generalizing older with
  | nil =>
      cases h
      exact ⟨hc, fun _ => rfl⟩
  | cons c cs ih =>
      obtain ⟨d, hd, hfold⟩ := foldlM_cons_eq_ok.1 h
      have htc : Tight size c := hcs c List.mem_cons_self
      have hcom := distillCommittedPrivateIntoPartial_committed hc.within hd
      obtain ⟨htight, hadopt⟩ := ih (hcom.tight hc htc)
        (fun e he => hcs e (List.mem_cons_of_mem c he)) hfold
      refine ⟨htight, fun main => ?_⟩
      rw [hadopt main, List.foldl_cons, List.foldl_cons, List.foldl_cons, hcom.adopt hc htc]

end Image

namespace CommittedHeap

variable {size : HeapLen}

theorem tight (c : CommittedHeap size.val) : Image.Tight size c.toImage := ⟨c.covered, c.within⟩

theorem tight_of_mem_map (cs : List (CommittedHeap size.val)) (img : Image)
    (h : img ∈ cs.map toImage) : Image.Tight size img := by
  obtain ⟨c, _, rfl⟩ := List.mem_map.1 h
  exact c.tight

/-- The fold of complete checkpoints reports a conflict exactly when a byte written in one is read
as live-in by a later one. Without a conflict the folded checkpoint has the effect of all of them
on the main process, and its range covers its marks. -/
theorem fold_committed_exact (c : CommittedHeap size.val) (cs : List (CommittedHeap size.val)) :
    ((∃ e, Image.foldCommitted size.val c.toImage (cs.map toImage) = .error e) ↔
      ∃ i j : Fin (c :: cs).length, i < j ∧
        Image.FlowsInto ((c :: cs).get i).toImage ((c :: cs).get j).toImage) ∧
    ∀ p, Image.foldCommitted size.val c.toImage (cs.map toImage) = .ok p →
      (∀ main, Image.distillCommittedPrivateIntoMain size.val p main =
        (c :: cs).foldl (fun m d => Image.distillCommittedPrivateIntoMain size.val d.toImage m)
          main) ∧
      ∀ k, p.shadow k ≠ liveIn → p.range.Covers k := by
  have hiff := Image.exists_foldCommitted_iff c.tight (tight_of_mem_map cs)
  refine ⟨?_, fun p hp => ?_⟩
  · have herr : (∃ e, Image.foldCommitted size.val c.toImage (cs.map toImage) = .error e) ↔
        ¬ ∃ p, Image.foldCommitted size.val c.toImage (cs.map toImage) = .ok p := by
      cases Image.foldCommitted size.val c.toImage (cs.map toImage) with
      | error e => simp
      | ok p => simp
    rw [herr, hiff, ← List.map_cons, List.pairwise_map, List.pairwise_iff_get]
    push Not
    rfl
  · obtain ⟨htight, hadopt⟩ := Image.foldCommitted_adopt c.tight
      (tight_of_mem_map cs) hp
    refine ⟨fun main => ?_, htight.covered⟩
    rw [hadopt main, ← List.map_cons, List.foldl_map]

/-- A checkpoint whose only mark, on byte `k`, is `mark`. -/
def single {size : ℕ} (k : ℕ) (hk : k + 1 ≤ size) (mark : UInt8) : CommittedHeap size where
  priv _ := mark
  shadow := Function.update (fun _ => liveIn) k mark
  range := ⟨k, k + 1⟩
  covered i hi := by
    by_cases h : i = k
    · subst h
      exact ⟨le_rfl, Nat.lt_succ_self i⟩
    · exact absurd (Function.update_of_ne h mark fun _ => liveIn) hi
  within := Or.inr ⟨Nat.le_succ k, hk⟩

theorem beyondLen_fits : 2 ^ 32 + 1 ≤ beyondLen := by decide

theorem sixteen_fits : 0 + 1 ≤ sixteen.val := by decide

theorem single_flows {size k : ℕ} (hk : k + 1 ≤ size) :
    Image.FlowsInto (single k hk 5).toImage (single k hk readLiveIn).toImage :=
  ⟨k, by simp [single]; decide, by simp [single]⟩

theorem fold_committed_exact_flow :
    ∃ e, Image.foldCommitted sixteen.val (single _ sixteen_fits 5).toImage
      ([single _ sixteen_fits readLiveIn].map toImage) = .error e :=
  (fold_committed_exact (single _ sixteen_fits 5) [single _ sixteen_fits readLiveIn]).1.2
    ⟨0, 1, Nat.zero_lt_one, single_flows sixteen_fits⟩

/-- In a heap of more than 4 GB the fold does not look at byte `2 ^ 32`, written in one checkpoint and read as
live-in by the next. -/
theorem flow_beyond_len_folded :
    ¬ ∀ (size : ℕ) (c : CommittedHeap size) (cs : List (CommittedHeap size)), size % 16 = 0 →
      ((∃ e, Image.foldCommitted size c.toImage (cs.map toImage) = .error e) ↔
        ∃ i j : Fin (c :: cs).length, i < j ∧
          Image.FlowsInto ((c :: cs).get i).toImage ((c :: cs).get j).toImage) := by
  intro hall
  obtain ⟨e, he⟩ := (hall beyondLen (single _ beyondLen_fits 5) [single _ beyondLen_fits readLiveIn] rfl).2
    ⟨0, 1, Nat.zero_lt_one, single_flows beyondLen_fits⟩
  have hok : (Image.foldCommitted beyondLen (single _ beyondLen_fits 5).toImage
      ([single _ beyondLen_fits readLiveIn].map toImage)).isOk = true := by decide
  rw [he] at hok
  cases hok

end CommittedHeap
end Cpf.Executive
