import Cpf.Executive.DistillSpec

/-!
# A partial checkpoint after several workers have merged

After merges without a conflict every byte of the partial checkpoint carries the greatest mark
that the workers' merges have looked at, and no byte that one of them has read was written by
another. Nothing is assumed here about which iterations the marks come from.
-/

namespace Cpf.Executive
open Heap

namespace Image

variable {size : HeapLen} {init p p' w : Image} {ws : List Image} {k : ℕ}

/-- The mark that the merge of a worker looks at; bytes it skips count as `liveIn`. -/
def scanMark (src : Image) (k : ℕ) : UInt8 := if src.Scanned k then src.shadow k else liveIn

/-- The merges of a list of workers into one partial checkpoint; the first conflict ends it. -/
def mergeAll (sizeofPrivate : ℕ) (partialChkpt : Image) (ws : List Image) : Except Image Image :=
  ws.foldlM (fun dst w => distillWorkerPrivateIntoPartial sizeofPrivate w dst) partialChkpt

theorem wasWrittenEver_iff {b : UInt8} : wasWrittenEver b = true ↔ b ≠ liveIn ∧ b ≠ readLiveIn := by
  simp only [wasWrittenEver, oldIteration, liveIn, readLiveIn, decide_eq_true_eq, ne_eq,
    UInt8.le_iff_toNat_le, ← UInt8.toNat_inj]
  simp only [UInt8.reduceToNat]
  omega

theorem scanMark_of_scanned (h : w.Scanned k) : w.scanMark k = w.shadow k := if_pos h

theorem scanMark_of_not_scanned (h : ¬ w.Scanned k) : w.scanMark k = liveIn := if_neg h

theorem scanned_of_scanMark_ne (h : w.scanMark k ≠ liveIn) : w.Scanned k := by
  by_contra hs
  exact h (scanMark_of_not_scanned hs)

theorem Scanned.lt_size (h : w.Scanned k) (hr : w.range.Within size.val) : k < size.val :=
  ShadowRange.CoversWord.lt_size h.1 hr size.aligned

/-- A byte with a mark is looked at whenever the rounded range covers it. -/
theorem scanned_of_mark_ne (hc : w.range.CoversWord k) (hm : w.shadow k ≠ liveIn) : w.Scanned k := by
  refine ⟨hc, fun hz => hm ?_⟩
  rw [V64_eq_splat] at hz
  have hbyte := load_eq_splat_iff.1 hz (k % bytesPerWord) (Nat.mod_lt k (by decide))
  rwa [show roundDown k bytesPerWord + k % bytesPerWord = k from
    Nat.sub_add_cancel (Nat.mod_le k bytesPerWord)] at hbyte

theorem mergeCell_eq_some {sp ss : UInt8} {c c' : UInt8 × UInt8} (h : mergeCell sp ss c = some c') :
    (ss = readLiveIn ∧ (c.2 = liveIn ∨ c.2 = readLiveIn) ∧ c' = (c.1, readLiveIn)) ∨
    (ss ≠ readLiveIn ∧ c.2 ≠ readLiveIn ∧ c.2 < ss ∧ c' = (sp, ss)) ∨
    (ss ≠ readLiveIn ∧ c.2 ≠ readLiveIn ∧ ss ≤ c.2 ∧ c' = c) := by
  unfold mergeCell at h
  split_ifs at h with hs hl hr hr' hgt
  · exact Or.inl ⟨hs, Or.inl hl, (Option.some.inj h).symm⟩
  · refine Or.inl ⟨hs, Or.inr hr, ?_⟩
    rw [← Option.some.inj h, ← hr]
  · exact Or.inr (Or.inl ⟨hs, hr', hgt, (Option.some.inj h).symm⟩)
  · exact Or.inr (Or.inr ⟨hs, hr', UInt8.not_lt.1 hgt, (Option.some.inj h).symm⟩)

theorem mergeCell_eq_none {sp ss : UInt8} {c : UInt8 × UInt8} :
    mergeCell sp ss c = none ↔
      ss = readLiveIn ∧ c.2 ≠ liveIn ∧ c.2 ≠ readLiveIn ∨ ss ≠ readLiveIn ∧ c.2 = readLiveIn := by
  unfold mergeCell
  split_ifs <;> simp_all

theorem liveIn_le (b : UInt8) : liveIn ≤ b := UInt8.zero_le

theorem readLiveIn_le {b : UInt8} (h : b ≠ liveIn) : readLiveIn ≤ b := by
  simp only [readLiveIn, liveIn, ne_eq, UInt8.le_iff_toNat_le, ← UInt8.toNat_inj] at h ⊢
  simp only [UInt8.reduceToNat] at h ⊢
  omega

/-- What the partial checkpoint holds after the merges of `ws`. -/
structure Joined (init : Image) (ws : List Image) (p : Image) : Prop where
  init_le : ∀ k, init.shadow k ≤ p.shadow k
  mark_le : ∀ w ∈ ws, ∀ k, w.scanMark k ≤ p.shadow k
  source : ∀ k, p.cell k = init.cell k ∨ ∃ w ∈ ws, w.Scanned k ∧ w.shadow k = p.shadow k ∧
    p.shadow k ≠ liveIn ∧ (p.shadow k = readLiveIn ∨ p.priv k = w.priv k)
  apart : ∀ k, init.shadow k = liveIn → ∀ w ∈ ws, ∀ v ∈ ws, w.scanMark k = readLiveIn →
    wasWrittenEver (v.scanMark k) = false
  range : p.range = (ws.map range).foldl ShadowRange.widen init.range

namespace Joined

theorem nil (init : Image) : Joined init [] init :=
  ⟨fun _ => UInt8.le_refl _, by simp, fun _ => Or.inl rfl, by simp, rfl⟩

/-- One more merge: the old mark stays below, the new mark is the old one or the worker's. -/
theorem step_mark (hm : Merged w p p') (k : ℕ) :
    p.shadow k ≤ p'.shadow k ∧ w.scanMark k ≤ p'.shadow k ∧
      (p'.cell k = p.cell k ∨ w.Scanned k ∧ w.shadow k = p'.shadow k ∧ p'.shadow k ≠ liveIn ∧
        (p'.shadow k = readLiveIn ∨ p'.priv k = w.priv k)) := by
  by_cases hs : w.Scanned k
  · have hcell := hm.scanned k hs
    rw [scanMark_of_scanned hs]
    rcases mergeCell_eq_some hcell with ⟨hss, hds, he⟩ | ⟨_, _, hlt, he⟩ | ⟨_, _, hle, he⟩
    · have hmark : p'.shadow k = readLiveIn := congrArg Prod.snd he
      rw [hmark, hss]
      refine ⟨?_, UInt8.le_refl _, Or.inr ⟨hs, rfl, by decide, Or.inl rfl⟩⟩
      change (p.cell k).2 ≤ readLiveIn
      rcases hds with hds | hds
      · rw [hds]
        exact liveIn_le _
      · rw [hds]
        exact UInt8.le_refl _
    · have hmark : p'.shadow k = w.shadow k := congrArg Prod.snd he
      have hval : p'.priv k = w.priv k := congrArg Prod.fst he
      rw [hmark]
      refine ⟨UInt8.le_of_lt hlt, UInt8.le_refl _, Or.inr ⟨hs, rfl, fun hz => ?_, Or.inr hval⟩⟩
      rw [hz] at hlt
      exact UInt8.not_lt.2 (liveIn_le _) hlt
    · have hmark : p'.shadow k = p.shadow k := congrArg Prod.snd he
      rw [hmark]
      exact ⟨UInt8.le_refl _, hle, Or.inl he⟩
  · have hcell := hm.frame k hs
    have hmark : p'.shadow k = p.shadow k := congrArg Prod.snd hcell
    rw [scanMark_of_not_scanned hs, hmark]
    exact ⟨UInt8.le_refl _, liveIn_le _, Or.inl hcell⟩

/-- The mark of a byte that some merged worker has read and none has written. -/
theorem mark_eq_readLiveIn (hj : Joined init ws p) (hk : init.shadow k = liveIn) (hw : w ∈ ws)
    (hread : w.scanMark k = readLiveIn) : p.shadow k = readLiveIn := by
  have hle := hj.mark_le w hw k
  rw [hread] at hle
  rcases hj.source k with he | ⟨v, hv, hs, hmark, hne, _⟩
  · have hzero : p.shadow k = liveIn := (congrArg Prod.snd he).trans hk
    rw [hzero] at hle
    exact absurd hle (by decide)
  · by_contra hc
    have hwritten := hj.apart k hk w hw v hv hread
    rw [scanMark_of_scanned hs, hmark, wasWrittenEver_iff.2 ⟨hne, hc⟩] at hwritten
    cases hwritten

theorem step (hj : Joined init ws p) (hm : Merged w p p') : Joined init (ws ++ [w]) p' where
  init_le k := UInt8.le_trans (hj.init_le k) (step_mark hm k).1
  mark_le v hv k := by
    rcases List.mem_append.1 hv with hv | hv
    · exact UInt8.le_trans (hj.mark_le v hv k) (step_mark hm k).1
    · obtain rfl := List.mem_singleton.1 hv
      exact (step_mark hm k).2.1
  source k := by
    rcases (step_mark hm k).2.2 with he | hnew
    · have hmark : p'.shadow k = p.shadow k := congrArg Prod.snd he
      have hval : p'.priv k = p.priv k := congrArg Prod.fst he
      rcases hj.source k with hi | ⟨v, hv, hrest⟩
      · exact Or.inl (he.trans hi)
      · rw [hmark, hval]
        exact Or.inr ⟨v, List.mem_append_left [w] hv, hrest⟩
    · exact Or.inr ⟨w, by simp, hnew⟩
  apart k hk u hu v hv hread := by
    by_contra hwr
    rw [Bool.not_eq_false] at hwr
    obtain ⟨hne, hnr⟩ := wasWrittenEver_iff.1 hwr
    rcases List.mem_append.1 hu with hu' | hu'
    · rcases List.mem_append.1 hv with hv' | hv'
      · rw [hj.apart k hk u hu' v hv' hread] at hwr
        cases hwr
      · obtain rfl := List.mem_singleton.1 hv'
        have hs := scanned_of_scanMark_ne hne
        have hnone : mergeCell (v.priv k) (v.shadow k) (p.cell k) = none :=
          mergeCell_eq_none.2 (Or.inr ⟨scanMark_of_scanned hs ▸ hnr,
            hj.mark_eq_readLiveIn hk hu' hread⟩)
        rw [hm.scanned k hs] at hnone
        cases hnone
    · obtain rfl := List.mem_singleton.1 hu'
      have hs : u.Scanned k := scanned_of_scanMark_ne (by rw [hread]; decide)
      rcases List.mem_append.1 hv with hv' | hv'
      · have hle := hj.mark_le v hv' k
        have hp : p.shadow k ≠ liveIn ∧ p.shadow k ≠ readLiveIn := by
          refine ⟨fun hz => hne (UInt8.le_antisymm (hz ▸ hle) (liveIn_le _)), fun hz => hnr ?_⟩
          exact UInt8.le_antisymm (hz ▸ hle) (readLiveIn_le hne)
        have hnone : mergeCell (u.priv k) (u.shadow k) (p.cell k) = none :=
          mergeCell_eq_none.2 (Or.inl ⟨scanMark_of_scanned hs ▸ hread, hp⟩)
        rw [hm.scanned k hs] at hnone
        cases hnone
      · obtain rfl := List.mem_singleton.1 hv'
        exact hnr hread
  range := by
    rw [hm.range, hj.range, List.map_append, List.foldl_append]
    rfl

/-- The run lemma: merges without a conflict join the marks of all workers. -/
theorem foldlM (hj : Joined init ws p) {vs : List Image} (hr : ∀ v ∈ vs, v.range.Within size.val)
    (h : mergeAll size.val p vs = .ok p') : Joined init (ws ++ vs) p' := by
  induction vs generalizing ws p with
  | nil =>
      cases h
      rwa [List.append_nil]
  | cons v vs ih =>
      obtain ⟨q, hq, hrest⟩ := foldlM_cons_eq_ok.1 h
      have hm := distillWorkerPrivateIntoPartial_merged (hr v List.mem_cons_self) hq
      have hall := ih (hj.step hm) (fun u hu => hr u (List.mem_cons_of_mem v hu)) hrest
      rwa [List.append_assoc, List.singleton_append] at hall

end Joined

theorem joined_of_mergeAll (hr : ∀ v ∈ ws, v.range.Within size.val)
    (h : mergeAll size.val init ws = .ok p) : Joined init ws p := by
  have hj := (Joined.nil init).foldlM hr h
  rwa [List.nil_append] at hj

theorem initializePartial_mark (p : Image) (hk : k < size.val) :
    (p.initializePartial size.val).shadow k = liveIn :=
  memset_apply_of_mem (Nat.zero_le k) (by omega)

end Image
end Cpf.Executive
