import Cpf.Executive.CheckpointSpec

/-!
# What the share-private merges do to a byte

An update of a share-private byte is a data byte that differs from its shadow byte. A merge copies
the updates of the touched range; the other bytes stay.
-/

namespace Cpf.Executive
open Heap

namespace Image

variable {src dst : Image} {size : HeapLen} {k : ℕ}

def Updated (img : Image) (k : ℕ) : Prop := img.shadow k ≠ img.priv k

instance (img : Image) (k : ℕ) : Decidable (img.Updated k) := inferInstanceAs (Decidable (_ ≠ _))

/-- The bytes of `src` that satisfy `q` are copied into `dst`. -/
structure Shared (src dst dst' : Image) (q : ℕ → Prop) : Prop where
  copied : ∀ k, q k → src.Updated k → dst'.cell k = (src.priv k, ~~~ src.priv k)
  kept : ∀ k, ¬ (q k ∧ src.Updated k) → dst'.cell k = dst.cell k
  range : dst'.range = dst.range

namespace Shared

theorem refl {q : ℕ → Prop} (h : ∀ k, q k → ¬ src.Updated k) : Shared src dst dst q :=
  ⟨fun k hq hu => absurd hu (h k hq), fun _ _ => rfl, rfl⟩

theorem trans {a b c : Image} {q r : ℕ → Prop} (h : Shared src a b q) (h' : Shared src b c r) :
    Shared src a c (fun k => q k ∨ r k) where
  copied k hq hu := by
    by_cases hr : r k
    · exact h'.copied k hr hu
    · rw [h'.kept k (fun hc => hr hc.1)]
      exact h.copied k (hq.resolve_right hr) hu
  kept k hn := by
    rw [h'.kept k (fun hc => hn ⟨Or.inr hc.1, hc.2⟩), h.kept k (fun hc => hn ⟨Or.inl hc.1, hc.2⟩)]
  range := h'.range.trans h.range

theorem congr {dst' : Image} {q r : ℕ → Prop} (h : Shared src dst dst' q)
    (hqr : ∀ k, src.Updated k → (q k ↔ r k)) : Shared src dst dst' r where
  copied k hr hu := h.copied k ((hqr k hu).2 hr) hu
  kept k hn := h.kept k (fun hc => hn ⟨(hqr k hc.2).1 hc.1, hc.2⟩)
  range := h.range

end Shared

theorem shared_shareByte (src dst : Image) (i : ℕ) :
    Shared src dst (shareByte src dst i) (fun k => k = i) := by
  unfold shareByte
  split_ifs with hi
  · refine ⟨fun k hk _ => ?_, fun k hn => ?_, rfl⟩
    · subst k
      rw [cell_set, Function.update_self]
    · rw [cell_set, Function.update_of_ne]
      rintro rfl
      exact hn ⟨rfl, hi⟩
  · exact .refl (fun k hk => by subst k; exact hi)

theorem shared_foldl_shareByte (src dst : Image) (is : List ℕ) :
    Shared src dst (is.foldl (shareByte src) dst) (fun k => k ∈ is) := by
  induction is generalizing dst with
  | nil => exact .refl (fun k hk => by cases hk)
  | cons i is ih =>
      rw [List.foldl_cons]
      exact ((shared_shareByte src dst i).trans (ih _)).congr
        (fun k _ => List.mem_cons.symm)

/-- A loop over words, which passes over words without an update. -/
theorem shared_foldl_words (src dst : Image) (ws : List ℕ) :
    Shared src dst (ws.foldl (fun dst i =>
      if load bytesPerWord src.priv i = load bytesPerWord src.shadow i then dst
      else ((List.range bytesPerWord).map (fun j => i + j)).foldl (shareByte src) dst) dst)
      (fun k => ∃ i ∈ ws, i ≤ k ∧ k < i + bytesPerWord) := by
  induction ws generalizing dst with
  | nil => exact .refl (fun k hk => by simp at hk)
  | cons i ws ih =>
      rw [List.foldl_cons]
      have hword : Shared src dst (if load bytesPerWord src.priv i = load bytesPerWord src.shadow i
          then dst else ((List.range bytesPerWord).map (fun j => i + j)).foldl (shareByte src) dst)
          (fun k => i ≤ k ∧ k < i + bytesPerWord) := by
        split_ifs with hload
        · refine .refl (fun k hk hu => hu ?_)
          obtain ⟨j, rfl⟩ := Nat.exists_eq_add_of_le hk.1
          have hj : j < bytesPerWord := by omega
          rw [← byteOf_load hj src.shadow i, ← byteOf_load hj src.priv i, hload]
        · refine (shared_foldl_shareByte src dst _).congr (fun k _ => ?_)
          simp only [List.mem_map, List.mem_range]
          constructor
          · rintro ⟨j, hj, rfl⟩
            omega
          · rintro ⟨hle, hlt⟩
            exact ⟨k - i, by omega, by omega⟩
      refine (hword.trans (ih _)).congr (fun k _ => ?_)
      simp only [List.mem_cons, exists_eq_or_imp]

theorem shared_distillWorker (hr : src.range.Within size.val) (dst : Image) :
    Shared src dst { distillWorkerShareprivateIntoPartial size.val src dst with range := dst.range }
      src.range.CoversWord ∧
    (distillWorkerShareprivateIntoPartial size.val src dst).range = dst.range.widen src.range := by
  have hwords : ∀ k, (∃ i ∈ src.words, i ≤ k ∧ k < i + bytesPerWord) ↔ src.range.CoversWord k := by
    intro k
    simp only [mem_words hr]
    simp only [ShadowRange.CoversWord, roundDown, roundUp, bytesPerWord]
    constructor
    · rintro ⟨i, ⟨hi, hlo, hup⟩, hle, hlt⟩
      omega
    · rintro ⟨hlo, hup⟩
      exact ⟨k - k % 8, ⟨by omega, by omega, by omega⟩, by omega, by omega⟩
  unfold distillWorkerShareprivateIntoPartial
  split_ifs with hz
  · have hfold := shared_foldl_words src dst src.words
    refine ⟨⟨fun k hq => hfold.copied k ((hwords k).2 hq), fun k hn => hfold.kept k ?_, rfl⟩, ?_⟩
    · exact fun hc => hn ⟨(hwords k).1 hc.1, hc.2⟩
    · dsimp only
      rw [hfold.range]
  · refine ⟨.refl (fun k hk _ => ?_), rfl⟩
    have hlt := hk.lt_size hr size.aligned
    have hsize := size.lt
    simp only [unsigned] at hz
    omega

theorem shared_distillCommitted (hr : src.range.Within size.val) (dst : Image) :
    Shared src dst
      { distillCommittedShareprivateIntoPartial size.val src dst with range := dst.range }
      src.range.Covers ∧
    (distillCommittedShareprivateIntoPartial size.val src dst).range =
      dst.range.widen src.range := by
  unfold distillCommittedShareprivateIntoPartial
  split_ifs with hz
  · have hfold := shared_foldl_shareByte src dst src.bytes
    refine ⟨⟨fun k hq => hfold.copied k ((mem_bytes hr).2 hq), fun k hn => hfold.kept k ?_, rfl⟩, ?_⟩
    · exact fun hc => hn ⟨(mem_bytes hr).1 hc.1, hc.2⟩
    · dsimp only
      rw [hfold.range]
  · refine ⟨.refl (fun k hk => ?_), rfl⟩
    have hmem := (mem_bytes hr).2 hk
    rw [bytes_eq_nil hr hz] at hmem
    cases hmem

theorem distillCommittedShareprivateIntoMain_apply (hr : src.range.Within size.val) (main : Heap) :
    distillCommittedShareprivateIntoMain size.val src main k =
      if src.range.Covers k ∧ src.Updated k then src.priv k else main k := by
  have hloop : distillCommittedShareprivateIntoMain size.val src main =
      src.bytes.foldl (fun dst i =>
        if src.priv i ≠ src.shadow i then Function.update dst i (src.priv i) else dst) main := by
    rw [distillCommittedShareprivateIntoMain]
    split_ifs with hz
    · rfl
    · rw [bytes_eq_nil hr hz]
      rfl
  rw [hloop, foldl_update_if]
  simp only [mem_bytes hr, Updated, ne_comm]

end Image
end Cpf.Executive
