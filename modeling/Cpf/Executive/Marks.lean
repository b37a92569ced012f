import Cpf.Executive.Private

/-!
# What a private access does to the shadow, byte by byte

A read moves every byte it covers through `readMark`, and may mark live-in neighbours in the words
at its ends as well; a write sets exactly the bytes it covers to the code of the iteration. Except
for the window of the four- and eight-byte writes, a write that returns has seen no byte marked
`readLiveIn`.
-/

namespace Cpf.Executive
open Heap

def readMark (code b : UInt8) : Option UInt8 :=
  if b = liveIn then some readLiveIn
  else if b ≠ code ∧ b ≠ readLiveIn then none
  else some b

theorem readMark_liveIn (code : UInt8) : readMark code liveIn = some readLiveIn := if_pos rfl

theorem readMark_readLiveIn (code : UInt8) : readMark code readLiveIn = some readLiveIn := by
  simp [readMark, liveIn, readLiveIn]

theorem readMark_eq_some {code b c : UInt8} (h : readMark code b = some c) :
    b = liveIn ∧ c = readLiveIn ∨ b ≠ liveIn ∧ (b = code ∨ b = readLiveIn) ∧ c = b := by
  unfold readMark at h
  split_ifs at h with hl hn
  · exact Or.inl ⟨hl, (Option.some.inj h).symm⟩
  · exact Or.inr ⟨hl, by tauto, (Option.some.inj h).symm⟩

theorem readMark_idem {code b c : UInt8} (h : readMark code b = some c) :
    readMark code c = some c := by
  rcases readMark_eq_some h with ⟨_, rfl⟩ | ⟨hl, _, rfl⟩
  · exact readMark_readLiveIn code
  · exact h

/-- Every byte of `S` was read; other bytes changed by being marked as read, and only in `R`. -/
structure ReadsAs (code : UInt8) (S R : ℕ → Prop) (h h' : Heap) : Prop where
  marks : ∀ k, S k → readMark code (h k) = some (h' k)
  frame : ∀ k, h' k = h k ∨ R k ∧ readMark code (h k) = some (h' k)

namespace ReadsAs

variable {code : UInt8} {S R S₁ R₁ S₂ R₂ : ℕ → Prop} {h h₁ h₂ : Heap}

theorem refl (code : UInt8) (h : Heap) : ReadsAs code (fun _ => False) (fun _ => False) h h :=
  ⟨fun _ hk => hk.elim, fun _ => Or.inl rfl⟩

theorem mono (hr : ReadsAs code S₁ R₁ h h₁) (hS : ∀ k, S₂ k → S₁ k) (hR : ∀ k, R₁ k → R₂ k) :
    ReadsAs code S₂ R₂ h h₁ :=
  ⟨fun k hk => hr.marks k (hS k hk), fun k => (hr.frame k).imp_right (fun hf => ⟨hR k hf.1, hf.2⟩)⟩

theorem trans (hr₁ : ReadsAs code S₁ R₁ h h₁) (hr₂ : ReadsAs code S₂ R₂ h₁ h₂) :
    ReadsAs code (fun k => S₁ k ∨ S₂ k) (fun k => R₁ k ∨ R₂ k) h h₂ := by
  have hkeep : ∀ k, readMark code (h k) = some (h₁ k) → h₂ k = h₁ k := by
    intro k hk
    rcases hr₂.frame k with he | ⟨_, hm⟩
    · exact he
    · rw [readMark_idem hk] at hm
      exact (Option.some.inj hm).symm
  refine ⟨?_, ?_⟩
  · rintro k (hk | hk)
    · have hm := hr₁.marks k hk
      rw [hkeep k hm, hm]
    · rcases hr₁.frame k with he | ⟨_, hm⟩
      · rw [← he]
        exact hr₂.marks k hk
      · rw [hkeep k hm, hm]
  · intro k
    rcases hr₁.frame k with he | ⟨hR, hm⟩
    · rcases hr₂.frame k with he₂ | ⟨hR₂, hm₂⟩
      · exact Or.inl (he₂.trans he)
      · rw [he] at hm₂
        exact Or.inr ⟨Or.inr hR₂, hm₂⟩
    · exact Or.inr ⟨Or.inl hR, by rw [hkeep k hm, hm]⟩

/-- A loop of reads is a read of everything its rounds read. -/
theorem foldlM {ι : Type*} {f : Heap → ι → Except String Heap} {S R : ι → ℕ → Prop} {is : List ι}
    (hf : ∀ i ∈ is, ∀ s s', f s i = .ok s' → ReadsAs code (S i) (R i) s s')
    {s s' : Heap} (hs : is.foldlM f s = .ok s') :
    ReadsAs code (fun k => ∃ i ∈ is, S i k) (fun k => ∃ i ∈ is, R i k) s s' := by
  induction is generalizing s with
  | nil =>
      cases hs
      exact (refl code _).mono (by simp) (by simp)
  | cons i is ih =>
      obtain ⟨t, ht, hrest⟩ := foldlM_cons_eq_ok.1 hs
      have h₁ := hf i List.mem_cons_self s t ht
      have h₂ := ih (fun j hj => hf j (List.mem_cons_of_mem i hj)) hrest
      exact (h₁.trans h₂).mono (by simp) (by simp)

end ReadsAs

structure Overwrites (code : UInt8) (S : ℕ → Prop) (h h' : Heap) : Prop where
  marks : ∀ k, S k → h' k = code
  frame : ∀ k, ¬ S k → h' k = h k

def Fresh (S : ℕ → Prop) (h : Heap) : Prop := ∀ k, S k → h k ≠ readLiveIn

namespace Overwrites

variable {code : UInt8} {S S₁ S₂ : ℕ → Prop} {h h₁ h₂ : Heap}

theorem memset (h : Heap) (p len : ℕ) (code : UInt8) :
    Overwrites code (fun k => p ≤ k ∧ k < p + len) h (memset h p code len) :=
  ⟨fun _ hk => memset_apply_of_mem hk.1 hk.2, fun _ hk => memset_apply_of_not_mem hk⟩

theorem congr (ho : Overwrites code S₁ h h₁) (hS : ∀ k, S₁ k ↔ S₂ k) : Overwrites code S₂ h h₁ :=
  ⟨fun k hk => ho.marks k ((hS k).2 hk), fun k hk => ho.frame k (fun hc => hk ((hS k).1 hc))⟩

theorem trans (ho₁ : Overwrites code S₁ h h₁) (ho₂ : Overwrites code S₂ h₁ h₂) :
    Overwrites code (fun k => S₁ k ∨ S₂ k) h h₂ := by
  refine ⟨?_, ?_⟩
  · intro k hk
    by_cases hk₂ : S₂ k
    · exact ho₂.marks k hk₂
    · rw [ho₂.frame k hk₂]
      exact ho₁.marks k (hk.resolve_right hk₂)
  · intro k hk
    obtain ⟨hk₁, hk₂⟩ := not_or.1 hk
    rw [ho₂.frame k hk₂, ho₁.frame k hk₁]

theorem fresh_trans (ho₁ : Overwrites code S₁ h h₁) (hf₁ : Fresh S₁ h) (hf₂ : Fresh S₂ h₁) :
    Fresh (fun k => S₁ k ∨ S₂ k) h := by
  intro k hk
  by_cases hk₁ : S₁ k
  · exact hf₁ k hk₁
  · rw [← ho₁.frame k hk₁]
    exact hf₂ k (hk.resolve_left hk₁)

/-- A loop of writes is a write of everything its rounds write. -/
theorem foldlM {ι : Type*} {f : Heap → ι → Except String Heap} {S : ι → ℕ → Prop} {is : List ι}
    (hf : ∀ i ∈ is, ∀ s s', f s i = .ok s' → Overwrites code (S i) s s' ∧ Fresh (S i) s)
    {s s' : Heap} (hs : is.foldlM f s = .ok s') :
    Overwrites code (fun k => ∃ i ∈ is, S i k) s s' ∧ Fresh (fun k => ∃ i ∈ is, S i k) s := by
  induction is generalizing s with
  | nil =>
      cases hs
      exact ⟨⟨by simp, fun _ _ => rfl⟩, by simp [Fresh]⟩
  | cons i is ih =>
      obtain ⟨t, ht, hrest⟩ := foldlM_cons_eq_ok.1 hs
      obtain ⟨ho₁, hf₁⟩ := hf i List.mem_cons_self s t ht
      obtain ⟨ho₂, hf₂⟩ := ih (fun j hj => hf j (List.mem_cons_of_mem i hj)) hrest
      refine ⟨(ho₁.trans ho₂).congr (by simp), ?_⟩
      intro k hk
      exact fresh_trans ho₁ hf₁ hf₂ k (by simpa using hk)

end Overwrites

namespace Worker

theorem code16_eq (w : Worker) : w.code16 = splat 2 w.code8 := by
  rw [code16, Nat.or_comm]
  exact V16_eq_splat w.code8

theorem code32_eq (w : Worker) : w.code32 = splat 4 w.code8 := by
  rw [code32, Nat.or_comm, code16, Nat.or_comm w.code8.toNat]
  exact V32_eq_splat w.code8

theorem code64_eq (w : Worker) : w.code64 = splat 8 w.code8 := by
  rw [code64, Nat.or_comm, code32, Nat.or_comm w.code16, code16, Nat.or_comm w.code8.toNat]
  exact V64_eq_splat w.code8

theorem readByte_local (code8 : UInt8) (name : String) :
    LocalBody (fun h : Heap => h) (fun _ => readMark code8) (readByte code8 name) where
  ok s k a ha := by
    unfold readByte
    rcases readMark_eq_some ha with ⟨hl, rfl⟩ | ⟨hl, hc, rfl⟩
    · exact ⟨_, if_pos hl, rfl⟩
    · refine ⟨s, ?_, (Function.update_eq_self k s).symm⟩
      rw [if_neg hl, if_neg (by tauto)]
  error s k hk := by
    refine ⟨name, ?_⟩
    unfold readMark at hk
    unfold readByte
    split_ifs at hk with hl hn
    rw [if_neg hl, if_pos hn]

theorem readsAs_bytes {code8 : UInt8} {name : String} {lo hi : ℕ} {s s' : Heap}
    (hs : (forRange lo hi 1).foldlM (readByte code8 name) s = .ok s') :
    ReadsAs code8 (fun k => lo ≤ k ∧ k < hi) (fun k => lo ≤ k ∧ k < hi) s s' := by
  obtain ⟨hin, hout⟩ := (readByte_local code8 name).foldlM_ok (nodup_forRange Nat.one_pos) hs
  refine ⟨fun k hk => hin k (mem_forRange_one.2 hk), fun k => ?_⟩
  by_cases hk : lo ≤ k ∧ k < hi
  · exact Or.inr ⟨hk, hin k (mem_forRange_one.2 hk)⟩
  · exact Or.inl (hout k (fun hm => hk (mem_forRange_one.1 hm)))

theorem readsAs_memset {code8 : UInt8} {n p : ℕ} {s : Heap}
    (hl : load n s p = splat n liveIn) :
    ReadsAs code8 (fun k => p ≤ k ∧ k < p + n) (fun k => p ≤ k ∧ k < p + n) s
      (memset s p readLiveIn n) := by
  have hin : ∀ k, p ≤ k ∧ k < p + n →
      readMark code8 (s k) = some (memset s p readLiveIn n k) := by
    intro k hk
    have hb := load_eq_splat_iff.1 hl (k - p) (by omega)
    rw [Nat.add_sub_cancel' hk.1] at hb
    rw [memset_apply_of_mem hk.1 hk.2, hb, readMark_liveIn]
  refine ⟨hin, fun k => ?_⟩
  by_cases hk : p ≤ k ∧ k < p + n
  · exact Or.inr ⟨hk, hin k hk⟩
  · exact Or.inl (memset_apply_of_not_mem hk)

theorem readsAs_same {code8 b : UInt8} {n p : ℕ} {s : Heap} (hl : load n s p = splat n b)
    (hb : readMark code8 b = some b) :
    ReadsAs code8 (fun k => p ≤ k ∧ k < p + n) (fun k => p ≤ k ∧ k < p + n) s s := by
  refine ⟨fun k hk => ?_, fun _ => Or.inl rfl⟩
  have hk' := load_eq_splat_iff.1 hl (k - p) (by omega)
  rw [Nat.add_sub_cancel' hk.1] at hk'
  rw [hk', hb]

theorem readsAs_word {n : ℕ} {v : UInt8 → ℕ} {code8 : UInt8} {name : String} {s s' : Heap} {p : ℕ}
    (hv : ∀ b, v b = splat n b) (hs : readWord n (splat n code8) v name s p = .ok s') :
    ReadsAs code8 (fun k => p ≤ k ∧ k < p + n) (fun k => p ≤ k ∧ k < p + n) s s' := by
  simp only [readWord, hv] at hs
  split_ifs at hs with hl hn
  · cases hs
    rw [store_splat]
    exact readsAs_memset hl
  · cases hs
    by_cases hc : load n s p = splat n code8
    · by_cases h0 : code8 = liveIn
      · exact absurd (h0 ▸ hc) hl
      · exact readsAs_same hc (by simp [readMark, h0])
    · have hr : load n s p = splat n readLiveIn := by tauto
      exact readsAs_same hr (readMark_readLiveIn code8)

end Worker
end Cpf.Executive
