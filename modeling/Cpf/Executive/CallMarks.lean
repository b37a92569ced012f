import Cpf.Executive.Marks

/-!
# The marks left by each kind of call

The word-wise and byte-wise loops of `private.c` are put together to what one read or one write
does to the marks of the bytes it names.
-/

namespace Cpf.Executive
open Heap

namespace Worker

theorem readByteOf_eq {code8 : UInt8} {name : String} {n ptr i : ℕ} {s bs : Heap} (hi : i < n)
    (hb : bs (ptr + i) = s (ptr + i)) :
    readByteOf code8 name (load n s ptr) ptr bs i = readByte code8 name bs (ptr + i) := by
  rw [readByteOf, readByte, byteOf_load hi, hb]

/-- The byte-wise end of a sized read looks at the word as it was, which is what it finds in the
heap. -/
theorem foldlM_readByteOf {code8 : UInt8} {name : String} {n ptr : ℕ} {s : Heap} {is : List ℕ}
    (hnd : is.Nodup) (hlt : ∀ i ∈ is, i < n) {bs : Heap}
    (hb : ∀ i ∈ is, bs (ptr + i) = s (ptr + i)) :
    is.foldlM (readByteOf code8 name (load n s ptr) ptr) bs =
      (is.map (fun i => ptr + i)).foldlM (readByte code8 name) bs := by
  induction is generalizing bs with
  | nil => rfl
  | cons i is ih =>
      obtain ⟨hi, hnd'⟩ := List.nodup_cons.1 hnd
      rw [List.map_cons, List.foldlM_cons, List.foldlM_cons,
        readByteOf_eq (hlt i List.mem_cons_self) (hb i List.mem_cons_self)]
      cases hstep : readByte code8 name bs (ptr + i) with
      | error e => rfl
      | ok bs' =>
          obtain ⟨a, _, hv⟩ := (readByte_local code8 name).step_ok hstep
          refine ih hnd' (fun j hj => hlt j (List.mem_cons_of_mem i hj)) (fun j hj => ?_)
          have hji : ptr + j ≠ ptr + i := fun he => hi (Nat.add_left_cancel he ▸ hj)
          rw [show bs' = Function.update bs (ptr + i) a from hv, Function.update_of_ne hji]
          exact hb j (List.mem_cons_of_mem i hj)

theorem readMixed_eq (n ptr : ℕ) (name : String) (w : Worker) :
    readMixed n ptr name w =
      ((forRange ptr (ptr + n) 1).foldlM (readByte w.code8 name) w.shadow).map
        (fun s => { w with shadow := s }) := by
  have hr : forRange ptr (ptr + n) 1 = (List.range n).map (fun i => ptr + i) := by
    rw [forRange, List.range_eq_range', List.map_add_range']
    congr 1
    omega
  rw [readMixed, hr, foldlM_readByteOf List.nodup_range (fun i hi => List.mem_range.1 hi)
    (fun _ _ => rfl)]
  cases ((List.range n).map (fun i => ptr + i)).foldlM (readByte w.code8 name) w.shadow with
  | error e => rfl
  | ok s => rfl

theorem readMixed_ok {n ptr : ℕ} {name : String} {w w' : Worker}
    (h : readMixed n ptr name w = .ok w') :
    ∃ s, w' = { w with shadow := s } ∧
      ReadsAs w.code8 (fun k => ptr ≤ k ∧ k < ptr + n) (fun k => ptr ≤ k ∧ k < ptr + n) w.shadow s
      := by
  rw [readMixed_eq] at h
  cases hs : (forRange ptr (ptr + n) 1).foldlM (readByte w.code8 name) w.shadow with
  | error e =>
      rw [hs] at h
      cases h
  | ok s =>
      rw [hs] at h
      cases h
      exact ⟨s, rfl, readsAs_bytes hs⟩

/-- The internal range read covers its range and may mark live-in bytes of the words at its
ends. -/
theorem privateReadRangeInternal_ok {start stop : ℕ} {name : String} {w w' : Worker}
    (hle : start ≤ stop) (h : privateReadRangeInternal start stop name w = .ok w') :
    ∃ s, w' = { w with shadow := s } ∧
      ReadsAs w.code8 (fun k => start ≤ k ∧ k < stop)
        (fun k => roundDown start bytesPerWord ≤ k ∧ k < roundUp stop bytesPerWord) w.shadow s := by
  obtain ⟨s₁, hs₁, h⟩ := bind_eq_ok.1 h
  obtain ⟨s₂, hs₂, h⟩ := bind_eq_ok.1 h
  obtain ⟨s₃, hs₃, h⟩ := bind_eq_ok.1 h
  cases h
  have hr₁ := readsAs_bytes hs₁
  have hr₃ := readsAs_bytes hs₃
  have hr₂ := ReadsAs.foldlM (fun i _ s s' hw =>
    readsAs_word V64_eq_splat (by rwa [code64_eq] at hw)) hs₂
  refine ⟨s₃, rfl, ((hr₁.trans hr₂).trans hr₃).mono ?_ ?_⟩
  · intro k hk
    by_cases hlo : k < roundUp start 8
    · exact Or.inl (Or.inl ⟨hk.1, hlo⟩)
    · by_cases hhi : k < roundDown stop 8
      · refine Or.inl (Or.inr ⟨roundDown k 8, ?_⟩)
        rw [mem_forRange (by omega)]
        simp only [roundUp, roundDown] at hlo hhi hk ⊢
        exact ⟨⟨(k - k % 8 - (start + 7 - (start + 7) % 8)) / 8, by omega, by omega⟩, by omega⟩
      · exact Or.inr ⟨by omega, hk.2⟩
  · rintro k ((hk | ⟨i, hi, hk⟩) | hk)
    · simp only [roundUp, roundDown, bytesPerWord] at hk ⊢
      omega
    · rw [mem_forRange (by omega)] at hi
      obtain ⟨m, rfl, hm⟩ := hi
      simp only [roundUp, roundDown, bytesPerWord] at hk hm ⊢
      omega
    · simp only [roundUp, roundDown, bytesPerWord] at hk ⊢
      omega

theorem readMark_code {code : UInt8} (hc : code ≠ liveIn) : readMark code code = some code := by
  simp [readMark, hc]

theorem privateRead2b_reads {ptr : ℕ} {name : String} {w w' : Worker} (hc : w.code8 ≠ liveIn)
    (h : privateRead2b ptr name w = .ok w') :
    ReadsAs w.code8 (fun k => ptr ≤ k ∧ k < ptr + 2) (fun k => ptr ≤ k ∧ k < ptr + 2)
      w.shadow w'.shadow := by
  simp only [privateRead2b, code16_eq, V16_eq_splat, store_splat] at h
  split_ifs at h with hcode hlive hread
  · cases h
    exact readsAs_same hcode (readMark_code hc)
  · cases h
    exact readsAs_memset hlive
  · cases h
    exact readsAs_same hread (readMark_readLiveIn _)
  · obtain ⟨s, rfl, hr⟩ := readMixed_ok h
    exact hr

theorem growWindow_shadow (ptr n : ℕ) (w : Worker) : (growWindow ptr n w).shadow = w.shadow := by
  unfold growWindow
  split_ifs <;> rfl

theorem privateRead4b_reads {ptr : ℕ} {name : String} {w w' : Worker} (hc : w.code8 ≠ liveIn)
    (h : privateRead4b ptr name w = .ok w') :
    ReadsAs w.code8 (fun k => ptr ≤ k ∧ k < ptr + 4) (fun k => ptr ≤ k ∧ k < ptr + 4)
      w.shadow w'.shadow := by
  simp only [privateRead4b, code32_eq, V32_eq_splat, store_splat] at h
  split_ifs at h with hcode hlive hread
  · cases h
    exact readsAs_same hcode (readMark_code hc)
  · cases h
    rw [growWindow_shadow]
    exact readsAs_memset hlive
  · cases h
    exact readsAs_same hread (readMark_readLiveIn _)
  · obtain ⟨s, rfl, hr⟩ := readMixed_ok h
    exact hr

theorem privateRead8b_reads {ptr : ℕ} {name : String} {w w' : Worker} (hc : w.code8 ≠ liveIn)
    (h : privateRead8b ptr name w = .ok w') :
    ReadsAs w.code8 (fun k => ptr ≤ k ∧ k < ptr + 8) (fun k => ptr ≤ k ∧ k < ptr + 8)
      w.shadow w'.shadow := by
  simp only [privateRead8b, code64_eq, V64_eq_splat, store_splat] at h
  split_ifs at h with hlive hsame
  · cases h
    rw [growWindow_shadow]
    exact readsAs_memset hlive
  · cases h
    rcases hsame with hcode | hread
    · exact readsAs_same hcode (readMark_code hc)
    · exact readsAs_same hread (readMark_readLiveIn _)
  · obtain ⟨s, rfl, hr⟩ := readMixed_ok h
    exact hr

theorem fresh_of_memchr {s : Heap} {p len : ℕ} (h : memchr s p readLiveIn len = false) :
    Fresh (fun k => p ≤ k ∧ k < p + len) s := by
  intro k hk hb
  have ht : memchr s p readLiveIn len = true := memchr_eq_true_iff.2 ⟨k, hk.1, hk.2, hb⟩
  rw [h] at ht
  cases ht

theorem writeStrideWord_ok {n : ℕ} {v : UInt8 → ℕ} {code8 : UInt8} {reason : String}
    {s s' : Heap} {p : ℕ} (hv : ∀ b, v b = splat n b)
    (h : writeStrideWord n (splat n code8) v reason s p = .ok s') :
    Overwrites code8 (fun k => p ≤ k ∧ k < p + n) s s' ∧
      Fresh (fun k => p ≤ k ∧ k < p + n) s := by
  simp only [writeStrideWord, hv, store_splat] at h
  split_ifs at h with hbad
  cases h
  refine ⟨Overwrites.memset s p n code8, ?_⟩
  intro k hk hb
  have hi : k - p < n := by omega
  have hbyte : byteOf (load n s p) (k - p) = readLiveIn := by
    rw [byteOf_load hi, Nat.add_sub_cancel' hk.1, hb]
  refine hbad ⟨fun hl => ?_, List.any_eq_true.2 ⟨k - p, List.mem_range.2 hi, by simpa using hbyte⟩⟩
  have hzero := load_eq_splat_iff.1 hl (k - p) hi
  rw [Nat.add_sub_cancel' hk.1, hb] at hzero
  exact absurd hzero (by decide)

theorem writeStrideBytes_ok {len : ℕ} {code8 : UInt8} {s s' : Heap} {p : ℕ}
    (h : writeStrideBytes len code8 s p = .ok s') :
    Overwrites code8 (fun k => p ≤ k ∧ k < p + len) s s' ∧
      Fresh (fun k => p ≤ k ∧ k < p + len) s := by
  unfold writeStrideBytes at h
  split_ifs at h with hbad
  cases h
  exact ⟨Overwrites.memset s p len code8, fresh_of_memchr (by simpa using hbad)⟩

/-- What a loop over strides visits is what the strided access touches. -/
theorem exists_mem_strides {base n width len k : ℕ} :
    (∃ p ∈ strides base n width, p ≤ k ∧ k < p + len) ↔
      ∃ i < n, base + i * width ≤ k ∧ k < base + i * width + len := by
  simp [strides]

theorem privateWriteRangeStride_ok {base n width len : ℕ} {w w' : Worker}
    (h : privateWriteRangeStride base n width len w = .ok w') :
    Overwrites w.code8 (fun k => ∃ i < n, base + i * width ≤ k ∧ k < base + i * width + len)
        w.shadow w'.shadow ∧
      Fresh (fun k => ∃ i < n, base + i * width ≤ k ∧ k < base + i * width + len) w.shadow := by
  unfold privateWriteRangeStride at h
  split_ifs at h with hn
  · cases h
    subst n
    exact ⟨⟨fun k hk => by simp at hk, fun _ _ => rfl⟩, fun k hk => by simp at hk⟩
  · obtain ⟨s, hs, h⟩ := bind_eq_ok.1 h
    cases h
    have hloop : Overwrites w.code8 (fun k => ∃ p ∈ strides base n width, p ≤ k ∧ k < p + len)
        w.shadow s ∧ Fresh (fun k => ∃ p ∈ strides base n width, p ≤ k ∧ k < p + len) w.shadow := by
      split at hs
      · exact Overwrites.foldlM (fun p _ t t' ht =>
          writeStrideWord_ok V32_eq_splat (by rwa [code32_eq] at ht)) hs
      · exact Overwrites.foldlM (fun p _ t t' ht =>
          writeStrideWord_ok V64_eq_splat (by rwa [code64_eq] at ht)) hs
      · exact Overwrites.foldlM (fun p _ t t' ht => writeStrideBytes_ok ht) hs
    exact ⟨hloop.1.congr (fun k => exists_mem_strides),
      fun k hk => hloop.2 k (exists_mem_strides.2 hk)⟩

theorem privateReadRangeStride_ok {base n width len : ℕ} {message : String} {w w' : Worker}
    (h : privateReadRangeStride base n width len message w = .ok w') :
    ∃ s, w' = { w with
      shadow := s
      range := if n = 0 then w.range else w.range.update base ((n - 1) * width + len) } := by
  obtain ⟨s, _, h⟩ := bind_eq_ok.1 h
  cases h
  refine ⟨s, ?_⟩
  split_ifs <;> rfl

theorem privateReadRangeStride_reads {base n width len : ℕ} {message : String} {w w' : Worker}
    (h16 : len ≠ 16) (h : privateReadRangeStride base n width len message w = .ok w') :
    ReadsAs w.code8 (fun k => ∃ i < n, base + i * width ≤ k ∧ k < base + i * width + len)
      (fun k => ∃ i < n, roundDown (base + i * width) bytesPerWord ≤ k ∧
        k < roundUp (base + i * width + len) bytesPerWord) w.shadow w'.shadow := by
  obtain ⟨s, hs, h⟩ := bind_eq_ok.1 h
  cases h
  have hcode : (if n = 0 then w else touch base ((n - 1) * width + len) w).code8 = w.code8 := by
    split_ifs <;> rfl
  have hshadow : (if n = 0 then w else touch base ((n - 1) * width + len) w).shadow = w.shadow := by
    split_ifs <;> rfl
  have hword : ∀ m k, (∃ p ∈ strides base n width, p ≤ k ∧ k < p + m) →
      ∃ p ∈ strides base n width, roundDown p bytesPerWord ≤ k ∧ k < roundUp (p + m) bytesPerWord := by
    rintro m k ⟨p, hp, hk⟩
    refine ⟨p, hp, ?_⟩
    simp only [roundDown, roundUp, bytesPerWord]
    omega
  have hloop : ReadsAs w.code8 (fun k => ∃ p ∈ strides base n width, p ≤ k ∧ k < p + len)
      (fun k => ∃ p ∈ strides base n width, roundDown p bytesPerWord ≤ k ∧
        k < roundUp (p + len) bytesPerWord) w.shadow s := by
    rw [hshadow] at hs
    split at hs
    · exact (ReadsAs.foldlM (fun p _ t t' ht => readsAs_word V32_eq_splat
        (by rwa [code32_eq, hcode] at ht)) hs).mono (fun _ hk => hk)
          (hword _)
    · exact (ReadsAs.foldlM (fun p _ t t' ht => readsAs_word V64_eq_splat
        (by rwa [code64_eq, hcode] at ht)) hs).mono (fun _ hk => hk)
          (hword _)
    · exact absurd rfl h16
    · refine ReadsAs.foldlM (fun p _ t t' ht => ?_) hs
      cases hw : privateReadRangeInternal p (p + len) message
          { (if n = 0 then w else touch base ((n - 1) * width + len) w) with shadow := t } with
      | error e =>
          rw [hw] at ht
          cases ht
      | ok v =>
          rw [hw] at ht
          cases ht
          obtain ⟨u, rfl, hr⟩ := privateReadRangeInternal_ok (Nat.le_add_right p len) hw
          rwa [← hcode]
  refine hloop.mono (fun k hk => exists_mem_strides.2 hk) ?_
  rintro k ⟨p, hp, hk⟩
  obtain ⟨i, hi, rfl⟩ := List.mem_map.1 hp
  exact ⟨i, List.mem_range.1 hi, hk⟩

end Worker

end Cpf.Executive
