import Cpf.Executive.ReadUnits

/-!
# Range reads and the byte automaton

`__specpriv_private_read_range` reads single bytes up to the first word boundary, then whole words,
and then single bytes again. It does what reading its bytes one after another does as long as a
word boundary lies in the range or at its end and every whole word has one mark.
-/

namespace Cpf.Executive
open Heap

namespace Worker

variable {w : Worker} {start stop : ℕ} {name : String}

/-- What `__specpriv_private_read_range_internal` compares at once. -/
def rangeUnits (start stop : ℕ) : List ReadUnit :=
  (forRange start (roundUp start 8) 1).map (fun k => ⟨k, 1⟩) ++
    ((forRange (roundUp start 8) (roundDown stop 8) 8).map (fun k => ⟨k, 8⟩) ++
      (forRange (roundDown stop 8) stop 1).map (fun k => ⟨k, 1⟩))

theorem shadowAfter_privateReadRangeInternal (start stop : ℕ) (name : String) (w : Worker) :
    shadowAfter (privateReadRangeInternal start stop name w) =
      (rangeUnits start stop).foldlM (readUnit w.code8) w.shadow := by
  have hbytes : ∀ lo hi s, ((forRange lo hi 1).foldlM (readByte w.code8 name) s).toOption =
      ((forRange lo hi 1).map (fun k => (⟨k, 1⟩ : ReadUnit))).foldlM (readUnit w.code8) s :=
    fun lo hi s => toOption_map_units (fun _ i => toOption_readByte_eq name i) _ s
  have hwords : ∀ lo hi s, ((forRange lo hi 8).foldlM (readWord 8 w.code64 V64 name) s).toOption =
      ((forRange lo hi 8).map (fun k => (⟨k, 8⟩ : ReadUnit))).foldlM (readUnit w.code8) s := by
    intro lo hi s
    have hword : ∀ s p, (readWord 8 w.code64 V64 name s p).toOption =
        readUnit w.code8 s ⟨p, 8⟩ := by
      intro s p
      rw [code64_eq]
      exact toOption_readWord V64_eq_splat name
    exact toOption_map_units hword _ s
  rw [rangeUnits, List.foldlM_append, ← hbytes, privateReadRangeInternal]
  cases (forRange start (roundUp start 8) 1).foldlM (readByte w.code8 name) w.shadow with
  | error e => rfl
  | ok s =>
      change _ = List.foldlM (readUnit w.code8) s _
      rw [List.foldlM_append, ← hwords]
      change shadowAfter ((forRange (roundUp start 8) (roundDown stop 8) 8).foldlM
        (readWord 8 w.code64 V64 name) s >>= _) = _
      cases (forRange (roundUp start 8) (roundDown stop 8) 8).foldlM
          (readWord 8 w.code64 V64 name) s with
      | error e => rfl
      | ok s =>
          change _ = List.foldlM (readUnit w.code8) s _
          rw [← hbytes]
          change shadowAfter ((forRange (roundDown stop 8) stop 1).foldlM
            (readByte w.code8 name) s >>= _) = _
          cases (forRange (roundDown stop 8) stop 1).foldlM (readByte w.code8 name) s <;> rfl

theorem mem_unitBytes_map {is : List ℕ} {n k : ℕ} :
    k ∈ unitBytes (is.map (fun p => (⟨p, n⟩ : ReadUnit))) ↔ ∃ p ∈ is, p ≤ k ∧ k < p + n := by
  simp [mem_unitBytes, ReadUnit.mem_bytes]

theorem mem_words {start stop k : ℕ} :
    (∃ p ∈ forRange (roundUp start 8) (roundDown stop 8) 8, p ≤ k ∧ k < p + 8) ↔
      roundUp start 8 ≤ k ∧ k < roundDown stop 8 := by
  constructor
  · rintro ⟨p, hp, hle, hlt⟩
    obtain ⟨i, rfl, hi⟩ := (mem_forRange (by omega)).1 hp
    simp only [roundUp, roundDown] at hle hlt hi ⊢
    omega
  · rintro ⟨hle, hlt⟩
    refine ⟨roundDown k 8, (mem_forRange (by omega)).2 ⟨(roundDown k 8 - roundUp start 8) / 8, ?_⟩, ?_⟩
    · simp only [roundUp, roundDown] at hle hlt ⊢
      omega
    · simp only [roundDown]
      omega

theorem mem_rangeUnits {k : ℕ} : k ∈ unitBytes (rangeUnits start stop) ↔
    (start ≤ k ∧ k < roundUp start 8) ∨ (roundUp start 8 ≤ k ∧ k < roundDown stop 8) ∨
      roundDown stop 8 ≤ k ∧ k < stop := by
  rw [rangeUnits, unitBytes_append, unitBytes_append, List.mem_append, List.mem_append,
    mem_unitBytes_map, mem_unitBytes_map, mem_unitBytes_map, mem_words]
  have hsingle : ∀ lo hi, (∃ p ∈ forRange lo hi 1, p ≤ k ∧ k < p + 1) ↔ lo ≤ k ∧ k < hi := by
    intro lo hi
    constructor
    · rintro ⟨p, hp, hle, hlt⟩
      rw [show k = p by omega]
      exact mem_forRange_one.1 hp
    · exact fun hk => ⟨k, mem_forRange_one.2 hk, le_rfl, Nat.lt_succ_self k⟩
  rw [hsingle, hsingle]

theorem mem_rangeUnits_of_mem {k : ℕ} (hle : start ≤ k) (hlt : k < stop) :
    k ∈ unitBytes (rangeUnits start stop) := by
  rw [mem_rangeUnits]
  omega

/-- The units stay inside the range if a word boundary is in it or at its end. -/
theorem mem_rangeUnits_iff (h : roundUp start 8 ≤ stop) {k : ℕ} :
    k ∈ unitBytes (rangeUnits start stop) ↔ start ≤ k ∧ k < stop := by
  rw [mem_rangeUnits]
  simp only [roundUp, roundDown] at h ⊢
  omega

theorem pairwise_map_units (lo hi : ℕ) {n : ℕ} (hn : 0 < n) :
    ((forRange lo hi n).map (fun k => (⟨k, n⟩ : ReadUnit))).Pairwise
      (fun u v => u.start + u.len ≤ v.start) := by
  rw [List.pairwise_map]
  refine (List.pairwise_lt_range' n hn).imp_of_mem (fun {p q} hp hq hlt => ?_)
  obtain ⟨i, rfl, _⟩ := (mem_forRange hn).1 hp
  obtain ⟨j, rfl, _⟩ := (mem_forRange hn).1 hq
  have hij : i + 1 ≤ j := by
    by_contra hge
    have hmul : n * j ≤ n * i := Nat.mul_le_mul_left n (by omega)
    omega
  have hmul := Nat.mul_le_mul_left n hij
  rw [Nat.mul_succ] at hmul
  dsimp only
  omega

theorem rangeUnits_pairwise (h : roundUp start 8 ≤ stop) :
    (rangeUnits start stop).Pairwise (fun u v => u.start + u.len ≤ v.start) := by
  have hword : roundUp start 8 ≤ roundDown stop 8 := by
    simp only [roundUp, roundDown] at h ⊢
    omega
  rw [rangeUnits, List.pairwise_append, List.pairwise_append]
  refine ⟨pairwise_map_units _ _ Nat.one_pos, ⟨pairwise_map_units _ _ (by omega),
    pairwise_map_units _ _ Nat.one_pos, fun u hu v hv => ?_⟩, fun u hu v hv => ?_⟩
  · obtain ⟨p, hp, rfl⟩ := List.mem_map.1 hu
    obtain ⟨q, hq, rfl⟩ := List.mem_map.1 hv
    have hle := (mem_forRange_one.1 hq).1
    have hin := (mem_words (k := p + 7)).1 ⟨p, hp, by omega, by omega⟩
    dsimp only
    omega
  · obtain ⟨p, hp, rfl⟩ := List.mem_map.1 hu
    have hlt := (mem_forRange_one.1 hp).2
    rcases List.mem_append.1 hv with hv | hv
    · obtain ⟨q, hq, rfl⟩ := List.mem_map.1 hv
      have hin := (mem_words (k := q)).1 ⟨q, hq, le_rfl, by omega⟩
      dsimp only
      omega
    · obtain ⟨q, hq, rfl⟩ := List.mem_map.1 hv
      have hle := (mem_forRange_one.1 hq).1
      dsimp only
      omega

theorem shadowAfter_privateReadRange (ptr len : ℕ) (name : String) (w : Worker) :
    shadowAfter (privateReadRange ptr len name w) =
      (rangeUnits ptr (ptr + len)).foldlM (readUnit w.code8) w.shadow := by
  rw [← shadowAfter_privateReadRangeInternal ptr (ptr + len) name w, privateReadRange]
  cases privateReadRangeInternal ptr (ptr + len) name w <;> rfl

end Worker

namespace Access

variable {w : Worker} {ptr len : ℕ} {name : String}

/-- Shadows that agree on the bytes of a call lead to the same verdict and the same marks of
them. -/
def LooksOnlyAtTouched (a : Access) (w : Worker) : Prop :=
  ∀ s : Heap, (∀ k, a.Touches k → s k = w.shadow k) →
    ((∃ e, a.call { w with shadow := s } = .error e) ↔ ∃ e, a.call w = .error e) ∧
    ∀ v v', a.call w = .ok v → a.call { w with shadow := s } = .ok v' →
      ∀ k, a.Touches k → v'.shadow k = v.shadow k

/-- The condition under which a range read is the byte automaton: a byte misspeculates, or a word
boundary lies in the range or at its end and every whole word has one mark. -/
def RangeOk (ptr len : ℕ) (w : Worker) : Prop :=
  (∃ k, (ptr ≤ k ∧ k < ptr + len) ∧ Bad w.code8 (w.shadow k)) ∨
    roundUp ptr 8 ≤ ptr + len ∧
      ∀ p ∈ forRange (roundUp ptr 8) (roundDown (ptr + len) 8) 8,
        (⟨p, 8⟩ : ReadUnit).Uniform w.code8 w.shadow

theorem exists_bad (code : UInt8) : ∃ b, Bad code b := by
  by_cases h : code = 2
  · exact ⟨3, by decide, by decide, by rw [h]; decide⟩
  · exact ⟨2, by decide, by decide, fun he => h he.symm⟩

theorem shadowAfter_readRange (ptr len : ℕ) (name : String) (w : Worker) :
    Worker.shadowAfter ((readRange ptr len name).call w) =
      (Worker.rangeUnits ptr (ptr + len)).foldlM (readUnit w.code8) w.shadow :=
  Worker.shadowAfter_privateReadRange ptr len name w

theorem readRange_error_of_bad {k : ℕ}
    (hk : k ∈ unitBytes (Worker.rangeUnits ptr (ptr + len))) (hbad : Bad w.code8 (w.shadow k)) :
    ∃ e, (readRange ptr len name).call w = .error e := by
  rw [exists_error_iff, shadowAfter_readRange]
  by_contra hne
  obtain ⟨h', hh'⟩ := Option.ne_none_iff_exists'.1 hne
  exact (foldlM_readUnit_eq_some.1 hh').1.not_bad hk hbad

theorem touches_readRange {k : ℕ} :
    (readRange ptr len name).Touches k ↔ ptr ≤ k ∧ k < ptr + len := touches_single rfl

theorem readsBytewise_of_aligned (hbound : roundUp ptr 8 ≤ ptr + len)
    (h : (∃ k, (ptr ≤ k ∧ k < ptr + len) ∧ Bad w.code8 (w.shadow k)) ∨
      ∀ p ∈ forRange (roundUp ptr 8) (roundDown (ptr + len) 8) 8,
        (⟨p, 8⟩ : ReadUnit).Uniform w.code8 w.shadow) :
    (readRange ptr len name).ReadsBytewise w := by
  refine readsBytewise_of_shadowAfter ?_
  have hin : ∀ k, k ∈ (readRange ptr len name).bytes ↔
      k ∈ unitBytes (Worker.rangeUnits ptr (ptr + len)) := by
    intro k
    rw [mem_bytes, touches_readRange, Worker.mem_rangeUnits_iff hbound]
  rw [shadowAfter_readRange, foldlM_readUnit_eq_markBytes_iff (fun k hk => (hin k).1 hk)]
  by_cases hbad : ∃ k, (ptr ≤ k ∧ k < ptr + len) ∧ Bad w.code8 (w.shadow k)
  · obtain ⟨k, hk, hb⟩ := hbad
    exact .inl ⟨k, mem_bytes.2 (touches_readRange.2 hk), hb⟩
  · have hwords := h.resolve_left hbad
    refine .inr ⟨(allUniform_iff_of_pairwise (Worker.rangeUnits_pairwise hbound)).2
      (fun u hu => ?_), fun k hk hout => absurd ((hin k).2 hk) hout⟩
    -- A single byte has one mark unless it misspeculates.
    have hsingle : ∀ k, u = ⟨k, 1⟩ → u.Uniform w.code8 w.shadow := by
      rintro k rfl
      have hmem : k ∈ unitBytes (Worker.rangeUnits ptr (ptr + len)) :=
        mem_unitBytes.2 ⟨_, hu, ReadUnit.mem_bytes.2 ⟨le_rfl, Nat.lt_succ_self k⟩⟩
      have hgood : ¬ Bad w.code8 (w.shadow k) :=
        fun hb => hbad ⟨k, (Worker.mem_rangeUnits_iff hbound).1 hmem, hb⟩
      simp only [ReadUnit.Uniform, ReadUnit.bytes, List.range'_one, List.mem_singleton, forall_eq]
      simp only [Bad] at hgood
      tauto
    rcases List.mem_append.1 hu with hu' | hu'
    · obtain ⟨k, _, rfl⟩ := List.mem_map.1 hu'
      exact hsingle k rfl
    · rcases List.mem_append.1 hu' with hu' | hu'
      · obtain ⟨p, hp, rfl⟩ := List.mem_map.1 hu'
        exact hwords p hp
      · obtain ⟨k, _, rfl⟩ := List.mem_map.1 hu'
        exact hsingle k rfl

theorem rangeOk_of_reads (hbytes : (readRange ptr len name).ReadsBytewise w)
    (honly : (readRange ptr len name).LooksOnlyAtTouched w) : RangeOk ptr len w := by
  by_cases hbad : ∃ k, (ptr ≤ k ∧ k < ptr + len) ∧ Bad w.code8 (w.shadow k)
  · exact .inl hbad
  · right
    have hno : ¬ ∃ e, (readRange ptr len name).call w = .error e := by
      rw [hbytes.misspec]
      rintro ⟨k, hk, hb⟩
      exact hbad ⟨k, touches_readRange.1 hk, hb⟩
    have hbound : roundUp ptr 8 ≤ ptr + len := by
      by_contra hlt
      -- The byte behind the range would be read, and could misspeculate.
      obtain ⟨b, hb⟩ := exists_bad w.code8
      refine hno ((honly (Function.update w.shadow (ptr + len) b) (fun k hk => ?_)).1.1 ?_)
      · rw [Function.update_of_ne]
        have hin := (touches_readRange.1 hk).2
        omega
      · refine readRange_error_of_bad (k := ptr + len) ?_ ?_
        · rw [Worker.mem_rangeUnits]
          omega
        · dsimp only
          rwa [Function.update_self]
    refine ⟨hbound, fun p hp => ?_⟩
    rw [exists_error_iff, shadowAfter_readRange] at hno
    obtain ⟨h', hh'⟩ := Option.ne_none_iff_exists'.1 hno
    refine (allUniform_iff_of_pairwise (Worker.rangeUnits_pairwise hbound)).1
      (foldlM_readUnit_eq_some.1 hh').1 _ ?_
    exact List.mem_append_right _ (List.mem_append_left _ (List.mem_map_of_mem hp))

theorem readsBytewise_of_rangeOk (h : RangeOk ptr len w) :
    (readRange ptr len name).ReadsBytewise w ∧ (readRange ptr len name).LooksOnlyAtTouched w := by
  by_cases hbad : ∃ k, (ptr ≤ k ∧ k < ptr + len) ∧ Bad w.code8 (w.shadow k)
  · obtain ⟨k, hk, hb⟩ := hbad
    have herror : ∀ s : Heap, s k = w.shadow k →
        ∃ e, (readRange ptr len name).call { w with shadow := s } = .error e := by
      intro s hs
      refine readRange_error_of_bad (Worker.mem_rangeUnits_of_mem hk.1 hk.2) ?_
      dsimp only
      rwa [hs]
    obtain ⟨e, he⟩ := herror w.shadow rfl
    refine ⟨⟨⟨fun _ => ⟨k, touches_readRange.2 hk, hb⟩, fun _ => ⟨e, he⟩⟩, fun v hv => ?_,
      fun v hv => ?_⟩, fun s hs => ⟨⟨fun _ => ⟨e, he⟩, fun _ => herror s (hs k ?_)⟩, fun v v' hv => ?_⟩⟩
    · cases he.symm.trans hv
    · cases he.symm.trans hv
    · exact touches_readRange.2 hk
    · cases he.symm.trans hv
  · obtain ⟨hbound, hwords⟩ := h.resolve_left hbad
    have hall : ∀ s : Heap, (∀ k, (readRange ptr len name).Touches k → s k = w.shadow k) →
        (readRange ptr len name).ReadsBytewise { w with shadow := s } := by
      intro s hs
      refine readsBytewise_of_aligned hbound (.inr (fun p hp => ?_))
      have hsame : ∀ b, (∀ k ∈ (⟨p, 8⟩ : ReadUnit).bytes, s k = b) ↔
          ∀ k ∈ (⟨p, 8⟩ : ReadUnit).bytes, w.shadow k = b := by
        refine fun b => forall₂_congr (fun k hk => ?_)
        have hin := Worker.mem_words.1 ⟨p, hp, ReadUnit.mem_bytes.1 hk⟩
        rw [hs k (touches_readRange.2 ?_)]
        simp only [roundUp, roundDown] at hin
        omega
      rw [ReadUnit.Uniform, hsame, hsame, hsame]
      exact hwords p hp
    have hself := hall w.shadow (fun _ _ => rfl)
    refine ⟨hself, fun s hs => ⟨?_, fun v v' hv hv' k hk => ?_⟩⟩
    · rw [(hall s hs).misspec, hself.misspec]
      refine exists_congr (fun k => and_congr_right (fun hk => ?_))
      dsimp only
      rw [hs k hk]
    · rw [(hall s hs).marks v' hv' k, hself.marks v hv k]
      simp only [hs k hk]

/-- A range read, and with it the read of one byte, is the byte automaton on its bytes and looks at
no others exactly under this condition. -/
theorem range_reads_iff (w : Worker) (ptr : ℕ) (name : String) :
    (∀ len, (readRange ptr len name).ReadsBytewise w ∧ (readRange ptr len name).LooksOnlyAtTouched w ↔
      RangeOk ptr len w) ∧
    ((read1b ptr name).ReadsBytewise w ∧ (read1b ptr name).LooksOnlyAtTouched w ↔
      RangeOk ptr 1 w) := by
  have hrange : ∀ len, (readRange ptr len name).ReadsBytewise w ∧
      (readRange ptr len name).LooksOnlyAtTouched w ↔ RangeOk ptr len w :=
    fun len => ⟨fun h => rangeOk_of_reads h.1 h.2, readsBytewise_of_rangeOk⟩
  refine ⟨hrange, ?_⟩
  have h1 := hrange 1
  constructor
  · exact fun h => h1.1 ⟨⟨h.1.misspec, h.1.marks, h.1.covers⟩, h.2⟩
  · intro h
    obtain ⟨hbytes, honly⟩ := h1.2 h
    exact ⟨⟨hbytes.misspec, hbytes.marks, hbytes.covers⟩, honly⟩

def workerWith (shadow : Heap) : Worker :=
  ⟨fun _ => 0, shadow, ShadowRange.reset, 0, checkpointGranularity 1, 3, 0, 0⟩

/-- A read of byte `1` misspeculates because byte `2` is old, and a read of an aligned word
misspeculates because only half of it is live-in. -/
theorem range_reads_differ :
    (∃ w : Worker, w.code8 = 3 ∧ w.shadow 1 = liveIn ∧
      (∃ e, (read1b 1 "read").call w = .error e) ∧ ¬ (read1b 1 "read").ReadsBytewise w) ∧
    ∃ w : Worker, w.code8 = 3 ∧ (∀ k < 8, w.shadow k = if k < 4 then liveIn else w.code8) ∧
      (∃ e, (readRange 0 8 "read").call w = .error e) ∧ ¬ (readRange 0 8 "read").ReadsBytewise w := by
  refine ⟨⟨workerWith (fun k => if k = 2 then oldIteration else liveIn), rfl, rfl, ⟨"read", rfl⟩,
    fun h => ?_⟩, ⟨workerWith (fun k => if k < 4 then liveIn else 3), rfl, by decide, ⟨"read", rfl⟩,
    fun h => ?_⟩⟩
  · obtain ⟨k, hk, hlive, _⟩ := h.misspec.1 ⟨"read", rfl⟩
    have hin := (touches_single rfl).1 hk
    rw [show k = 1 by omega] at hlive
    exact hlive rfl
  · obtain ⟨k, hk, hlive, _, hcode⟩ := h.misspec.1 ⟨"read", rfl⟩
    by_cases hlt : k < 4
    · exact hlive (if_pos hlt)
    · exact hcode (if_neg hlt)

end Access
end Cpf.Executive
