import Cpf.Executive.InvocationMarks

/-!
# The private bytes that a checkpoint represents

The checkpoint of a group, after all workers have merged into it, represents the iterations of the
group, provided that no mark from an earlier group hides a later write. Combining two checkpoints
keeps this, and adopting one brings the main process to the end of its iterations.
-/

namespace Cpf.Executive
open Heap

namespace Invocation

variable {cfg : Config} (inv : Invocation cfg)

/-- At the merges of group `m` no byte that a worker's merge looks at has its mark from an earlier
group while another worker has written it since. -/
def NotOvertaken (m : ℕ) : Prop :=
  ∀ w v, inv.atMerge w m = .ok v → ∀ k, v.image.Scanned k →
    ∀ e, lastWrite k (inv.workerHistory w (inv.boundary m)) = some e → e.1 < m * cfg.granularity →
      ∀ j, e.1 < j → j < inv.boundary m → inv.owner j ≠ w → ∀ o ∈ inv.body j, ¬ o.access.Writes k

/-- The value of byte `k` before iteration `e` of the sequential loop. -/
def valueBefore (e k : ℕ) : UInt8 :=
  match lastWrite k (inv.history e) with
  | none => inv.start k
  | some x => x.2.data k

/-- The checkpoint heap `c` holds what the iterations `[lo, hi)` have written. -/
structure Represents (lo hi : ℕ) (c : Image) : Prop where
  value : ∀ k < cfg.sizeofPrivate.val, wasWrittenEver (c.shadow k) = true →
    c.priv k = inv.valueBefore hi k
  written : ∀ i, lo ≤ i → i < hi → ∀ o ∈ inv.body i, ∀ k, o.access.Writes k →
    c.range.Covers k ∧ wasWrittenEver (c.shadow k) = true
  within : c.range.Within cfg.sizeofPrivate.val

end Invocation

namespace ShadowRange

theorem Covers.lt_size {r : ShadowRange} {size k : ℕ} (h : r.Covers k) (hr : r.Within size) :
    k < size := by
  rcases hr with rfl | ⟨_, hhi⟩
  · exact absurd h.2 (Nat.not_lt_zero k)
  · exact lt_of_lt_of_le h.2 hhi

theorem covers_foldl_widen {rs : List ShadowRange} {r₀ : ShadowRange} {k : ℕ}
    (h : r₀.Covers k ∨ ∃ r ∈ rs, r.Covers k) : (rs.foldl widen r₀).Covers k := by
  induction rs generalizing r₀ with
  | nil => simpa using h
  | cons r rs ih =>
      refine ih ?_
      rcases h with h | ⟨x, hx, h⟩
      · exact Or.inl (h.widen r)
      · rcases List.mem_cons.1 hx with rfl | hx
        · exact Or.inl (h.widen_right r₀)
        · exact Or.inr ⟨x, hx, h⟩

theorem within_foldl_widen {rs : List ShadowRange} {r₀ : ShadowRange} {size : ℕ}
    (hsize : size < 2 ^ 32) (h₀ : r₀.Within size) (h : ∀ r ∈ rs, r.Within size) :
    (rs.foldl widen r₀).Within size := by
  induction rs generalizing r₀ with
  | nil => exact h₀
  | cons r rs ih =>
      exact ih (h₀.widen (h r List.mem_cons_self) hsize)
        (fun x hx => h x (List.mem_cons_of_mem r hx))

end ShadowRange

namespace Invocation

variable {cfg : Config} {inv : Invocation cfg} {m lo mid hi k : ℕ}

theorem valueBefore_of_lastWrite {e : ℕ} {x : ℕ × Op} (h : lastWrite k (inv.history e) = some x) :
    inv.valueBefore e k = x.2.data k := by
  rw [valueBefore, h]

/-- A byte that no iteration of `[lo, hi)` writes keeps its value. -/
theorem valueBefore_eq (hle : lo ≤ hi)
    (hno : ∀ i, lo ≤ i → i < hi → ∀ o ∈ inv.body i, ¬ o.access.Writes k) :
    inv.valueBefore hi k = inv.valueBefore lo k := by
  have hlast : lastWrite k (inv.history hi) = lastWrite k (inv.history lo) := by
    induction hi, hle using Nat.le_induction with
    | base => rfl
    | succ hi hle ih =>
        rw [← ih (fun i hlo hhi => hno i hlo (by omega)), lastWrite, history, List.range_succ,
          List.flatMap_append, List.flatMap_singleton, lastMatch_append_of_none]
        · rfl
        · intro x hx
          obtain ⟨o, ho, rfl⟩ := List.mem_map.1 hx
          exact decide_eq_false (hno hi hle (by omega) o ho)
  rw [valueBefore, valueBefore, hlast]

theorem workerHistory_sorted (w : Fin cfg.numWorkers) (e : ℕ) :
    (inv.workerHistory w e).Pairwise (fun x y => x.1 ≤ y.1) := (inv.history_sorted e).filter _

/-- A worker that has written byte `k` in its current group has it in its range, with the code of
that write or of a later one. -/
theorem mark_of_write {base b i : ℕ} {v : Worker} {o : Op}
    (hr : Recorded inv base (inv.workerHistory (inv.owner i) b) v) (hbase : base ≤ i) (hi : i < b)
    (ho : o ∈ inv.body i) (hw : o.access.Writes k) :
    v.range.Covers k ∧ ∃ j, i ≤ j ∧ j < b ∧ v.shadow k = cfg.code j := by
  have hmem : (i, o) ∈ inv.workerHistory (inv.owner i) b :=
    inv.mem_workerHistory.2 ⟨⟨hi, ho⟩, rfl⟩
  refine ⟨hr.covered (i, o) hmem hbase k hw, ?_⟩
  have hwrites : decide (((i, o) : ℕ × Op).2.access.Writes k) = true := decide_eq_true hw
  obtain ⟨y, hy⟩ := exists_lastMatch (p := fun e : ℕ × Op => decide (e.2.access.Writes k)) hmem hwrites
  refine ⟨y.1, le_of_lastMatch (inv.workerHistory_sorted _ b) hy hmem hwrites, ?_,
    (hr.written k y hy).1⟩
  exact (inv.mem_workerHistory.1 (mem_of_lastMatch hy).1).1.1

/-- Inside one group the codes are ordered as the iterations are. -/
theorem le_of_code_le {i j : ℕ} (hi : m * cfg.granularity ≤ i) (hi' : i < inv.boundary m)
    (hj : m * cfg.granularity ≤ j) (hj' : j < inv.boundary m) (h : cfg.code i ≤ cfg.code j) :
    i ≤ j := by
  have hmod : ∀ x, m * cfg.granularity ≤ x → x < inv.boundary m →
      x % cfg.granularity = x - m * cfg.granularity := by
    intro x hx hx'
    have hlt : x < (m + 1) * cfg.granularity := lt_of_lt_of_le hx' (min_le_left _ _)
    rw [Nat.succ_mul] at hlt
    obtain ⟨d, rfl⟩ := Nat.exists_eq_add_of_le hx
    rw [Nat.add_comm, Nat.add_mul_mod_self_right, Nat.mod_eq_of_lt (by omega)]
    omega
  rw [UInt8.le_iff_toNat_le, cfg.code_toNat, cfg.code_toNat, hmod i hi hi', hmod j hj hj'] at h
  omega

/-- The merges of a group whose workers hide no later write represent its iterations. -/
theorem represents_of_mergeAll (hover : inv.NotOvertaken m) {ws : Fin cfg.numWorkers → Worker}
    (hws : ∀ w, inv.atMerge w m = .ok (ws w))
    (hr : ∀ w, Recorded inv (m * cfg.granularity) (inv.workerHistory w (inv.boundary m)) (ws w))
    {order : List (Fin cfg.numWorkers)} (horder : ∀ w, w ∈ order) {chkpt p : Image}
    (hmerge : Image.mergeAll cfg.sizeofPrivate.val (chkpt.initializePartial cfg.sizeofPrivate.val)
      (order.map (fun w => (ws w).image)) = .ok p) :
    inv.Represents (m * cfg.granularity) (inv.boundary m) p := by
  have hwithin : ∀ img ∈ order.map (fun w => (ws w).image),
      img.range.Within cfg.sizeofPrivate.val := by
    intro img himg
    obtain ⟨w, _, rfl⟩ := List.mem_map.1 himg
    exact (hr w).within
  have hjoined := Image.joined_of_mergeAll hwithin hmerge
  have hmark : ∀ i, m * cfg.granularity ≤ i → i < inv.boundary m → ∀ o ∈ inv.body i,
      ∀ k, o.access.Writes k → ∃ j, i ≤ j ∧ j < inv.boundary m ∧ cfg.code j ≤ p.shadow k := by
    intro i hi hi' o ho k hw
    obtain ⟨hcov, j, hij, hj, hcode⟩ := mark_of_write (hr (inv.owner i)) hi hi' ho hw
    have hscan : (ws (inv.owner i)).image.Scanned k :=
      Image.scanned_of_mark_ne hcov.coversWord (by
        change (ws (inv.owner i)).shadow k ≠ liveIn
        rw [hcode]
        exact cfg.code_ne_liveIn j)
    have hle := hjoined.mark_le _ (List.mem_map_of_mem (horder (inv.owner i))) k
    rw [Image.scanMark_of_scanned hscan] at hle
    exact ⟨j, hij, hj, hcode ▸ hle⟩
  refine ⟨fun k hk hwritten => ?_, fun i hi hi' o ho k hw => ⟨?_, ?_⟩, ?_⟩
  · obtain ⟨hne, hnr⟩ := Image.wasWrittenEver_iff.1 hwritten
    rcases hjoined.source k with he | ⟨img, himg, hscan, hshadow, _, hval⟩
    · exact absurd ((congrArg Prod.snd he).trans (Image.initializePartial_mark chkpt hk)) hne
    obtain ⟨u, _, rfl⟩ := List.mem_map.1 himg
    have hpriv : p.priv k = (ws u).priv k := hval.resolve_left hnr
    have hlast : ∃ x, lastWrite k (inv.workerHistory u (inv.boundary m)) = some x := by
      cases hnone : lastWrite k (inv.workerHistory u (inv.boundary m)) with
      | some x => exact ⟨x, rfl⟩
      | none =>
          have hno := (hr u).unwritten k hnone
          change wasWrittenEver ((ws u).image.shadow k) = false at hno
          rw [hshadow, hwritten] at hno
          cases hno
    obtain ⟨x, hx⟩ := hlast
    obtain ⟨hcode, hdata⟩ := (hr u).written k x hx
    rw [hpriv, hdata]
    refine (valueBefore_of_lastWrite (lastMatch_of_filter (inv.history_sorted _) hx ?_)).symm
    intro y hy hyw hyu
    obtain ⟨hyb, hyo⟩ := inv.mem_history.1 hy
    have hyw' : y.2.access.Writes k := of_decide_eq_true hyw
    have hne' : inv.owner y.1 ≠ u := of_decide_eq_false hyu
    obtain ⟨⟨hxb, _⟩, hxu⟩ := inv.mem_workerHistory.1 (mem_of_lastMatch hx).1
    by_contra hle
    have hlt : x.1 < y.1 := lt_of_le_of_ne (not_lt.1 hle) (fun he => hne' (he ▸ hxu))
    by_cases hstale : x.1 < m * cfg.granularity
    · exact hover u (ws u) (hws u) k hscan x hx hstale y.1 hlt hyb hne' y.2 hyo hyw'
    · obtain ⟨j, hyj, hj, hcj⟩ := hmark y.1 (by omega) hyb y.2 hyo k hyw'
      rw [← hshadow] at hcj
      have hij := le_of_code_le (by omega) hj (not_lt.1 hstale) hxb (hcode ▸ hcj)
      omega
  · obtain ⟨hcov, _⟩ := mark_of_write (hr (inv.owner i)) hi hi' ho hw
    rw [hjoined.range]
    refine ShadowRange.covers_foldl_widen (Or.inr ⟨_, ?_, hcov⟩)
    rw [List.map_map]
    exact List.mem_map_of_mem (horder (inv.owner i))
  · obtain ⟨j, _, _, hle⟩ := hmark i hi hi' o ho k hw
    have hcode := cfg.wasWrittenEver_code j
    simp only [wasWrittenEver, decide_eq_true_eq] at hcode ⊢
    exact UInt8.le_trans hcode hle
  · rw [hjoined.range]
    refine ShadowRange.within_foldl_widen cfg.sizeofPrivate.lt (Or.inl rfl) (fun r hrange => ?_)
    rw [List.map_map] at hrange
    obtain ⟨w, _, rfl⟩ := List.mem_map.1 hrange
    exact (hr w).within

namespace Represents

variable {older newer out : Image}

theorem combine (ho : inv.Represents lo mid older) (hn : inv.Represents mid hi newer)
    (hmid : mid ≤ hi) (hc : Image.Committed older newer out) : inv.Represents lo hi out := by
  have hcell : ∀ k, (older.range.Covers k ∧ newer.shadow k = liveIn ∧
      wasWrittenEver (older.shadow k) = true ∧ out.cell k = (older.priv k, oldIteration)) ∨
      (out.cell k = newer.cell k ∧ (older.range.Covers k → wasWrittenEver (older.shadow k) = true →
        newer.shadow k ≠ liveIn ∧ newer.shadow k ≠ readLiveIn)) := by
    intro k
    by_cases hk : older.range.Covers k
    · rcases Image.commitCell_eq_some (hc.covered k hk) with ⟨hl, hw, he⟩ | ⟨he, hl, hread⟩
      · exact Or.inl ⟨hk, hl, hw, he⟩
      · refine Or.inr ⟨he, fun _ hw => ⟨fun hz => ?_, fun hz => ?_⟩⟩
        · rw [hl hz] at hw
          cases hw
        · rw [hread hz] at hw
          cases hw
    · exact Or.inr ⟨hc.frame k hk, fun hcov => absurd hcov hk⟩
  refine ⟨fun k hk hw => ?_, fun i hi' hi'' o ho' k hw => ?_, ?_⟩
  · rcases hcell k with ⟨_, hl, hwo, he⟩ | ⟨he, _⟩
    · have hval : out.priv k = older.priv k := congrArg Prod.fst he
      rw [hval, ho.value k hk hwo]
      refine (valueBefore_eq hmid (fun i hlo hhi o ho' hwr => ?_)).symm
      have hmark := (hn.written i hlo hhi o ho' k hwr).2
      rw [hl] at hmark
      cases hmark
    · have hmark : out.shadow k = newer.shadow k := congrArg Prod.snd he
      have hval : out.priv k = newer.priv k := congrArg Prod.fst he
      rw [hval]
      exact hn.value k hk (hmark ▸ hw)
  · rw [hc.range]
    by_cases him : i < mid
    · obtain ⟨hcov, hwo⟩ := ho.written i hi' him o ho' k hw
      refine ⟨hcov.widen_right _, ?_⟩
      rcases hcell k with ⟨_, _, _, he⟩ | ⟨he, hne⟩
      · have hmark : out.shadow k = oldIteration := congrArg Prod.snd he
        rw [hmark]
        rfl
      · have hmark : out.shadow k = newer.shadow k := congrArg Prod.snd he
        rw [hmark]
        exact Image.wasWrittenEver_iff.2 (hne hcov hwo)
    · obtain ⟨hcov, hwn⟩ := hn.written i (not_lt.1 him) hi'' o ho' k hw
      refine ⟨hcov.widen _, ?_⟩
      rcases hcell k with ⟨_, hl, _, _⟩ | ⟨he, _⟩
      · rw [hl] at hwn
        cases hwn
      · have hmark : out.shadow k = newer.shadow k := congrArg Prod.snd he
        rw [hmark, hwn]
  · rw [hc.range]
    exact hn.within.widen ho.within cfg.sizeofPrivate.lt

/-- Adopting a checkpoint brings the main process to the end of its iterations. -/
theorem adopt {c : Image} (hc : inv.Represents lo hi c) (hle : lo ≤ hi) {main : Heap}
    (hmain : ∀ k, main k = inv.valueBefore lo k) (k : ℕ) :
    Image.distillCommittedPrivateIntoMain cfg.sizeofPrivate.val c main k =
      inv.valueBefore hi k := by
  rw [Image.distillCommittedPrivateIntoMain_apply hc.within]
  split_ifs with hw
  · exact hc.value k (hw.1.lt_size hc.within) hw.2
  · rw [hmain]
    exact (valueBefore_eq hle (fun i hlo hhi o ho hwr => hw (hc.written i hlo hhi o ho k hwr))).symm

end Represents
end Invocation
end Cpf.Executive
