import Cpf.Executive.Invocation

/-!
# The marks of a worker over all checkpoint groups

Every access keeps `Recorded`: the last write of a worker to a byte determines its mark and its
value, and what the worker has written in the current group lies in its touched range.
-/

namespace Cpf.Executive
open Heap

namespace Config

variable (cfg : Config)

theorem code_toNat (i : ℕ) : (cfg.code i).toNat = i % cfg.granularity + 3 := by
  have hlt := Nat.mod_lt i cfg.granularity_pos
  have hle := cfg.granularity_le
  rw [code, iterCode, UInt8.toNat_ofNat', Nat.sub_zero]
  simp only [numReservedShadowValues]
  omega

theorem code_ne_liveIn (i : ℕ) : cfg.code i ≠ liveIn := by
  intro he
  have hn := cfg.code_toNat i
  rw [he] at hn
  simp only [liveIn, UInt8.toNat_ofNat] at hn
  omega

theorem wasWrittenEver_code (i : ℕ) : wasWrittenEver (cfg.code i) = true := by
  have hn := cfg.code_toNat i
  simp only [wasWrittenEver, oldIteration, decide_eq_true_eq, UInt8.le_iff_toNat_le, hn,
    UInt8.reduceToNat]
  omega

end Config

namespace Invocation

variable {cfg : Config} (inv : Invocation cfg)

theorem workerHistory_succ (w : Fin cfg.numWorkers) (e : ℕ) :
    inv.workerHistory w (e + 1) =
      inv.workerHistory w e ++ if inv.owner e = w then (inv.body e).map (fun o => (e, o)) else [] := by
  rw [workerHistory, history, List.range_succ, List.flatMap_append, List.filter_append,
    workerHistory, history, List.flatMap_singleton, List.filter_map]
  split_ifs with hw <;> simp [Function.comp_def, hw]

theorem mem_history {e : ℕ} {x : ℕ × Op} : x ∈ inv.history e ↔ x.1 < e ∧ x.2 ∈ inv.body x.1 := by
  simp only [history, List.mem_flatMap, List.mem_range, List.mem_map]
  constructor
  · rintro ⟨i, hi, o, ho, rfl⟩
    exact ⟨hi, ho⟩
  · rintro ⟨hi, ho⟩
    exact ⟨x.1, hi, x.2, ho, rfl⟩

theorem mem_workerHistory {w : Fin cfg.numWorkers} {e : ℕ} {x : ℕ × Op} :
    x ∈ inv.workerHistory w e ↔ (x.1 < e ∧ x.2 ∈ inv.body x.1) ∧ inv.owner x.1 = w := by
  rw [workerHistory, List.mem_filter, inv.mem_history, decide_eq_true_iff]

theorem history_sorted (e : ℕ) : (inv.history e).Pairwise (fun x y => x.1 ≤ y.1) := by
  induction e with
  | zero => exact List.Pairwise.nil
  | succ e ih =>
      rw [history, List.range_succ, List.flatMap_append, List.flatMap_singleton,
        List.pairwise_append]
      refine ⟨ih, ?_, fun x hx y hy => ?_⟩
      · rw [List.pairwise_map]
        exact List.pairwise_of_forall (fun _ _ => le_rfl)
      · obtain ⟨hlt, _⟩ := inv.mem_history.1 hx
        obtain ⟨o, _, rfl⟩ := List.mem_map.1 hy
        exact hlt.le

theorem runIters_succ {w : Fin cfg.numWorkers} {lo j : ℕ} (hj : lo ≤ j) {v v' : Worker} :
    inv.runIters w lo (j + 1) v = .ok v' ↔ ∃ u, inv.runIters w lo j v = .ok u ∧
      (if inv.owner j = w then inv.runIter u j else .ok u) = .ok v' := by
  rw [runIters, forRange_succ hj, List.filter_append, foldlM_append_eq_ok]
  refine exists_congr (fun u => and_congr_right (fun _ => ?_))
  by_cases hw : inv.owner j = w
  · rw [if_pos hw, List.filter_cons_of_pos (by simpa using hw), List.filter_nil, foldlM_cons_eq_ok]
    exact ⟨fun ⟨t, ht, hv⟩ => by cases hv; exact ht, fun ht => ⟨v', ht, rfl⟩⟩
  · rw [if_neg hw, List.filter_cons_of_neg (by simpa using hw), List.filter_nil]
    exact Iff.rfl

/-- No 16-byte strided read of the invocation replaces the mark of a written byte. -/
def ReadsPlaced : Prop :=
  ∀ m j, m * cfg.granularity ≤ j → j < inv.boundary m → ∀ pre o post,
    inv.body j = pre ++ o :: post → ∀ v, inv.stateBefore m j pre = .ok v → ¬ o.access.Misplaces v

end Invocation

/-- The marks and the bytes of a worker after the accesses `H`, those of the iterations from `base`
on in its current group. -/
structure Recorded {cfg : Config} (inv : Invocation cfg) (base : ℕ) (H : List (ℕ × Op))
    (v : Worker) : Prop where
  first : v.firstIteration = 0
  granularity : v.checkpointGranularity = cfg.granularity
  unwritten : ∀ k, lastWrite k H = none → wasWrittenEver (v.shadow k) = false
  written : ∀ k e, lastWrite k H = some e → v.shadow k = cfg.code e.1 ∧ v.priv k = e.2.data k
  covered : ∀ e ∈ H, base ≤ e.1 → ∀ k, e.2.access.Writes k → v.range.Covers k
  within : v.range.Within cfg.sizeofPrivate.val

theorem lastWrite_append_singleton (k : ℕ) (H : List (ℕ × Op)) (j : ℕ) (o : Op) :
    lastWrite k (H ++ [(j, o)]) = if o.access.Writes k then some (j, o) else lastWrite k H := by
  rw [lastWrite, lastMatch_append_singleton]
  simp only [decide_eq_true_eq]
  rfl

namespace Recorded

variable {cfg : Config} {inv : Invocation cfg} {base : ℕ} {H : List (ℕ × Op)} {w v : Worker}
  {j : ℕ} {o : Op}

theorem initial (inv : Invocation cfg) (w : Fin cfg.numWorkers) :
    Recorded inv 0 [] (inv.initial w) where
  first := rfl
  granularity := rfl
  unwritten _ _ := rfl
  written k e he := by cases he
  covered e he := by cases he
  within := inv.touched_within w

theorem advanceIter (hr : Recorded inv base H v) (i : ℕ) : Recorded inv base H (v.advanceIter i 1) :=
  ⟨hr.first, hr.granularity, hr.unwritten, hr.written, hr.covered, hr.within⟩

theorem advanceIter_code8 (hr : Recorded inv base H v) (i : ℕ) :
    (v.advanceIter i 1).code8 = cfg.code i := by
  change iterCode v.firstIteration v.checkpointGranularity i = _
  rw [hr.first, hr.granularity]
  rfl

/-- The merge into a checkpoint empties the touched range; the marks stay. -/
theorem reset (hr : Recorded inv base H v) {base' : ℕ} (hH : ∀ e ∈ H, e.1 < base') :
    Recorded inv base' H { v with range := ShadowRange.reset } where
  first := hr.first
  granularity := hr.granularity
  unwritten := hr.unwritten
  written := hr.written
  covered e he hle := absurd (hH e he) (by omega)
  within := Or.inl rfl

theorem covered_append (hr : Recorded inv base H w) (h : o.access.call w = .ok v) :
    ∀ e ∈ H ++ [(j, o)], base ≤ e.1 → ∀ k, e.2.access.Writes k → v.range.Covers k := by
  intro e he hle k hw
  rw [(Access.call_keeps h).range]
  rcases List.mem_append.1 he with he | he
  · have hold := hr.covered e he hle k hw
    unfold Access.touchedRange
    split_ifs
    · exact hold
    · exact hold.update _ _
  · rw [List.mem_singleton.1 he] at hw
    exact Access.touchedRange_covers hw.2

theorem within_call (hr : Recorded inv base H w) (hin : o.access.InHeap cfg.sizeofPrivate.val)
    (h : o.access.call w = .ok v) : v.range.Within cfg.sizeofPrivate.val := by
  rw [(Access.call_keeps h).range]
  exact Access.within_touchedRange hr.within cfg.sizeofPrivate.lt hin

theorem read (hr : Recorded inv base H w) (hread : o.access.isWrite = false)
    (hcode : w.code8 = cfg.code j) (hplaced : ¬ o.access.Misplaces w)
    (hin : o.access.InHeap cfg.sizeofPrivate.val) (h : o.access.call w = .ok v) :
    Recorded inv base (H ++ [(j, o)]) v := by
  have hk := Access.call_keeps h
  have honly := Access.call_onlyReads hread (hcode ▸ cfg.code_ne_liveIn j) hplaced h
  have hsame : ∀ k, lastWrite k (H ++ [(j, o)]) = lastWrite k H := by
    intro k
    rw [lastWrite_append_singleton, if_neg (fun hw => by rw [hw.1] at hread; cases hread)]
  refine ⟨hk.firstIteration.trans hr.first, hk.checkpointGranularity.trans hr.granularity,
    fun k hnone => ?_, fun k e he => ?_, hr.covered_append h, hr.within_call hin h⟩
  · rw [hsame] at hnone
    rcases honly k with he | ⟨hread', _⟩
    · rw [he, hr.unwritten k hnone]
    · rw [hread']
      rfl
  · rw [hsame] at he
    obtain ⟨hmark, hval⟩ := hr.written k e he
    rcases honly k with hs | ⟨_, hno⟩
    · exact ⟨hs.trans hmark, by rw [hk.priv, hval]⟩
    · rw [hmark, cfg.wasWrittenEver_code] at hno
      cases hno

theorem write (hr : Recorded inv base H w) (hwrite : o.access.isWrite = true)
    (hcode : w.code8 = cfg.code j) (hin : o.access.InHeap cfg.sizeofPrivate.val)
    (h : o.access.call w = .ok v) :
    Recorded inv base (H ++ [(j, o)])
      { v with priv := fun k => if o.access.Writes k then o.data k else v.priv k } := by
  have hk := Access.call_keeps h
  have hover := Access.call_writes hwrite h
  have hcovered := hr.covered_append (j := j) h
  have hwithin := hr.within_call hin h
  refine ⟨hk.firstIteration.trans hr.first, hk.checkpointGranularity.trans hr.granularity,
    fun k hnone => ?_, fun k e he => ?_, hcovered, hwithin⟩
  · rw [lastWrite_append_singleton] at hnone
    split_ifs at hnone with hw
    have hs : v.shadow k = w.shadow k := hover.frame k (fun ht => hw ⟨hwrite, ht⟩)
    change wasWrittenEver (v.shadow k) = false
    rw [hs, hr.unwritten k hnone]
  · rw [lastWrite_append_singleton] at he
    change v.shadow k = _ ∧ (if o.access.Writes k then o.data k else v.priv k) = _
    split_ifs at he ⊢ with hw
    · cases he
      exact ⟨(hover.marks k hw.2).trans hcode, rfl⟩
    · obtain ⟨hmark, hval⟩ := hr.written k e he
      have hs : v.shadow k = w.shadow k := hover.frame k (fun ht => hw ⟨hwrite, ht⟩)
      exact ⟨hs.trans hmark, by rw [hk.priv, hval]⟩

/-- The step lemma: an access of iteration `j` that does not misspeculate is recorded. -/
theorem exec (hr : Recorded inv base H w) (hcode : w.code8 = cfg.code j)
    (hplaced : ¬ o.access.Misplaces w) (hin : o.access.InHeap cfg.sizeofPrivate.val) (h : o.exec w = .ok v) :
    Recorded inv base (H ++ [(j, o)]) v ∧ v.code8 = cfg.code j := by
  obtain ⟨u, hu, hv⟩ := bind_eq_ok.1 h
  cases hv
  refine ⟨?_, (Access.call_keeps hu).code8.trans hcode⟩
  cases hwrite : o.access.isWrite with
  | false =>
      have hpriv : (fun k => if o.access.Writes k then o.data k else u.priv k) = u.priv := by
        funext k
        exact if_neg (fun hw => by rw [hw.1] at hwrite; cases hwrite)
      rw [hpriv]
      exact hr.read hwrite hcode hplaced hin hu
  | true => exact hr.write hwrite hcode hin hu

end Recorded

namespace Invocation

variable {cfg : Config} {inv : Invocation cfg}

theorem recorded_accesses (hplaced : inv.ReadsPlaced) {m j : ℕ} (hj : m * cfg.granularity ≤ j)
    (hj' : j < inv.boundary m) {v₀ u : Worker} (hv₀ : inv.groupStart (inv.owner j) m = .ok v₀)
    (hu : inv.runIters (inv.owner j) (m * cfg.granularity) j v₀ = .ok u) {H : List (ℕ × Op)}
    (hr : Recorded inv (m * cfg.granularity) H u) (pre : List Op) :
    ∀ post, inv.body j = pre ++ post → ∀ v, pre.foldlM Op.exec (u.advanceIter j 1) = .ok v →
      Recorded inv (m * cfg.granularity) (H ++ pre.map (fun o => (j, o))) v ∧
        v.code8 = cfg.code j := by
  induction pre using List.reverseRecOn with
  | nil =>
      rintro post _ v hv
      cases hv
      rw [List.map_nil, List.append_nil]
      exact ⟨hr.advanceIter j, hr.advanceIter_code8 j⟩
  | append_singleton pre o ih =>
      intro post hb v hv
      obtain ⟨t, ht, hrest⟩ := foldlM_append_eq_ok.1 hv
      obtain ⟨v', hv', hnil⟩ := foldlM_cons_eq_ok.1 hrest
      cases hnil
      rw [List.append_assoc, List.singleton_append] at hb
      obtain ⟨hrt, hcode⟩ := ih (o :: post) hb t ht
      have hmem : o ∈ inv.body j := by
        rw [hb]
        simp
      have hstate : inv.stateBefore m j pre = .ok t :=
        bind_eq_ok.2 ⟨v₀, hv₀, bind_eq_ok.2 ⟨u, hu, ht⟩⟩
      have hstep := hrt.exec hcode (hplaced m j hj hj' pre o post hb t hstate)
        (inv.inHeap j o hmem) hv'
      rwa [List.append_assoc, ← List.map_singleton, ← List.map_append] at hstep

theorem recorded_runIters (hplaced : inv.ReadsPlaced) {w : Fin cfg.numWorkers} {m j : ℕ}
    {v₀ : Worker} (hv₀ : inv.groupStart w m = .ok v₀)
    (hr : Recorded inv (m * cfg.granularity) (inv.workerHistory w (m * cfg.granularity)) v₀)
    (hj : m * cfg.granularity ≤ j) : j ≤ inv.boundary m → ∀ v,
      inv.runIters w (m * cfg.granularity) j v₀ = .ok v →
        Recorded inv (m * cfg.granularity) (inv.workerHistory w j) v := by
  induction j, hj using Nat.le_induction with
  | base =>
      intro _ v hv
      have hnil : forRange (m * cfg.granularity) (m * cfg.granularity) 1 = [] := by simp [forRange]
      rw [runIters, hnil] at hv
      cases hv
      exact hr
  | succ j hj ih =>
      intro hle v hv
      obtain ⟨u, hu, hiter⟩ := (inv.runIters_succ hj).1 hv
      have hru := ih (by omega) u hu
      rw [inv.workerHistory_succ]
      split_ifs at hiter ⊢ with hw
      · subst w
        exact (recorded_accesses hplaced hj (by omega) hv₀ hu hru (inv.body j) [] (by simp) v
          hiter).1
      · cases hiter
        rwa [List.append_nil]

/-- The run lemma over the groups: a worker starts every group with all of its writes recorded. -/
theorem recorded_groupStart (hplaced : inv.ReadsPlaced) (w : Fin cfg.numWorkers) (m : ℕ) :
    m * cfg.granularity ≤ inv.stop → ∀ v, inv.groupStart w m = .ok v →
      Recorded inv (m * cfg.granularity) (inv.workerHistory w (m * cfg.granularity)) v := by
  induction m with
  | zero =>
      intro _ v hv
      cases hv
      rw [Nat.zero_mul]
      exact Recorded.initial inv w
  | succ m ih =>
      intro hle v hv
      obtain ⟨u, hu, hv⟩ := bind_eq_ok.1 hv
      obtain ⟨t, ht, hv⟩ := bind_eq_ok.1 hv
      cases hv
      have hstep : m * cfg.granularity ≤ (m + 1) * cfg.granularity :=
        Nat.mul_le_mul_right _ (Nat.le_succ m)
      have hb : inv.boundary m = (m + 1) * cfg.granularity := min_eq_left hle
      rw [hb] at ht
      have hrt := recorded_runIters hplaced hu (ih (hstep.trans hle) u hu) hstep hb.ge t ht
      exact hrt.reset (fun e he => (inv.mem_workerHistory.1 he).1.1)

theorem recorded_atMerge (hplaced : inv.ReadsPlaced) (w : Fin cfg.numWorkers) {m : ℕ}
    (hm : m * cfg.granularity ≤ inv.stop) {v : Worker} (hv : inv.atMerge w m = .ok v) :
    Recorded inv (m * cfg.granularity) (inv.workerHistory w (inv.boundary m)) v := by
  obtain ⟨u, hu, hv⟩ := bind_eq_ok.1 hv
  have hle : m * cfg.granularity ≤ inv.boundary m :=
    le_min (Nat.mul_le_mul_right _ (Nat.le_succ m)) hm
  exact recorded_runIters hplaced hu (recorded_groupStart hplaced w m hm u hu) hle le_rfl v hv

end Invocation
end Cpf.Executive
