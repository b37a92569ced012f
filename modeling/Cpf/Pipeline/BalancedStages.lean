import Cpf.Basics.Loop
import Cpf.Pipeline.StagePartition

/-!
# Balanced stages

The loop that fills stages of about the same weight takes one component after the other, always one
to which no edge is left from a component that is not taken. The counts are 32-bit numbers, and the
count of a component that is taken is set to -1.
-/

namespace Cpf.Pipeline.SCCDAG

variable {α : Type} {d : SCCDAG α} {counts : ℕ → UInt32} {T : List α}

/-- The loop over the outgoing edges lowers a count by the number of edges. -/
theorem foldl_decrement (es : List (SCCEdge α)) (counts : ℕ → UInt32) (i : ℕ) :
    es.foldl (fun counts e => Function.update counts (d.getSCCIndex e.incoming)
        (counts (d.getSCCIndex e.incoming) - 1)) counts i =
      counts i - UInt32.ofNat (es.countP fun e => d.getSCCIndex e.incoming = i) := by
  induction es generalizing counts with
  | nil => simp
  | cons e es ih =>
      rw [List.foldl_cons, ih, List.countP_cons]
      by_cases hi : d.getSCCIndex e.incoming = i
      · subst hi
        simp only [Function.update_self, decide_true, if_true, UInt32.ofNat_add]
        generalize UInt32.ofNat _ = n
        change _ - 1 - n = _ - (n + 1)
        grind
      · rw [Function.update_of_ne (Ne.symm hi)]
        simp [hi]

/-- A map that is filled for some keys. -/
theorem foldl_update_apply {β : Type} (key : α → ℕ) (value : α → β) {as : List α} {a : α}
    (ha : a ∈ as) (hinj : ∀ b ∈ as, key b = key a → b = a) (m : ℕ → β) :
    as.foldl (fun m b => Function.update m (key b) (value b)) m (key a) = value a := by
  induction as using List.reverseRecOn with
  | nil => exact absurd ha List.not_mem_nil
  | append_singleton as b ih =>
      rw [List.foldl_append, List.foldl_cons, List.foldl_nil]
      by_cases hkey : key b = key a
      · rw [hinj b (List.mem_append_right _ (List.mem_singleton_self b)) hkey, Function.update_self]
      · rw [Function.update_of_ne (Ne.symm hkey)]
        apply ih
        · rcases List.mem_append.1 ha with ha | ha
          · exact ha
          · exact absurd (congrArg key (List.mem_singleton.1 ha)).symm hkey
        · exact fun c hc => hinj c (List.mem_append_left _ hc)

/-- A component that is returned has no edge left. -/
theorem getNextLargest_spec {D : Type} {ops : DoubleOps D} {weight : α → D} {scc : α}
    (h : d.getNextLargestFreeStandingSCC ops weight counts = some scc) :
    scc ∈ d.nodes ∧ counts (d.getSCCIndex scc) = 0 := by
  have hfold : ∀ (as : List α) (p : D × Option α), (∀ a ∈ as, a ∈ d.nodes) →
      (∀ a, p.2 = some a → a ∈ d.nodes ∧ counts (d.getSCCIndex a) = 0) →
      ∀ a, (as.foldl (d.lookAt ops weight counts) p).2 = some a →
        a ∈ d.nodes ∧ counts (d.getSCCIndex a) = 0 := by
    intro as
    induction as with
    | nil => exact fun p _ hp => hp
    | cons b as ih =>
        intro p hmem hp
        apply ih _ (fun a ha => hmem a (List.mem_cons_of_mem _ ha))
        intro a ha
        rw [lookAt] at ha
        split_ifs at ha with hzero hlt
        · exact hp a ha
        · obtain rfl : b = a := Option.some.inj ha
          exact ⟨hmem b List.mem_cons_self, not_not.1 hzero⟩
        · exact hp a ha
  exact hfold d.nodes _ (fun a ha => ha) (fun a ha => by cases ha) scc h

theorem closed_take_append {stages : List (List α)} {curr : List α}
    (hclosed : ∀ k, d.Closed (stages.take k).flatten) (hall : d.Closed (stages.flatten ++ curr))
    (k : ℕ) : d.Closed ((stages ++ [curr]).take k).flatten := by
  rcases Nat.lt_or_ge stages.length k with hlt | hle
  · have htake : (stages ++ [curr]).take k = stages ++ [curr] :=
      List.take_of_length_le (by simpa using hlt)
    rw [htake, List.flatten_append, List.flatten_singleton]
    exact hall
  · rw [List.take_append_of_le_length hle]
    exact hclosed k

variable [DecidableEq α]

def incomingLeft (d : SCCDAG α) (T : List α) (a : α) : ℕ :=
  d.edges.countP fun e => e.incoming = a ∧ e.outgoing ∉ T

/-- What the counts say when the components `T` are taken. -/
structure Taken (d : SCCDAG α) (counts : ℕ → UInt32) (T : List α) : Prop where
  nodup : T.Nodup
  mem : ∀ a ∈ T, a ∈ d.nodes
  closed : d.Closed T
  taken : ∀ a ∈ T, counts (d.getSCCIndex a) = -1
  left : ∀ a ∈ d.nodes, a ∉ T → counts (d.getSCCIndex a) = UInt32.ofNat (d.incomingLeft T a)

theorem incomingLeft_lt (d : SCCDAG α) (T : List α) (a : α) : d.incomingLeft T a < 2 ^ 32 - 1 :=
  List.countP_le_length.trans_lt d.counted

theorem toNat_incomingLeft (d : SCCDAG α) (T : List α) (a : α) :
    (UInt32.ofNat (d.incomingLeft T a)).toNat = d.incomingLeft T a := by
  have hlt := d.incomingLeft_lt T a
  rw [UInt32.toNat_ofNat']
  omega

theorem taken_init (d : SCCDAG α) : d.Taken d.getIncomingCountMap [] where
  nodup := List.nodup_nil
  mem _ h := absurd h List.not_mem_nil
  closed _ _ h := absurd h List.not_mem_nil
  taken _ h := absurd h List.not_mem_nil
  left a ha _ := by
    rw [getIncomingCountMap, foldl_update_apply d.getSCCIndex
      (fun scc => UInt32.ofNat (d.edges.countP fun e => e.incoming = scc)) ha
      (fun b hb => d.index_inj b hb a ha)]
    simp [incomingLeft]

theorem incomingLeft_append {scc : α} (hnot : scc ∉ T) (a : α) :
    d.incomingLeft T a = d.incomingLeft (T ++ [scc]) a +
      d.edges.countP (fun e => e.incoming = a ∧ e.outgoing = scc) := by
  rw [incomingLeft, incomingLeft]
  induction d.edges with
  | nil => rfl
  | cons e es ih =>
      rw [List.countP_cons, List.countP_cons, List.countP_cons, ih]
      by_cases hin : e.incoming = a
      · by_cases hout : e.outgoing = scc
        · simp [hin, hout, hnot]
          omega
        · simp [hin, hout]
          omega
      · simp [hin]

/-- Taking a component without edges left keeps the counts right. -/
theorem Taken.take (h : d.Taken counts T) {scc : α} (hscc : scc ∈ d.nodes)
    (hzero : counts (d.getSCCIndex scc) = 0) :
    scc ∉ T ∧ d.Taken (d.updateIncomingCountMap counts scc) (T ++ [scc]) := by
  have hnot : scc ∉ T := by
    intro hmem
    rw [h.taken scc hmem] at hzero
    exact absurd hzero (by decide)
  have hfree : ∀ e ∈ d.edges, e.incoming = scc → e.outgoing ∈ T := by
    intro e he hin
    by_contra hout
    have hcount : d.incomingLeft T scc = 0 := by
      rw [← d.toNat_incomingLeft T scc, ← h.left scc hscc hnot, hzero]
      rfl
    rw [incomingLeft, List.countP_eq_zero] at hcount
    exact hcount e he (by simpa using ⟨hin, hout⟩)
  have hvalue : ∀ a ∈ d.nodes, d.updateIncomingCountMap counts scc (d.getSCCIndex a) =
      Function.update counts (d.getSCCIndex scc) (-1) (d.getSCCIndex a) -
        UInt32.ofNat (d.edges.countP fun e => e.incoming = a ∧ e.outgoing = scc) := by
    intro a ha
    rw [updateIncomingCountMap, foldl_decrement, List.countP_filter]
    congr 2
    apply List.countP_congr
    intro e he
    have hinj := d.index_inj e.incoming (d.ends e he).2 a ha
    simp only [Bool.and_eq_true, decide_eq_true_eq]
    constructor
    · rintro ⟨h1, h2⟩
      exact ⟨hinj h1, h2⟩
    · rintro ⟨h1, h2⟩
      exact ⟨congrArg _ h1, h2⟩
  -- No edge leads from the component to itself or back to what is taken.
  have hnone : ∀ a ∈ T ++ [scc], d.edges.countP (fun e => e.incoming = a ∧ e.outgoing = scc) = 0 := by
    intro a ha
    rw [List.countP_eq_zero]
    intro e he hdec
    obtain ⟨rfl, hout⟩ := of_decide_eq_true hdec
    rcases List.mem_append.1 ha with ha | ha
    · exact hnot (hout ▸ h.closed e he ha)
    · have hedge := orderedBefore_of_edge he
      rw [List.mem_singleton.1 ha, hout] at hedge
      exact not_orderedBefore_self scc hedge
  refine ⟨hnot, ⟨?_, ?_, ?_, ?_, ?_⟩⟩
  · rw [List.nodup_append]
    refine ⟨h.nodup, List.nodup_singleton scc, ?_⟩
    rintro a ha b hb rfl
    exact hnot (List.mem_singleton.1 hb ▸ ha)
  · intro a ha
    rcases List.mem_append.1 ha with ha | ha
    · exact h.mem a ha
    · rw [List.mem_singleton.1 ha]
      exact hscc
  · intro e he hin
    rcases List.mem_append.1 hin with hin | hin
    · exact List.mem_append_left _ (h.closed e he hin)
    · exact List.mem_append_left _ (hfree e he (List.mem_singleton.1 hin))
  · intro a ha
    rcases List.mem_append.1 ha with hT | hlast
    · rw [hvalue a (h.mem a hT), hnone a ha]
      have hne : d.getSCCIndex a ≠ d.getSCCIndex scc := by
        intro heq
        exact hnot (d.index_inj a (h.mem a hT) scc hscc heq ▸ hT)
      rw [Function.update_of_ne hne, h.taken a hT]
      rfl
    · obtain rfl := List.mem_singleton.1 hlast
      rw [hvalue a hscc, hnone a ha, Function.update_self]
      rfl
  · intro a ha hout
    rw [List.mem_append, List.mem_singleton, not_or] at hout
    have hne : d.getSCCIndex a ≠ d.getSCCIndex scc := by
      intro heq
      exact hout.2 (d.index_inj a ha scc hscc heq)
    rw [hvalue a ha, Function.update_of_ne hne, h.left a ha hout.1,
      incomingLeft_append hnot, UInt32.ofNat_add]
    generalize UInt32.ofNat _ = m
    generalize UInt32.ofNat _ = n
    grind

/-! ### The loops -/

theorem Taken.length_le (h : d.Taken counts T) : T.length ≤ d.nodes.length :=
  (List.subperm_of_subset h.nodup h.mem).length_le

section Fill

variable {D : Type} {fuel : ℕ}

/-- The loop that fills a stage ends, and the counts are right when it does. -/
theorem Taken.fill (h : d.Taken counts T) (ops : DoubleOps D) (weight : α → D) (target : D)
    (hfuel : d.nodes.length < fuel) :
    ∃ s, iterate () (d.fillStep ops weight target) fuel ⟨counts, [], 0⟩ = .ok s ∧
      d.Taken s.counts (T ++ s.currSccSet) := by
  have hstep : ∀ s : Filling α, d.Taken s.counts (T ++ s.currSccSet) →
      ∃ r, d.fillStep ops weight target s = .ok r ∧ ∀ s', r = some s' →
        d.Taken s'.counts (T ++ s'.currSccSet) ∧
          d.nodes.length - (T ++ s'.currSccSet).length <
            d.nodes.length - (T ++ s.currSccSet).length := by
    intro s hs
    rw [fillStep]
    split_ifs
    · cases hnext : d.getNextLargestFreeStandingSCC ops weight s.counts with
      | none => exact ⟨none, rfl, fun s' hs' => by cases hs'⟩
      | some scc =>
          obtain ⟨hmem, hzero⟩ := getNextLargest_spec hnext
          obtain ⟨-, htake⟩ := hs.take hmem hzero
          refine ⟨_, rfl, fun s' hs' => ?_⟩
          cases hs'
          have hlen := htake.length_le
          simp only [List.length_append, List.length_singleton] at hlen ⊢
          rw [← List.append_assoc]
          exact ⟨htake, by omega⟩
    · exact ⟨none, rfl, fun s' hs' => by cases hs'⟩
  have hstart : d.Taken counts (T ++ []) := by simpa using h
  have hlt : d.nodes.length - (T ++ ([] : List α)).length < fuel := by omega
  let start : Filling α := ⟨counts, [], 0⟩
  obtain ⟨s, hs, hok, -⟩ := iterate_total (s := start)
    (fun s => d.Taken s.counts (T ++ s.currSccSet))
    (fun s => d.nodes.length - (T ++ s.currSccSet).length) hstep hstart hlt
  exact ⟨s, hs, hok⟩

/-- The stages after some rounds of the loop over the threads. -/
structure StagesOk (d : SCCDAG α) (n : ℕ) (p : (ℕ → UInt32) × List (List α)) : Prop where
  taken : d.Taken p.1 p.2.flatten
  closed : ∀ k, d.Closed (p.2.take k).flatten
  length : p.2.length ≤ n

theorem StagesOk.addStage (ops : DoubleOps D) (weight : α → D) (target : D) {n numThread : ℕ}
    {p : (ℕ → UInt32) × List (List α)}
    (h : d.StagesOk n p) (hlast : n ≠ numThread - 1) (hfuel : d.nodes.length < fuel) :
    ∃ p', d.addStage ops weight target numThread fuel p n = .ok p' ∧ d.StagesOk (n + 1) p' := by
  obtain ⟨s, hs, hok⟩ := h.taken.fill ops weight target hfuel
  rw [SCCDAG.addStage, hs]
  refine ⟨_, rfl, ?_⟩
  rw [if_neg hlast]
  by_cases hempty : s.currSccSet.isEmpty
  · rw [if_pos hempty]
    rw [List.isEmpty_iff.1 hempty, List.append_nil] at hok
    exact ⟨hok, h.closed, h.length.trans (Nat.le_succ n)⟩
  · rw [if_neg hempty]
    refine ⟨?_, closed_take_append h.closed hok.closed, ?_⟩
    · rw [List.flatten_append, List.flatten_singleton]
      exact hok
    · rw [List.length_append]
      exact Nat.succ_le_succ h.length

theorem StagesOk.addLast (ops : DoubleOps D) (weight : α → D) (target : D) {n : ℕ}
    {p : (ℕ → UInt32) × List (List α)} (h : d.StagesOk n p)
    (hfuel : d.nodes.length < fuel) :
    ∃ p', d.addStage ops weight target (n + 1) fuel p n = .ok p' ∧ d.IsPartition p'.2 ∧
      p'.2.length ≤ n + 1 := by
  obtain ⟨s, hs, hok⟩ := h.taken.fill ops weight target hfuel
  rw [SCCDAG.addStage, hs]
  refine ⟨_, rfl, ?_⟩
  rw [if_pos (Nat.add_sub_cancel n 1).symm]
  have hrest : (d.nodes.filter fun scc => s.counts (d.getSCCIndex scc) ≠ -1) =
      d.nodes.filter fun scc => scc ∉ p.2.flatten ++ s.currSccSet := by
    apply List.filter_congr
    intro a ha
    rw [decide_eq_decide]
    constructor
    · intro hne hmem
      exact hne (hok.taken a hmem)
    · intro hnot heq
      have hlt := d.incomingLeft_lt (p.2.flatten ++ s.currSccSet) a
      have hcount := congrArg UInt32.toNat ((hok.left a ha hnot).symm.trans heq)
      rw [toNat_incomingLeft] at hcount
      change _ = 2 ^ 32 - 1 at hcount
      omega
  rw [hrest]
  generalize hcurr : s.currSccSet ++
    d.nodes.filter (fun scc => scc ∉ p.2.flatten ++ s.currSccSet) = curr
  have hall : (p.2.flatten ++ curr).Perm d.nodes := by
    rw [← hcurr, ← List.append_assoc]
    exact append_rest_perm hok.nodup hok.mem
  by_cases hempty : curr.isEmpty
  · rw [if_pos hempty]
    rw [List.isEmpty_iff.1 hempty, List.append_nil] at hall
    exact ⟨IsPartition.of_closed hall h.closed, h.length.trans (Nat.le_succ n)⟩
  · rw [if_neg hempty]
    constructor
    · apply IsPartition.of_closed
      · rw [List.flatten_append, List.flatten_singleton]
        exact hall
      · exact closed_take_append h.closed (closed_nodes hall)
    · rw [List.length_append]
      exact Nat.succ_le_succ h.length

theorem stagesOk_foldlM (ops : DoubleOps D) (weight : α → D) (target : D) {n numThread : ℕ}
    (hn : n < numThread) (hfuel : d.nodes.length < fuel) :
    ∃ p, (List.range n).foldlM (d.addStage ops weight target numThread fuel)
      (d.getIncomingCountMap, []) = .ok p ∧ d.StagesOk n p := by
  induction n with
  | zero =>
      refine ⟨_, rfl, d.taken_init, fun k => ?_, le_rfl⟩
      simp [Closed]
  | succ n ih =>
      obtain ⟨p, hp, hok⟩ := ih (by omega)
      have hlast : n ≠ numThread - 1 := by omega
      obtain ⟨p', hp', hok'⟩ := hok.addStage ops weight target hlast hfuel
      refine ⟨p', ?_, hok'⟩
      rw [List.range_succ, foldlM_append_eq_ok]
      exact ⟨p, hp, foldlM_cons_eq_ok.2 ⟨p', hp', rfl⟩⟩

end Fill

/-- For every positive budget the stages are built, and they partition the DAG. -/
theorem partitionStages_spec {D : Type} (ops : DoubleOps D) (weight : α → D) {threadBudget : UInt32}
    (hbudget : 0 < threadBudget) {fuel : ℕ} (hfuel : d.nodes.length < fuel) :
    ∃ stages, d.partitionStages ops weight threadBudget fuel = .ok stages ∧ d.IsPartition stages ∧
      stages.length ≤ threadBudget.toNat := by
  have hnum : (min threadBudget (UInt32.ofNat d.nodes.length)).toNat =
      min threadBudget.toNat d.nodes.length := by
    have hlen := d.length_nodes_le
    have htoNat : (UInt32.ofNat d.nodes.length).toNat = d.nodes.length := by
      rw [UInt32.toNat_ofNat']
      omega
    change (if threadBudget ≤ UInt32.ofNat d.nodes.length then threadBudget
      else UInt32.ofNat d.nodes.length).toNat = _
    split_ifs with hle
    · rw [UInt32.le_iff_toNat_le, htoNat] at hle
      rw [min_eq_left hle]
    · rw [UInt32.le_iff_toNat_le, htoNat] at hle
      rw [htoNat, min_eq_right (by omega)]
  rw [partitionStages]
  simp only [hnum]
  generalize ops.divUnsigned _ _ = target
  cases hn : min threadBudget.toNat d.nodes.length with
  | zero =>
      have hpos : 0 < threadBudget.toNat := UInt32.lt_iff_toNat_lt.1 hbudget
      have hnil : d.nodes = [] := List.eq_nil_of_length_eq_zero (by omega)
      refine ⟨[], rfl, ⟨?_, ?_⟩, Nat.zero_le _⟩
      · rw [hnil]
        exact List.Perm.refl _
      · intro e he i j hi
        exact absurd hi (Nat.not_lt_zero i)
  | succ n =>
      obtain ⟨p, hp, hok⟩ := stagesOk_foldlM ops weight target (Nat.lt_succ_self n) hfuel
      obtain ⟨p', hp', hpart, hlen⟩ := hok.addLast ops weight target hfuel
      refine ⟨p'.2, ?_, hpart, hlen.trans (hn ▸ Nat.min_le_left _ _)⟩
      rw [List.range_succ, bind_eq_ok]
      exact ⟨p', foldlM_append_eq_ok.2 ⟨p, hp, foldlM_cons_eq_ok.2 ⟨p', hp', rfl⟩⟩, rfl⟩

/-- The stages that either critic builds hold every component once, and no edge leads back. -/
theorem stages_partition (d : SCCDAG α) :
    (∀ (fuel : ℕ) (weight : α → UInt64) (threadBudget : UInt32) (includeParallelStages : Bool)
      (stages : List (SCCStage α)),
      d.doallAndPipeline fuel weight threadBudget includeParallelStages = .ok (some stages) →
      AroundParallel stages ∧ d.IsPartition (stages.map SCCStage.sccs)) ∧
    ∀ (D : Type) (ops : DoubleOps D) (weight : α → D) (threadBudget : UInt32), 0 < threadBudget →
      ∀ fuel > d.nodes.length, ∃ stages,
        d.partitionStages ops weight threadBudget fuel = .ok stages ∧ d.IsPartition stages ∧
          stages.length ≤ threadBudget.toNat :=
  ⟨fun _ _ _ _ _ h => doallAndPipeline_spec h,
    fun _ ops weight _ hbudget _ hfuel => partitionStages_spec ops weight hbudget hfuel⟩

def intOps : DoubleOps ℤ where
  zero := 0
  minusOne := -1
  add := (· + ·)
  divUnsigned x n := x / n.toNat
  lt x y := x < y
  ofInt := id
  toInt := id

theorem stages_partition_threeInARow :
    (∃ stages, threeInARow.doallAndPipeline 20 (fun _ => 0) 22 true = .ok (some stages) ∧
      threeInARow.IsPartition (stages.map SCCStage.sccs)) ∧
    ∃ stages, threeInARow.partitionStages intOps (fun _ => 1) 2 4 = .ok stages ∧
      threeInARow.IsPartition stages ∧ stages.length ≤ 2 := by
  refine ⟨⟨[⟨.parallel, [0, 1], 21⟩, ⟨.sequential, [2], 1⟩], by decide +kernel, ?_⟩, ?_⟩
  · exact ((stages_partition threeInARow).1 20 (fun _ => 0) 22 true _ (by decide +kernel)).2
  · exact (stages_partition threeInARow).2 ℤ intOps (fun _ => 1) 2 (by decide) 4 (by decide)

/-- With no thread there are no stages, and the components are in none. -/
theorem no_stages_without_threads :
    threeInARow.partitionStages intOps (fun _ => 1) 0 4 = .ok [] ∧ ¬ threeInARow.IsPartition [] := by
  refine ⟨rfl, fun h => ?_⟩
  have hlen := h.once.length_eq
  exact absurd hlen (by decide)

end Cpf.Pipeline.SCCDAG
