import Cpf.Executive.GroupMarks

/-!
# Privatization is sound inside a checkpoint group

After a run without misspeculation the marks of every worker describe its accesses, by induction
over its iterations and their accesses. The merge of the marks then finds every flow between two
iterations of the group.
-/

namespace Cpf.Executive
open Heap

namespace Group

variable {size : HeapLen} (g : Group size.val)

theorem runBefore_succ {j : ℕ} (hj : g.base ≤ j) {w : Fin g.numWorkers} {v : Worker} :
    g.runBefore w (j + 1) = .ok v ↔
      ∃ u, g.runBefore w j = .ok u ∧ (if g.owner j = w then g.runIter u j else .ok u) = .ok v := by
  rw [runBefore, g.itersBefore_succ hj, foldlM_append_eq_ok]
  refine exists_congr (fun u => and_congr_right (fun _ => ?_))
  split_ifs
  · rw [foldlM_cons_eq_ok]
    exact ⟨fun ⟨t, ht, hv⟩ => by cases hv; exact ht, fun ht => ⟨v, ht, rfl⟩⟩
  · exact Iff.rfl

theorem exists_runBefore {w : Fin g.numWorkers} {j m : ℕ} (hj : g.base ≤ j) (hm : j ≤ m)
    (h : ∃ v, g.runBefore w m = .ok v) : ∃ v, g.runBefore w j = .ok v := by
  induction m, hm using Nat.le_induction with
  | base => exact h
  | succ m hm ih =>
      obtain ⟨v, hv⟩ := h
      obtain ⟨u, hu, _⟩ := (g.runBefore_succ (hj.trans hm)).1 hv
      exact ih ⟨u, hu⟩

/-- A run of the whole group passes through the state before each of its accesses. -/
theorem exists_stateBefore {j : ℕ} (hj : g.base ≤ j) (hj' : j < g.stop) {v : Worker}
    (hrun : g.run (g.owner j) = .ok v) {pre post : List Op} {r : Op}
    (hb : g.body j = pre ++ r :: post) :
    ∃ u t, g.stateBefore j pre = .ok u ∧ r.exec u = .ok t := by
  obtain ⟨t, ht⟩ := g.exists_runBefore (by omega) hj' ⟨v, hrun⟩
  obtain ⟨u, hu, hiter⟩ := (g.runBefore_succ hj).1 ht
  rw [if_pos rfl, runIter, hb] at hiter
  obtain ⟨x, hx, hrest⟩ := foldlM_append_eq_ok.1 hiter
  obtain ⟨y, hy, _⟩ := foldlM_cons_eq_ok.1 hrest
  exact ⟨x, y, bind_eq_ok.2 ⟨u, hu, hx⟩, hy⟩

theorem history_succ {j : ℕ} (hj : g.base ≤ j) (w : Fin g.numWorkers) :
    g.history w (j + 1) =
      g.history w j ++ if g.owner j = w then (g.body j).map (fun o => (j, o)) else [] := by
  rw [history, g.itersBefore_succ hj, List.flatMap_append, history]
  split_ifs <;> simp

variable {g}

theorem tracked_accesses (h16 : g.NoStride16) (hchk : g.WritesChecked) {j : ℕ} (hj : g.base ≤ j)
    (hj' : j < g.stop) {u : Worker} (hu : g.runBefore (g.owner j) j = .ok u)
    (htu : Tracked g (g.history (g.owner j) j) u) (pre : List Op) :
    ∀ post, g.body j = pre ++ post → ∀ v, pre.foldlM Op.exec (u.advanceIter j 1) = .ok v →
      Tracked g (g.history (g.owner j) j ++ pre.map (fun o => (j, o))) v ∧ v.code8 = g.code j := by
  induction pre using List.reverseRecOn with
  | nil =>
      rintro post _ v hv
      cases hv
      rw [List.map_nil, List.append_nil]
      exact ⟨htu.advanceIter j, htu.advanceIter_code8 j⟩
  | append_singleton pre o ih =>
      intro post hb v hv
      obtain ⟨t, ht, hrest⟩ := foldlM_append_eq_ok.1 hv
      obtain ⟨v', hv', hnil⟩ := foldlM_cons_eq_ok.1 hrest
      cases hnil
      rw [List.append_assoc, List.singleton_append] at hb
      obtain ⟨htt, hcode⟩ := ih (o :: post) hb t ht
      have hmem : o ∈ g.body j := by
        rw [hb]
        simp
      have hH : ∀ e ∈ g.history (g.owner j) j ++ pre.map (fun o => (j, o)),
          g.base ≤ e.1 ∧ e.1 < g.stop := by
        intro e he
        rcases List.mem_append.1 he with he | he
        · obtain ⟨⟨hlo, hhi⟩, _⟩ := g.mem_history.1 he
          exact ⟨hlo, hhi.trans hj'⟩
        · obtain ⟨_, _, rfl⟩ := List.mem_map.1 he
          exact ⟨hj, hj'⟩
      have hstep := htt.exec hcode hj hj' hH (h16 j o hmem) (g.inHeap j o hmem)
        (hchk j hj hj' pre o post hb t (bind_eq_ok.2 ⟨u, hu, ht⟩)) hv'
      rwa [List.append_assoc, ← List.map_singleton, ← List.map_append] at hstep

/-- The run lemma: what a worker has done before iteration `j` is what its marks say. -/
theorem tracked_runBefore (h16 : g.NoStride16) (hchk : g.WritesChecked) (w : Fin g.numWorkers)
    {j : ℕ} (hj : g.base ≤ j) : j ≤ g.stop → ∀ v, g.runBefore w j = .ok v →
      Tracked g (g.history w j) v := by
  induction j, hj using Nat.le_induction with
  | base =>
      intro _ v hv
      have hnil : g.itersBefore w g.base = [] := by simp [itersBefore, forRange]
      rw [runBefore, hnil] at hv
      cases hv
      rw [history, hnil]
      exact Tracked.initial g w
  | succ j hj ih =>
      intro hstop v hv
      obtain ⟨u, hu, hiter⟩ := (g.runBefore_succ hj).1 hv
      have htu := ih (by omega) u hu
      rw [g.history_succ hj]
      split_ifs at hiter ⊢ with hw
      · subst w
        exact (tracked_accesses h16 hchk hj (by omega) hu htu (g.body j) [] (by simp) v hiter).1
      · cases hiter
        rwa [List.append_nil]

/-- No iteration of the group reads a byte, before writing it, that another iteration writes, and
every such read sees the value from the start of the group. -/
def ReadsSeeStart {size : ℕ} (g : Group size) : Prop :=
  ∀ j, g.base ≤ j → j < g.stop → ∀ pre r post, g.body j = pre ++ r :: post →
    ∀ k, r.access.Reads k → (∀ o ∈ pre, ¬ o.access.Writes k) →
      (∀ i, g.base ≤ i → i < g.stop → i ≠ j → ∀ o ∈ g.body i, ¬ o.access.Writes k) ∧
      ∃ v, g.stateBefore j pre = .ok v ∧ v.priv k = g.start k

/-- A read before the own write of its iteration leaves its mark to the end of the run. -/
theorem exposed_of_body {j k : ℕ} (hj : g.base ≤ j) (hj' : j < g.stop) {pre post : List Op} {r : Op}
    (hb : g.body j = pre ++ r :: post) (hr : r.access.Reads k)
    (hno : ∀ o ∈ pre, ¬ o.access.Writes k) : Exposed (g.history (g.owner j) g.stop) k := by
  have hsplit : ∃ is₁ is₂, g.itersBefore (g.owner j) g.stop = is₁ ++ j :: is₂ ∧ j ∉ is₁ := by
    refine List.eq_append_cons_of_mem ?_
    simp [itersBefore, hj, hj']
  obtain ⟨is₁, is₂, his, hnot⟩ := hsplit
  refine ⟨is₁.flatMap (fun i => (g.body i).map (fun o => (i, o))) ++ pre.map (fun o => (j, o)), j, r,
    post.map (fun o => (j, o)) ++ is₂.flatMap (fun i => (g.body i).map (fun o => (i, o))), ?_, hr, ?_⟩
  · rw [history, his]
    simp [hb]
  · intro e he hej
    rcases List.mem_append.1 he with he | he
    · obtain ⟨i, hi, he⟩ := List.mem_flatMap.1 he
      obtain ⟨o, _, rfl⟩ := List.mem_map.1 he
      exact absurd (hej ▸ hi) hnot
    · obtain ⟨o, ho, rfl⟩ := List.mem_map.1 he
      exact hno o ho

theorem readsSeeStart_of_merge (h16 : g.NoStride16) (hchk : g.WritesChecked)
    {ws : Fin g.numWorkers → Worker} (hrun : ∀ w, g.run w = .ok (ws w))
    {order : List (Fin g.numWorkers)} (horder : ∀ w, w ∈ order) {chkpt p : Image}
    (hmerge : Image.mergeAll size.val (chkpt.initializePartial size.val)
      (order.map (fun w => (ws w).image)) = .ok p) : g.ReadsSeeStart := by
  intro j hj hj' pre r post hb k hr hno
  have htracked : ∀ w, Tracked g (g.history w g.stop) (ws w) :=
    fun w => tracked_runBefore h16 hchk w (by omega) le_rfl (ws w) (hrun w)
  have hread := (htracked (g.owner j)).exposed k (exposed_of_body hj hj' hb hr hno)
  refine ⟨fun i hi hi' _ o ho hwrites => ?_, ?_⟩
  · have hscan : ∀ w, (ws w).image.scanMark k = (ws w).shadow k := by
      intro w
      by_cases hl : (ws w).shadow k = liveIn
      · unfold Image.scanMark
        split_ifs
        · rfl
        · exact hl.symm
      · exact Image.scanMark_of_scanned
          (Image.scanned_of_mark_ne ((htracked w).covered k hl) hl)
    have hne : (ws (g.owner j)).shadow k ≠ liveIn := by
      rw [hread]
      decide
    have hk : k < size.val := ((htracked (g.owner j)).covered k hne).lt_size
      (htracked (g.owner j)).within size.aligned
    have hjoined := Image.joined_of_mergeAll (fun img himg => by
      obtain ⟨w, _, rfl⟩ := List.mem_map.1 himg
      exact (htracked w).within) hmerge
    have hapart := hjoined.apart k (Image.initializePartial_mark chkpt hk) _
      (List.mem_map_of_mem (horder (g.owner j))) _ (List.mem_map_of_mem (horder (g.owner i)))
      ((hscan (g.owner j)).trans hread)
    rw [hscan] at hapart
    have hunwritten : (ws (g.owner i)).shadow k = liveIn ∨ (ws (g.owner i)).shadow k = readLiveIn := by
      by_contra hc
      obtain ⟨h0, h1⟩ := not_or.1 hc
      rw [Image.wasWrittenEver_iff.2 ⟨h0, h1⟩] at hapart
      cases hapart
    exact ((htracked (g.owner i)).untouched k hunwritten).1 (i, o)
      (g.mem_history.2 ⟨⟨hi, hi'⟩, rfl, ho⟩) hwrites
  · obtain ⟨u, t, hu, ht⟩ := g.exists_stateBefore hj hj' (hrun (g.owner j)) hb
    refine ⟨u, hu, ?_⟩
    obtain ⟨x, hx, hpre⟩ := bind_eq_ok.1 hu
    have htx := tracked_runBefore h16 hchk (g.owner j) hj hj'.le x hx
    obtain ⟨htu, hcode⟩ := tracked_accesses h16 hchk hj hj' hx htx pre (r :: post) hb u hpre
    obtain ⟨y, hy, _⟩ := bind_eq_ok.1 ht
    have hmem : r ∈ g.body j := by
      rw [hb]
      simp
    have hmark := htu.mark_of_read hcode hj hj' (fun e he => by
      rcases List.mem_append.1 he with he | he
      · obtain ⟨⟨hlo, hhi⟩, _⟩ := g.mem_history.1 he
        exact ⟨hlo, hhi.trans hj'⟩
      · obtain ⟨_, _, rfl⟩ := List.mem_map.1 he
        exact ⟨hj, hj'⟩) (h16 j r hmem) hy hr (fun e he hej => by
      rcases List.mem_append.1 he with he | he
      · obtain ⟨⟨_, hhi⟩, _⟩ := g.mem_history.1 he
        omega
      · obtain ⟨o, ho, rfl⟩ := List.mem_map.1 he
        exact hno o ho)
    exact (htu.untouched k hmark.1).2

theorem checked_of_plain (hplain : ∀ i, ∀ o ∈ g.body i, o.access.isPlain = true) :
    g.NoStride16 ∧ g.WritesChecked := by
  refine ⟨fun i o ho => ?_, fun j _ _ pre o post hb v _ hskip => ?_⟩
  · have hp := hplain i o ho
    cases ha : o.access <;> simp_all [Access.isPlain, Access.isStride16]
  · have hp := hplain j o (by rw [hb]; simp)
    cases ha : o.access <;> simp_all [Access.isPlain, Access.skipsCheck]

/-- Privatization is sound inside one checkpoint group: if no access misspeculates and the merges,
in any order, report no conflict, every read that is not preceded by a write of its own iteration
sees the value from the start of the group, and no other iteration writes what it reads. -/
theorem privatization_sound (g : Group size.val)
    (hplain : ∀ i, ∀ o ∈ g.body i, o.access.isPlain = true) (ws : Fin g.numWorkers → Worker)
    (hrun : ∀ w, g.run w = .ok (ws w)) (order : List (Fin g.numWorkers))
    (horder : order.Perm (List.finRange g.numWorkers)) (chkpt p : Image)
    (hmerge : Image.mergeAll size.val (chkpt.initializePartial size.val)
      (order.map (fun w => (ws w).image)) = .ok p) : g.ReadsSeeStart :=
  readsSeeStart_of_merge (checked_of_plain hplain).1 (checked_of_plain hplain).2 hrun
    (fun w => horder.mem_iff.2 (List.mem_finRange w)) hmerge

/-- Two workers: iteration 0 reads byte 0, iteration 1 writes byte 8 and reads it back. -/
def readerAndOwner : Group sixteen.val where
  numWorkers := 2
  workers_pos := twoWorkers_pos
  workers_le := twoWorkers_le
  firstIteration := 0
  base := 0
  stop := 2
  first_le := zero_le_zero
  base_aligned := zero_aligned
  stop_le := two_le_granularity
  owner i := if i % 2 = 0 then 0 else 1
  body
    | 0 => [⟨.read1b 0 "read of byte 0", fun _ => 0⟩]
    | 1 => [⟨.write1b 8, fun _ => 9⟩, ⟨.read1b 8 "read of byte 8", fun _ => 0⟩]
    | _ => []
  inHeap i o ho := by
    match i with
    | 0 =>
        obtain rfl := List.mem_singleton.1 ho
        decide
    | 1 =>
        rcases List.mem_pair.1 ho with rfl | rfl
        · decide
        · decide
    | i + 2 => cases ho
  start := fun _ => 7
  initial _ := ⟨fun _ => 7, fun _ => liveIn, ShadowRange.reset, 0, 252, 3, 0, 0⟩
  initial_priv _ := rfl
  initial_shadow _ _ := rfl
  initial_range _ := Or.inl rfl
  initial_first _ := rfl
  initial_granularity _ := rfl

theorem privatization_sound_readerAndOwner : readerAndOwner.ReadsSeeStart :=
  privatization_sound readerAndOwner
    (fun i o ho => by
      match i with
      | 0 =>
          obtain rfl := List.mem_singleton.1 ho
          rfl
      | 1 =>
          rcases List.mem_pair.1 ho with rfl | rfl
          · rfl
          · rfl
      | i + 2 => cases ho)
    (fun w => match readerAndOwner.run w with
      | .ok v => v
      | .error _ => readerAndOwner.initial w)
    (Fin.forall_fin_two.2 ⟨rfl, rfl⟩)
    ([1, 0] : List (Fin 2)) (List.Perm.swap (0 : Fin 2) 1 []) ⟨fun _ => 0, fun _ => 0, ShadowRange.reset⟩ _ rfl

/-- Two workers: iteration 0 reads byte `2 ^ 32`, iteration 1 writes it. -/
def readerBeyondLen : Group beyondLen where
  numWorkers := 2
  workers_pos := twoWorkers_pos
  workers_le := twoWorkers_le
  firstIteration := 0
  base := 0
  stop := 2
  first_le := zero_le_zero
  base_aligned := zero_aligned
  stop_le := two_le_granularity
  owner i := if i % 2 = 0 then 0 else 1
  body
    | 0 => [⟨.read1b (2 ^ 32) "read behind 4 GB", fun _ => 0⟩]
    | 1 => [⟨.write1b (2 ^ 32), fun _ => 9⟩]
    | _ => []
  inHeap i o ho := by
    match i with
    | 0 =>
        obtain rfl := List.mem_singleton.1 ho
        decide
    | 1 =>
        obtain rfl := List.mem_singleton.1 ho
        decide
    | i + 2 => cases ho
  start := fun _ => 7
  initial _ := ⟨fun _ => 7, fun _ => liveIn, ShadowRange.reset, 0, 252, 3, 0, 0⟩
  initial_priv _ := rfl
  initial_shadow _ _ := rfl
  initial_range _ := Or.inl rfl
  initial_first _ := rfl
  initial_granularity _ := rfl

theorem readerBeyondLen_plain (i : ℕ) (o : Op) (ho : o ∈ readerBeyondLen.body i) : o.access.isPlain = true := by
  match i with
  | 0 =>
      obtain rfl := List.mem_singleton.1 ho
      rfl
  | 1 =>
      obtain rfl := List.mem_singleton.1 ho
      rfl
  | i + 2 => cases ho

/-- In a heap of more than 4 GB the merge does not look at the marks of byte `2 ^ 32`. -/
theorem flow_beyond_len_missed :
    ¬ ∀ (size : ℕ) (g : Group size), size % 16 = 0 → (∀ i, ∀ o ∈ g.body i, o.access.isPlain = true) →
      ∀ ws : Fin g.numWorkers → Worker, (∀ w, g.run w = .ok (ws w)) →
      ∀ order : List (Fin g.numWorkers), order.Perm (List.finRange g.numWorkers) → ∀ chkpt p : Image,
      Image.mergeAll size (chkpt.initializePartial size) (order.map fun w => (ws w).image) = .ok p →
      g.ReadsSeeStart := by
  intro hall
  have hsee := hall beyondLen readerBeyondLen rfl readerBeyondLen_plain
    (fun w => (readerBeyondLen.run w).toOption.getD (readerBeyondLen.initial w))
    (Fin.forall_fin_two.2 ⟨rfl, rfl⟩) ([0, 1] : List (Fin 2)) (List.Perm.refl _)
    ⟨fun _ => 0, fun _ => 0, ShadowRange.reset⟩ _ rfl
  exact (hsee 0 (by decide) (by decide) [] _ _ rfl (2 ^ 32) (by decide) (by simp)).1 1 (by decide)
    (by decide) (by decide) _ (List.mem_singleton.2 rfl) (by decide)

end Group
end Cpf.Executive
