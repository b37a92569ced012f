import Cpf.Basics.Clique
import Cpf.Basics.Loop

/-!
# The clique search of loop selection

`ebk` is a Bron–Kerbosch search for a clique of greatest weight. Vertices are `unsigned`, weights
are `long`, and the sum over a clique is kept in an `int`; the number of vertices is the number of
weights, cut to an `unsigned`.
-/

namespace Cpf.Graph

structure Best where
  best : List ℕ
  bestWt : Int32
  deriving DecidableEq, Repr

/-- `c_wt += W[v]`: a `long` is added to an `int`. -/
def addWeight (W : List Int64) (wt : Int32) (v : ℕ) : Int32 := (wt.toInt64 + W.getD v 0).toInt32

def cliqueWeight (W : List Int64) (c : List ℕ) : Int32 := c.foldl (addWeight W) 0

def record (W : List Int64) (b : Best) (c : List ℕ) : Best :=
  if b.bestWt < cliqueWeight W c then ⟨c, cliqueWeight W c⟩ else b

/-- The vertices of `p` that are neighbours of `v`, in ascending order. -/
def meet (E : Finset (ℕ × ℕ)) (N v : ℕ) (p : List ℕ) : List ℕ :=
  (List.range N).filter fun i => decide ((v, i) ∈ E) && decide (i ∈ p)

/-- The loop over `p`, whose last vertex is the head here. -/
def rounds (visit : ℕ → List ℕ → List ℕ → Best → Except Unit Best) (E : Finset (ℕ × ℕ)) (N : ℕ) :
    List ℕ → List ℕ → Best → Except Unit Best
  | [], _, b => .ok b
  | v :: p, s, b => do
    let b ← visit v (meet E N v (v :: p)) (meet E N v s) b
    rounds visit E N p (s ++ [v]) b

/-- The recursion. `fuel` bounds its depth. -/
def extend (E : Finset (ℕ × ℕ)) (W : List Int64) (N : ℕ) :
    ℕ → List ℕ → List ℕ → List ℕ → Best → Except Unit Best
  | 0, _, _, _, _ => .error ()
  | fuel + 1, c, p, s, b =>
    if p = [] ∧ s = [] then .ok (record W b c)
    else rounds (fun v => extend E W N fuel (c ++ [v])) E N p.reverse s b

/-- `const unsigned N = W.size()`. -/
def vertexCount (W : List Int64) : ℕ := W.length % 2 ^ 32

def ebk (fuel : ℕ) (E : Finset (ℕ × ℕ)) (W : List Int64) (mwcp : List ℕ) : Except Unit Best :=
  extend E W (vertexCount W) fuel [] (List.range (vertexCount W)) [] ⟨mwcp, -1000⟩

/-! ### The cliques that are recorded -/

/-- The cliques that the rounds over `p` come to, in order. -/
def roundLeaves (visit : ℕ → List ℕ → List ℕ → Except Unit (List (List ℕ)))
    (E : Finset (ℕ × ℕ)) (N : ℕ) : List ℕ → List ℕ → Except Unit (List (List ℕ))
  | [], _ => .ok []
  | v :: p, s => do
    let l ← visit v (meet E N v (v :: p)) (meet E N v s)
    let l' ← roundLeaves visit E N p (s ++ [v])
    return l ++ l'

def leaves (E : Finset (ℕ × ℕ)) (N : ℕ) :
    ℕ → List ℕ → List ℕ → List ℕ → Except Unit (List (List ℕ))
  | 0, _, _, _ => .error ()
  | fuel + 1, c, p, s =>
    if p = [] ∧ s = [] then .ok [c]
    else roundLeaves (fun v => leaves E N fuel (c ++ [v])) E N p.reverse s

variable {E : Finset (ℕ × ℕ)} {W : List Int64} {N fuel : ℕ} {c p s : List ℕ} {v : ℕ} {b : Best}
  {K : Finset ℕ} {l : List (List ℕ)}

theorem rounds_eq {visit : ℕ → List ℕ → List ℕ → Best → Except Unit Best}
    {visit' : ℕ → List ℕ → List ℕ → Except Unit (List (List ℕ))}
    (hvisit : ∀ v p s l, visit' v p s = .ok l → ∀ b, visit v p s b = .ok (l.foldl (record W) b))
    (h : roundLeaves visit' E N p s = .ok l) (b : Best) :
    rounds visit E N p s b = .ok (l.foldl (record W) b) := by
  induction p generalizing s l b with
  | nil =>
    cases h
    rfl
  | cons v p ih =>
    obtain ⟨l₁, h₁, h⟩ := bind_eq_ok.1 h
    obtain ⟨l₂, h₂, h⟩ := bind_eq_ok.1 h
    cases h
    rw [List.foldl_append]
    exact bind_eq_ok.2 ⟨_, hvisit _ _ _ _ h₁ b, ih h₂ _⟩

/-- The search records its leaves one after the other. -/
theorem extend_eq (h : leaves E N fuel c p s = .ok l) (b : Best) :
    extend E W N fuel c p s b = .ok (l.foldl (record W) b) := by
  induction fuel generalizing c p s l b with
  | zero => cases h
  | succ fuel ih =>
    unfold leaves at h
    unfold extend
    split_ifs at h ⊢ with hnil
    · cases h
      rfl
    · exact rounds_eq (fun v p s l hl b => ih hl b) h b

@[simp] theorem mem_meet {i : ℕ} : i ∈ meet E N v p ↔ i < N ∧ (v, i) ∈ E ∧ i ∈ p := by
  simp [meet]

theorem nodup_meet : (meet E N v p).Nodup := List.Nodup.filter _ List.nodup_range

/-- A symmetric edge set without loops. -/
structure EdgesOk (E : Finset (ℕ × ℕ)) : Prop where
  symm : ∀ u v, (u, v) ∈ E → (v, u) ∈ E
  irrefl : ∀ v, (v, v) ∉ E

abbrev Adj (E : Finset (ℕ × ℕ)) (u v : ℕ) : Prop := (u, v) ∈ E

abbrev CliqueBelow (E : Finset (ℕ × ℕ)) (N : ℕ) (K : Finset ℕ) : Prop :=
  IsClique (Adj E) (· < N) K

abbrev MaximalBelow (E : Finset (ℕ × ℕ)) (N : ℕ) (K : Finset ℕ) : Prop :=
  IsMaximal (Adj E) (· < N) K

structure Between (c p : List ℕ) (K : Finset ℕ) : Prop where
  base : ∀ v ∈ c, v ∈ K
  added : ∀ v ∈ K, v ∈ c ∨ v ∈ p

/-- Every leaf is a maximal clique, and every maximal clique in `covered` is a leaf. -/
structure Leaves (E : Finset (ℕ × ℕ)) (N : ℕ) (covered : Finset ℕ → Prop)
    (l : List (List ℕ)) : Prop where
  sound : ∀ c ∈ l, c.Nodup ∧ MaximalBelow E N c.toFinset
  complete : ∀ K, MaximalBelow E N K → covered K → ∃ c ∈ l, c.toFinset = K

theorem Between.eq_of_nil (h : Between c [] K) : K = c.toFinset := by
  ext v
  rw [List.mem_toFinset]
  exact ⟨fun hv => (h.added v hv).resolve_right List.not_mem_nil, h.base v⟩

/-- What a call of the search does, given that every call on fewer candidates does it. -/
def Visits (E : Finset (ℕ × ℕ)) (N : ℕ) (c : List ℕ) (size : ℕ)
    (visit : ℕ → List ℕ → List ℕ → Except Unit (List (List ℕ))) : Prop :=
  ∀ v p s, Split (Adj E) (· < N) (c ++ [v]) p s → p.length < size →
    ∃ l, visit v p s = .ok l ∧ Leaves E N (Between (c ++ [v]) p) l

theorem length_meet_lt (hE : EdgesOk E) : (meet E N v (v :: p)).length < (v :: p).length := by
  have hsubset : meet E N v (v :: p) ⊆ p := by
    intro i hi
    obtain ⟨-, hadj, hmem⟩ := mem_meet.1 hi
    refine (List.mem_cons.1 hmem).resolve_left (fun heq => hE.irrefl v ?_)
    rwa [heq] at hadj
  have hle := (nodup_meet.subperm hsubset).length_le
  rw [List.length_cons]
  omega

/-- A clique with the vertex of the round in it is found by the visit. -/
theorem Between.visit (hK : MaximalBelow E N K) (h : Between c (v :: p) K) (hv : v ∈ K) :
    Between (c ++ [v]) (meet E N v (v :: p)) K where
  base u hu := by
    rcases List.mem_append.1 hu with hu | hu
    · exact h.base u hu
    · rwa [List.mem_singleton.1 hu]
  added u hu := by
    rw [List.mem_append, List.mem_singleton, mem_meet]
    rcases h.added u hu with hc | hp
    · exact .inl (.inl hc)
    · by_cases heq : u = v
      · exact .inl (.inr heq)
      · exact .inr ⟨hK.mem u hu, hK.edge v hv u hu (Ne.symm heq), hp⟩

/-- One without is found by the later rounds. -/
theorem Between.next (h : Between c (v :: p) K) (hv : v ∉ K) : Between c p K where
  base := h.base
  added u hu := (h.added u hu).imp_right (fun hmem =>
    (List.mem_cons.1 hmem).resolve_left (fun heq : u = v => hv (heq ▸ hu)))

theorem Split.meet (hE : EdgesOk E) (h : Split (Adj E) (· < N) c (v :: p) s) :
    Split (Adj E) (· < N) (c ++ [v]) (meet E N v (v :: p)) (meet E N v s) := by
  refine h.visit hE.symm hE.irrefl (fun u => ?_) (fun u => ?_) nodup_meet
  · rw [mem_meet, and_iff_right_of_imp]
    exact fun hu => ((h.common u).1 (.inl hu.2)).1
  · rw [mem_meet, and_iff_right_of_imp]
    exact fun hu => ((h.common u).1 (.inr hu.2)).1

theorem roundLeaves_spec (hE : EdgesOk E)
    {visit : ℕ → List ℕ → List ℕ → Except Unit (List (List ℕ))} {size : ℕ}
    (hvisit : Visits E N c size visit) (h : Split (Adj E) (· < N) c p s) (hsize : p.length ≤ size) :
    ∃ l, roundLeaves visit E N p s = .ok l ∧
      Leaves E N (fun K => Between c p K ∧ K ≠ c.toFinset) l := by
  induction p generalizing s with
  | nil =>
    exact ⟨[], rfl, by simp, fun K _ hK => absurd hK.1.eq_of_nil hK.2⟩
  | cons v p ih =>
    obtain ⟨l₁, hl₁, h₁⟩ := hvisit v _ _ (Split.meet hE h) ((length_meet_lt hE).trans_le hsize)
    obtain ⟨l₂, hl₂, h₂⟩ := ih h.next (Nat.le_of_succ_le hsize)
    refine ⟨l₁ ++ l₂, bind_eq_ok.2 ⟨l₁, hl₁, bind_eq_ok.2 ⟨l₂, hl₂, rfl⟩⟩, fun c' hc' => ?_,
      fun K hK hcovered => ?_⟩
    · exact (List.mem_append.1 hc').elim (h₁.sound c') (h₂.sound c')
    · by_cases hv : v ∈ K
      · obtain ⟨c', hc', heq⟩ := h₁.complete K hK (hcovered.1.visit hK hv)
        exact ⟨c', List.mem_append_left l₂ hc', heq⟩
      · obtain ⟨c', hc', heq⟩ := h₂.complete K hK ⟨hcovered.1.next hv, hcovered.2⟩
        exact ⟨c', List.mem_append_right l₁ hc', heq⟩

/-- The search ends, given more fuel than candidates, and its leaves are the maximal cliques that
arise from its clique by adding candidates. -/
theorem leaves_spec (hE : EdgesOk E) (h : Split (Adj E) (· < N) c p s) (hfuel : p.length < fuel) :
    ∃ l, leaves E N fuel c p s = .ok l ∧ Leaves E N (Between c p) l := by
  induction fuel generalizing c p s with
  | zero => exact absurd hfuel (Nat.not_lt_zero _)
  | succ fuel ih =>
    unfold leaves
    split_ifs with hnil
    · obtain ⟨rfl, rfl⟩ := hnil
      refine ⟨[c], rfl, fun c' hc' => ?_, fun K _ hK => ⟨c, List.mem_singleton_self c, ?_⟩⟩
      · rw [List.mem_singleton.1 hc']
        exact ⟨h.nodup, h.maximal_of_nil⟩
      · exact hK.eq_of_nil.symm
    · have hvisit : Visits E N c fuel (fun v => leaves E N fuel (c ++ [v])) :=
        fun v p s hsplit hlt => ih hsplit hlt
      obtain ⟨l, hl, hround⟩ := roundLeaves_spec hE hvisit h.reverse
        (by rw [List.length_reverse]; exact Nat.le_of_lt_succ hfuel)
      refine ⟨l, hl, hround.sound, fun K hK hbetween => ?_⟩
      refine hround.complete K hK ⟨⟨hbetween.base, fun v hv => ?_⟩, fun heq => hnil ?_⟩
      · rw [List.mem_reverse]
        exact hbetween.added v hv
      · exact h.eq_nil_of_maximal hE.irrefl (heq ▸ hK)

/-- The leaves of the whole search are the maximal cliques. -/
theorem ebk_eq (hE : EdgesOk E) (hfuel : vertexCount W < fuel) : ∃ l,
    leaves E (vertexCount W) fuel [] (List.range (vertexCount W)) [] = .ok l ∧
    (∀ mwcp, ebk fuel E W mwcp = .ok (l.foldl (record W) ⟨mwcp, -1000⟩)) ∧
    Leaves E (vertexCount W) (fun _ => True) l := by
  have hstart : Split (Adj E) (· < vertexCount W) [] (List.range (vertexCount W)) [] :=
    .start List.nodup_range (fun v => List.mem_range)
  obtain ⟨l, hl, hleaves⟩ := leaves_spec hE hstart (by rwa [List.length_range])
  refine ⟨l, hl, fun mwcp => extend_eq hl _, hleaves.sound, fun K hK _ => ?_⟩
  exact hleaves.complete K hK ⟨by simp, fun v hv => .inr (List.mem_range.2 (hK.mem v hv))⟩

/-! ### The best of them -/

/-- What is recorded outweighs what was before and all that came, and is one of these. -/
structure Recorded (W : List Int64) (l : List (List ℕ)) (b b' : Best) : Prop where
  mono : b.bestWt ≤ b'.bestWt
  ge : ∀ c ∈ l, cliqueWeight W c ≤ b'.bestWt
  mem : b' = b ∨ ∃ c ∈ l, b' = ⟨c, cliqueWeight W c⟩

theorem record_recorded (W : List Int64) (b : Best) (c : List ℕ) :
    Recorded W [c] b (record W b c) := by
  unfold record
  split_ifs with hlt
  · exact ⟨Int32.le_of_lt hlt, by simp, .inr ⟨c, List.mem_singleton_self c, rfl⟩⟩
  · refine ⟨Int32.le_refl _, fun c' hc' => ?_, .inl rfl⟩
    rw [List.mem_singleton.1 hc']
    exact Int32.not_lt.1 hlt

theorem foldl_recorded (W : List Int64) (l : List (List ℕ)) (b : Best) :
    Recorded W l b (l.foldl (record W) b) := by
  induction l generalizing b with
  | nil => exact ⟨Int32.le_refl _, by simp, .inl rfl⟩
  | cons c l ih =>
    have hfirst := record_recorded W b c
    have hrest := ih (record W b c)
    refine ⟨Int32.le_trans hfirst.mono hrest.mono, fun c' hc' => ?_, ?_⟩
    · rcases List.mem_cons.1 hc' with rfl | hc'
      · exact Int32.le_trans (hfirst.ge _ (List.mem_singleton_self _)) hrest.mono
      · exact hrest.ge c' hc'
    · rcases hrest.mem with heq | ⟨c', hc', heq⟩
      · rw [List.foldl_cons, heq]
        exact hfirst.mem.imp_right (fun ⟨c', hc', h⟩ =>
          ⟨c', List.mem_cons.2 (.inl (List.mem_singleton.1 hc')), h⟩)
      · exact .inr ⟨c', List.mem_cons_of_mem c hc', heq⟩

/-- The clique that is selected when none is passed. -/
theorem ebk_clique (hE : EdgesOk E) (hfuel : vertexCount W < fuel) : ∃ b,
    ebk fuel E W [] = .ok b ∧ ∀ u ∈ b.best, ∀ v ∈ b.best, u ≠ v → (u, v) ∈ E := by
  obtain ⟨l, -, hebk, hleaves⟩ := ebk_eq hE hfuel
  refine ⟨_, hebk [], fun u hu v hv hne => ?_⟩
  rcases (foldl_recorded W l ⟨[], -1000⟩).mem with heq | ⟨c, hc, heq⟩
  · rw [heq] at hu
    exact absurd hu List.not_mem_nil
  · rw [heq] at hu hv
    have hclique := (hleaves.sound c hc).2
    exact hclique.edge u (List.mem_toFinset.2 hu) v (List.mem_toFinset.2 hv) hne

/-! ### Weights as integers -/

def weightOf (W : List Int64) (K : Finset ℕ) : ℤ := ∑ v ∈ K, (W.getD v 0).toInt

theorem toInt_addWeight (W : List Int64) (wt : Int32) (v : ℕ) :
    (addWeight W wt v).toInt = (wt.toInt + (W.getD v 0).toInt).bmod (2 ^ 32) := by
  rw [addWeight, Int64.toInt_toInt32, Int64.toInt_add, Int32.toInt_toInt64]
  exact Int.bmod_bmod_of_dvd (by norm_num)

theorem toInt_foldl_addWeight (W : List Int64) (hc : c.Nodup) (wt : Int32) :
    (c.foldl (addWeight W) wt).toInt = (wt.toInt + weightOf W c.toFinset).bmod (2 ^ 32) := by
  induction c generalizing wt with
  | nil =>
    rw [List.foldl_nil, List.toFinset_nil, weightOf, Finset.sum_empty, add_zero]
    exact (Int.bmod_eq_of_le wt.minValue_le_toInt wt.toInt_lt).symm
  | cons v c ih =>
    obtain ⟨hv, hc⟩ := List.nodup_cons.1 hc
    rw [List.foldl_cons, ih hc, toInt_addWeight, Int.bmod_add_bmod, List.toFinset_cons, weightOf,
      weightOf, Finset.sum_insert (by simpa using hv), add_assoc]

/-- The sum over a clique, cut to an `int`. -/
theorem toInt_cliqueWeight (W : List Int64) (hc : c.Nodup) :
    (cliqueWeight W c).toInt = (weightOf W c.toFinset).bmod (2 ^ 32) := by
  rw [cliqueWeight, toInt_foldl_addWeight W hc, Int32.toInt_zero, zero_add]

structure WeightsOk (W : List Int64) : Prop where
  nonneg : ∀ w ∈ W, 0 ≤ w.toInt
  total : (W.map Int64.toInt).sum < 2 ^ 31

theorem weightOf_range (W : List Int64) :
    weightOf W (Finset.range W.length) = (W.map Int64.toInt).sum := by
  induction W with
  | nil => rfl
  | cons w W ih =>
    rw [weightOf, List.length_cons, Finset.sum_range_succ', List.map_cons, List.sum_cons, ← ih,
      weightOf, add_comm]
    simp

namespace WeightsOk

theorem getD_nonneg (h : WeightsOk W) (v : ℕ) : 0 ≤ (W.getD v 0).toInt := by
  rw [List.getD_eq_getElem?_getD]
  rcases hv : W[v]? with _ | w
  · simp
  · exact h.nonneg w (List.mem_of_getElem? hv)

theorem weightOf_mono (h : WeightsOk W) {K L : Finset ℕ} (hKL : K ⊆ L) :
    weightOf W K ≤ weightOf W L :=
  Finset.sum_le_sum_of_subset_of_nonneg hKL (fun v _ _ => h.getD_nonneg v)

theorem toInt_cliqueWeight_eq (h : WeightsOk W) (hN : N ≤ W.length) (hc : c.Nodup)
    (hlt : ∀ v ∈ c, v < N) : (cliqueWeight W c).toInt = weightOf W c.toFinset := by
  have hnonneg : 0 ≤ weightOf W c.toFinset := Finset.sum_nonneg (fun v _ => h.getD_nonneg v)
  have hle : weightOf W c.toFinset ≤ (W.map Int64.toInt).sum := by
    rw [← weightOf_range]
    exact h.weightOf_mono (fun v hv =>
      Finset.mem_range.2 ((hlt v (List.mem_toFinset.1 hv)).trans_le hN))
  have htotal := h.total
  rw [toInt_cliqueWeight W hc]
  exact Int.bmod_eq_of_le (by omega) (by omega)

end WeightsOk

/-- What the search has found is a duplicate-free clique with its weight. -/
structure Found (E : Finset (ℕ × ℕ)) (W : List Int64) (N : ℕ) (b : Best) : Prop where
  nodup : b.best.Nodup
  clique : CliqueBelow E N b.best.toFinset
  weight : b.bestWt.toInt = weightOf W b.best.toFinset

/-- The search finds a clique of greatest weight among the vertices below `vertexCount W`. -/
theorem ebk_max (hE : EdgesOk E) (hW : WeightsOk W) (mwcp : List ℕ)
    (hfuel : vertexCount W < fuel) : ∃ b, ebk fuel E W mwcp = .ok b ∧
      Found E W (vertexCount W) b ∧
      ∀ K, CliqueBelow E (vertexCount W) K → weightOf W K ≤ b.bestWt.toInt := by
  have hN : vertexCount W ≤ W.length := Nat.mod_le _ _
  obtain ⟨l, -, hebk, hleaves⟩ := ebk_eq hE hfuel
  have hrecorded := foldl_recorded W l ⟨mwcp, -1000⟩
  have hexact : ∀ c ∈ l, (cliqueWeight W c).toInt = weightOf W c.toFinset := by
    intro c hc
    obtain ⟨hnodup, hclique⟩ := hleaves.sound c hc
    exact hW.toInt_cliqueWeight_eq hN hnodup (fun v hv => hclique.mem v (List.mem_toFinset.2 hv))
  have hmax : ∀ K, CliqueBelow E (vertexCount W) K →
      weightOf W K ≤ (l.foldl (record W) ⟨mwcp, -1000⟩).bestWt.toInt := by
    intro K hK
    obtain ⟨M, hsubset, hM⟩ := hK.exists_maximal hE.symm
      (D := Finset.range (vertexCount W)) (fun v hv => Finset.mem_range.2 hv)
    obtain ⟨c, hc, rfl⟩ := hleaves.complete M hM trivial
    calc weightOf W K ≤ weightOf W c.toFinset := hW.weightOf_mono hsubset
      _ = (cliqueWeight W c).toInt := (hexact c hc).symm
      _ ≤ _ := Int32.le_iff_toInt_le.1 (hrecorded.ge c hc)
  refine ⟨_, hebk mwcp, ?_, hmax⟩
  rcases hrecorded.mem with heq | ⟨c, hc, heq⟩
  · have hempty := hmax ∅ ⟨by simp, by simp⟩
    rw [weightOf, Finset.sum_empty, heq] at hempty
    have hstart : ¬ 0 ≤ (-1000 : Int32).toInt := by decide
    exact absurd hempty hstart
  · obtain ⟨hnodup, hclique⟩ := hleaves.sound c hc
    rw [heq]
    exact ⟨hnodup, hclique.toIsClique, hexact c hc⟩

/-- `ebk` ends with a duplicate-free clique of greatest weight in `mwcp`, and returns its weight. -/
def FindsMaximum (E : Finset (ℕ × ℕ)) (W : List Int64) (mwcp : List ℕ) : Prop :=
  ∃ enough, ∀ fuel ≥ enough, ∃ b, ebk fuel E W mwcp = .ok b ∧ Found E W W.length b ∧
    ∀ K, CliqueBelow E W.length K → weightOf W K ≤ b.bestWt.toInt

theorem FindsMaximum.le_below (hE : EdgesOk E) (hW : WeightsOk W) {mwcp : List ℕ}
    (h : FindsMaximum E W mwcp) (hK : CliqueBelow E W.length K) :
    ∃ L, CliqueBelow E (vertexCount W) L ∧ weightOf W K ≤ weightOf W L := by
  obtain ⟨enough, h⟩ := h
  obtain ⟨b, hb, -, hmax⟩ := h (max enough (vertexCount W + 1)) (le_max_left _ _)
  obtain ⟨b', hb', hfound, -⟩ := ebk_max hE hW mwcp
    (lt_of_lt_of_le (Nat.lt_succ_self _) (le_max_right enough (vertexCount W + 1)))
  obtain rfl : b = b' := Except.ok.inj (hb.symm.trans hb')
  exact ⟨_, hfound.clique, (hmax K hK).trans hfound.weight.le⟩

/-- `ebk` finds a maximum exactly when no clique outweighs all those of the vertices below `vertexCount W`. -/
theorem ebk_maximum_iff (hE : EdgesOk E) (hW : WeightsOk W) (mwcp : List ℕ) :
    FindsMaximum E W mwcp ↔ ∀ K, CliqueBelow E W.length K →
      ∃ L, CliqueBelow E (W.length % 2 ^ 32) L ∧ weightOf W K ≤ weightOf W L := by
  refine ⟨fun h K hK => h.le_below hE hW hK, fun h => ?_⟩
  refine ⟨vertexCount W + 1, fun fuel hfuel => ?_⟩
  obtain ⟨b, hb, hfound, hmax⟩ := ebk_max hE hW mwcp hfuel
  have hclique := hfound.clique
  refine ⟨b, hb, ⟨hfound.nodup, ⟨fun v hv => ?_, hclique.edge⟩, hfound.weight⟩, fun K hK => ?_⟩
  · exact (hclique.mem v hv).trans_le (Nat.mod_le _ _)
  · obtain ⟨L, hL, hle⟩ := h K hK
    exact hle.trans (hmax L hL)

/-- With fewer than `2 ^ 32` weights, as many as `unsigned` counts, the clique is one of greatest weight. -/
theorem ebk_maximum (hE : EdgesOk E) (hW : WeightsOk W) (hlen : W.length < 2 ^ 32) (mwcp : List ℕ) :
    FindsMaximum E W mwcp := by
  refine (ebk_maximum_iff hE hW mwcp).2 fun K hK => ⟨K, ?_, le_rfl⟩
  rw [Nat.mod_eq_of_lt hlen]
  exact hK

theorem edgesOk_pair : EdgesOk {(0, 1), (1, 0)} where
  symm u v h := by
    simp only [Finset.mem_insert, Finset.mem_singleton, Prod.mk.injEq] at h ⊢
    omega
  irrefl v h := by
    simp only [Finset.mem_insert, Finset.mem_singleton, Prod.mk.injEq] at h
    omega

theorem weightsOk_three : WeightsOk [3, 4, 5] where
  nonneg w hw := by
    simp only [List.mem_cons, List.not_mem_nil, or_false] at hw
    rcases hw with rfl | rfl | rfl
    · exact Int.zero_le_ofNat 3
    · exact Int.zero_le_ofNat 4
    · exact Int.zero_le_ofNat 5
  total := by decide

theorem ebk_maximum_pair : FindsMaximum {(0, 1), (1, 0)} [3, 4, 5] [] :=
  ebk_maximum edgesOk_pair weightsOk_three (by decide) []

/-- One loop with a weight, and as many without that all of them are `2 ^ 32`. -/
def manyLoops : List Int64 := 1 :: List.replicate (2 ^ 32 - 1) 0

theorem length_manyLoops : manyLoops.length = 2 ^ 32 := by
  rw [manyLoops, List.length_cons, List.length_replicate]
  norm_num

theorem manyLoops_ok : WeightsOk manyLoops where
  nonneg w hw := by
    rcases List.mem_cons.1 hw with rfl | hw
    · decide
    · rw [(List.mem_replicate.1 hw).2]
      decide
  total := by
    rw [manyLoops, List.map_cons, List.sum_cons, List.map_replicate, List.sum_replicate,
      Int64.toInt_zero, smul_zero]
    decide

/-- The number of vertices wraps to zero, and the only clique found is the empty one. -/
theorem ebk_misses_loop : WeightsOk manyLoops ∧ EdgesOk ∅ ∧ ¬ FindsMaximum ∅ manyLoops [] := by
  have hE : EdgesOk ∅ := ⟨by simp, by simp⟩
  refine ⟨manyLoops_ok, hE, fun h => ?_⟩
  have hK : CliqueBelow ∅ manyLoops.length {0} := by
    refine ⟨fun v hv => ?_, fun u hu v hv hne => ?_⟩
    · rw [Finset.mem_singleton.1 hv, length_manyLoops]
      norm_num
    · rw [Finset.mem_singleton.1 hu, Finset.mem_singleton.1 hv] at hne
      exact absurd rfl hne
  obtain ⟨L, hL, hle⟩ := h.le_below hE manyLoops_ok hK
  have hempty : L = ∅ := by
    refine Finset.eq_empty_of_forall_notMem (fun v hv => ?_)
    have hlt := hL.mem v hv
    rw [vertexCount, length_manyLoops, Nat.mod_self] at hlt
    exact Nat.not_lt_zero v hlt
  rw [hempty, weightOf, weightOf, Finset.sum_singleton, Finset.sum_empty, manyLoops,
    List.getD_cons_zero] at hle
  exact absurd hle (by decide)

end Cpf.Graph
