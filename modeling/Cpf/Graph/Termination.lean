import Cpf.Graph.MinCut

/-!
# The searches and the maximum-flow loop end

A search visits every vertex once, and every augmentation raises what flows out of the source. As
no flow of the network is beyond 64 bits, `computeMinCut` returns.
-/

namespace Cpf.Graph

/-- The vertices that a search can get to. -/
def Network.nodes (g : Network) : Finset ℕ := g.edges.image Prod.fst ∪ g.edges.image Prod.snd

variable {g : Network} {used : ℕ → ℕ → UInt64} {f : ℕ × ℕ → ℕ} {fuel : ℕ}

theorem Network.Ok.mem_nodes (hg : g.Ok) {v w : ℕ} (he : w ∈ g.adj v) :
    v ∈ g.nodes ∧ w ∈ g.nodes := by
  have hmem := hg.mem_edges.2 he
  exact ⟨Finset.mem_union_left _ (Finset.mem_image.2 ⟨_, hmem, rfl⟩),
    Finset.mem_union_right _ (Finset.mem_image.2 ⟨_, hmem, rfl⟩)⟩

/-- A new member of a part of the nodes makes the rest smaller. -/
theorem card_filter_insert {P Q : ℕ → Prop} [DecidablePred P] [DecidablePred Q] {s : Finset ℕ}
    {w : ℕ} (hw : w ∈ s) (hP : ¬ P w) (hQ : ∀ x, Q x ↔ P x ∨ x = w) :
    (s.filter fun x => ¬ Q x).card + 1 ≤ (s.filter fun x => ¬ P x).card := by
  apply Finset.card_lt_card
  rw [Finset.ssubset_iff_of_subset]
  · refine ⟨w, Finset.mem_filter.2 ⟨hw, hP⟩, fun hmem => ?_⟩
    exact (Finset.mem_filter.1 hmem).2 ((hQ w).2 (Or.inr rfl))
  · intro x hx
    obtain ⟨hxs, hxQ⟩ := Finset.mem_filter.1 hx
    exact Finset.mem_filter.2 ⟨hxs, fun hxP => hxQ ((hQ x).2 (Or.inl hxP))⟩

namespace Bfs

/-- The work left: the fringe and the vertices not visited. -/
def size (g : Network) (b : Bfs) : ℕ :=
  b.fringe.length + (g.nodes.filter fun x => ¬ b.preds x ≠ none).card

variable {b : Bfs} {v w : ℕ} {flow : UInt64}

theorem size_update {fringe : List (ℕ × UInt64)} {found : Option UInt64} (hw : w ∈ g.nodes)
    (hnew : b.preds w = none) (hle : fringe.length ≤ b.fringe.length + 1) :
    size g ⟨Function.update b.preds w (some v), fringe, found⟩ ≤ size g b := by
  have hcard := card_filter_insert (P := fun x => b.preds x ≠ none)
    (Q := fun x => Function.update b.preds w (some v) x ≠ none) hw (fun h => h hnew) (by
      intro x
      by_cases hx : x = w
      · simp [hx]
      · simp [hx])
  simp only [size]
  omega

theorem size_visit (hw : w ∈ g.nodes) : size g (b.visit g used v flow w) ≤ size g b := by
  rw [visit]
  split_ifs with hcond
  · exact size_update hw hcond.2.2 (Nat.le_succ _)
  · exact size_update hw hcond.2.2 (by simp)
  · exact le_rfl

theorem size_visitReverse (hw : w ∈ g.nodes) : size g (b.visitReverse used v flow w) ≤ size g b := by
  rw [visitReverse]
  split_ifs with hcond
  · exact size_update hw hcond.2.2 (by simp)
  · exact le_rfl

theorem size_foldl {look : Bfs → ℕ → Bfs} {ws : List ℕ}
    (hlook : ∀ w ∈ ws, ∀ b, size g (look b w) ≤ size g b) (b : Bfs) :
    size g (ws.foldl look b) ≤ size g b := by
  induction ws generalizing b with
  | nil => exact le_rfl
  | cons w ws ih =>
      exact (ih (fun w hw => hlook w (List.mem_cons_of_mem _ hw)) (look b w)).trans
        (hlook w List.mem_cons_self b)

theorem size_step (hg : g.Ok) {b' : Bfs} (h : b.step g used = .ok (some b')) :
    size g b' < size g b := by
  rw [step] at h
  split at h
  · next v flow fringe hnone hfringe =>
    cases h
    have hpop : size g { b with fringe := fringe } < size g b := by
      rw [size, size, hfringe]
      simp
    have hvisit : ∀ w ∈ g.adj v, ∀ b, size g (visit g used v flow b w) ≤ size g b :=
      fun w hw b => size_visit (hg.mem_nodes hw).2
    have hreverse : ∀ u ∈ g.revAdj v, ∀ b, size g (visitReverse used v flow b u) ≤ size g b :=
      fun u hu b => size_visitReverse (hg.mem_nodes (hg.mem_revAdj.1 hu)).1
    exact ((size_foldl hreverse _).trans (size_foldl hvisit _)).trans_lt hpop
  · cases h

theorem step_ok (g : Network) (used : ℕ → ℕ → UInt64) (b : Bfs) : ∃ r, b.step g used = .ok r := by
  rw [step]
  split
  · exact ⟨_, rfl⟩
  · exact ⟨_, rfl⟩

end Bfs

namespace Reach

def size (g : Network) (r : Reach) : ℕ :=
  r.fringe.length + (g.nodes.filter fun x => ¬ x ∈ r.reachable).card

variable {r : Reach} {v w : ℕ}

theorem size_visit (hw : w ∈ g.nodes) (rem : UInt64) : size g (r.visit w rem) ≤ size g r := by
  rw [visit]
  split_ifs with hcond
  · have hcard := card_filter_insert (P := fun x => x ∈ r.reachable)
      (Q := fun x => x ∈ w :: r.reachable) hw hcond.1 (by
        intro x
        rw [List.mem_cons, or_comm])
    simp only [size, List.length_append, List.length_singleton]
    omega
  · exact le_rfl

theorem size_foldl {rem : ℕ → UInt64} {ws : List ℕ} (hws : ∀ w ∈ ws, w ∈ g.nodes) (r : Reach) :
    size g (ws.foldl (fun r w => r.visit w (rem w)) r) ≤ size g r := by
  induction ws generalizing r with
  | nil => exact le_rfl
  | cons w ws ih =>
      exact (ih (fun w hw => hws w (List.mem_cons_of_mem _ hw)) _).trans
        (size_visit (hws w List.mem_cons_self) _)

theorem size_step (hg : g.Ok) {r' : Reach} (h : r.step g used = .ok (some r')) :
    size g r' < size g r := by
  rw [step] at h
  split at h
  · cases h
  · next v fringe hfringe =>
    cases h
    have hpop : size g ⟨r.reachable, fringe⟩ < size g r := by
      rw [size, size, hfringe]
      simp
    have hfwd : ∀ w ∈ g.adj v, w ∈ g.nodes := fun w hw => (hg.mem_nodes hw).2
    have hrev : ∀ u ∈ g.revAdj v, u ∈ g.nodes := fun u hu => (hg.mem_nodes (hg.mem_revAdj.1 hu)).1
    exact ((size_foldl hrev _).trans (size_foldl hfwd _)).trans_lt hpop

theorem step_ok (g : Network) (used : ℕ → ℕ → UInt64) (r : Reach) : ∃ r', r.step g used = .ok r' := by
  rw [step]
  split
  · exact ⟨_, rfl⟩
  · exact ⟨_, rfl⟩

end Reach

theorem bfsFindAugmentingPath_total (hg : g.Ok) (used : ℕ → ℕ → UInt64) (hfuel : g.nodes.card + 1 < fuel) :
    ∃ r, bfsFindAugmentingPath fuel g used = .ok r := by
  have hsize : Bfs.size g Bfs.init < fuel := by
    have hcard : (g.nodes.filter fun x => ¬ Bfs.init.preds x ≠ none).card ≤ g.nodes.card :=
      Finset.card_filter_le _ _
    have hone : Bfs.init.fringe.length = 1 := rfl
    rw [Bfs.size]
    omega
  obtain ⟨b, hb, -⟩ := iterate_total (fun _ => True) (Bfs.size g) (fun s _ => by
    obtain ⟨r, hr⟩ := Bfs.step_ok g used s
    refine ⟨r, hr, fun s' hs' => ⟨trivial, ?_⟩⟩
    subst hs'
    exact Bfs.size_step hg hr) trivial hsize
  rw [bfsFindAugmentingPath, hb]
  exact ⟨_, rfl⟩

/-- A path without repetitions is not longer than there are nodes. -/
theorem length_of_pathFits (hg : g.Ok) {a w : ℕ} {path : List ℕ} (hnd : (w :: path).Nodup)
    (hfits : PathFits g.edges g.bound f a (w :: path)) : path.length ≤ g.nodes.card := by
  have hmem : ∀ x ∈ path, x ∈ g.nodes := by
    clear hnd
    induction path generalizing w with
    | nil => exact fun x hx => absurd hx List.not_mem_nil
    | cons u path ih =>
        obtain ⟨hfit, hrest⟩ := List.isChain_cons_cons.1 hfits
        intro x hx
        rcases List.mem_cons.1 hx with rfl | hx
        · obtain ⟨he, -⟩ | ⟨-, he, -⟩ := hfit
          · exact (hg.mem_nodes (hg.mem_edges.1 he)).1
          · exact (hg.mem_nodes (hg.mem_edges.1 he)).2
        · exact ih hrest x hx
  rw [← List.toFinset_card_of_nodup (List.nodup_cons.1 hnd).2]
  exact Finset.card_le_card fun x hx => hmem x (List.mem_toFinset.1 hx)

theorem maxFlowStep_total (hg : g.Ok) (hf : FlowOk g used f) (hfuel : g.nodes.card + 1 < fuel) :
    ∃ r, maxFlowStep fuel g used = .ok r := by
  obtain ⟨⟨a, preds⟩, hbfs⟩ := bfsFindAugmentingPath_total hg used hfuel
  rw [maxFlowStep, hbfs]
  by_cases hzero : a = 0
  · refine ⟨none, ?_⟩
    simp only [bind, Except.bind, hzero, if_pos]
    rfl
  · obtain ⟨path, hnd, hfits, hlast, hchain, -⟩ :=
      (bfsFindAugmentingPath_spec hg hf hbfs).1 hzero
    have hlen := length_of_pathFits hg hnd hfits
    obtain ⟨p, hp⟩ := (augment_path hg hf.stores hnd hfits hlast hchain).2
      (by omega : path.length < fuel)
    refine ⟨some p.2, ?_⟩
    simp only [bind, Except.bind, hzero, if_neg, not_false_eq_true, hp]
    rfl

/-- No flow takes more than this out of the source. -/
def Network.total (g : Network) : ℕ := g.edges.card * 2 ^ 64

theorem excess_source_le (hg : g.Ok) (hf : IsFlow g.edges g.bound source sink f) :
    excess g.edges f source ≤ g.total := by
  have hle : ∀ e ∈ g.edges, (f e : ℤ) * incidence e source ≤ 2 ^ 64 := by
    intro e he
    have hsmall : (f e : ℤ) < 2 ^ 64 := by exact_mod_cast hg.small f hf e he
    rw [incidence]
    split_ifs
    · simp
    · simpa using hsmall.le
    · simp
    · simp
  rw [excess, Network.total]
  have hsum := Finset.sum_le_card_nsmul g.edges _ _ hle
  simpa using hsum

def stored (used : ℕ → ℕ → UInt64) (e : ℕ × ℕ) : ℕ := (used e.1 e.2).toNat

theorem FlowOk.excess_stored (hg : g.Ok) (hf : FlowOk g used f) (x : ℕ) :
    excess g.edges (stored used) x = excess g.edges f x := by
  apply Finset.sum_congr rfl
  intro e he
  rw [stored, hf.toNat_used hg (hg.mem_edges.1 he)]

/-- A fuel that is enough for `computeMinCut`. -/
def Network.enough (g : Network) : ℕ := g.nodes.card + g.total + 2

theorem maxFlowEdmondsKarp_total (hg : g.Ok) (hfuel : g.enough ≤ fuel) :
    ∃ used, maxFlowEdmondsKarp fuel g = .ok used := by
  have hzero : FlowOk g (fun _ _ => 0) 0 := ⟨isFlow_zero, fun _ _ => rfl⟩
  let μ : (ℕ → ℕ → UInt64) → ℕ := fun used => (g.total - excess g.edges (stored used) source).toNat
  have hnodes : g.nodes.card + 1 < fuel := by
    rw [Network.enough] at hfuel
    omega
  have hstart : μ (fun _ _ => 0) < fuel := by
    have hexcess : excess g.edges (0 : ℕ × ℕ → ℕ) source = 0 := by simp [excess]
    have hμ : μ (fun _ _ => 0) = g.total := by
      simp only [μ, hzero.excess_stored hg, hexcess]
      omega
    rw [Network.enough] at hfuel
    omega
  obtain ⟨used, hused, -⟩ := iterate_total (fun used => ∃ f, FlowOk g used f) μ (fun used hI => by
    obtain ⟨f, hf⟩ := hI
    obtain ⟨r, hr⟩ := maxFlowStep_total hg hf hnodes
    refine ⟨r, hr, fun used' hsome => ?_⟩
    obtain ⟨f', hf', hlt⟩ := (maxFlowStep_spec hg hf hr).2 used' hsome
    have hle := excess_source_le hg hf'.isFlow
    refine ⟨⟨f', hf'⟩, ?_⟩
    simp only [μ, hf.excess_stored hg, hf'.excess_stored hg]
    omega) ⟨0, hzero⟩ hstart
  exact ⟨used, hused⟩

theorem computeMinCut_total (hg : g.Ok) (hfuel : g.enough ≤ fuel) :
    ∃ cut, computeMinCut fuel g = .ok cut := by
  obtain ⟨used, hused⟩ := maxFlowEdmondsKarp_total hg hfuel
  have hsize : Reach.size g ⟨[source], [source]⟩ < fuel := by
    have hcard : (g.nodes.filter fun x => ¬ x ∈ [source]).card ≤ g.nodes.card :=
      Finset.card_filter_le _ _
    rw [Network.enough] at hfuel
    simp only [Reach.size, List.length_singleton]
    omega
  obtain ⟨r, hr, -⟩ := iterate_total (fun _ => True) (Reach.size g) (fun s _ => by
    obtain ⟨r, hr⟩ := Reach.step_ok g used s
    refine ⟨r, hr, fun s' hs' => ⟨trivial, ?_⟩⟩
    subst hs'
    exact Reach.size_step hg hr) trivial hsize
  rw [computeMinCut, hused]
  change ∃ cut, (iterate () (Reach.step g used) fuel ⟨[source], [source]⟩ >>= _) = _
  rw [hr]
  exact ⟨_, rfl⟩

end Cpf.Graph
