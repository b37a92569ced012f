import Cpf.Graph.AugmentingPath

/-!
# The minimum cut

Every round of the maximum-flow loop keeps a flow; the loop ends when the residual graph has no
path from the source to the sink. The vertices that `computeMinCut` reaches are then closed under
residual edges, and the cut it returns consists of the ends of the edges that leave or enter them.
-/

namespace Cpf.Graph

variable {g : Network}

section MaxFlow

variable {used : ℕ → ℕ → UInt64} {f : ℕ × ℕ → ℕ} {fuel : ℕ}

theorem setFlow_of_ne {u w x y : ℕ} {n : UInt64} (h : (x, y) ≠ (u, w)) :
    setFlow used u w n x y = used x y :=
  if_neg fun hxy => h (Prod.ext hxy.1 hxy.2)

theorem setFlow_self {u w : ℕ} {n : UInt64} : setFlow used u w n u w = n :=
  if_pos ⟨rfl, rfl⟩

theorem augmentEdge_of_ne {a : UInt64} {u w x y : ℕ} (h1 : (x, y) ≠ (u, w)) (h2 : (x, y) ≠ (w, u)) :
    augmentEdge g a used u w x y = used x y := by
  simp only [augmentEdge, setFlow_of_ne h1, setFlow_of_ne h2]
  split_ifs
  · rw [setFlow_of_ne h2, setFlow_of_ne h1]
  · rw [setFlow_of_ne h2]
  · rw [setFlow_of_ne h1]
  · rfl

theorem augmentEdge_forward {a : UInt64} {u w : ℕ} (hne : u ≠ w) (hcap : g.cap u w ≠ none) :
    augmentEdge g a used u w u w = used u w + a := by
  have huw : (u, w) ≠ (w, u) := fun h => hne (Prod.mk.inj h).1
  simp only [augmentEdge, setFlow_of_ne huw, setFlow_self, if_neg hcap]
  split_ifs
  · rw [setFlow_of_ne huw]
  · rfl

theorem augmentEdge_backward {a : UInt64} {u w : ℕ} (hne : u ≠ w) (hcap : g.cap w u ≠ none) :
    augmentEdge g a used u w w u = used w u - a := by
  have hwu : (w, u) ≠ (u, w) := fun h => hne (Prod.mk.inj h).2
  simp only [augmentEdge, setFlow_self, setFlow_of_ne hwu, if_neg hcap]
  split_ifs
  · rw [setFlow_of_ne hwu]
  · rfl

theorem stores_augmentEdge (hg : g.Ok) (hs : Stores g used f) {a : UInt64} {u w : ℕ}
    (hfit : Fits g.edges g.bound f a.toNat u w) :
    Stores g (augmentEdge g a used u w) (pushEdge g.edges a.toNat f u w) := by
  rintro ⟨x, y⟩ he
  change augmentEdge g a used u w x y = _
  obtain ⟨hmem, -⟩ | ⟨hnot, hmem, hle⟩ := hfit
  · have hadj := hg.mem_edges.1 hmem
    have hne : u ≠ w := by
      rintro rfl
      exact hg.antisymm u u hadj hadj
    rw [pushEdge, if_pos hmem]
    by_cases hxy : (x, y) = (u, w)
    · cases hxy
      rw [augmentEdge_forward hne ((hg.cap u w).2 hadj), Function.update_self, UInt64.ofNat_add,
        UInt64.ofNat_toNat, hs _ hmem]
    · have hyx : (x, y) ≠ (w, u) := by
        rintro ⟨⟩
        exact hg.antisymm u w hadj (hg.mem_edges.1 he)
      rw [augmentEdge_of_ne hxy hyx, Function.update_of_ne hxy]
      exact hs _ he
  · have hadj := hg.mem_edges.1 hmem
    have hne : u ≠ w := by
      rintro rfl
      exact hnot hmem
    rw [pushEdge, if_neg hnot]
    by_cases hxy : (x, y) = (w, u)
    · cases hxy
      rw [augmentEdge_backward hne ((hg.cap w u).2 hadj), Function.update_self,
        UInt64.ofNat_sub hle, UInt64.ofNat_toNat, hs _ hmem]
    · have hyx : (x, y) ≠ (u, w) := by
        rintro ⟨⟩
        exact hnot he
      rw [augmentEdge_of_ne hyx hxy, Function.update_of_ne hxy]
      exact hs _ he

theorem augment_path (hg : g.Ok) {a : UInt64} {preds : ℕ → Option ℕ} {w : ℕ} {path : List ℕ}
    (hs : Stores g used f) (hnd : (w :: path).Nodup)
    (hfits : PathFits g.edges g.bound f a.toNat (w :: path))
    (hlast : (w :: path).getLast (List.cons_ne_nil w path) = source)
    (hchain : (w :: path).IsChain (fun w u => preds w = some u)) :
    (∀ p, iterate () (augmentStep g preds a) fuel (w, used) = .ok p →
      Stores g p.2 (pushPath g.edges a.toNat f (w :: path))) ∧
    (path.length < fuel → ∃ p, iterate () (augmentStep g preds a) fuel (w, used) = .ok p) := by
  induction path generalizing w used f fuel with
  | nil =>
      have hsource : w = source := hlast
      have hend : augmentStep g preds a (w, used) = .ok none := if_pos hsource
      cases fuel with
      | zero => exact ⟨fun p hp => (by cases hp), fun h => absurd h (Nat.lt_irrefl 0)⟩
      | succ fuel =>
          rw [iterate, hend]
          refine ⟨fun p hp => ?_, fun _ => ⟨_, rfl⟩⟩
          cases hp
          exact hs
  | cons u path ih =>
      obtain ⟨hwu, hchain'⟩ := List.isChain_cons_cons.1 hchain
      obtain ⟨hfit, hfits'⟩ := List.isChain_cons_cons.1 hfits
      obtain ⟨hw, hnd'⟩ := List.nodup_cons.1 hnd
      rw [List.getLast_cons (List.cons_ne_nil u path)] at hlast
      have hne : w ≠ source := by
        intro heq
        rw [heq, ← hlast] at hw
        exact hw (List.getLast_mem _)
      have hstep : augmentStep g preds a (w, used) =
          .ok (some (u, augmentEdge g a used u w)) := by
        rw [augmentStep, if_neg hne, hwu]
        rfl
      have hkeep : PathFits g.edges g.bound (Cpf.pushEdge g.edges a.toNat f u w) a.toNat
          (u :: path) := by
        apply hfits'.imp_of_mem_imp
        intro w' u' hw' hu' hst
        exact hst.pushEdge (fun h => hw (h ▸ hu')) (fun h => hw (h ▸ hw'))
      cases fuel with
      | zero => exact ⟨fun p hp => (by cases hp), fun h => absurd h (Nat.not_lt_zero _)⟩
      | succ fuel =>
          rw [iterate, hstep]
          obtain ⟨hok, htotal⟩ := @ih _ _ fuel u (stores_augmentEdge hg hs hfit) hnd' hkeep hlast
            hchain'
          exact ⟨hok, fun h => htotal (by simpa using h)⟩

/-- What a round of the maximum-flow loop does. -/
theorem maxFlowStep_spec (hg : g.Ok) (hf : FlowOk g used f) {r : Option (ℕ → ℕ → UInt64)}
    (h : maxFlowStep fuel g used = .ok r) :
    (r = none → ¬ Relation.ReflTransGen (Residual g used) source sink) ∧
    ∀ used', r = some used' → ∃ f', FlowOk g used' f' ∧
      excess g.edges f source < excess g.edges f' source := by
  obtain ⟨⟨a, preds⟩, hbfs, h⟩ := bind_eq_ok.1 h
  obtain ⟨hpath, hnone⟩ := bfsFindAugmentingPath_spec hg hf hbfs
  simp only at h
  split_ifs at h with hzero
  · cases h
    exact ⟨fun _ => hnone hzero, fun _ h => (by cases h)⟩
  · obtain ⟨p, hp, hret⟩ := bind_eq_ok.1 h
    cases hret
    refine ⟨fun h => (by cases h), fun used' h => ?_⟩
    cases h
    obtain ⟨path, hnd, hfits, hlast, hchain, -⟩ := hpath hzero
    have hstores := (augment_path hg hf.stores hnd hfits hlast hchain).1 p hp
    have hex := (pushPath_spec hnd hfits hf.isFlow.le_cap).2 source
    refine ⟨_, ⟨hf.isFlow.pushPath hnd hfits hlast, hstores⟩, ?_⟩
    have hpos : 0 < a.toNat := by
      apply Nat.pos_of_ne_zero
      intro h0
      exact hzero (UInt64.toNat.inj h0)
    have hone : incidence (source, sink) source = 1 := by decide
    rw [hex, hlast, hone]
    omega

/-- The loop ends with a flow that has no augmenting path. -/
theorem maxFlowEdmondsKarp_spec (hg : g.Ok) (h : maxFlowEdmondsKarp fuel g = .ok used) :
    (∃ f, FlowOk g used f) ∧ ¬ Relation.ReflTransGen (Residual g used) source sink := by
  have hzero : ∃ f, FlowOk g (fun _ _ => 0) f := ⟨0, isFlow_zero, fun _ _ => rfl⟩
  obtain ⟨⟨f, hf⟩, hend⟩ := iterate_invariant (fun used => ∃ f, FlowOk g used f)
    (fun s s' hs hstep => by
      obtain ⟨f, hf⟩ := hs
      obtain ⟨f', hf', -⟩ := (maxFlowStep_spec hg hf hstep).2 s' rfl
      exact ⟨f', hf'⟩) hzero h
  exact ⟨⟨f, hf⟩, (maxFlowStep_spec hg hf hend).1 rfl⟩

end MaxFlow

/-! ### The search in the residual graph -/

/-- The invariant of the search of `computeMinCut`. -/
structure ReachOk (g : Network) (used : ℕ → ℕ → UInt64) (busy : Option ℕ) (r : Reach) : Prop where
  source : source ∈ r.reachable
  fringe : ∀ v ∈ r.fringe, v ∈ r.reachable
  sound : ∀ v ∈ r.reachable, Relation.ReflTransGen (Residual g used) Graph.source v
  closed : ∀ v ∈ r.reachable, busy ≠ some v → v ∉ r.fringe → ∀ w, Residual g used v w →
    w ∈ r.reachable

namespace ReachOk

variable {used : ℕ → ℕ → UInt64} {r : Reach} {v w : ℕ}

theorem visit (hr : ReachOk g used (some v) r) (hv : v ∈ r.reachable) {rem : UInt64}
    (hres : 0 < rem → Residual g used v w) :
    ReachOk g used (some v) (r.visit w rem) ∧ (0 < rem → w ∈ (r.visit w rem).reachable) ∧
      ∀ x ∈ r.reachable, x ∈ (r.visit w rem).reachable := by
  rw [Reach.visit]
  split_ifs with hcond
  · obtain ⟨hnew, hrem⟩ := hcond
    refine ⟨⟨List.mem_cons_of_mem _ hr.source, ?_, ?_, ?_⟩, fun _ => List.mem_cons_self,
      fun x hx => List.mem_cons_of_mem _ hx⟩
    · intro x hx
      rcases List.mem_append.1 hx with hold | hlast
      · exact List.mem_cons_of_mem _ (hr.fringe x hold)
      · exact List.mem_singleton.1 hlast ▸ List.mem_cons_self
    · intro x hx
      rcases List.mem_cons.1 hx with rfl | hold
      · exact (hr.sound v hv).tail (hres hrem)
      · exact hr.sound x hold
    · intro x hx hbusy hfringe y hxy
      rcases List.mem_cons.1 hx with rfl | hold
      · exact absurd (List.mem_append_right _ (List.mem_singleton_self _)) hfringe
      · exact List.mem_cons_of_mem _
          (hr.closed x hold hbusy (fun h => hfringe (List.mem_append_left _ h)) y hxy)
  · refine ⟨hr, fun hrem => ?_, fun x hx => hx⟩
    by_contra hnew
    exact hcond ⟨hnew, hrem⟩

theorem foldl {rem : ℕ → UInt64} {ws : List ℕ} (hr : ReachOk g used (some v) r)
    (hv : v ∈ r.reachable) (hres : ∀ w ∈ ws, 0 < rem w → Residual g used v w) :
    ReachOk g used (some v) (ws.foldl (fun r w => r.visit w (rem w)) r) ∧
      (∀ w ∈ ws, 0 < rem w → w ∈ (ws.foldl (fun r w => r.visit w (rem w)) r).reachable) ∧
      ∀ x ∈ r.reachable, x ∈ (ws.foldl (fun r w => r.visit w (rem w)) r).reachable := by
  induction ws generalizing r with
  | nil => exact ⟨hr, fun w hw => absurd hw List.not_mem_nil, fun x hx => hx⟩
  | cons w ws ih =>
      obtain ⟨hr', hw', hkept'⟩ := hr.visit hv (hres w List.mem_cons_self)
      obtain ⟨hok, hreach, hkept⟩ :=
        ih hr' (hkept' v hv) (fun w hw => hres w (List.mem_cons_of_mem _ hw))
      refine ⟨hok, ?_, fun x hx => hkept x (hkept' x hx)⟩
      intro y hy hrem
      rcases List.mem_cons.1 hy with rfl | hy
      · exact hkept y (hw' hrem)
      · exact hreach y hy hrem

theorem step (hg : g.Ok) {r' : Reach} (hr : ReachOk g used none r)
    (h : r.step g used = .ok (some r')) : ReachOk g used none r' := by
  rw [Reach.step] at h
  split at h
  · cases h
  · next v fringe hfringe =>
    cases h
    have hbusy : ReachOk g used (some v) ⟨r.reachable, fringe⟩ := by
      refine ⟨hr.source, fun x hx => hr.fringe x (hfringe ▸ List.mem_cons_of_mem _ hx), hr.sound, ?_⟩
      intro x hx hxv hxf y hxy
      apply hr.closed x hx (fun h => by cases h) _ y hxy
      rw [hfringe, List.mem_cons]
      rintro (rfl | hold)
      · exact hxv rfl
      · exact hxf hold
    have hv : v ∈ r.reachable := hr.fringe v (hfringe ▸ List.mem_cons_self)
    obtain ⟨hfwd, hreachF, hkeptF⟩ := hbusy.foldl hv (fun w hw hrem => Or.inl ⟨hw, hrem⟩)
    obtain ⟨hrev, hreachR, hkeptR⟩ := hfwd.foldl (hkeptF v hv)
      (fun u hu hrem => Or.inr ⟨hg.mem_revAdj.1 hu, hrem⟩)
    refine ⟨hrev.source, hrev.fringe, hrev.sound, ?_⟩
    intro x hx _ hxf y hxy
    by_cases hxv : x = v
    · subst hxv
      obtain ⟨hy, hrem⟩ | ⟨hy, hrem⟩ := hxy
      · exact hkeptR y (hreachF y hy hrem)
      · exact hreachR y (hg.mem_revAdj.2 hy) hrem
    · exact hrev.closed x hx (fun h => hxv (Option.some.inj h).symm) hxf y hxy

theorem init (g : Network) (used : ℕ → ℕ → UInt64) :
    ReachOk g used none ⟨[Graph.source], [Graph.source]⟩ where
  source := List.mem_cons_self
  fringe _ hv := hv
  sound _ hv := List.mem_singleton.1 hv ▸ Relation.ReflTransGen.refl
  closed _ hv _ hnot := absurd hv hnot

/-- At its end the search has reached what can be reached. -/
theorem mem_iff (hr : ReachOk g used none r) (hend : r.step g used = .ok none) :
    v ∈ r.reachable ↔ Relation.ReflTransGen (Residual g used) Graph.source v := by
  have hempty : r.fringe = [] := by
    cases hfr : r.fringe with
    | nil => rfl
    | cons x fringe =>
        rw [Reach.step, hfr] at hend
        cases hend
  constructor
  · exact hr.sound v
  · intro h
    induction h with
    | refl => exact hr.source
    | tail _ hstep ih =>
        apply hr.closed _ ih (fun h => by cases h) _ _ hstep
        rw [hempty]
        exact List.not_mem_nil

end ReachOk

/-- What `computeMinCut` returns: the ends of the edges between a set of vertices, closed under
residual edges of some flow, and the rest. -/
structure IsMinCut (g : Network) (f : ℕ × ℕ → ℕ) (S : Set ℕ) (cut : List ℕ) : Prop where
  isFlow : IsFlow g.edges g.bound source sink f
  source : source ∈ S
  sink : sink ∉ S
  forward : ∀ v w, w ∈ g.adj v → v ∈ S → w ∉ S → (f (v, w) : ℕ∞) = g.bound (v, w)
  backward : ∀ v w, w ∈ g.adj v → v ∉ S → w ∈ S → f (v, w) = 0
  mem_cut : ∀ x, x ∈ cut ↔ ∃ v w, w ∈ g.adj v ∧ (v ∈ S ↔ w ∉ S) ∧ (x = v ∨ x = w)

theorem computeMinCut_spec (hg : g.Ok) {fuel : ℕ} {cut : List ℕ}
    (h : computeMinCut fuel g = .ok cut) : ∃ f S, IsMinCut g f S cut := by
  obtain ⟨used, hflow, h⟩ := bind_eq_ok.1 h
  obtain ⟨r, hreach, hret⟩ := bind_eq_ok.1 h
  obtain ⟨⟨f, hf⟩, hsink⟩ := maxFlowEdmondsKarp_spec hg hflow
  obtain ⟨hok, hend⟩ := iterate_invariant (ReachOk g used none)
    (fun s s' hs hstep => hs.step hg hstep) (ReachOk.init g used) hreach
  have hclosed : ∀ v w, v ∈ r.reachable → w ∉ r.reachable → ¬ Residual g used v w := by
    intro v w hv hw hres
    exact hw ((hok.mem_iff hend).2 (((hok.mem_iff hend).1 hv).tail hres))
  refine ⟨f, (· ∈ r.reachable), hf.isFlow, hok.source, fun h => hsink ((hok.mem_iff hend).1 h), ?_,
    ?_, ?_⟩
  · intro v w he hv hw
    apply hf.full_of_rem hg he
    intro hrem
    exact hclosed v w hv hw (Or.inl ⟨he, hrem⟩)
  · intro v w he hv hw
    rw [← hf.toNat_used hg he]
    by_contra hne
    apply hclosed w v hw hv
    refine Or.inr ⟨he, UInt64.lt_iff_toNat_lt.2 ?_⟩
    exact Nat.pos_of_ne_zero hne
  · intro x
    cases hret
    change x ∈ List.flatMap _ _ ↔ ∃ v w, w ∈ g.adj v ∧ (v ∈ r.reachable ↔ w ∉ r.reachable) ∧ _
    simp only [List.mem_flatMap]
    constructor
    · rintro ⟨v, -, w, he, hx⟩
      split_ifs at hx with hcut
      · refine ⟨v, w, he, by tauto, by simpa using hx⟩
      · exact absurd hx List.not_mem_nil
    · rintro ⟨v, w, he, hcut, hx⟩
      refine ⟨v, hg.verts v w he, w, he, ?_⟩
      rw [if_pos (by tauto)]
      simpa using hx

end Cpf.Graph
