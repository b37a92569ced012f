import Mathlib.Data.List.Nodup
import Mathlib.Tactic

/-!
# Post-dominance and the next observable node

A graph with end nodes. A set of observable nodes is closed when every node on which an observable node is
control dependent decides: it is observable, and says where the walk goes on. From a node that does not decide
all walks then reach the same observable node first, and this node is found by following the immediate
post-dominators.
-/

namespace Cpf

structure ControlGraph (ν : Type*) where
  Succ : ν → ν → Prop
  End : ν → Prop

namespace ControlGraph

variable {ν : Type*} (G : ControlGraph ν)

/-- The walks from a node to an end. -/
inductive ToEnd : ν → List ν → Prop
  | last {v : ν} : G.End v → ToEnd v [v]
  | step {v u : ν} {p : List ν} : G.Succ v u → ToEnd u p → ToEnd v (v :: p)

def PostDom (w v : ν) : Prop := ∀ p, G.ToEnd v p → w ∈ p

def StrictPostDom (w v : ν) : Prop := w ≠ v ∧ G.PostDom w v

def ControlDep (n b : ν) : Prop := (∃ u, G.Succ b u ∧ G.PostDom n u) ∧ ¬ G.StrictPostDom n b

def IsImmediate (d v : ν) : Prop := G.StrictPostDom d v ∧ ∀ w, G.StrictPostDom w v → G.PostDom w d

variable (Obs : ν → Prop)

/-- `w` is the first observable node of a walk from `v`; the list has the nodes before it. -/
inductive Silent : ν → List ν → ν → Prop
  | here {v : ν} : Obs v → Silent v [] v
  | step {v u w : ν} {l : List ν} : ¬ Obs v → G.Succ v u → Silent u l w → Silent v (v :: l) w

variable {G Obs} {u v w x : ν} {l p q : List ν}

namespace ToEnd

theorem ne_nil (h : G.ToEnd v p) : p ≠ [] := by cases h <;> simp

theorem self_mem (h : G.ToEnd v p) : v ∈ p := by cases h <;> simp

/-- The rest of a walk, from a node on it. -/
theorem suffix (h : G.ToEnd v p) (hx : x ∈ p) : ∃ q, G.ToEnd x q ∧ q <:+ p ∧ (x ≠ v → q.length < p.length) := by
  induction h with
  | last hend =>
      obtain rfl := List.mem_singleton.1 hx
      exact ⟨[x], .last hend, List.suffix_refl _, fun hne => absurd rfl hne⟩
  | @step v u p hs hp ih =>
      by_cases hxv : x = v
      · subst hxv
        exact ⟨x :: p, .step hs hp, List.suffix_refl _, fun hne => absurd rfl hne⟩
      obtain ⟨q, hq, hsub, -⟩ := ih ((List.mem_cons.1 hx).resolve_left hxv)
      refine ⟨q, hq, hsub.trans (List.suffix_cons v p), fun _ => ?_⟩
      exact Nat.lt_succ_of_le hsub.length_le

end ToEnd

namespace PostDom

theorem refl (G : ControlGraph ν) (v : ν) : G.PostDom v v := fun _ hp => hp.self_mem

theorem trans (h : G.PostDom w u) (h' : G.PostDom u v) : G.PostDom w v := by
  intro p hp
  obtain ⟨q, hq, hsub, -⟩ := hp.suffix (h' p hp)
  exact hsub.subset (h q hq)

/-- On a shortest walk to an end no two nodes post-dominate each other. -/
theorem antisymm (h : G.PostDom w v) (h' : G.PostDom v w) (hend : ∃ p, G.ToEnd v p) : w = v := by
  by_contra hne
  classical
  have hex : ∃ n, ∃ p, G.ToEnd v p ∧ p.length = n := by
    obtain ⟨p, hp⟩ := hend
    exact ⟨p.length, p, hp, rfl⟩
  obtain ⟨p, hp, hlen⟩ := Nat.find_spec hex
  obtain ⟨q, hq, -, hshort⟩ := hp.suffix (h p hp)
  obtain ⟨r, hr, hsub, -⟩ := hq.suffix (h' q hq)
  refine Nat.find_min hex (m := r.length) ?_ ⟨r, hr, rfl⟩
  rw [← hlen]
  exact lt_of_le_of_lt hsub.length_le (hshort hne)

end PostDom

namespace Silent

theorem obs (h : G.Silent Obs v l w) : Obs w := by
  induction h with
  | here ho => exact ho
  | step _ _ _ ih => exact ih

theorem not_obs (h : G.Silent Obs v l w) : ∀ x ∈ l, ¬ Obs x := by
  induction h with
  | here _ => exact fun x hx => nomatch hx
  | step hv _ _ ih => exact List.forall_mem_cons.2 ⟨hv, ih⟩

/-- A walk on from the observable node is one from the start. -/
theorem append (h : G.Silent Obs v l w) (hq : G.ToEnd w q) : G.ToEnd v (l ++ q) := by
  induction h with
  | here _ => exact hq
  | step _ hs _ ih => exact .step hs (ih hq)

theorem suffix (h : G.Silent Obs v l w) (hx : x ∈ l) : ∃ l', G.Silent Obs x l' w ∧ l' <:+ l := by
  induction h with
  | here _ => cases hx
  | @step v u w l hv hs hl ih =>
      by_cases hxv : x = v
      · subst hxv
        exact ⟨x :: l, .step hv hs hl, List.suffix_refl _⟩
      obtain ⟨l', hl', hsub⟩ := ih ((List.mem_cons.1 hx).resolve_left hxv)
      exact ⟨l', hl', hsub.trans (List.suffix_cons v l)⟩

/-- A walk that does not pass the same node twice. -/
theorem exists_nodup (h : G.Silent Obs v l w) : ∃ l', G.Silent Obs v l' w ∧ l'.Nodup ∧ l' ⊆ l := by
  induction h with
  | here ho => exact ⟨[], .here ho, List.nodup_nil, List.Subset.refl _⟩
  | @step v u w l hv hs _ ih =>
      obtain ⟨l', hl', hnodup, hsub⟩ := ih
      by_cases hmem : v ∈ l'
      · obtain ⟨r, hr, hrl⟩ := hl'.suffix hmem
        exact ⟨r, hr, hnodup.sublist hrl.sublist, fun x hx => List.mem_cons_of_mem _ (hsub (hrl.subset hx))⟩
      · exact ⟨v :: l', .step hv hs hl', List.nodup_cons.2 ⟨hmem, hnodup⟩, List.cons_subset_cons v hsub⟩

/-- Every walk to an end has a first observable node, when the ends are observable. -/
theorem of_toEnd (hends : ∀ v, G.End v → Obs v) (h : G.ToEnd v p) : ∃ l w, G.Silent Obs v l w ∧ w ∈ p := by
  classical
  induction h with
  | @last v hend => exact ⟨[], v, .here (hends v hend), List.mem_singleton_self v⟩
  | @step v u p hs _ ih =>
      by_cases hv : Obs v
      · exact ⟨[], v, .here hv, List.mem_cons_self⟩
      · obtain ⟨l, w, hl, hw⟩ := ih
        exact ⟨v :: l, w, .step hv hs hl, List.mem_cons_of_mem _ hw⟩

end Silent

/-- A walk that reaches an observable node has a first one. -/
theorem exists_silent (h : Relation.ReflTransGen G.Succ v w) (hw : Obs w) :
    ∃ l x, G.Silent Obs v l x ∧ Relation.ReflTransGen G.Succ x w := by
  classical
  induction h using Relation.ReflTransGen.head_induction_on with
  | refl => exact ⟨[], w, .here hw, .refl⟩
  | @head v u hs htail ih =>
      by_cases hv : Obs v
      · exact ⟨[], v, .here hv, .head hs htail⟩
      · obtain ⟨l, x, hl, hx⟩ := ih
        exact ⟨v :: l, x, .step hv hs hl, hx⟩

theorem ToEnd.reaches (h : G.ToEnd v p) (hx : x ∈ p) : Relation.ReflTransGen G.Succ v x := by
  induction h with
  | last _ =>
      obtain rfl := List.mem_singleton.1 hx
      exact .refl
  | step hs _ ih =>
      rcases List.mem_cons.1 hx with rfl | hx
      · exact .refl
      · exact .head hs (ih hx)

/-- A node that can reach `c`, but also go where `c` is out of reach, decides, when all nodes do on which `c`
or a deciding node is control dependent. -/
theorem decides_of_leaves {Decides : ν → Prop} {b c : ν} (hc : ∀ v, G.ControlDep c v → Decides v)
    (hdecides : ∀ n v, Decides n → G.ControlDep n v → Decides v) (hs : G.Succ b u) (hend : ∃ p, G.ToEnd u p)
    (hu : ¬ Relation.ReflTransGen G.Succ u c) (hb : Relation.ReflTransGen G.Succ b c) (hne : b ≠ c) :
    Decides b := by
  -- backwards along the walk to `c`: what does not post-dominate a node is control dependent on it
  have hwalk : ∀ y, Relation.ReflTransGen G.Succ b y → Relation.ReflTransGen G.Succ y c → ∀ n, n = c ∨
      Decides n →
      Relation.ReflTransGen G.Succ n c → G.PostDom n y → Decides b := by
    intro y hy
    induction hy with
    | refl =>
        intro _ n hn hnc hpost
        by_cases heq : n = b
        · exact heq ▸ hn.resolve_left fun hnc => hne (heq ▸ hnc)
        · obtain ⟨p, hp⟩ := hend
          exact absurd ((hp.reaches ((List.mem_cons.1 (hpost _ (.step hs hp))).resolve_left heq)).trans hnc) hu
    | @tail y y' _ hstep ih =>
        intro hy'c n hn hnc hpost
        by_cases hpost' : G.PostDom n y
        · exact ih (.head hstep hy'c) n hn hnc hpost'
        · have hdep : G.ControlDep n y := ⟨⟨y', hstep, hpost⟩, fun hstrict => hpost' hstrict.2⟩
          have hy : Decides y := hn.elim (fun heq => hc y (heq ▸ hdep)) fun hn => hdecides n y hn hdep
          exact ih (.head hstep hy'c) y (.inr hy) (.head hstep hy'c) (.refl G y)
  exact hwalk c hb .refl c (.inl rfl) .refl (.refl G c)

/-- An observable node is control dependent on deciding nodes only. -/
structure Closed (G : ControlGraph ν) (Obs Decides : ν → Prop) : Prop where
  obs : ∀ v, Decides v → Obs v
  ends : ∀ v, G.End v → Obs v
  controls : ∀ n v, Obs n → G.ControlDep n v → Decides v
  reaches : ∀ u v, G.Succ u v → ∃ p, G.ToEnd v p

namespace Closed

variable {Decides : ν → Prop} (h : G.Closed Obs Decides)

include h

/-- The first observable node post-dominates the nodes before it. -/
theorem postDom (hl : G.Silent Obs v l w) : G.PostDom w v := by
  induction hl with
  | here _ => exact .refl G _
  | @step v u w l hv hs hl ih =>
      by_contra hnot
      exact hv (h.obs v (h.controls w v hl.obs ⟨⟨u, hs, ih⟩, fun hstrict => hnot hstrict.2⟩))

theorem silent_unique (hl : G.Silent Obs v l w) (hl' : G.Silent Obs v p x) (hend : ∃ q, G.ToEnd w q) :
    x = w := by
  refine PostDom.antisymm (fun q hq => ?_) (fun q hq => ?_) hend
  · have hx := h.postDom hl' _ (hl.append hq)
    exact (List.mem_append.1 hx).resolve_left fun hmem => hl.not_obs x hmem hl'.obs
  · have hw := h.postDom hl _ (hl'.append hq)
    exact (List.mem_append.1 hw).resolve_left fun hmem => hl'.not_obs w hmem hl.obs

/-- After a node that does not decide, the next observable node is a strict post-dominator. -/
theorem strictPostDom (hv : ¬ Decides v) (hs : G.Succ v u) (hl : G.Silent Obs u l w) : G.StrictPostDom w v := by
  by_contra hnot
  exact hv (h.controls w v hl.obs ⟨⟨u, hs, h.postDom hl⟩, hnot⟩)

/-- After a node that does not decide, all walks reach the same observable node first. -/
theorem next_unique {u' : ν} (hv : ¬ Decides v) (hs : G.Succ v u) (hl : G.Silent Obs u l w) (hs' : G.Succ v u')
    (hl' : G.Silent Obs u' p x) (hend : ∃ q, G.ToEnd w q) : x = w := by
  have hw := h.strictPostDom hv hs hl
  have hx := h.strictPostDom hv hs' hl'
  refine PostDom.antisymm (fun q hq => ?_) (fun q hq => ?_) hend
  · have hmem := hx.2 _ (.step hs (hl.append hq))
    rcases List.mem_append.1 ((List.mem_cons.1 hmem).resolve_left hx.1) with hmem | hmem
    · exact absurd hl'.obs (hl.not_obs x hmem)
    · exact hmem
  · have hmem := hw.2 _ (.step hs' (hl'.append hq))
    rcases List.mem_append.1 ((List.mem_cons.1 hmem).resolve_left hw.1) with hmem | hmem
    · exact absurd hl.obs (hl'.not_obs w hmem)
    · exact hmem

/-- The immediate post-dominator lies before the next observable node, or is that node. -/
theorem immediate (hv : ¬ Obs v) {d : ν} (hd : G.IsImmediate d v) (hl : G.Silent Obs v l w)
    (hend : ∃ q, G.ToEnd w q) :
    ∃ l', G.Silent Obs d l' w ∧ l'.length < l.length ∧ l' <:+ l := by
  have hne : w ≠ v := fun heq => hv (heq ▸ hl.obs)
  have hwd : G.PostDom w d := hd.2 w ⟨hne, h.postDom hl⟩
  cases hl with
  | here ho => exact absurd ho hv
  | @step _ u _ l _ hs hl =>
      by_cases hmem : d ∈ l
      · obtain ⟨l', hl', hsub⟩ := hl.suffix hmem
        exact ⟨l', hl', Nat.lt_succ_of_le hsub.length_le, hsub.trans (List.suffix_cons v l)⟩
      · have hdw : G.PostDom d w := by
          intro q hq
          have hdq := (List.mem_cons.1 (hd.1.2 _ (.step hs (hl.append hq)))).resolve_left hd.1.1
          exact (List.mem_append.1 hdq).resolve_left hmem
        obtain rfl := PostDom.antisymm hdw hwd hend
        exact ⟨[], .here hl.obs, Nat.succ_pos _, List.nil_suffix⟩

end Closed

end ControlGraph
end Cpf
