import Cpf.Basics.Flow
import Cpf.Basics.Loop
import Cpf.Graph.EdmondsKarp

/-!
# The search for an augmenting path

`bfsFindAugmentingPath` is called with a flow. It returns an amount that fits along the path of
predecessors that it leaves, or 0 if the residual graph has no path from the source to the sink.
-/

namespace Cpf.Graph

namespace Network

def edges (g : Network) : Finset (ℕ × ℕ) :=
  g.verts.toFinset.biUnion fun v => (g.adj v).toFinset.image fun w => (v, w)

def bound (g : Network) (e : ℕ × ℕ) : ℕ∞ :=
  match g.cap e.1 e.2 with
  | none => 0
  | some c => if c = infinity then ⊤ else c.toNat

/-- The networks that the algorithm is run on: every edge has a capacity, no two edges are
opposite, and no edge enters the source or leaves the sink. No flow is beyond 64 bits. -/
structure Ok (g : Network) : Prop where
  verts : ∀ v w, w ∈ g.adj v → v ∈ g.verts
  cap : ∀ v w, g.cap v w ≠ none ↔ w ∈ g.adj v
  antisymm : ∀ v w, w ∈ g.adj v → v ∉ g.adj w
  source : ∀ v, source ∉ g.adj v
  sink : g.adj sink = []
  small : ∀ f, IsFlow g.edges g.bound Graph.source Graph.sink f → ∀ e ∈ g.edges, f e < 2 ^ 64

end Network

variable {g : Network}

theorem Network.mem_edges_of_verts (hverts : ∀ v w, w ∈ g.adj v → v ∈ g.verts) {v w : ℕ} :
    (v, w) ∈ g.edges ↔ w ∈ g.adj v := by
  rw [edges, Finset.mem_biUnion]
  constructor
  · rintro ⟨x, -, hx⟩
    obtain ⟨y, hy, heq⟩ := Finset.mem_image.1 hx
    cases heq
    exact List.mem_toFinset.1 hy
  · intro h
    exact ⟨v, List.mem_toFinset.2 (hverts v w h),
      Finset.mem_image.2 ⟨w, List.mem_toFinset.2 h, rfl⟩⟩

theorem Network.Ok.mem_edges (hg : g.Ok) {v w : ℕ} : (v, w) ∈ g.edges ↔ w ∈ g.adj v :=
  mem_edges_of_verts hg.verts

theorem Network.Ok.mem_revAdj (hg : g.Ok) {u v : ℕ} : u ∈ g.revAdj v ↔ v ∈ g.adj u := by
  rw [revAdj, List.mem_flatMap]
  constructor
  · rintro ⟨x, -, hx⟩
    obtain ⟨y, hy, heq⟩ := List.mem_filterMap.1 hx
    split_ifs at heq with hyv
    cases heq
    exact hyv ▸ hy
  · intro h
    exact ⟨u, hg.verts u v h, List.mem_filterMap.2 ⟨v, h, if_pos rfl⟩⟩

def Stores (g : Network) (used : ℕ → ℕ → UInt64) (f : ℕ × ℕ → ℕ) : Prop :=
  ∀ e ∈ g.edges, used e.1 e.2 = UInt64.ofNat (f e)

structure FlowOk (g : Network) (used : ℕ → ℕ → UInt64) (f : ℕ × ℕ → ℕ) : Prop where
  isFlow : IsFlow g.edges g.bound source sink f
  stores : Stores g used f

/-- A step of the residual graph, as the searches test it. -/
def Residual (g : Network) (used : ℕ → ℕ → UInt64) (v w : ℕ) : Prop :=
  (w ∈ g.adj v ∧ 0 < g.rem used v w) ∨ (v ∈ g.adj w ∧ 0 < used w v)

section Residual

variable {used : ℕ → ℕ → UInt64} {f : ℕ × ℕ → ℕ}

theorem FlowOk.toNat_used (hg : g.Ok) (h : FlowOk g used f) {u v : ℕ} (he : v ∈ g.adj u) :
    (used u v).toNat = f (u, v) := by
  have hmem := hg.mem_edges.2 he
  rw [h.stores _ hmem, UInt64.toNat_ofNat']
  exact Nat.mod_eq_of_lt (hg.small f h.isFlow _ hmem)

/-- What the code takes for the room on an edge fits. -/
theorem FlowOk.fits_rem (hg : g.Ok) (h : FlowOk g used f) {v w : ℕ} (he : w ∈ g.adj v) {a : UInt64}
    (ha : a ≤ g.rem used v w) : Fits g.edges g.bound f a.toNat v w := by
  have hmem := hg.mem_edges.2 he
  refine Or.inl ⟨hmem, ?_⟩
  obtain ⟨c, hc⟩ := Option.ne_none_iff_exists'.1 ((hg.cap v w).2 he)
  have hle := h.isFlow.le_cap _ hmem
  have hused := h.toNat_used hg he
  simp only [Network.bound, hc] at hle ⊢
  simp only [Network.rem, hc, Option.getD_some] at ha
  split_ifs at hle ha ⊢ with hinf
  · exact le_top
  · have hle' : f (v, w) ≤ c.toNat := by exact_mod_cast hle
    have hsub : (c - used v w).toNat = c.toNat - f (v, w) := by
      rw [UInt64.toNat_sub_of_le _ _ (UInt64.le_iff_toNat_le.2 (by omega)), hused]
    have ha' : a.toNat ≤ c.toNat - f (v, w) := hsub ▸ UInt64.le_iff_toNat_le.1 ha
    exact_mod_cast (by omega : f (v, w) + a.toNat ≤ c.toNat)

theorem FlowOk.full_of_rem (hg : g.Ok) (h : FlowOk g used f) {v w : ℕ} (he : w ∈ g.adj v)
    (hrem : ¬ 0 < g.rem used v w) : (f (v, w) : ℕ∞) = g.bound (v, w) := by
  have hmem := hg.mem_edges.2 he
  obtain ⟨c, hc⟩ := Option.ne_none_iff_exists'.1 ((hg.cap v w).2 he)
  have hle := h.isFlow.le_cap _ hmem
  have hused := h.toNat_used hg he
  simp only [Network.bound, hc] at hle ⊢
  simp only [Network.rem, hc, Option.getD_some] at hrem
  split_ifs at hle hrem ⊢ with hinf
  · exact absurd (by decide) hrem
  · have hle' : f (v, w) ≤ c.toNat := by exact_mod_cast hle
    have hsub : (c - used v w).toNat = c.toNat - f (v, w) := by
      rw [UInt64.toNat_sub_of_le _ _ (UInt64.le_iff_toNat_le.2 (by omega)), hused]
    have hzero : (c - used v w).toNat = 0 := by
      rw [UInt64.lt_iff_toNat_lt] at hrem
      change ¬ 0 < (c - used v w).toNat at hrem
      omega
    exact_mod_cast (by omega : f (v, w) = c.toNat)

theorem FlowOk.fits_used (hg : g.Ok) (h : FlowOk g used f) {u v : ℕ} (he : v ∈ g.adj u) {a : UInt64}
    (ha : a ≤ used u v) : Fits g.edges g.bound f a.toNat v u := by
  refine Or.inr ⟨?_, hg.mem_edges.2 he, ?_⟩
  · rw [hg.mem_edges]
    exact hg.antisymm u v he
  · rw [← h.toNat_used hg he]
    exact UInt64.le_iff_toNat_le.1 ha

end Residual

theorem UInt64.min_def (a b : UInt64) : min a b = if a ≤ b then a else b := rfl

theorem min_le_left' (a b : UInt64) : min a b ≤ a := by
  rw [UInt64.min_def]
  split_ifs with h
  · exact UInt64.le_refl a
  · exact UInt64.le_of_lt (UInt64.not_le.1 h)

theorem min_le_right' (a b : UInt64) : min a b ≤ b := by
  rw [UInt64.min_def]
  split_ifs with h
  · exact h
  · exact UInt64.le_refl b

theorem min_pos {a b : UInt64} (ha : 0 < a) (hb : 0 < b) : 0 < min a b := by
  rw [UInt64.min_def]
  split_ifs
  · exact ha
  · exact hb

/-- The predecessors lead from `v` back to the source, along a path in which `a` fits. -/
def PathTo (g : Network) (f : ℕ × ℕ → ℕ) (preds : ℕ → Option ℕ) (a : UInt64) (v : ℕ) : Prop :=
  ∃ path : List ℕ, (v :: path).Nodup ∧ PathFits g.edges g.bound f a.toNat (v :: path) ∧
    (v :: path).getLast (List.cons_ne_nil v path) = source ∧
    (v :: path).IsChain (fun w u => preds w = some u) ∧ ∀ x ∈ v :: path, preds x ≠ none

section Paths

variable {f : ℕ × ℕ → ℕ} {preds : ℕ → Option ℕ} {a b : UInt64} {v w : ℕ}

theorem PathTo.visited (h : PathTo g f preds a v) : preds v ≠ none := by
  obtain ⟨path, -, -, -, -, hmem⟩ := h
  exact hmem v List.mem_cons_self

theorem isChain_update {path : List ℕ} (hw : preds w = none)
    (h : path.IsChain (fun w u => preds w = some u)) (u : ℕ) :
    path.IsChain (fun x y => Function.update preds w (some u) x = some y) := by
  apply h.imp
  intro x y hxy
  have hne : x ≠ w := by
    rintro rfl
    rw [hw] at hxy
    cases hxy
  rw [Function.update_of_ne hne]
  exact hxy

theorem update_ne_none (u : ℕ) {x : ℕ} (h : preds x ≠ none) :
    Function.update preds w (some u) x ≠ none := by
  by_cases hx : x = w
  · subst hx
    rw [Function.update_self]
    exact Option.some_ne_none u
  · rw [Function.update_of_ne hx]
    exact h

/-- A new vertex does not change the paths to the old ones. -/
theorem PathTo.update (h : PathTo g f preds a v) (hw : preds w = none) (u : ℕ) :
    PathTo g f (Function.update preds w (some u)) a v := by
  obtain ⟨path, hnd, hfits, hlast, hchain, hmem⟩ := h
  exact ⟨path, hnd, hfits, hlast, isChain_update hw hchain u,
    fun x hx => update_ne_none u (hmem x hx)⟩

theorem PathTo.extend (h : PathTo g f preds a v) (hw : preds w = none) (hle : b ≤ a)
    (hfit : Fits g.edges g.bound f b.toNat v w) :
    PathTo g f (Function.update preds w (some v)) b w := by
  obtain ⟨path, hnd, hfits, hlast, hchain, hmem⟩ := h
  have hnotin : w ∉ v :: path := fun hin => hmem w hin hw
  refine ⟨v :: path, List.nodup_cons.2 ⟨hnotin, hnd⟩, ?_, ?_, ?_, ?_⟩
  · refine List.isChain_cons_cons.2 ⟨hfit, hfits.imp ?_⟩
    intro x y hxy
    exact hxy.mono (UInt64.le_iff_toNat_le.1 hle)
  · rw [List.getLast_cons (List.cons_ne_nil v path)]
    exact hlast
  · refine List.isChain_cons_cons.2 ⟨Function.update_self _ _ _, isChain_update hw hchain v⟩
  · intro x hx
    rcases List.mem_cons.1 hx with rfl | hx
    · rw [Function.update_self]
      exact Option.some_ne_none v
    · exact update_ne_none v (hmem x hx)

end Paths

/-- The invariant of the search. While the edges of a vertex are looked at, that vertex and its
amount are `busy`. -/
structure BfsOk (g : Network) (used : ℕ → ℕ → UInt64) (f : ℕ × ℕ → ℕ) (busy : Option (ℕ × UInt64))
    (b : Bfs) : Prop where
  source : b.preds source ≠ none
  path : ∀ q, q ∈ b.fringe ∨ busy = some q → 0 < q.2 ∧ PathTo g f b.preds q.2 q.1
  found : ∀ m, b.found = some m → 0 < m ∧ PathTo g f b.preds m sink
  sink : b.found = none → b.preds sink = none
  closed : b.found = none → ∀ v, b.preds v ≠ none → (∀ q ∈ busy, v ≠ q.1) →
    (∀ q ∈ b.fringe, v ≠ q.1) → ∀ w, Residual g used v w → b.preds w ≠ none

/-- What looking at one neighbour does: it is visited afterwards if there is room, unless the sink
has been found; and what was visited stays so. -/
structure Looked (b b' : Bfs) (w : ℕ) (rem : UInt64) : Prop where
  reached : b'.found = none → 0 < rem → b'.preds w ≠ none
  kept : ∀ x, b.preds x ≠ none → b'.preds x ≠ none
  found : b'.found = none → b.found = none

namespace BfsOk

variable {used : ℕ → ℕ → UInt64} {f : ℕ × ℕ → ℕ} {b : Bfs} {v w : ℕ} {flow rem : UInt64}

/-- A new vertex is put in the fringe. -/
theorem push (hb : BfsOk g used f (some (v, flow)) b) (hrem : 0 < rem) (hw : b.preds w = none)
    (hws : w ≠ Graph.sink) (hfit : ∀ a, a ≤ rem → Fits g.edges g.bound f a.toNat v w) :
    BfsOk g used f (some (v, flow)) { b with
      preds := Function.update b.preds w (some v)
      fringe := b.fringe ++ [(w, min flow rem)] } := by
  constructor
  · exact update_ne_none v hb.source
  · rintro q (hq | hq)
    · rcases List.mem_append.1 hq with hold | hnew
      · exact ⟨(hb.path q (Or.inl hold)).1, (hb.path q (Or.inl hold)).2.update hw v⟩
      · obtain rfl : q = (w, min flow rem) := List.mem_singleton.1 hnew
        obtain ⟨hpos, hv⟩ := hb.path (v, flow) (Or.inr rfl)
        have hfit' : Fits g.edges g.bound f (min flow rem).toNat v w := hfit _ (min_le_right' _ _)
        exact ⟨min_pos hpos hrem, hv.extend hw (min_le_left' _ _) hfit'⟩
    · exact ⟨(hb.path q (Or.inr hq)).1, (hb.path q (Or.inr hq)).2.update hw v⟩
  · intro m hm
    exact ⟨(hb.found m hm).1, (hb.found m hm).2.update hw v⟩
  · intro hnone
    change Function.update b.preds w (some v) Graph.sink = none
    rw [Function.update_of_ne hws.symm]
    exact hb.sink hnone
  · intro hnone x hx hbusy hfringe y hxy
    have hxw : x ≠ w := hfringe (w, min flow rem) (by simp)
    change Function.update b.preds w (some v) x ≠ none at hx
    rw [Function.update_of_ne hxw] at hx
    apply update_ne_none
    apply hb.closed hnone x hx hbusy _ y hxy
    intro q hq
    exact hfringe q (List.mem_append_left _ hq)

theorem find (hb : BfsOk g used f (some (v, flow)) b) (hrem : 0 < rem) (hnone : b.found = none)
    (hfit : ∀ a, a ≤ rem → Fits g.edges g.bound f a.toNat v Graph.sink) :
    BfsOk g used f (some (v, flow)) { b with
      preds := Function.update b.preds Graph.sink (some v)
      found := some (min flow rem) } := by
  constructor
  · change Function.update b.preds Graph.sink (some v) Graph.source ≠ none
    exact update_ne_none v hb.source
  · intro q hq
    exact ⟨(hb.path q hq).1, (hb.path q hq).2.update (hb.sink hnone) v⟩
  · intro m hm
    obtain rfl : min flow rem = m := Option.some.inj hm
    obtain ⟨hpos, hv⟩ := hb.path (v, flow) (Or.inr rfl)
    have hfit' : Fits g.edges g.bound f (min flow rem).toNat v Graph.sink :=
      hfit _ (min_le_right' _ _)
    exact ⟨min_pos hpos hrem, hv.extend (hb.sink hnone) (min_le_left' _ _) hfit'⟩
  · intro h
    cases h
  · intro h
    cases h

theorem visit (hg : g.Ok) (hf : FlowOk g used f) (hb : BfsOk g used f (some (v, flow)) b)
    (he : w ∈ g.adj v) :
    BfsOk g used f (some (v, flow)) (b.visit g used v flow w) ∧
      Looked b (b.visit g used v flow w) w (g.rem used v w) := by
  rw [Bfs.visit]
  split_ifs with hcond hsink
  · obtain ⟨hnone, hrem, -⟩ := hcond
    subst hsink
    exact ⟨hb.find hrem hnone (fun a ha => hf.fits_rem hg he ha),
      ⟨fun h => (by cases h), fun x hx => update_ne_none v hx, fun h => (by cases h)⟩⟩
  · obtain ⟨hnone, hrem, hw⟩ := hcond
    refine ⟨hb.push hrem hw hsink (fun a ha => hf.fits_rem hg he ha),
      ⟨fun _ _ => ?_, fun x hx => update_ne_none v hx, fun h => h⟩⟩
    change Function.update b.preds w (some v) w ≠ none
    rw [Function.update_self]
    exact Option.some_ne_none v
  · exact ⟨hb, ⟨fun hnone hrem hw => hcond ⟨hnone, hrem, hw⟩, fun x hx => hx, fun h => h⟩⟩

theorem visitReverse (hg : g.Ok) (hf : FlowOk g used f) (hb : BfsOk g used f (some (v, flow)) b)
    (he : v ∈ g.adj w) :
    BfsOk g used f (some (v, flow)) (b.visitReverse used v flow w) ∧
      Looked b (b.visitReverse used v flow w) w (used w v) := by
  rw [Bfs.visitReverse]
  split_ifs with hcond
  · obtain ⟨hnone, hrem, hw⟩ := hcond
    have hsink : w ≠ Graph.sink := by
      rintro rfl
      rw [hg.sink] at he
      exact List.not_mem_nil he
    refine ⟨hb.push hrem hw hsink (fun a ha => hf.fits_used hg he ha),
      ⟨fun _ _ => ?_, fun x hx => update_ne_none v hx, fun h => h⟩⟩
    change Function.update b.preds w (some v) w ≠ none
    rw [Function.update_self]
    exact Option.some_ne_none v
  · exact ⟨hb, ⟨fun hnone hrem hw => hcond ⟨hnone, hrem, hw⟩, fun x hx => hx, fun h => h⟩⟩

/-- What a loop over neighbours does, from what its body does. -/
theorem foldl {look : Bfs → ℕ → Bfs} {room : ℕ → UInt64} {ws : List ℕ}
    (hlook : ∀ w ∈ ws, ∀ b, BfsOk g used f (some (v, flow)) b →
      BfsOk g used f (some (v, flow)) (look b w) ∧ Looked b (look b w) w (room w))
    (hb : BfsOk g used f (some (v, flow)) b) :
    BfsOk g used f (some (v, flow)) (ws.foldl look b) ∧
      (∀ w ∈ ws, (ws.foldl look b).found = none → 0 < room w → (ws.foldl look b).preds w ≠ none) ∧
      (∀ x, b.preds x ≠ none → (ws.foldl look b).preds x ≠ none) ∧
      ((ws.foldl look b).found = none → b.found = none) := by
  induction ws generalizing b with
  | nil => exact ⟨hb, fun w hw => absurd hw List.not_mem_nil, fun x hx => hx, fun h => h⟩
  | cons w ws ih =>
      obtain ⟨hb', hw'⟩ := hlook w List.mem_cons_self b hb
      obtain ⟨hok, hreach, hkept, hfound⟩ :=
        ih (fun w hw => hlook w (List.mem_cons_of_mem _ hw)) hb'
      refine ⟨hok, ?_, fun x hx => hkept x (hw'.kept x hx), fun h => hw'.found (hfound h)⟩
      intro y hy hnone hroom
      rcases List.mem_cons.1 hy with rfl | hy
      · exact hkept y (hw'.reached (hfound hnone) hroom)
      · exact hreach y hy hnone hroom

/-- One round of the search keeps the invariant. -/
theorem step (hg : g.Ok) (hf : FlowOk g used f) {b b' : Bfs} (hb : BfsOk g used f none b)
    (h : b.step g used = .ok (some b')) : BfsOk g used f none b' := by
  rw [Bfs.step] at h
  split at h
  · next v flow fringe hnone hfringe =>
    cases h
    have hbusy : BfsOk g used f (some (v, flow)) { b with fringe := fringe } := by
      constructor
      · exact hb.source
      · rintro q (hq | hq)
        · exact hb.path q (Or.inl (hfringe ▸ List.mem_cons_of_mem _ hq))
        · cases hq
          exact hb.path _ (Or.inl (hfringe ▸ List.mem_cons_self))
      · exact hb.found
      · exact hb.sink
      · intro _ x hx hxv hxf y hxy
        apply hb.closed hnone x hx (fun q hq => by cases hq) _ y hxy
        intro q hq
        rw [hfringe] at hq
        rcases List.mem_cons.1 hq with rfl | hq
        · exact hxv _ rfl
        · exact hxf q hq
    obtain ⟨hfwd, hreachF, -, -⟩ := foldl (fun w hw b hb => hb.visit hg hf hw) hbusy
    obtain ⟨hrev, hreachR, hkept, hfound⟩ :=
      foldl (fun w hw b hb => hb.visitReverse hg hf (hg.mem_revAdj.1 hw)) hfwd
    constructor
    · exact hrev.source
    · rintro q (hq | hq)
      · exact hrev.path q (Or.inl hq)
      · cases hq
    · exact hrev.found
    · exact hrev.sink
    · intro hnone' x hx _ hxf y hxy
      by_cases hxv : x = v
      · subst hxv
        obtain ⟨hy, hroom⟩ | ⟨hy, hroom⟩ := hxy
        · exact hkept y (hreachF y hy (hfound hnone') hroom)
        · exact hreachR y (hg.mem_revAdj.2 hy) hnone' hroom
      · apply hrev.closed hnone' x hx _ hxf y hxy
        rintro q ⟨⟩
        exact hxv
  · cases h

theorem init (g : Network) (used : ℕ → ℕ → UInt64) (f : ℕ × ℕ → ℕ) :
    BfsOk g used f none Bfs.init := by
  have hpreds : ∀ x, Bfs.init.preds x = if x = Graph.source then some Graph.source else none := by
    intro x
    change Function.update (fun _ => none) Graph.source (some Graph.source) x = _
    rw [Function.update_apply]
  have hsource : Bfs.init.preds Graph.source = some Graph.source := by rw [hpreds, if_pos rfl]
  have honly : ∀ x, Bfs.init.preds x ≠ none → x = Graph.source := by
    intro x hx
    by_contra hne
    rw [hpreds, if_neg hne] at hx
    exact hx rfl
  constructor
  · rw [hsource]
    exact Option.some_ne_none _
  · rintro q (hq | hq)
    · obtain rfl : q = (Graph.source, infinity) := List.mem_singleton.1 hq
      refine ⟨by decide, [], List.nodup_singleton _, List.isChain_singleton _, rfl,
        List.isChain_singleton _, ?_⟩
      intro x hx
      obtain rfl := List.mem_singleton.1 hx
      rw [hsource]
      exact Option.some_ne_none _
    · cases hq
  · intro m hm
    cases hm
  · intro _
    rw [hpreds]
    rfl
  · intro _ v hv _ hfringe
    exact absurd (honly v hv) (hfringe (Graph.source, infinity) List.mem_cons_self)

end BfsOk

section Search

variable {used : ℕ → ℕ → UInt64} {f : ℕ × ℕ → ℕ} {fuel : ℕ}

theorem bfsFindAugmentingPath_spec (hg : g.Ok) (hf : FlowOk g used f) {a : UInt64}
    {preds : ℕ → Option ℕ} (h : bfsFindAugmentingPath fuel g used = .ok (a, preds)) :
    (a ≠ 0 → PathTo g f preds a sink) ∧
      (a = 0 → ¬ Relation.ReflTransGen (Residual g used) source sink) := by
  obtain ⟨b, hb, hret⟩ := bind_eq_ok.1 h
  cases hret
  obtain ⟨hok, hend⟩ := iterate_invariant (BfsOk g used f none)
    (fun s s' hs hstep => hs.step hg hf hstep) (BfsOk.init g used f) hb
  cases hfound : b.found with
  | some m =>
      obtain ⟨hpos, hpath⟩ := hok.found m hfound
      refine ⟨fun _ => hpath, fun hzero => ?_⟩
      rw [Option.getD_some] at hzero
      subst hzero
      exact absurd hpos (by decide)
  | none =>
      have hempty : b.fringe = [] := by
        cases hfr : b.fringe with
        | nil => rfl
        | cons q fringe =>
            rw [Bfs.step, hfound, hfr] at hend
            cases hend
      refine ⟨fun hne => absurd rfl hne, fun _ hreach => ?_⟩
      have hvisited : ∀ x, Relation.ReflTransGen (Residual g used) source x → b.preds x ≠ none := by
        intro x hx
        induction hx with
        | refl => exact hok.source
        | tail _ hstep ih =>
            apply hok.closed hfound _ ih (fun q hq => by cases hq) _ _ hstep
            rw [hempty]
            exact fun q hq => absurd hq List.not_mem_nil
      exact hvisited sink hreach (hok.sink hfound)

end Search

end Cpf.Graph
