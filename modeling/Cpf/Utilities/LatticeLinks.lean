import Cpf.Utilities.LatticeGraph

/-!
# Links of the lattice

A link from a smaller to a larger element keeps a lattice well formed. The loops of `insert` link the new
node to the nodes that they find, the first one to nodes above it and the second one to nodes below.
-/

namespace Cpf.Utilities

variable {α : Type} {order : LatticeOrder α} {l l' l₀ : Lattice α} {m new u v n : ℕ} {linked : List ℕ}

/-! ### Links -/

/-- `searchForward` links the new node to a node above it. -/
def linkForward (new : ℕ) (l : Lattice α) (n : ℕ) : Lattice α :=
  { l with
    succs := Function.update l.succs new (l.succs new ++ [n])
    preds := Function.update l.preds n (new :: l.preds n)
    sources := if l.preds n = [] then l.sources.filter (· ≠ n) else l.sources }

/-- `searchReverse` links a node to the new node above it, and passes the new node itself. -/
def linkReverse (new : ℕ) (l : Lattice α) (n : ℕ) : Lattice α :=
  if n = new then l
  else
    { l with
      preds := Function.update l.preds new (n :: l.preds new)
      succs := Function.update l.succs n (l.succs n ++ [new])
      sinks := if l.succs n = [] then l.sinks.filter (· ≠ n) else l.sinks }

/-- A link takes its ends from the sources and sinks. -/
theorem mem_removed {ends links : List ℕ} (h : v ∈ ends → links = []) :
    u ∈ (if links = [] then ends.filter (· ≠ v) else ends) ↔ u ∈ ends ∧ u ≠ v := by
  by_cases hlinks : links = []
  · rw [if_pos hlinks, List.mem_filter, decide_eq_true_eq]
  · rw [if_neg hlinks]
    exact ⟨fun hu => ⟨hu, fun heq => hlinks (h (heq ▸ hu))⟩, fun hu => hu.1⟩

theorem nodup_removed {ends links : List ℕ} (h : ends.Nodup) :
    (if links = [] then ends.filter (· ≠ v) else ends).Nodup := by
  by_cases hlinks : links = []
  · rw [if_pos hlinks]
    exact h.filter _
  · rw [if_neg hlinks]
    exact h

theorem mem_update_append {f : ℕ → List ℕ} {w x : ℕ} :
    x ∈ Function.update f u (f u ++ [v]) w ↔ x ∈ f w ∨ (w = u ∧ x = v) := by
  by_cases hw : w = u
  · rw [hw, Function.update_self, List.mem_append, List.mem_singleton]
    simp
  · rw [Function.update_of_ne hw]
    simp [hw]

theorem mem_update_cons {f : ℕ → List ℕ} {w x : ℕ} :
    x ∈ Function.update f v (u :: f v) w ↔ x ∈ f w ∨ (w = v ∧ x = u) := by
  by_cases hw : w = v
  · rw [hw, Function.update_self, List.mem_cons]
    tauto
  · rw [Function.update_of_ne hw]
    simp [hw]

/-- A link from `u` to `v` keeps the lattice well formed. -/
theorem Lattice.Wf.link (h : l.Wf order m) (hbelow : Below order l.values u v) (hfresh : v ∉ l.succs u)
    (hvalues : l'.values = l.values) (hsuccs : l'.succs = Function.update l.succs u (l.succs u ++ [v]))
    (hpreds : l'.preds = Function.update l.preds v (u :: l.preds v))
    (hsourcesNodup : l'.sources.Nodup) (hsources : ∀ w, w ∈ l'.sources ↔ w ∈ l.sources ∧ w ≠ v)
    (hsinksNodup : l'.sinks.Nodup) (hsinks : ∀ w, w ∈ l'.sinks ↔ w ∈ l.sinks ∧ w ≠ u) :
    l'.Wf order m where
  le := hvalues ▸ h.le
  nodup := hvalues ▸ h.nodup
  succs_nodup w := by
    rw [hsuccs]
    by_cases hw : w = u
    · rw [hw, Function.update_self, List.nodup_append]
      refine ⟨h.succs_nodup u, List.nodup_singleton v, fun x hx y hy hxy => ?_⟩
      rw [List.mem_singleton.1 hy] at hxy
      exact hfresh (hxy ▸ hx)
    · rw [Function.update_of_ne hw]
      exact h.succs_nodup w
  preds_nodup w := by
    rw [hpreds]
    by_cases hw : w = v
    · rw [hw, Function.update_self, List.nodup_cons, h.mem_preds]
      exact ⟨hfresh, h.preds_nodup v⟩
    · rw [Function.update_of_ne hw]
      exact h.preds_nodup w
  mem_preds w x := by
    rw [hpreds, hsuccs, mem_update_cons, mem_update_append, h.mem_preds]
    tauto
  below w x hx := by
    rw [hsuccs, mem_update_append] at hx
    rw [hvalues]
    rcases hx with hx | ⟨rfl, rfl⟩
    · exact h.below w x hx
    · exact hbelow
  sources_nodup := hsourcesNodup
  sinks_nodup := hsinksNodup
  mem_sources w := by
    rw [hsources, h.mem_sources, hpreds]
    by_cases hw : w = v
    · rw [hw, Function.update_self]
      exact iff_of_false (fun hin => hin.2 rfl) fun hin => List.cons_ne_nil _ _ hin.2
    · rw [Function.update_of_ne hw]
      tauto
  mem_sinks w := by
    rw [hsinks, h.mem_sinks, hsuccs]
    by_cases hw : w = u
    · rw [hw, Function.update_self]
      exact iff_of_false (fun hin => hin.2 rfl) fun hin => List.append_ne_nil_of_right_ne_nil _
        (List.cons_ne_nil _ _) hin.2
    · rw [Function.update_of_ne hw]
      tauto

theorem Lattice.Wf.linkForward (h : l.Wf order m) (hm : m ≤ new) (hbelow : Below order l.values new n)
    (hfresh : n ∉ l.succs new) : (linkForward new l n).Wf order m :=
  h.link hbelow hfresh rfl rfl rfl (nodup_removed h.sources_nodup)
    (fun _ => mem_removed fun hn => ((h.mem_sources n).1 hn).2) h.sinks_nodup
    fun w => ⟨fun hw => ⟨hw, fun heq => by
      have hlt := ((h.mem_sinks w).1 hw).1
      omega⟩, fun hw => hw.1⟩

theorem Lattice.Wf.linkReverse (h : l.Wf order m) (hm : m ≤ new) (hbelow : Below order l.values n new)
    (hfresh : new ∉ l.succs n) : (linkReverse new l n).Wf order m := by
  unfold Utilities.linkReverse
  rw [if_neg hbelow.1]
  exact h.link hbelow hfresh rfl rfl rfl h.sources_nodup
    (fun w => ⟨fun hw => ⟨hw, fun heq => by
      have hlt := ((h.mem_sources w).1 hw).1
      omega⟩, fun hw => hw.1⟩) (nodup_removed h.sinks_nodup)
    fun _ => mem_removed fun hn => ((h.mem_sinks n).1 hn).2

/-! ### The first loop -/

theorem linkAll_linkForward_values : (linkAll (linkForward new) l₀ linked).values = l₀.values := by
  induction linked using List.reverseRecOn with
  | nil => rfl
  | append_singleton linked n ih => rw [linkAll_concat, ← ih, linkForward]

theorem linkAll_linkForward_succs (hu : u ≠ new) :
    (linkAll (linkForward new) l₀ linked).succs u = l₀.succs u := by
  induction linked using List.reverseRecOn with
  | nil => rfl
  | append_singleton linked n ih =>
      rw [linkAll_concat, linkForward]
      dsimp only
      rw [Function.update_of_ne hu, ih]

theorem linkAll_linkForward_preds (hv : v ∉ linked) :
    (linkAll (linkForward new) l₀ linked).preds v = l₀.preds v := by
  induction linked using List.reverseRecOn with
  | nil => rfl
  | append_singleton linked n ih =>
      rw [List.mem_append, List.mem_singleton, not_or] at hv
      rw [linkAll_concat, linkForward]
      dsimp only
      rw [Function.update_of_ne hv.2, ih hv.1]

theorem linkAll_linkForward (h : l₀.Wf order m) (hm : m ≤ new) (hsuccs : l₀.succs new = [])
    (hnodup : linked.Nodup) (hlinked : ∀ v ∈ linked, Below order l₀.values new v) :
    (linkAll (linkForward new) l₀ linked).Wf order m ∧
      ∀ u v, (linkAll (linkForward new) l₀ linked).Succ u v ↔ l₀.Succ u v ∨ (u = new ∧ v ∈ linked) := by
  induction linked using List.reverseRecOn with
  | nil =>
      refine ⟨h, fun u v => ⟨Or.inl, ?_⟩⟩
      rintro (huv | ⟨_, hv⟩)
      · exact huv
      · exact absurd hv List.not_mem_nil
  | append_singleton linked n ih =>
      obtain ⟨hbefore, _, hdistinct⟩ := List.nodup_append.1 hnodup
      obtain ⟨hwf, hsucc⟩ := ih hbefore fun v hv => hlinked v (List.mem_append_left _ hv)
      have hn := hlinked n (List.mem_append_right _ (List.mem_singleton_self n))
      rw [linkAll_concat]
      constructor
      · refine hwf.linkForward hm (by rwa [linkAll_linkForward_values]) fun hin => ?_
        rcases (hsucc new n).1 hin with hin | ⟨_, hin⟩
        · rw [Lattice.Succ, hsuccs] at hin
          exact List.not_mem_nil hin
        · exact hdistinct n hin n (List.mem_singleton_self n) rfl
      · intro u v
        rw [Lattice.Succ, linkForward]
        dsimp only
        rw [mem_update_append, List.mem_append, List.mem_singleton]
        have hold := hsucc u v
        rw [Lattice.Succ] at hold
        rw [hold]
        tauto

/-! ### The second loop -/

theorem linkAll_linkReverse_values : (linkAll (linkReverse new) l₀ linked).values = l₀.values := by
  induction linked using List.reverseRecOn with
  | nil => rfl
  | append_singleton linked n ih =>
      rw [linkAll_concat, ← ih, linkReverse]
      split <;> rfl

theorem linkAll_linkReverse_succs (hv : v ∉ linked) :
    (linkAll (linkReverse new) l₀ linked).succs v = l₀.succs v := by
  induction linked using List.reverseRecOn with
  | nil => rfl
  | append_singleton linked n ih =>
      rw [List.mem_append, List.mem_singleton, not_or] at hv
      rw [linkAll_concat, linkReverse]
      split
      · exact ih hv.1
      · dsimp only
        rw [Function.update_of_ne hv.2, ih hv.1]

theorem linkAll_linkReverse_preds (hu : u ≠ new) :
    (linkAll (linkReverse new) l₀ linked).preds u = l₀.preds u := by
  induction linked using List.reverseRecOn with
  | nil => rfl
  | append_singleton linked n ih =>
      rw [linkAll_concat, linkReverse]
      split
      · exact ih
      · dsimp only
        rw [Function.update_of_ne hu, ih]

/-- The new node has its new predecessors in front of the old ones. -/
theorem linkAll_linkReverse_preds_self :
    ∃ extra, (linkAll (linkReverse new) l₀ linked).preds new = extra ++ l₀.preds new ∧
      ∀ v ∈ extra, v ∈ linked := by
  induction linked using List.reverseRecOn with
  | nil => exact ⟨[], rfl, fun v hv => hv⟩
  | append_singleton linked n ih =>
      obtain ⟨extra, heq, hextra⟩ := ih
      rw [linkAll_concat, linkReverse]
      split
      · exact ⟨extra, heq, fun v hv => List.mem_append_left _ (hextra v hv)⟩
      · refine ⟨n :: extra, ?_, fun v hv => ?_⟩
        · dsimp only
          rw [Function.update_self, heq, List.cons_append]
        · rcases List.mem_cons.1 hv with rfl | hv
          · exact List.mem_append_right _ (List.mem_singleton_self v)
          · exact List.mem_append_left _ (hextra v hv)

theorem linkAll_linkReverse (h : l₀.Wf order m) (hm : m ≤ new) (hpreds : l₀.preds new = [])
    (hnodup : linked.Nodup) (hlinked : ∀ v ∈ linked, v = new ∨ Below order l₀.values v new) :
    (linkAll (linkReverse new) l₀ linked).Wf order m ∧
      ∀ u v, (linkAll (linkReverse new) l₀ linked).Succ u v ↔
        l₀.Succ u v ∨ (v = new ∧ u ∈ linked ∧ u ≠ new) := by
  induction linked using List.reverseRecOn with
  | nil =>
      refine ⟨h, fun u v => ⟨Or.inl, ?_⟩⟩
      rintro (huv | ⟨_, hu, _⟩)
      · exact huv
      · exact absurd hu List.not_mem_nil
  | append_singleton linked n ih =>
      obtain ⟨hbefore, _, hdistinct⟩ := List.nodup_append.1 hnodup
      obtain ⟨hwf, hsucc⟩ := ih hbefore fun v hv => hlinked v (List.mem_append_left _ hv)
      rw [linkAll_concat]
      rcases hlinked n (List.mem_append_right _ (List.mem_singleton_self n)) with rfl | hn
      · rw [linkReverse, if_pos rfl]
        refine ⟨hwf, fun u v => ?_⟩
        rw [hsucc, List.mem_append, List.mem_singleton]
        tauto
      · constructor
        · refine hwf.linkReverse hm (by rwa [linkAll_linkReverse_values]) fun hin => ?_
          rcases (hsucc n new).1 hin with hin | ⟨_, hin, _⟩
          · rw [Lattice.Succ, ← h.mem_preds, hpreds] at hin
            exact List.not_mem_nil hin
          · exact hdistinct n hin n (List.mem_singleton_self n) rfl
        · intro u v
          have hne : n ≠ new := hn.1
          rw [Lattice.Succ, linkReverse, if_neg hne]
          dsimp only
          rw [mem_update_append, List.mem_append, List.mem_singleton]
          have hold := hsucc u v
          rw [Lattice.Succ] at hold
          rw [hold]
          constructor
          · rintro ((huv | ⟨hv, hu, hne'⟩) | ⟨rfl, hv⟩)
            · exact Or.inl huv
            · exact Or.inr ⟨hv, Or.inl hu, hne'⟩
            · exact Or.inr ⟨hv, Or.inr rfl, hne⟩
          · tauto

end Cpf.Utilities
