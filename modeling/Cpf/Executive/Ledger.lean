import Cpf.Basics.Numbered
import Cpf.Executive.Episode

/-!
# What the checkpoints in use hold

`GroupOk` relates the checkpoint of group `m` to the merges that the workers have made: how many
there were, which iterations they brought, and which output. A merge, and the combination of the two
oldest checkpoints, keep it.
-/

namespace Cpf.Executive

open Loop

/-- The checkpoint `c` of group `m`; its effects are those of the iterations from `low` on, which is
the start of the group unless older checkpoints have been combined into it. -/
structure GroupOk {cfg : Config} (loop : Loop cfg) (first : ℕ) (misspec : Bool)
    (merges : Fin cfg.numWorkers → ℕ) (effects : ℕ → List ℕ) (low m : ℕ) (c : Checkpoint) : Prop where
  iteration : c.iteration = loop.boundary first m
  numWorkers : c.numWorkers = (Finset.univ.filter (fun w => m < merges w)).card
  passed : c.type = .clComplete → ∀ w, m < merges w
  complete : misspec = false → (∀ w, m < merges w) → c.type = .clComplete
  effects : (effects c.iteration : Multiset ℕ) = Multiset.filter (fun i => m < merges (loop.owner i))
    (forRange low (loop.groupEnd first m) 1 : Multiset ℕ)
  events : ∀ w, m < merges w →
    IOEvtSet.ownEvents (fun i => loop.owner i) loop.evts
        (forRange (groupStart cfg first m) (loop.groupEnd first m) 1) w <+: c.ioEvents.lists w ∧
      c.ioEvents.num w = (IOEvtSet.ownEvents (fun i => loop.owner i) loop.evts
        (forRange (groupStart cfg first m) (loop.groupEnd first m) 1) w).length

namespace GroupOk

variable {cfg : Config} {loop : Loop cfg} {first : ℕ} {misspec : Bool}
  {merges merges' : Fin cfg.numWorkers → ℕ} {effects effects' : ℕ → List ℕ} {low m : ℕ}
  {c : Checkpoint}

theorem afterMisspec (h : GroupOk loop first misspec merges effects low m c) :
    GroupOk loop first true merges effects low m c :=
  { h with complete := fun hf => by cases hf }

theorem congr (h : GroupOk loop first misspec merges effects low m c)
    (hm : ∀ w, m < merges' w ↔ m < merges w) (he : effects' c.iteration = effects c.iteration) :
    GroupOk loop first misspec merges' effects' low m c where
  iteration := h.iteration
  numWorkers := by simpa only [hm] using h.numWorkers
  passed ht w := (hm w).2 (h.passed ht w)
  complete hf hall := h.complete hf (fun w => (hm w).1 (hall w))
  effects := by
    rw [he]
    simpa only [hm] using h.effects
  events w hw := h.events w ((hm w).1 hw)

theorem fresh (object : Checkpoint) (hm : ∀ w, merges w ≤ m)
    (he : effects (loop.boundary first m) = []) :
    GroupOk loop first misspec merges effects low m
      (State.freshCheckpoint object (loop.boundary first m)) where
  iteration := rfl
  numWorkers := by
    rw [Finset.filter_false_of_mem (fun w _ => not_lt.2 (hm w))]
    rfl
  passed ht := by cases ht
  complete _ hall := absurd (hall ⟨0, cfg.workers_pos⟩) (not_lt.2 (hm _))
  effects := by
    change (effects (loop.boundary first m) : Multiset ℕ) = _
    rw [he, Multiset.filter_eq_nil.2 (fun i _ => not_lt.2 (hm _))]
    rfl
  events w hw := absurd hw (not_lt.2 (hm w))

theorem lt_update_iff (w v : Fin cfg.numWorkers) :
    m < Function.update merges w (m + 1) v ↔ v = w ∨ m < merges v := by
  by_cases hv : v = w
  · subst v
    simp
  · rw [Function.update_of_ne hv]
    simp [hv]

theorem card_update {w : Fin cfg.numWorkers} (hw : merges w = m) :
    (Finset.univ.filter (fun v => m < Function.update merges w (m + 1) v)).card =
      (Finset.univ.filter (fun v => m < merges v)).card + 1 := by
  have hinsert : Finset.univ.filter (fun v => m < Function.update merges w (m + 1) v) =
      insert w (Finset.univ.filter (fun v => m < merges v)) := by
    ext v
    simp only [Finset.mem_filter, Finset.mem_univ, true_and, Finset.mem_insert, lt_update_iff w]
  rw [hinsert, Finset.card_insert_of_notMem (by simp [hw])]

/-- The merge of a worker that has run its part of group `m`. -/
theorem merge (h : GroupOk loop first misspec merges effects low m c) {w : Fin cfg.numWorkers}
    {p : Proc} (hp : ProcOk loop first misspec w p) (hw : merges w = m) (hpm : p.merges = m)
    (hlow : low = groupStart cfg first m) (hcur : p.currentIter = loop.groupEnd first m)
    (behind : List IOEvt) :
    GroupOk loop first misspec (Function.update merges w (m + 1))
      (Function.update effects c.iteration (effects c.iteration ++ p.pending)) low m
      (cfg.performCheckpointLocked w p.currentIter behind p.spec c) := by
  have hpending : p.pending = loop.owned w (forRange low (loop.groupEnd first m) 1) := by
    rw [hp.pending, hpm, hlow, hcur]
  have hevents : p.spec.ioEvents = IOEvtSet.ownEvents (fun i => loop.owner i) loop.evts
      (forRange (groupStart cfg first m) (loop.groupEnd first m) 1) w := by
    rw [hp.events, hpending, hlow, owned, IOEvtSet.ownEvents]
    simp only [Fin.val_inj]
  refine ⟨(Config.performCheckpointLocked_iteration w _ behind p.spec c).trans h.iteration, ?_,
    fun ht v => ?_, fun hf hall => ?_, ?_, fun v hv => ?_⟩
  · change c.numWorkers + 1 = _
    rw [card_update hw, h.numWorkers]
  · change (if c.numWorkers + 1 = cfg.numWorkers then CheckpointLife.clComplete else c.type) = _ at ht
    split_ifs at ht with hlast
    · have hcard : (Finset.univ.filter (fun v => m < Function.update merges w (m + 1) v)).card =
          (Finset.univ : Finset (Fin cfg.numWorkers)).card := by
        rw [card_update hw, ← h.numWorkers, hlast, Finset.card_univ, Fintype.card_fin]
      exact Finset.filter_card_eq hcard v (Finset.mem_univ v)
    · exact absurd (h.passed ht w) (by omega)
  · change (if c.numWorkers + 1 = cfg.numWorkers then CheckpointLife.clComplete else c.type) = _
    refine if_pos ?_
    rw [h.numWorkers, ← card_update hw, Finset.filter_true_of_mem (fun v _ => hall v),
      Finset.card_univ, Fintype.card_fin]
  · rw [Config.performCheckpointLocked_iteration, Function.update_self, ← Multiset.coe_add, h.effects, hpending]
    simp only [lt_update_iff w]
    have hdisj : Multiset.filter (fun i => loop.owner i = w ∧ m < merges (loop.owner i))
        (forRange low (loop.groupEnd first m) 1 : Multiset ℕ) = 0 := by
      refine Multiset.filter_eq_nil.2 (fun i _ hand => ?_)
      have hlt := hand.2
      rw [hand.1, hw] at hlt
      exact lt_irrefl _ hlt
    have hsum := Multiset.filter_add_filter (fun i => loop.owner i = w)
      (fun i => m < merges (loop.owner i)) (forRange low (loop.groupEnd first m) 1 : Multiset ℕ)
    rw [hdisj, add_zero] at hsum
    rw [← hsum, add_comm, Multiset.filter_coe]
    rfl
  · rw [Config.performCheckpointLocked_ioEvents, IOEvtSet.copyIoToRedux]
    by_cases hvw : v = w
    · subst v
      rw [← hevents]
      refine ⟨?_, Function.update_self _ _ _⟩
      dsimp only
      split_ifs with hlen
      · have hnil : p.spec.ioEvents = [] := List.length_eq_zero_iff.1 (by omega)
        rw [hnil]
        exact List.nil_prefix
      · rw [Function.update_self]
        exact List.prefix_append _ _
    · obtain ⟨hlist, hnum⟩ := h.events v (((lt_update_iff w v).1 hv).resolve_left hvw)
      have hne : (v : ℕ) ≠ w := fun he => hvw (Fin.ext he)
      dsimp only
      rw [Function.update_of_ne hne]
      refine ⟨?_, hnum⟩
      split_ifs
      · exact hlist
      · rwa [Function.update_of_ne hne]

theorem combine {alpha beta newer : Checkpoint} {out : List IOEvt} {k : ℕ}
    (hk : k + 1 < loop.numGroups first)
    (ha : GroupOk loop first misspec merges effects first k alpha)
    (hb : GroupOk loop first misspec merges effects (groupStart cfg first (k + 1)) (k + 1) beta)
    (hatype : alpha.type = .clComplete) (hbtype : beta.type = .clComplete)
    (hc : cfg.combineCheckpoints alpha beta = .ok (newer, out)) :
    GroupOk loop first misspec merges (Function.update effects beta.iteration
      (effects alpha.iteration ++ effects beta.iteration)) first (k + 1) newer := by
  obtain ⟨img, _, rfl, _⟩ := Config.combineCheckpoints_ok hc
  have hpa := ha.passed hatype
  have hpb := hb.passed hbtype
  refine ⟨hb.iteration, hb.numWorkers, hb.passed, hb.complete, ?_, hb.events⟩
  have hle : first ≤ groupStart cfg first (k + 1) := Nat.le_add_right _ _
  have hstart : groupStart cfg first (k + 1) ≤ loop.groupEnd first (k + 1) :=
    groupStart_le_groupEnd hk
  change (Function.update effects beta.iteration
    (effects alpha.iteration ++ effects beta.iteration) beta.iteration : Multiset ℕ) = _
  rw [Function.update_self, ← Multiset.coe_add, ha.effects, hb.effects,
    Multiset.filter_eq_self.2 (fun i _ => hpa _), Multiset.filter_eq_self.2 (fun i _ => hpb _),
    Multiset.filter_eq_self.2 (fun i _ => hpb _), groupEnd_of_lt hk, Multiset.coe_add,
    ← forRange_append hle hstart]

end GroupOk
end Cpf.Executive
