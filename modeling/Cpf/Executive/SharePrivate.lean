import Cpf.Executive.HeapSteps
import Cpf.Executive.ShareMerge

/-!
# Share-private bytes during an invocation

Each share-private byte is written by at most one iteration, its `writer`. `Sharing` adds to the
machine the stores to this heap and, as a record, the value that the last execution of the writer
has stored to each byte. `ShareGroup` says what the checkpoint of a group holds of these values.
-/

namespace Cpf.Executive

open Loop

/-- A loop together with the iteration that may write each share-private byte. -/
structure ShareLoop (cfg : Config) extends Loop cfg where
  writer : ℕ → ℕ

def storedAt (ptr : ℕ) (bytes : List UInt8) (k : ℕ) : Option UInt8 :=
  if ptr ≤ k then bytes[k - ptr]? else none

def overlay (v : ℕ → Option UInt8) (h : Heap) : Heap := fun k => (v k).getD (h k)

/-- `__specpriv_shareprivate_write_range` and the store behind it. -/
def Image.storeRange (img : Image) (ptr : ℕ) (bytes : List UInt8) : Image :=
  { img with
    priv := overlay (storedAt ptr bytes) img.priv
    range := img.range.update ptr bytes.length }

/-- The machine, and what the last execution of the writer of a byte has stored to it. -/
structure Sharing (cfg : Config) where
  state : State cfg
  stored : ℕ → Option UInt8

inductive ShareAction (cfg : Config)
  | store (w : Fin cfg.numWorkers) (ptr : ℕ) (bytes : List UInt8)
  | recover (heaps : Main) (redux : ReduxHeap) (stores : ℕ → Option UInt8)
  | act (a : Action cfg)

variable {cfg : Config}

/-- The other heaps of a worker change, the share-private one does not. -/
def Action.keepShare (s : State cfg) : Action cfg → Option (Action cfg)
  | .update w killpriv _ redux => some (.update w killpriv (s.procs w).spec.share redux)
  | .recover _ _ => none
  | a => some a

namespace ShareLoop

variable (loop : ShareLoop cfg)

/-- The stores of the recovery function: those of the iterations that it executes. -/
def recoveredStores (s : State cfg) (stores : ℕ → Option UInt8) : ℕ → Option UInt8 := fun k =>
  if loop.writer k ∈ loop.recovered s then stores k else none

/-- One step; after a recovery the values of iterations that were squashed are forgotten. -/
def step (t : Sharing cfg) : ShareAction cfg → Option (Sharing cfg)
  | .store w ptr bytes =>
      let p := t.state.procs w
      if p.currentIter < loop.trip ∧ loop.owner p.currentIter = w ∧
          (∀ j < bytes.length, loop.writer (ptr + j) = p.currentIter) ∧
          ptr + bytes.length ≤ cfg.sizeofShareprivate.val then
        (loop.toLoop.step t.state (.update w p.spec.killpriv (p.spec.share.storeRange ptr bytes)
          p.spec.redux)).map (fun s => ⟨s, fun k => (storedAt ptr bytes k).or (t.stored k)⟩)
      else none
  | .recover heaps redux stores =>
      let rs := loop.recoveredStores t.state stores
      (loop.toLoop.step t.state
        (.recover { heaps with sharepriv := overlay rs t.state.main.sharepriv } redux)).map
        (fun s => ⟨s, fun k =>
          if loop.writer k ∈ loop.recovered t.state then stores k
          else if loop.writer k < lowIter t.state then t.stored k else none⟩)
  | .act a => do
      let a ← a.keepShare t.state
      let s ← loop.toLoop.step t.state a
      return ⟨s, t.stored⟩

end ShareLoop

/-- The share-private heap of the main process holds what the iterations have stored, and `start`
elsewhere. -/
def Sharing.Survives (start : Heap) (t : Sharing cfg) : Prop :=
  t.state.main.sharepriv = overlay t.stored start

theorem lt_of_storedAt {ptr k : ℕ} {bytes : List UInt8} {v : UInt8}
    (h : storedAt ptr bytes k = some v) : ptr ≤ k ∧ k < ptr + bytes.length := by
  unfold storedAt at h
  split_ifs at h with hle
  obtain ⟨hlt, _⟩ := List.getElem?_eq_some_iff.1 h
  omega

/-- What the checkpoint `c` of group `m` holds of the values that have been stored since the workers
were started at `first`, when the main process had `base`. -/
structure ShareGroup (loop : ShareLoop cfg) (first : ℕ) (base : Heap) (stored : ℕ → Option UInt8)
    (merges : Fin cfg.numWorkers → ℕ) (low m : ℕ) (c : Checkpoint) : Prop where
  within : c.share.range.Within cfg.sizeofShareprivate.val
  holds : ∀ k v, stored k = some v → v ≠ base k → low ≤ loop.writer k →
    loop.writer k < loop.groupEnd first m → m < merges (loop.owner (loop.writer k)) →
    c.share.range.Covers k ∧ c.share.Updated k
  only : ∀ k < cfg.sizeofShareprivate.val, c.share.Updated k → stored k = some (c.share.priv k) ∧
    first ≤ loop.writer k ∧
    loop.writer k < groupStart cfg first (merges (loop.owner (loop.writer k)))

/-- What the share-private heap of worker `w` holds. -/
structure ShareProc (loop : ShareLoop cfg) (first : ℕ) (base : Heap) (stored : ℕ → Option UInt8)
    (w : Fin cfg.numWorkers) (p : Proc) : Prop where
  shadow : p.spec.share.shadow = base
  priv : ∀ k, p.spec.share.priv k =
    if loop.owner (loop.writer k) = w ∧ first ≤ loop.writer k then (stored k).getD (base k)
    else base k
  within : p.spec.share.range.Within cfg.sizeofShareprivate.val
  touched : ∀ k v, stored k = some v → loop.owner (loop.writer k) = w →
    groupStart cfg first p.merges ≤ loop.writer k → p.spec.share.range.Covers k
  executed : ∀ k v, stored k = some v → loop.owner (loop.writer k) = w → first ≤ loop.writer k →
    k < cfg.sizeofShareprivate.val ∧ loop.writer k < loop.trip ∧
    (loop.writer k < p.currentIter ∨ (loop.writer k = p.currentIter ∧ p.pc ≠ .checkpoint ∧
      ∀ b, p.pc ≠ .commit b))

section Merge

variable {loop : ShareLoop cfg} {first : ℕ} {base : Heap} {stored stored' : ℕ → Option UInt8}
  {merges merges' : Fin cfg.numWorkers → ℕ} {low m : ℕ} {c : Checkpoint} {w : Fin cfg.numWorkers}
  {p : Proc}

/-- A byte that worker `w` has updated is one of its own iterations. -/
theorem ShareProc.of_updated (h : ShareProc loop first base stored w p) {k : ℕ}
    (hu : p.spec.share.Updated k) :
    loop.owner (loop.writer k) = w ∧ first ≤ loop.writer k ∧
      stored k = some (p.spec.share.priv k) := by
  rw [Image.Updated, h.shadow, h.priv] at hu
  rw [h.priv]
  split_ifs at hu ⊢ with hk
  · cases hs : stored k with
    | none =>
        rw [hs] at hu
        exact absurd rfl hu
    | some v => exact ⟨hk.1, hk.2, rfl⟩
  · exact absurd rfl hu

theorem ShareProc.updated (h : ShareProc loop first base stored w p) {k : ℕ} {v : UInt8}
    (hs : stored k = some v) (hne : v ≠ base k) (hw : loop.owner (loop.writer k) = w)
    (hfirst : first ≤ loop.writer k) : p.spec.share.Updated k ∧ p.spec.share.priv k = v := by
  have hpriv : p.spec.share.priv k = v := by
    rw [h.priv, if_pos ⟨hw, hfirst⟩, hs]
    rfl
  refine ⟨?_, hpriv⟩
  rw [Image.Updated, h.shadow, hpriv]
  exact hne.symm

theorem updated_of_cell {img : Image} {k : ℕ} {v : UInt8} (h : img.cell k = (v, ~~~ v)) :
    img.Updated k ∧ img.priv k = v := by
  have hp : img.priv k = v := congrArg Prod.fst h
  have hs : img.shadow k = ~~~ v := congrArg Prod.snd h
  refine ⟨?_, hp⟩
  rw [Image.Updated, hp, hs]
  exact UInt8.not_ne_self

theorem updated_congr {img img' : Image} {k : ℕ} (h : img'.cell k = img.cell k) :
    (img'.Updated k ↔ img.Updated k) ∧ img'.priv k = img.priv k := by
  have hp : img'.priv k = img.priv k := congrArg Prod.fst h
  have hs : img'.shadow k = img.shadow k := congrArg Prod.snd h
  rw [Image.Updated, Image.Updated, hp, hs]
  exact ⟨Iff.rfl, rfl⟩

namespace ShareGroup

theorem initialized (c : Checkpoint) (hnone : ∀ v, merges v ≤ m) :
    ShareGroup loop first base stored merges low m (cfg.initializePartialCheckpoint c) where
  within := ShadowRange.reset_within _
  holds k v _ _ _ _ hlt := absurd (hnone _) (not_le.2 hlt)
  only k hk hu := by
    refine absurd ?_ hu
    have hin : ∀ h : Heap, Heap.memset h 0 liveIn cfg.sizeofShareprivate.val k = liveIn := fun h =>
      memset_apply_of_mem (Nat.zero_le k) (by omega)
    change Heap.memset c.share.shadow 0 liveIn _ k = Heap.memset c.share.priv 0 liveIn _ k
    rw [hin, hin]

theorem mono (h : ShareGroup loop first base stored merges low m c)
    (hiff : ∀ v, m < merges' v → m < merges v) (hle : ∀ v, merges v ≤ merges' v) :
    ShareGroup loop first base stored merges' low m c where
  within := h.within
  holds k v hs hne hlow hend hm := h.holds k v hs hne hlow hend (hiff _ hm)
  only k hk hu := by
    obtain ⟨hs, hfirst, hlt⟩ := h.only k hk hu
    exact ⟨hs, hfirst, lt_of_lt_of_le hlt (groupStart_mono (hle _))⟩

theorem congr {c' : Checkpoint} (h : ShareGroup loop first base stored merges low m c)
    (hc : c'.share = c.share) : ShareGroup loop first base stored merges low m c' where
  within := by
    rw [hc]
    exact h.within
  holds := by
    rw [hc]
    exact h.holds
  only := by
    rw [hc]
    exact h.only

theorem covers_of_widen {r : ShadowRange} {img : Image} {k : ℕ}
    (hr : img.range = r) (h : r.Covers k) : img.range.Covers k := by
  rw [hr]
  exact h

/-- The merge of worker `w`, all of whose stores are before the end of the group. -/
theorem merge {img : Image} (h : ShareGroup loop first base stored merges low m c)
    (hp : ShareProc loop first base stored w p) (hpm : p.merges = m) (hm : merges w = m)
    (hlow : low = groupStart cfg first m)
    (hcur : ∀ k v, stored k = some v → loop.owner (loop.writer k) = w → first ≤ loop.writer k →
      loop.writer k < groupStart cfg first (m + 1))
    (himg : img = Image.distillWorkerShareprivateIntoPartial cfg.sizeofShareprivate.val
      p.spec.share c.share) :
    ShareGroup loop first base stored (Function.update merges w (m + 1)) low m
      { c with share := img } := by
  obtain ⟨hshared, hrange⟩ := Image.shared_distillWorker hp.within c.share
  rw [← himg] at hshared hrange
  have hcopied : ∀ k, p.spec.share.range.CoversWord k → p.spec.share.Updated k →
      img.cell k = (p.spec.share.priv k, ~~~ p.spec.share.priv k) := hshared.copied
  have hkept : ∀ k, ¬ (p.spec.share.range.CoversWord k ∧ p.spec.share.Updated k) →
      img.cell k = c.share.cell k := hshared.kept
  have hle : ∀ v, merges v ≤ Function.update merges w (m + 1) v := fun v => by
    by_cases hv : v = w
    · rw [hv, Function.update_self, hm]
      exact Nat.le_succ m
    · rw [Function.update_of_ne hv]
  refine ⟨?_, fun k v hs hne hl hend hmem => ?_, fun k hk hu => ?_⟩
  · change img.range.Within _
    rw [hrange]
    exact h.within.widen hp.within cfg.sizeofShareprivate.lt
  · by_cases hw : loop.owner (loop.writer k) = w
    · have hfirst : first ≤ loop.writer k := by
        rw [hlow] at hl
        exact le_trans (Nat.le_add_right _ _) hl
      have hcov := hp.touched k v hs hw (by rw [hpm, ← hlow]; exact hl)
      obtain ⟨hupd, hpriv⟩ := hp.updated hs hne hw hfirst
      exact ⟨covers_of_widen hrange (hcov.widen_right _),
        (updated_of_cell (hcopied k hcov.coversWord hupd)).1⟩
    · rw [Function.update_of_ne hw] at hmem
      obtain ⟨hcov, hupd⟩ := h.holds k v hs hne hl hend hmem
      refine ⟨covers_of_widen hrange (hcov.widen _), ?_⟩
      exact (updated_congr (hkept k (fun hc => hw (hp.of_updated hc.2).1))).1.2 hupd
  · change img.Updated k at hu
    change stored k = some (img.priv k) ∧ _
    by_cases hsrc : p.spec.share.range.CoversWord k ∧ p.spec.share.Updated k
    · obtain ⟨hw, hfirst, hs⟩ := hp.of_updated hsrc.2
      rw [(updated_of_cell (hcopied k hsrc.1 hsrc.2)).2]
      refine ⟨hs, hfirst, ?_⟩
      rw [hw, Function.update_self]
      exact hcur k _ hs hw hfirst
    · obtain ⟨hiff, hpriv⟩ := updated_congr (hkept k hsrc)
      obtain ⟨hs, hfirst, hlt⟩ := h.only k hk (hiff.1 hu)
      rw [hpriv]
      exact ⟨hs, hfirst, lt_of_lt_of_le hlt (groupStart_mono (hle _))⟩

theorem combine {alpha beta : Checkpoint} {img : Image}
    (ha : ShareGroup loop first base stored merges first m alpha)
    (hb : ShareGroup loop first base stored merges (groupStart cfg first (m + 1)) (m + 1) beta)
    (hm : m + 1 < loop.numGroups first) (hpassed : ∀ v, m < merges v)
    (himg : img = alpha.share.distillCommittedShareprivateIntoPartial cfg.sizeofShareprivate.val
      beta.share) :
    ShareGroup loop first base stored merges first (m + 1) { beta with share := img } := by
  obtain ⟨hshared, hrange⟩ := Image.shared_distillCommitted ha.within beta.share
  rw [← himg] at hshared hrange
  have hcopied : ∀ k, alpha.share.range.Covers k → alpha.share.Updated k →
      img.cell k = (alpha.share.priv k, ~~~ alpha.share.priv k) := hshared.copied
  have hkept : ∀ k, ¬ (alpha.share.range.Covers k ∧ alpha.share.Updated k) →
      img.cell k = beta.share.cell k := hshared.kept
  refine ⟨?_, fun k v hs hne hl hend hmem => ?_, fun k hk hu => ?_⟩
  · change img.range.Within _
    rw [hrange]
    exact hb.within.widen ha.within cfg.sizeofShareprivate.lt
  · by_cases hsrc : alpha.share.range.Covers k ∧ alpha.share.Updated k
    · exact ⟨covers_of_widen hrange (hsrc.1.widen_right _),
        (updated_of_cell (hcopied k hsrc.1 hsrc.2)).1⟩
    · by_cases hgroup : loop.writer k < loop.groupEnd first m
      · exact absurd (ha.holds k v hs hne hl hgroup (hpassed _)) hsrc
      · rw [groupEnd_of_lt hm, not_lt] at hgroup
        obtain ⟨hcov, hupd⟩ := hb.holds k v hs hne hgroup hend hmem
        exact ⟨covers_of_widen hrange (hcov.widen _), (updated_congr (hkept k hsrc)).1.2 hupd⟩
  · change img.Updated k at hu
    change stored k = some (img.priv k) ∧ _
    by_cases hsrc : alpha.share.range.Covers k ∧ alpha.share.Updated k
    · rw [(updated_of_cell (hcopied k hsrc.1 hsrc.2)).2]
      exact ha.only k hk hsrc.2
    · obtain ⟨hiff, hpriv⟩ := updated_congr (hkept k hsrc)
      rw [hpriv]
      exact hb.only k hk (hiff.1 hu)

/-- A store of an iteration that no checkpoint has got yet. -/
theorem store (h : ShareGroup loop first base stored merges low m c)
    (hsame : ∀ k, loop.writer k < groupStart cfg first (merges (loop.owner (loop.writer k))) →
      stored' k = stored k) : ShareGroup loop first base stored' merges low m c where
  within := h.within
  holds k v hs hne hl hend hm := by
    have hlt : loop.writer k < groupStart cfg first (merges (loop.owner (loop.writer k))) :=
      lt_of_lt_of_le (lt_of_lt_of_le hend (min_le_left _ _)) (groupStart_mono hm)
    rw [hsame k hlt] at hs
    exact h.holds k v hs hne hl hend hm
  only k hk hu := by
    obtain ⟨hs, hfirst, hlt⟩ := h.only k hk hu
    rw [hsame k hlt]
    exact ⟨hs, hfirst, hlt⟩

end ShareGroup

end Merge

end Cpf.Executive
