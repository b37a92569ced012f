import Cpf.Executive.Checkpoint

/-!
# What the checkpoint operations do

One lemma for each outcome: combining two checkpoints, a commit of the two oldest, the adoption of
the complete ones at the join, and the merges of several workers into one checkpoint.
-/

namespace Cpf.Executive
namespace Config

variable (cfg : Config)

def mergeWorker (currentIter : ℕ) (p : Fin cfg.numWorkers → Speculative)
    (behind : Fin cfg.numWorkers → List IOEvt) (c : Checkpoint) (w : Fin cfg.numWorkers) :
    Except Image Checkpoint := do
  let _ ← cfg.mergePrivate (p w) c
  return cfg.performCheckpointLocked w currentIter (behind w) (p w) c

/-- Some workers, or the main process at the join, have combined the two oldest checkpoints. -/
def CommitStep (used used' : List Checkpoint) : Prop :=
  ∃ out, cfg.commitZeroOrMoreCheckpoints used = .combined used' out

def Commits : List Checkpoint → List Checkpoint → Prop := Relation.ReflTransGen cfg.CommitStep

def mergeTarget (c : Checkpoint) : Image :=
  (if c.numWorkers = 0 then cfg.initializePartialCheckpoint c else c).priv

variable {cfg}

theorem performCheckpointLocked_iteration (wid currentIter : ℕ) (behind : List IOEvt)
    (p : Speculative) (c : Checkpoint) :
    (cfg.performCheckpointLocked wid currentIter behind p c).iteration = c.iteration := by
  unfold performCheckpointLocked
  split_ifs <;> rfl

theorem performCheckpointLocked_ioEvents (wid currentIter : ℕ) (behind : List IOEvt)
    (p : Speculative) (c : Checkpoint) :
    (cfg.performCheckpointLocked wid currentIter behind p c).ioEvents =
      c.ioEvents.copyIoToRedux wid p.ioEvents behind := by
  unfold performCheckpointLocked
  split_ifs <;> rfl

theorem combineCheckpoints_ok {older newer newer' : Checkpoint} {out : List IOEvt}
    (h : cfg.combineCheckpoints older newer = .ok (newer', out)) :
    ∃ img, Image.distillCommittedPrivateIntoPartial cfg.sizeofPrivate.val older.priv newer.priv =
        .ok img ∧
      newer' = { newer with
        priv := img
        share := older.share.distillCommittedShareprivateIntoPartial cfg.sizeofShareprivate.val
          newer.share
        redux := (cfg.reductions.distill (cfg.reductions.initializeCheckpointRedux true older.redux)
          newer.redux).2 } ∧
      out = older.ioEvents.commitIo cfg.numWorkers := by
  unfold combineCheckpoints combinePrivate at h
  cases hd : Image.distillCommittedPrivateIntoPartial cfg.sizeofPrivate.val older.priv
      newer.priv with
  | error img =>
      rw [hd] at h
      cases h
  | ok img =>
      rw [hd] at h
      cases h
      exact ⟨img, rfl, rfl, rfl⟩

theorem combineCheckpoints_isOk_iff {older newer : Checkpoint} :
    (∃ r, cfg.combineCheckpoints older newer = .ok r) ↔
      ∃ img, Image.distillCommittedPrivateIntoPartial cfg.sizeofPrivate.val older.priv newer.priv =
        .ok img := by
  unfold combineCheckpoints combinePrivate
  cases Image.distillCommittedPrivateIntoPartial cfg.sizeofPrivate.val older.priv newer.priv with
  | error img => simp
  | ok img => simp

theorem combineCheckpoints_error {older newer newer' : Checkpoint}
    (h : cfg.combineCheckpoints older newer = .error newer') :
    ∃ img, newer' = { newer with priv := img, type := .clBroken } := by
  unfold combineCheckpoints combinePrivate at h
  cases hd : Image.distillCommittedPrivateIntoPartial cfg.sizeofPrivate.val older.priv
      newer.priv with
  | error img =>
      rw [hd] at h
      cases h
      exact ⟨img, rfl⟩
  | ok img =>
      rw [hd] at h
      cases h

/-- A commit replaces the two oldest checkpoints, both complete, by their combination. -/
theorem commit_combined {used used' : List Checkpoint} {out : List IOEvt}
    (h : cfg.commitZeroOrMoreCheckpoints used = .combined used' out) :
    ∃ alpha beta newer rest, used = alpha :: beta :: rest ∧ used' = newer :: rest ∧
      alpha.type = .clComplete ∧ beta.type = .clComplete ∧
      cfg.combineCheckpoints alpha beta = .ok (newer, out) := by
  match used with
  | [] => cases h
  | [c] => cases h
  | alpha :: beta :: rest =>
      have hsame : cfg.combineCheckpoints { alpha with type := .clFree } beta =
        cfg.combineCheckpoints alpha beta := rfl
      rw [commitZeroOrMoreCheckpoints, hsame] at h
      split_ifs at h with htype
      cases hc : cfg.combineCheckpoints alpha beta with
      | error newer =>
          rw [hc] at h
          cases h
      | ok r =>
          rw [hc] at h
          cases h
          exact ⟨alpha, beta, r.1, rest, rfl, rfl, htype.1, htype.2, hc⟩

/-- What the main process adopts is the list it finds, after at most one more commit. -/
theorem liveout_ok {misspec : Bool} {m : Main} {used : List Checkpoint} {r : Liveout}
    (h : cfg.distillCheckpointsIntoLiveout misspec m used = .ok r) :
    ∃ used', cfg.Commits used used' ∧ r.main = (cfg.adoptComplete misspec m used').main := by
  unfold distillCheckpointsIntoLiveout at h
  cases hc : cfg.commitZeroOrMoreCheckpoints used with
  | nothing =>
      rw [hc] at h
      cases h
      exact ⟨used, Relation.ReflTransGen.refl, rfl⟩
  | combined used' out =>
      rw [hc] at h
      cases h
      exact ⟨used', Relation.ReflTransGen.single ⟨out, hc⟩, rfl⟩
  | conflict used' i =>
      rw [hc] at h
      cases h

/-- A conflict leaves the older checkpoint free and the newer one broken. -/
theorem commit_conflict {used used' : List Checkpoint} {i : ℕ}
    (h : cfg.commitZeroOrMoreCheckpoints used = .conflict used' i) :
    ∃ alpha beta rest img, used = alpha :: beta :: rest ∧
      used' = { alpha with type := .clFree } ::
        { beta with priv := img, type := .clBroken } :: rest ∧
      i = beta.iteration ∧ alpha.type = .clComplete ∧ beta.type = .clComplete := by
  match used with
  | [] => cases h
  | [c] => cases h
  | alpha :: beta :: rest =>
      rw [commitZeroOrMoreCheckpoints] at h
      split_ifs at h with htype
      cases hc : cfg.combineCheckpoints { alpha with type := .clFree } beta with
      | error newer =>
          rw [hc] at h
          cases h
          obtain ⟨img, rfl⟩ := combineCheckpoints_error hc
          exact ⟨alpha, beta, rest, img, rfl, rfl, rfl, htype.1, htype.2⟩
      | ok r =>
          rw [hc] at h
          cases h

/-- With a first checkpoint that is not complete nothing is combined and nothing is adopted. -/
theorem liveout_of_not_complete {misspec : Bool} {m : Main} {c : Checkpoint} {cs : List Checkpoint}
    (hc : c.type ≠ .clComplete) :
    cfg.distillCheckpointsIntoLiveout misspec m (c :: cs) = .ok ⟨m, [], [], c :: cs⟩ := by
  have hnothing : cfg.commitZeroOrMoreCheckpoints (c :: cs) = .nothing := by
    cases cs with
    | nil => rfl
    | cons d cs => exact if_neg (fun hand => hc hand.1)
  rw [distillCheckpointsIntoLiveout, hnothing]
  dsimp only
  rw [adoptComplete, if_neg hc]

theorem liveout_of_conflict {misspec : Bool} {m : Main} {cs used : List Checkpoint} {i : ℕ}
    (h : cfg.commitZeroOrMoreCheckpoints cs = .conflict used i) :
    cfg.distillCheckpointsIntoLiveout misspec m cs = .error i := by
  rw [distillCheckpointsIntoLiveout, h]

/-- The merges of a list of workers, seen on the private heap of the checkpoint. -/
theorem mergeAll_of_mergeWorker {currentIter : ℕ} {p : Fin cfg.numWorkers → Speculative}
    {behind : Fin cfg.numWorkers → List IOEvt} {order : List (Fin cfg.numWorkers)}
    {c c' : Checkpoint} (h : order.foldlM (cfg.mergeWorker currentIter p behind) c = .ok c') :
    Image.mergeAll cfg.sizeofPrivate.val (cfg.mergeTarget c)
        (order.map (fun w => (p w).worker.image)) = .ok (cfg.mergeTarget c') ∧
      c'.numWorkers = c.numWorkers + order.length ∧
      (c.numWorkers ≠ cfg.numWorkers → c'.numWorkers = cfg.numWorkers → c'.type = .clComplete) := by
  induction order generalizing c with
  | nil =>
      cases h
      exact ⟨rfl, rfl, fun hne he => absurd he hne⟩
  | cons w order ih =>
      obtain ⟨d, hd, hrest⟩ := foldlM_cons_eq_ok.1 h
      obtain ⟨img, himg, hd⟩ := bind_eq_ok.1 hd
      cases hd
      obtain ⟨hmerge, hnum, htype⟩ := ih hrest
      have htarget : cfg.mergeTarget (cfg.performCheckpointLocked w currentIter (behind w) (p w) c) =
          img := by
        unfold mergeTarget performCheckpointLocked
        rw [himg, if_neg (Nat.succ_ne_zero _)]
      refine ⟨foldlM_cons_eq_ok.2 ⟨img, himg, htarget ▸ hmerge⟩, ?_, fun _ he => ?_⟩
      · rw [hnum]
        simp only [performCheckpointLocked, List.length_cons]
        omega
      · by_cases hlast : c.numWorkers + 1 = cfg.numWorkers
        · have hnil : order = [] := by
            rw [hnum] at he
            simp only [performCheckpointLocked] at he
            exact List.length_eq_zero_iff.1 (by omega)
          subst hnil
          cases hrest
          exact if_pos hlast
        · exact htype hlast he

def ofWorkers (n : ℕ) (hpos : 1 ≤ n) (hle : n ≤ maxWorkers) : Config where
  numWorkers := n
  workers_pos := hpos
  workers_le := hle
  sizeofPrivate := sixteen
  sizeofKillprivate := ⟨0, rfl, by decide⟩
  sizeofShareprivate := ⟨0, rfl, by decide⟩
  reductions := ⟨[], List.nodup_nil⟩

/-- A main process whose heaps are all zero. -/
def zeroMain : Main := ⟨fun _ => 0, fun _ => 0, fun _ => 0, ⟨fun _ _ => 0, fun _ _ => 0⟩, -1⟩

end Config
end Cpf.Executive
