import Cpf.Executive.Represents
import Cpf.Executive.CheckpointSpec

/-!
# The private bytes that an invocation leaves in the main process

All workers merge into the checkpoint of each group, some of the checkpoints are combined while the
workers still run, and at the join the main process adopts what is left. If no mark of an earlier
group hides a later write, every private byte of the main process then has the value of the last
write to it. Otherwise an older value can win.
-/

namespace Cpf.Executive
open Heap

namespace Invocation

variable {cfg : Config} (inv : Invocation cfg)

def checkpointIteration (m : ℕ) : ℕ :=
  if m + 1 = inv.numGroups then lastIteration else inv.boundary m

/-- The checkpoint `c` of group `m` after all workers have merged into it, in some order and without
a conflict. -/
structure GroupCheckpoint (m : ℕ) (c : Checkpoint) where
  order : List (Fin cfg.numWorkers)
  perm : order.Perm (List.finRange cfg.numWorkers)
  fresh : Checkpoint
  fresh_type : fresh.type = .clPartial
  fresh_iteration : fresh.iteration = inv.checkpointIteration m
  fresh_numWorkers : fresh.numWorkers = 0
  spec : Fin cfg.numWorkers → Speculative
  atMerge : ∀ w, inv.atMerge w m = .ok (spec w).worker
  behind : Fin cfg.numWorkers → List IOEvt
  merged : order.foldlM (cfg.mergeWorker (inv.boundary m) spec behind) fresh = .ok c

/-- The invocation runs to its end without a misspeculation or a conflict. -/
structure Completed (main : Main) where
  chkpts : ℕ → Checkpoint
  group : ∀ m < inv.numGroups, inv.GroupCheckpoint m (chkpts m)
  used : List Checkpoint
  commits : cfg.Commits ((List.range inv.numGroups).map chkpts) used
  main_priv : main.priv = inv.start
  result : Liveout
  liveout : cfg.distillCheckpointsIntoLiveout false main used = .ok result

end Invocation

namespace Invocation

variable {cfg : Config} {inv : Invocation cfg} {lo hi m : ℕ}

theorem represents_of_group (hplaced : inv.ReadsPlaced) (hm : m * cfg.granularity ≤ inv.stop)
    (hover : inv.NotOvertaken m) {c : Checkpoint} (g : inv.GroupCheckpoint m c) :
    c.type = .clComplete ∧ inv.Represents (m * cfg.granularity) (inv.boundary m) c.priv := by
  obtain ⟨hmerge, hnum, htype⟩ := Config.mergeAll_of_mergeWorker g.merged
  have hlen : g.order.length = cfg.numWorkers := by
    rw [g.perm.length_eq, List.length_finRange]
  rw [g.fresh_numWorkers, hlen, Nat.zero_add] at hnum
  have hpos := cfg.workers_pos
  have htarget : cfg.mergeTarget c = c.priv := by
    rw [Config.mergeTarget, if_neg (by omega)]
  have hfresh : cfg.mergeTarget g.fresh = g.fresh.priv.initializePartial cfg.sizeofPrivate.val := by
    rw [Config.mergeTarget, if_pos g.fresh_numWorkers]
    rfl
  rw [htarget, hfresh] at hmerge
  refine ⟨htype (by rw [g.fresh_numWorkers]; omega) hnum, ?_⟩
  exact represents_of_mergeAll hover g.atMerge (fun w => recorded_atMerge hplaced w hm (g.atMerge w))
    (fun w => g.perm.mem_iff.2 (List.mem_finRange w)) hmerge

variable (inv) in
def Chain : ℕ → List Checkpoint → ℕ → Prop
  | lo, [], hi => lo = hi
  | lo, c :: cs, hi => ∃ mid, lo ≤ mid ∧ c.type = .clComplete ∧ inv.Represents lo mid c.priv ∧
      Chain mid cs hi

namespace Chain

theorem commitStep {used used' : List Checkpoint} (h : inv.Chain lo used hi)
    (hstep : cfg.CommitStep used used') : inv.Chain lo used' hi := by
  obtain ⟨out, hout⟩ := hstep
  obtain ⟨alpha, beta, newer, rest, rfl, rfl, _, hbeta, hcomb⟩ := Config.commit_combined hout
  obtain ⟨mid, hlo, _, hra, mid', hmid, _, hrb, hrest⟩ := h
  obtain ⟨img, himg, rfl, _⟩ := Config.combineCheckpoints_ok hcomb
  have hc := Image.distillCommittedPrivateIntoPartial_committed hra.within himg
  exact ⟨mid', hlo.trans hmid, hbeta, hra.combine hrb hmid hc, hrest⟩

theorem commits {used used' : List Checkpoint} (h : inv.Chain lo used hi)
    (hs : cfg.Commits used used') : inv.Chain lo used' hi := by
  induction hs with
  | refl => exact h
  | tail _ hstep ih => exact ih.commitStep hstep

theorem adoptComplete {used : List Checkpoint} (h : inv.Chain lo used hi) {main : Main}
    (hmain : ∀ k, main.priv k = inv.valueBefore lo k) (k : ℕ) :
    (cfg.adoptComplete false main used).main.priv k = inv.valueBefore hi k := by
  induction used generalizing lo main with
  | nil =>
      cases h
      exact hmain k
  | cons c cs ih =>
      obtain ⟨mid, hlo, htype, hr, hrest⟩ := h
      rw [Config.adoptComplete, if_pos htype]
      exact ih hrest (hr.adopt hlo hmain)

theorem of_groups (hplaced : inv.ReadsPlaced) (hover : ∀ m < inv.numGroups, inv.NotOvertaken m)
    {cs : ℕ → Checkpoint} (hcs : ∀ m < inv.numGroups, Nonempty (inv.GroupCheckpoint m (cs m)))
    (d : ℕ) : ∀ m, m + (d + 1) = inv.numGroups →
      inv.Chain (m * cfg.granularity) ((List.range' m (d + 1)).map cs) inv.stop := by
  induction d with
  | zero =>
      intro m hm
      have hstop : m = inv.stop / cfg.granularity := Nat.succ.inj hm
      have hle : m * cfg.granularity ≤ inv.stop := hstop ▸ Nat.div_mul_le_self _ _
      have hlt : inv.stop < (m + 1) * cfg.granularity := by
        rw [hstop, Nat.succ_mul]
        exact Nat.lt_div_mul_add cfg.granularity_pos
      have hb : inv.boundary m = inv.stop := min_eq_right hlt.le
      obtain ⟨g⟩ := hcs m (by omega)
      obtain ⟨htype, hr⟩ := represents_of_group hplaced hle (hover m (by omega)) g
      exact ⟨inv.stop, hle, htype, hb ▸ hr, rfl⟩
  | succ d ih =>
      intro m hm
      have hdiv : m + 1 ≤ inv.stop / cfg.granularity := by
        simp only [numGroups] at hm
        omega
      have hle : (m + 1) * cfg.granularity ≤ inv.stop :=
        (Nat.le_div_iff_mul_le cfg.granularity_pos).1 hdiv
      have hstep : m * cfg.granularity ≤ (m + 1) * cfg.granularity :=
        Nat.mul_le_mul_right _ (Nat.le_succ m)
      have hb : inv.boundary m = (m + 1) * cfg.granularity := min_eq_left hle
      obtain ⟨g⟩ := hcs m (by omega)
      obtain ⟨htype, hr⟩ := represents_of_group hplaced (hstep.trans hle) (hover m (by omega)) g
      exact ⟨(m + 1) * cfg.granularity, hstep, htype, hb ▸ hr, ih (m + 1) (by omega)⟩

end Chain

/-- If no mark from an earlier group hides a later write, an invocation without misspeculation
leaves in every private byte of the main process the value of its last write. -/
theorem private_liveout_correct (inv : Invocation cfg) (hplaced : inv.ReadsPlaced)
    (hover : ∀ m < inv.numGroups, inv.NotOvertaken m) (main : Main) (run : inv.Completed main)
    (k : ℕ) : run.result.main.priv k = inv.valueBefore inv.stop k := by
  have hchain : inv.Chain 0 ((List.range inv.numGroups).map run.chkpts) inv.stop := by
    have hall := Chain.of_groups hplaced hover (fun m hm => ⟨run.group m hm⟩) _ 0
      (Nat.zero_add inv.numGroups)
    rwa [Nat.zero_mul, ← List.range_eq_range'] at hall
  obtain ⟨used', hcommits, hmain⟩ := Config.liveout_ok run.liveout
  rw [hmain]
  refine ((hchain.commits run.commits).commits hcommits).adoptComplete (fun k => ?_) k
  rw [run.main_priv]
  rfl

end Invocation

theorem eq_ok_of_isOk {ε α : Type*} {x : Except ε α} (h : x.isOk = true) (d : α) :
    x = .ok (x.toOption.getD d) := by
  cases x with
  | error e => cases h
  | ok a => rfl

/-- Two workers and sixteen private bytes. -/
def twoWorkers : Config := Config.ofWorkers 2 twoWorkers_pos twoWorkers_le

/-- Worker 0 writes byte 0 in the first group and byte 1 in the second, where worker 1 may then
write byte 0 again. -/
def twoGroupsBody (rewrite : Bool) (i : ℕ) : List Op :=
  if i = 2 then [⟨.write1b 0, fun _ => 1⟩]
  else if i = 252 then [⟨.write1b 1, fun _ => 5⟩]
  else if i = 253 ∧ rewrite then [⟨.write1b 0, fun _ => 2⟩]
  else []

theorem mem_twoGroupsBody {rewrite : Bool} {i : ℕ} {o : Op} (h : o ∈ twoGroupsBody rewrite i) :
    (∃ k < 2, o.access = .write1b k) ∧ (i = 2 ∨ i = 252 ∨ i = 253 ∧ rewrite = true) := by
  unfold twoGroupsBody at h
  split_ifs at h with h2 h252 h253
  · rw [List.mem_singleton.1 h]
    exact ⟨⟨0, by decide, rfl⟩, Or.inl h2⟩
  · rw [List.mem_singleton.1 h]
    exact ⟨⟨1, by decide, rfl⟩, Or.inr (Or.inl h252)⟩
  · rw [List.mem_singleton.1 h]
    exact ⟨⟨0, by decide, rfl⟩, Or.inr (Or.inr h253)⟩
  · cases h

namespace Invocation

def twoGroups (rewrite : Bool) : Invocation twoWorkers where
  stop := 254
  owner i := (if i % 2 = 0 then 0 else 1 : Fin 2)
  body := twoGroupsBody rewrite
  inHeap i o ho := by
    obtain ⟨⟨k, hk, ha⟩, _⟩ := mem_twoGroupsBody ho
    rw [ha]
    change 0 < 1 → k + (0 * 0 + 1) ≤ 16
    omega
  start := fun _ => 0
  touched _ := ShadowRange.reset
  touched_within _ := ShadowRange.reset_within _

def twoGroupsSpec (rewrite : Bool) (m : ℕ) (w : Fin 2) : Speculative where
  worker := ((twoGroups rewrite).atMerge w m).toOption.getD ((twoGroups rewrite).initial w)
  killpriv := fun _ => 0
  share := ⟨fun _ => 0, fun _ => 0, ShadowRange.reset⟩
  redux := ⟨fun _ _ => 0, fun _ _ => 0⟩
  ioEvents := []

def twoGroupsFresh (rewrite : Bool) (m : ℕ) : Checkpoint where
  type := .clPartial
  iteration := (twoGroups rewrite).checkpointIteration m
  numWorkers := 0
  priv := ⟨fun _ => 0, fun _ => 0, ShadowRange.reset⟩
  killpriv := fun _ => 0
  share := ⟨fun _ => 0, fun _ => 0, ShadowRange.reset⟩
  redux := ⟨fun _ _ => 0, fun _ _ => 0⟩
  ioEvents := IOEvtSet.empty

def twoGroupsMerges (rewrite : Bool) (m : ℕ) : Except Image Checkpoint :=
  ([0, 1] : List (Fin 2)).foldlM (twoWorkers.mergeWorker ((twoGroups rewrite).boundary m)
    (twoGroupsSpec rewrite m) (fun _ => [])) (twoGroupsFresh rewrite m)

def twoGroupsChkpt (rewrite : Bool) (m : ℕ) : Checkpoint :=
  (twoGroupsMerges rewrite m).toOption.getD (twoGroupsFresh rewrite m)

theorem twoGroups_numGroups (rewrite : Bool) : (twoGroups rewrite).numGroups = 2 := by
  cases rewrite <;> decide +kernel

theorem twoGroups_atMerge (rewrite : Bool) : ∀ w : Fin 2, ∀ m < 2,
    (twoGroups rewrite).atMerge w m = .ok (twoGroupsSpec rewrite m w).worker := by
  have hok : ∀ w : Fin 2, ∀ m < 2, ((twoGroups rewrite).atMerge w m).isOk = true := by
    cases rewrite <;> decide +kernel
  exact fun w m hm => eq_ok_of_isOk (hok w m hm) _

theorem twoGroups_merges (rewrite : Bool) : ∀ m < 2,
    twoGroupsMerges rewrite m = .ok (twoGroupsChkpt rewrite m) := by
  have hok : ∀ m < 2, (twoGroupsMerges rewrite m).isOk = true := by
    cases rewrite <;> decide +kernel
  exact fun m hm => eq_ok_of_isOk (hok m hm) _

def twoGroupsLiveout (rewrite : Bool) : Except ℕ Liveout :=
  twoWorkers.distillCheckpointsIntoLiveout false Config.zeroMain
    [twoGroupsChkpt rewrite 0, twoGroupsChkpt rewrite 1]

def twoGroupsResult (rewrite : Bool) : Liveout :=
  (twoGroupsLiveout rewrite).toOption.getD ⟨Config.zeroMain, [], [], []⟩

theorem twoGroups_liveout (rewrite : Bool) :
    twoGroupsLiveout rewrite = .ok (twoGroupsResult rewrite) := by
  have hok : (twoGroupsLiveout rewrite).isOk = true := by
    cases rewrite <;> decide +kernel
  exact eq_ok_of_isOk hok _

/-- Both workers merge into both checkpoints, and the main process combines and adopts them. -/
def twoGroupsRun (rewrite : Bool) : (twoGroups rewrite).Completed Config.zeroMain where
  chkpts := twoGroupsChkpt rewrite
  group m hm :=
    { order := ([0, 1] : List (Fin 2))
      perm := List.Perm.refl _
      fresh := twoGroupsFresh rewrite m
      fresh_type := rfl
      fresh_iteration := rfl
      fresh_numWorkers := rfl
      spec := twoGroupsSpec rewrite m
      atMerge := fun w => twoGroups_atMerge rewrite w m (twoGroups_numGroups rewrite ▸ hm)
      behind := fun _ => []
      merged := twoGroups_merges rewrite m (twoGroups_numGroups rewrite ▸ hm) }
  used := [twoGroupsChkpt rewrite 0, twoGroupsChkpt rewrite 1]
  commits := by
    rw [twoGroups_numGroups]
    exact Relation.ReflTransGen.refl
  main_priv := rfl
  result := twoGroupsResult rewrite
  liveout := twoGroups_liveout rewrite

/-- Without the second write of byte 0 no mark hides a later write. -/
theorem twoGroups_notOvertaken (m : ℕ) : (twoGroups false).NotOvertaken m := by
  intro w v _ k _ e he _ j _ _ hj o ho
  obtain ⟨⟨_, he'⟩, hw⟩ := (twoGroups false).mem_workerHistory.1 (mem_of_lastMatch he).1
  have howner : ∀ i, ∀ o ∈ (twoGroups false).body i, (twoGroups false).owner i = (0 : Fin 2) := by
    intro i o ho
    obtain ⟨_, rfl | rfl | ⟨_, hf⟩⟩ := mem_twoGroupsBody ho
    · rfl
    · rfl
    · cases hf
  exact absurd ((howner j o ho).trans ((howner e.1 e.2 he').symm.trans hw)) hj

theorem private_liveout_correct_twoGroups :
    (twoGroupsRun false).result.main.priv = (twoGroups false).valueBefore 254 := by
  refine funext (private_liveout_correct (twoGroups false) ?_ ?_ _ (twoGroupsRun false))
  · intro m j _ _ pre o post hb v _ hmis
    obtain ⟨⟨k, _, ha⟩, _⟩ := mem_twoGroupsBody (show o ∈ (twoGroups false).body j by rw [hb]; simp)
    rw [ha] at hmis
    exact hmis
  · exact fun m _ => twoGroups_notOvertaken m

/-- The code of an iteration of the first group is greater than that of the last write, so the older
value stays in the byte. -/
theorem stale_mark_wins :
    ¬ ∀ (cfg : Config) (inv : Invocation cfg) (main : Main) (run : inv.Completed main) (k : ℕ),
      run.result.main.priv k = inv.valueBefore inv.stop k := by
  intro hall
  have hbyte := hall twoWorkers (twoGroups true) _ (twoGroupsRun true) 0
  exact absurd hbyte (by decide +kernel)

end Invocation
end Cpf.Executive
