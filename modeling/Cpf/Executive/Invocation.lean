import Cpf.Basics.LastMatch
import Cpf.Executive.GroupMarks
import Cpf.Executive.Checkpoint

/-!
# All checkpoint groups of an invocation

A worker runs its iterations of one checkpoint group after another. At the end of each group it
merges into the checkpoint of the group; its touched range then starts anew, but its shadow keeps
the marks, and the iteration codes of the next group are those of the last one. `Recorded` relates
the marks and the bytes of a worker to everything it has written since the start.
-/

namespace Cpf.Executive
open Heap

def Config.code (cfg : Config) (i : ℕ) : UInt8 := iterCode 0 cfg.granularity i

/-- The iterations `[0, stop)` of a loop invocation, their accesses and the workers that run
them. -/
structure Invocation (cfg : Config) where
  stop : ℕ
  owner : ℕ → Fin cfg.numWorkers
  body : ℕ → List Op
  inHeap : ∀ i, ∀ o ∈ body i, o.access.InHeap cfg.sizeofPrivate.val
  start : Heap
  touched : Fin cfg.numWorkers → ShadowRange
  touched_within : ∀ w, (touched w).Within cfg.sizeofPrivate.val

namespace Invocation

variable {cfg : Config} (inv : Invocation cfg)

/-- The first iteration after group `m`; the last group ends with the loop. -/
def boundary (m : ℕ) : ℕ := min ((m + 1) * cfg.granularity) inv.stop

/-- The number of checkpoints: one after every full group, and the final one. -/
def numGroups : ℕ := inv.stop / cfg.granularity + 1

/-- Worker `w` after `__specpriv_worker_starts`, which leaves its touched range as it is. -/
def initial (w : Fin cfg.numWorkers) : Worker :=
  Worker.setFirstIter 0 ⟨inv.start, fun _ => liveIn, inv.touched w, 0, cfg.granularity, 0, 0, 0⟩

def runIter (v : Worker) (i : ℕ) : Except String Worker :=
  (inv.body i).foldlM Op.exec (v.advanceIter i 1)

def runIters (w : Fin cfg.numWorkers) (lo hi : ℕ) (v : Worker) : Except String Worker :=
  ((forRange lo hi 1).filter (fun i => inv.owner i = w)).foldlM inv.runIter v

/-- Worker `w` at the start of group `m`, after its merge into the checkpoint before. -/
def groupStart (w : Fin cfg.numWorkers) : ℕ → Except String Worker
  | 0 => .ok (inv.initial w)
  | m + 1 => do
      let v ← groupStart w m
      let v ← inv.runIters w (m * cfg.granularity) (inv.boundary m) v
      return { v with range := ShadowRange.reset }

def atMerge (w : Fin cfg.numWorkers) (m : ℕ) : Except String Worker := do
  let v ← inv.groupStart w m
  inv.runIters w (m * cfg.granularity) (inv.boundary m) v

def stateBefore (m j : ℕ) (pre : List Op) : Except String Worker := do
  let v ← inv.groupStart (inv.owner j) m
  let v ← inv.runIters (inv.owner j) (m * cfg.granularity) j v
  pre.foldlM Op.exec (v.advanceIter j 1)

/-- The accesses of the iterations before `e`, in the order of the sequential loop. -/
def history (e : ℕ) : List (ℕ × Op) :=
  (List.range e).flatMap (fun i => (inv.body i).map (fun o => (i, o)))

/-- The accesses of the iterations before `e` that worker `w` runs. -/
def workerHistory (w : Fin cfg.numWorkers) (e : ℕ) : List (ℕ × Op) :=
  (inv.history e).filter (fun x => inv.owner x.1 = w)

end Invocation

def lastWrite (k : ℕ) (H : List (ℕ × Op)) : Option (ℕ × Op) :=
  lastMatch (fun e => e.2.access.Writes k) H

namespace Access

variable {a : Access} {w w' : Worker}

/-- A read of 16-byte strides finds its second word live-in and puts the mark on the word after
it, where it replaces the mark of a written byte. -/
def Misplaces : Access → Worker → Prop
  | readRangeStride base n width 16 _, w => ∃ i < n,
      load 8 w.shadow (base + i * width + 8) = V64 liveIn ∧ ∃ k, base + i * width + 16 ≤ k ∧
        k < base + i * width + 24 ∧ wasWrittenEver (w.shadow k) = true
  | _, _ => False

/-- Some bytes without a written mark have been marked as read. -/
def OnlyReads (s s' : Heap) : Prop :=
  ∀ k, s' k = s k ∨ s' k = readLiveIn ∧ wasWrittenEver (s k) = false

theorem OnlyReads.trans {s₀ s₁ s₂ : Heap} (h₁ : OnlyReads s₀ s₁) (h₂ : OnlyReads s₁ s₂) :
    OnlyReads s₀ s₂ := by
  intro k
  rcases h₁ k with he | ⟨hr, hw⟩
  · rcases h₂ k with he₂ | ⟨hr₂, hw₂⟩
    · exact Or.inl (he₂.trans he)
    · exact Or.inr ⟨hr₂, he ▸ hw₂⟩
  · rcases h₂ k with he₂ | ⟨hr₂, _⟩
    · exact Or.inr ⟨he₂.trans hr, hw⟩
    · exact Or.inr ⟨hr₂, hw⟩

theorem onlyReads_of_readsAs {code : UInt8} {S R : ℕ → Prop} {s s' : Heap}
    (h : ReadsAs code S R s s') : OnlyReads s s' := by
  intro k
  rcases h.cases k with he | ⟨_, hl, hr⟩
  · exact Or.inl he
  · exact Or.inr ⟨hr, by rw [hl]; rfl⟩

/-- One round of the 16-byte strided read, started in a shadow `s` that the rounds before have
made from `s₀`. -/
theorem readStride16_onlyReads {code8 : UInt8} {message : String} {s₀ s s' : Heap} {p : ℕ}
    (hs : OnlyReads s₀ s)
    (hclear : load 8 s₀ (p + 8) = V64 liveIn → ∀ k, p + 16 ≤ k → k < p + 24 →
      wasWrittenEver (s₀ k) = false)
    (h : Worker.readStride16 (splat 8 code8) message s p = .ok s') : OnlyReads s₀ s' := by
  obtain ⟨t, ht, h⟩ := bind_eq_ok.1 h
  have hst := hs.trans (onlyReads_of_readsAs (Worker.readsAs_word V64_eq_splat ht))
  split_ifs at h with hl hne
  · cases h
    rw [V64_eq_splat, store_splat]
    have hold : load 8 s₀ (p + 8) = V64 liveIn := by
      rw [V64_eq_splat] at hl ⊢
      refine load_eq_splat_iff.2 (fun i hi => ?_)
      have hmark := load_eq_splat_iff.1 hl i hi
      rcases hst (p + 8 + i) with he | ⟨hr, _⟩
      · rw [← he, hmark]
      · rw [hr] at hmark
        cases hmark
    intro k
    by_cases hk : p + 16 ≤ k ∧ k < p + 16 + 8
    · rw [memset_apply_of_mem hk.1 hk.2]
      exact Or.inr ⟨rfl, hclear hold k hk.1 (by omega)⟩
    · rw [memset_apply_of_not_mem hk]
      exact hst k
  · cases h
    exact hst

theorem call_onlyReads (hread : a.isWrite = false) (hc : w.code8 ≠ liveIn)
    (hm : ¬ a.Misplaces w) (h : a.call w = .ok w') : OnlyReads w.shadow w'.shadow := by
  by_cases h16 : a.isStride16 = true
  · unfold isStride16 at h16
    split at h16
    · rename_i base n width name
      obtain ⟨s, hs, h⟩ := bind_eq_ok.1 h
      cases h
      have hcode : (if n = 0 then w else Worker.touch base ((n - 1) * width + 16) w).code64 =
          splat 8 w.code8 := by
        rw [← Worker.code64_eq]
        split_ifs <;> rfl
      have hshadow : (if n = 0 then w else
          Worker.touch base ((n - 1) * width + 16) w).shadow = w.shadow := by
        split_ifs <;> rfl
      refine foldlM_invariant (OnlyReads w.shadow) (fun p hp t t' ht hstep => ?_) ?_ hs
      · obtain ⟨i, hi, rfl⟩ := List.mem_map.1 hp
        rw [hcode] at hstep
        refine readStride16_onlyReads ht (fun hl k hlo hhi => ?_) hstep
        by_contra hw
        exact hm ⟨i, List.mem_range.1 hi, hl, k, hlo, hhi, Bool.not_eq_false _ ▸ hw⟩
      · rw [hshadow]
        exact fun k => Or.inl rfl
    · cases h16
  · exact onlyReads_of_readsAs (call_reads hread (Bool.not_eq_true _ ▸ h16) hc h)

end Access
end Cpf.Executive
