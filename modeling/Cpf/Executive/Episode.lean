import Cpf.Executive.Machine

/-!
# Between a start of the workers and the next join

The iterations from `first` on are divided into checkpoint groups. `ProcOk` says how far a worker is
and what it has done since its last merge, `GroupOk` what the checkpoint of a group holds, given the
number of merges of each worker.
-/

namespace Cpf.Executive
namespace Loop

variable {cfg : Config} (loop : Loop cfg) (first : ℕ)

/-- The iteration at which workers that start at `first` leave the loop. -/
def stop : ℕ := max loop.trip first

/-- The number of checkpoints of the workers that start at `first`. -/
def numGroups : ℕ := (loop.trip - first) / cfg.granularity + 1

def groupStart (cfg : Config) (first m : ℕ) : ℕ := first + m * cfg.granularity

def groupEnd (m : ℕ) : ℕ := min (groupStart cfg first (m + 1)) (loop.stop first)

/-- The iteration number of the checkpoint of group `m`. -/
def boundary (m : ℕ) : ℕ :=
  if m + 1 = loop.numGroups first then lastIteration else groupStart cfg first (m + 1)

def owned (w : Fin cfg.numWorkers) (its : List ℕ) : List ℕ := its.filter (fun i => loop.owner i = w)

variable {loop first} {m m' : ℕ}

theorem groupStart_zero : groupStart cfg first 0 = first := by simp [groupStart]

theorem groupStart_succ : groupStart cfg first (m + 1) = groupStart cfg first m + cfg.granularity := by
  rw [groupStart, groupStart, Nat.succ_mul, Nat.add_assoc]

theorem groupStart_mono (h : m ≤ m') : groupStart cfg first m ≤ groupStart cfg first m' :=
  Nat.add_le_add_left (Nat.mul_le_mul_right _ h) _

theorem groupStart_le_iff : groupStart cfg first m ≤ loop.stop first ↔ m < loop.numGroups first := by
  rw [numGroups, Nat.lt_succ_iff, Nat.le_div_iff_mul_le cfg.granularity_pos, groupStart, stop]
  omega

theorem le_stop : first ≤ loop.stop first := le_max_right _ _

/-- Workers that pass a boundary have started within the loop. -/
theorem stop_of_lt (h : m + 1 < loop.numGroups first) : loop.stop first = loop.trip := by
  refine max_eq_left ?_
  by_contra hlt
  rw [numGroups, Nat.sub_eq_zero_of_le (not_le.1 hlt).le, Nat.zero_div] at h
  omega

theorem groupEnd_of_lt (h : m + 1 < loop.numGroups first) :
    loop.groupEnd first m = groupStart cfg first (m + 1) :=
  min_eq_left (groupStart_le_iff.2 h)

theorem groupEnd_of_last (h : m + 1 = loop.numGroups first) :
    loop.groupEnd first m = loop.stop first := by
  refine min_eq_right ?_
  by_contra hlt
  have hle := groupStart_le_iff.1 (le_of_lt (not_le.1 hlt))
  omega

theorem groupStart_le_groupEnd (h : m < loop.numGroups first) :
    groupStart cfg first m ≤ loop.groupEnd first m :=
  le_min (groupStart_mono (Nat.le_succ m)) (groupStart_le_iff.2 h)

theorem boundary_of_lt (h : m + 1 < loop.numGroups first) :
    loop.boundary first m = groupStart cfg first (m + 1) := if_neg h.ne

theorem boundary_of_last (h : m + 1 = loop.numGroups first) :
    loop.boundary first m = lastIteration := if_pos h

theorem boundary_lt (h : m < m') (h' : m' < loop.numGroups first) :
    loop.boundary first m < loop.boundary first m' := by
  rw [boundary_of_lt (by omega)]
  have hle : groupStart cfg first (m + 1) ≤ loop.stop first := groupStart_le_iff.2 (by omega)
  rcases Nat.lt_or_eq_of_le h' with hlt | heq
  · rw [boundary_of_lt hlt, groupStart_succ (m := m')]
    have hmono : groupStart cfg first (m + 1) ≤ groupStart cfg first m' := groupStart_mono h
    have hpos := cfg.granularity_pos
    omega
  · rw [boundary_of_last heq]
    rw [stop_of_lt (m := m) (by omega)] at hle
    exact lt_of_le_of_lt hle loop.trip_lt

theorem boundary_inj (h : m < loop.numGroups first)
    (h' : m' < loop.numGroups first) (he : loop.boundary first m = loop.boundary first m') :
    m = m' := by
  rcases Nat.lt_trichotomy m m' with hlt | heq | hlt
  · exact absurd he (boundary_lt hlt h').ne
  · exact heq
  · exact absurd he (boundary_lt hlt h).ne'

/-- A boundary behind the first one is not before the start. -/
theorem first_le_boundary (h : m + 1 < loop.numGroups first) :
    first ≤ loop.boundary first (m + 1) := by
  have hlt := boundary_lt (Nat.lt_succ_self m) h
  rw [boundary_of_lt h] at hlt
  exact le_trans (Nat.le_add_right _ _) hlt.le

end Loop

open Loop

/-- How far worker `w` is, and what it has done since its last merge. -/
structure ProcOk {cfg : Config} (loop : Loop cfg) (first : ℕ) (misspec : Bool)
    (w : Fin cfg.numWorkers) (p : Proc) : Prop where
  le_stop : p.currentIter ≤ loop.stop first
  merges_le : p.merges ≤ loop.numGroups first
  start_le : p.merges < loop.numGroups first → groupStart cfg first p.merges ≤ p.currentIter
  finished : p.merges = loop.numGroups first → p.currentIter = loop.stop first
  iterate : p.pc = .iterate ∨ p.pc = .commit false → p.merges < loop.numGroups first ∧
    p.currentIter < groupStart cfg first (p.merges + 1)
  checkpoint : p.pc = .checkpoint → p.currentIter = groupStart cfg first (p.merges + 1)
  final : p.pc = .commit true → p.merges = loop.numGroups first
  done : p.pc = .done → misspec = false → p.merges = loop.numGroups first
  pending : p.pending = loop.owned w (forRange (groupStart cfg first p.merges) p.currentIter 1)
  events : p.spec.ioEvents = p.pending.flatMap loop.evts
  first_eq : p.spec.worker.firstIteration = first
  granularity : p.spec.worker.checkpointGranularity = cfg.granularity

namespace ProcOk

variable {cfg : Config} {loop : Loop cfg} {first : ℕ} {misspec : Bool} {w : Fin cfg.numWorkers}
  {p : Proc}

theorem first_le (h : ProcOk loop first misspec w p) : first ≤ p.currentIter := by
  rcases Nat.lt_or_eq_of_le h.merges_le with hlt | heq
  · exact le_trans (Nat.le_add_right _ _) (h.start_le hlt)
  · rw [h.finished heq]
    exact Loop.le_stop

theorem starts (m : Main) (redux : ReduxHeap) (p : Proc) :
    ProcOk loop first misspec w (cfg.workerStarts m redux first p) where
  le_stop := Loop.le_stop
  merges_le := Nat.zero_le _
  start_le _ := by
    change groupStart cfg first 0 ≤ first
    rw [groupStart_zero]
  finished he := absurd he (by simp [Config.workerStarts, numGroups])
  iterate _ := by
    refine ⟨Nat.succ_pos _, ?_⟩
    change first < groupStart cfg first 1
    have hpos := cfg.granularity_pos
    rw [groupStart]
    omega
  checkpoint he := by cases he
  final he := by cases he
  done he := by cases he
  pending := by
    change [] = loop.owned w (forRange (groupStart cfg first 0) first 1)
    rw [groupStart_zero, forRange_self]
    rfl
  events := rfl
  first_eq := rfl
  granularity := rfl

/-- The accesses of an iteration change the heaps only. -/
theorem setSpec (h : ProcOk loop first misspec w p) {spec : Speculative}
    (hio : spec.ioEvents = p.spec.ioEvents)
    (hf : spec.worker.firstIteration = p.spec.worker.firstIteration)
    (hg : spec.worker.checkpointGranularity = p.spec.worker.checkpointGranularity) :
    ProcOk loop first misspec w { p with spec := spec } :=
  { h with
    events := hio.trans h.events
    first_eq := hf.trans h.first_eq
    granularity := hg.trans h.granularity }

/-- A worker that stops, or goes on after its commit. -/
theorem setPc (h : ProcOk loop first misspec w p) {pc : Pc} {misspec' : Bool}
    (hiter : pc = .iterate ∨ pc = .commit false → p.merges < loop.numGroups first ∧
      p.currentIter < groupStart cfg first (p.merges + 1))
    (hcheck : pc ≠ .checkpoint)
    (hfinal : pc = .commit true → p.merges = loop.numGroups first)
    (hdone : pc = .done → misspec' = false → p.merges = loop.numGroups first) :
    ProcOk loop first misspec' w { p with pc := pc } :=
  { h with
    iterate := hiter
    checkpoint := fun he => absurd he hcheck
    final := hfinal
    done := hdone }

theorem stop (h : ProcOk loop first misspec w p) :
    ProcOk loop first true w { p with pc := .done } :=
  h.setPc (by simp) (by simp) (by simp) (by simp)

theorem gone (h : ProcOk loop first misspec w p) :
    ProcOk loop first misspec w { p with pc := .gone } :=
  h.setPc (by simp) (by simp) (by simp) (by simp)

theorem afterMisspec (h : ProcOk loop first misspec w p) : ProcOk loop first true w p :=
  { h with done := fun _ hf => by cases hf }

/-- The code of an iteration is the first code exactly at a boundary. -/
theorem code_eq_iff {m i : ℕ} (hlo : groupStart cfg first m < i)
    (hhi : i ≤ groupStart cfg first (m + 1)) :
    (iterCode first cfg.granularity i).toNat = numReservedShadowValues ↔
      i = groupStart cfg first (m + 1) := by
  have hpos := cfg.granularity_pos
  have hle := cfg.granularity_le
  have hlt := Nat.mod_lt (i - first) hpos
  rw [iterCode, UInt8.toNat_ofNat']
  simp only [numReservedShadowValues, groupStart_succ] at hhi ⊢
  have hsmall : ((i - first) % cfg.granularity + 3) % 2 ^ 8 = (i - first) % cfg.granularity + 3 :=
    Nat.mod_eq_of_lt (by omega)
  rw [hsmall]
  obtain ⟨d, hd, rfl⟩ : ∃ d, 0 < d ∧ i = groupStart cfg first m + d :=
    ⟨i - groupStart cfg first m, by omega, by omega⟩
  have hsub : groupStart cfg first m + d - first = d + m * cfg.granularity := by
    rw [groupStart]
    omega
  rw [hsub, Nat.add_mul_mod_self_right]
  rcases Nat.lt_or_eq_of_le (show d ≤ cfg.granularity by omega) with hlt' | heq
  · rw [Nat.mod_eq_of_lt hlt']
    omega
  · rw [heq, Nat.mod_self]
    omega

theorem advance (h : ProcOk loop first misspec w p) (hpc : p.pc = .iterate)
    (hlt : p.currentIter < loop.trip) :
    ProcOk loop first misspec w (loop.advance w p) := by
  obtain ⟨hmerges, hhi⟩ := h.iterate (Or.inl hpc)
  have hlo := h.start_le hmerges
  have hcode : (p.spec.worker.advanceIter (p.currentIter + 1) 1).code8 =
      iterCode first cfg.granularity (p.currentIter + 1) := by
    change iterCode p.spec.worker.firstIteration p.spec.worker.checkpointGranularity _ = _
    rw [h.first_eq, h.granularity]
  have hiff : (iterCode first cfg.granularity (p.currentIter + 1)).toNat = numReservedShadowValues ↔
      p.currentIter + 1 = groupStart cfg first (p.merges + 1) := code_eq_iff (by omega) hhi
  have hpc' : (loop.advance w p).pc =
      if p.currentIter + 1 = groupStart cfg first (p.merges + 1) then .checkpoint
        else .iterate := by
    simp only [Loop.advance, hcode, hiff, Nat.succ_pos, and_true]
  have hpending : (loop.advance w p).pending =
      loop.owned w (forRange (groupStart cfg first p.merges) (p.currentIter + 1) 1) := by
    change p.pending ++ (if loop.owner p.currentIter = w then [p.currentIter] else []) = _
    rw [h.pending, owned, owned, forRange_succ hlo, List.filter_append]
    congr 1
    by_cases hw : loop.owner p.currentIter = w <;> simp [hw]
  refine ⟨le_trans hlt (le_max_left _ _), h.merges_le, fun _ => le_trans hlo (Nat.le_succ _), fun he => ?_,
    fun hor => ?_,
    fun he => ?_, fun he => ?_, fun he => ?_, hpending, ?_, h.first_eq, h.granularity⟩
  · exact absurd he hmerges.ne
  · refine ⟨hmerges, ?_⟩
    rw [hpc'] at hor
    split_ifs at hor with hb
    · simp at hor
    · exact lt_of_le_of_ne hhi hb
  · rw [hpc'] at he
    split_ifs at he with hb
    exact hb
  · rw [hpc'] at he
    split_ifs at he
  · rw [hpc'] at he
    split_ifs at he
  · change p.spec.ioEvents ++ (if loop.owner p.currentIter = w then loop.evts p.currentIter else []) =
      (p.pending ++ if loop.owner p.currentIter = w then [p.currentIter] else []).flatMap loop.evts
    rw [h.events, List.flatMap_append]
    congr 1
    by_cases hw : loop.owner p.currentIter = w <;> simp [hw]

end ProcOk
end Cpf.Executive
