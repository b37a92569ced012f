import Cpf.Executive.Team

/-!
# Who runs when

The workers run only between their start and the end of the loops of `__specpriv_join_children`:
while the main process works on the checkpoints, every worker waits at its pipe.
-/

namespace Cpf.Executive

/-- The worker waits for the next invocation. -/
def Member.AtPipe (p : Member) : Prop := p.pc = .pipe ∧ p.message = none

/-- The main process is not waiting for workers and does not start them. -/
def MainPc.resting : MainPc → Bool
  | .trigger _ | .spin | .allDone => false
  | .idle | .commit _ | .adopt | .squash | .recover | .lost | .aborted => true

def TeamAction.worker {cfg : Config} : TeamAction cfg → Option (Fin cfg.numWorkers)
  | .start w | .checkpoint w _ _ | .misspec w _ | .leave w _ | .get w | .giveUp w | .poll w
  | .wake w | .retry w | .lock w | .merge w _ _ _ | .commit w | .teardown w | .setFlag w => some w
  | .beginInvocation | .trigger | .almostDone | .allDone | .mainCommit | .adopt | .squash
  | .recovered _ => none

namespace Team

variable {cfg : Config} {s s' : Team cfg} {a : TeamAction cfg} {w : Fin cfg.numWorkers} {z : Sizes}

structure ControlOk (s : Team cfg) : Prop where
  resting : s.main.resting = true → ∀ w, (s.members w).AtPipe
  untriggered : ∀ k, s.main = .trigger k → ∀ w : Fin cfg.numWorkers, k ≤ w → (s.members w).AtPipe
  flagged : ∀ w, s.workerDoneFlags w = true → (s.members w).AtPipe
  running : ∀ w, (s.members w).pc ≠ .pipe → (s.members w).message = none

structure Moves (s s' : Team cfg) (w : Fin cfg.numWorkers) : Prop where
  main : s'.main = s.main
  firstIter : s'.firstIter = s.firstIter
  others : ∀ v, v ≠ w → s'.members v = s.members v
  busy : ¬ (s.members w).AtPipe
  message : (s'.members w).message = none
  flags : ∀ v, v ≠ w → s'.workerDoneFlags v = s.workerDoneFlags v
  flag : s'.workerDoneFlags w = s.workerDoneFlags w ∨ (s'.members w).pc = .pipe

@[simp] theorem setMember_self (s : Team cfg) (w : Fin cfg.numWorkers) (p : Member) :
    (s.setMember w p).members w = p := by
  simp [setMember]

theorem setMember_of_ne (s : Team cfg) {w v : Fin cfg.numWorkers} (p : Member) (h : v ≠ w) :
    (s.setMember w p).members v = s.members v := by
  simp [setMember, h]

/-- A step that changes worker `w` only. -/
theorem moves_setMember {p : Member} (hbusy : ¬ (s.members w).AtPipe) (hmsg : p.message = none) :
    s.Moves (s.setMember w p) w where
  main := rfl
  firstIter := rfl
  others v hv := s.setMember_of_ne p hv
  busy := hbusy
  message := by rw [setMember_self, hmsg]
  flags _ _ := rfl
  flag := Or.inl rfl

/-- The record, the manager and the misspeculation flag do not matter. -/
theorem Moves.congr {t : Team cfg} (h : s.Moves s' w) (hmain : t.main = s'.main)
    (hfirst : t.firstIter = s'.firstIter) (hmembers : t.members = s'.members)
    (hflags : t.workerDoneFlags = s'.workerDoneFlags) : s.Moves t w where
  main := hmain.trans h.main
  firstIter := hfirst.trans h.firstIter
  others v hv := by rw [hmembers, h.others v hv]
  busy := h.busy
  message := by rw [hmembers, h.message]
  flags v hv := by rw [hflags, h.flags v hv]
  flag := by
    rw [hflags, hmembers]
    exact h.flag

theorem Moves.setMember_trans {p q : Member} (h : s.Moves (s.setMember w p) w)
    (hq : q.message = none) : s.Moves ((s.setMember w p).setMember w q) w where
  main := rfl
  firstIter := rfl
  others v hv := by rw [setMember_of_ne _ _ hv, setMember_of_ne _ _ hv]
  busy := h.busy
  message := by rw [setMember_self, hq]
  flags _ _ := rfl
  flag := Or.inl rfl

theorem busy_of_pc (h : (s.members w).pc ≠ .pipe) : ¬ (s.members w).AtPipe := fun hp => h hp.1

theorem moves_requested (h : s.ControlOk) (hpc : (s.members w).pc ≠ .pipe) (b : Bool)
    (r : Request) : s.Moves (s.requested w b r) w := by
  have hmsg := h.running w hpc
  have hbusy := busy_of_pc hpc
  cases r with
  | old o =>
      exact (moves_setMember (p := { s.members w with
        pc := .lockChkpt b o, asked := effectiveIter (s.members w) b + 1 }) hbusy hmsg).congr
        rfl rfl rfl rfl
  | new o m =>
      exact (moves_setMember (p := { s.members w with
        pc := .lockChkpt b o, asked := effectiveIter (s.members w) b + 1 }) hbusy hmsg).congr
        rfl rfl rfl rfl
  | wait => exact moves_setMember hbusy hmsg
  | abort => exact moves_setMember hbusy hmsg

theorem moves_workerCommits (h : s.ControlOk) (hpc : (s.members w).pc ≠ .pipe) (pc : CommitPc)
    (ret : Return) (r : CommitOutcome) : s.Moves (s.workerCommits w pc ret r) w := by
  have hmsg := h.running w hpc
  have hbusy := busy_of_pc hpc
  have hset : ∀ pc', s.Moves (s.setPc w pc') w := fun pc' => moves_setMember hbusy hmsg
  cases r with
  | next m pc' =>
      cases pc <;> exact (hset (.commit pc' ret)).congr rfl rfl rfl rfl
  | returns m => exact (hset (returned ret)).congr rfl rfl rfl rfl
  | misspecAt m iter => exact (hset .teardown).congr rfl rfl rfl rfl
  | abort => exact hset .aborted

/-- A step of a worker changes that worker, which does not wait for an invocation. -/
theorem moves_of_workerStep (h : s.ControlOk) (hw : a.worker = some w)
    (hs : workerStep z s a = some s') : s.Moves s' w := by
  cases a with
  | beginInvocation | trigger | almostDone | allDone | mainCommit | adopt | squash => cases hw
  | recovered exits => cases hw
  | start v =>
      cases hw
      simp only [workerStep] at hs
      split at hs
      · rename_i first hpc hmsg
        cases hs
        exact moves_setMember (fun hp => by rw [hp.2] at hmsg; cases hmsg) rfl
      · cases hs
  | checkpoint v iter b =>
      cases hw
      simp only [workerStep] at hs
      split_ifs at hs with hg hmis
      all_goals
        have hpc : (s.members w).pc ≠ .pipe := by simp [hg.1]
        have hmove := moves_setMember (p := { s.members w with currentIter := iter })
          (busy_of_pc hpc) (h.running w hpc)
        cases hs
      · exact (hmove.setMember_trans (q := { (s.setMember w _).members w with pc := .teardown })
          (by rw [setMember_self]; exact h.running w hpc)).congr rfl rfl rfl rfl
      · exact hmove.setMember_trans (by rw [setMember_self]; exact h.running w hpc)
  | misspec v iter =>
      cases hw
      simp only [workerStep] at hs
      split_ifs at hs with hg
      have hpc : (s.members w).pc ≠ .pipe := by simp [hg.1]
      cases hs
      exact ((moves_setMember (p := { s.members w with currentIter := iter })
        (busy_of_pc hpc) (h.running w hpc)).setMember_trans
          (q := { (s.setMember w _).members w with pc := .teardown })
          (by rw [setMember_self]; exact h.running w hpc)).congr rfl rfl rfl rfl
  | leave v iter =>
      cases hw
      simp only [workerStep] at hs
      split_ifs at hs with hg
      have hpc : (s.members w).pc ≠ .pipe := by simp [hg.1]
      cases hs
      exact moves_setMember (busy_of_pc hpc) (h.running w hpc)
  | get v =>
      cases hw
      simp only [workerStep] at hs
      split at hs
      · rename_i b hpc
        cases hs
        exact moves_requested h (by simp [hpc]) b _
      · cases hs
  | giveUp v =>
      cases hw
      simp only [workerStep] at hs
      split at hs
      · rename_i b hpc
        have hne : (s.members w).pc ≠ .pipe := by simp [hpc]
        split_ifs at hs
        cases hs
        exact (moves_setMember (p := { s.members w with pc := .teardown })
          (busy_of_pc hne) (h.running w hne)).congr rfl rfl rfl rfl
      · cases hs
  | poll v | wake v =>
      cases hw
      simp only [workerStep] at hs
      split at hs
      · rename_i b hpc
        have hne : (s.members w).pc ≠ .pipe := by simp [hpc]
        cases hs
        exact moves_setMember (busy_of_pc hne) (h.running w hne)
      · cases hs
  | retry v =>
      cases hw
      simp only [workerStep] at hs
      split at hs
      · rename_i b hpc
        cases hs
        exact moves_requested h (by simp [hpc]) b _
      · cases hs
  | lock v =>
      cases hw
      simp only [workerStep] at hs
      split at hs
      · rename_i b o hpc
        have hne : (s.members w).pc ≠ .pipe := by simp [hpc]
        split_ifs at hs
        cases hs
        exact (moves_setMember (p := { s.members w with pc := .merge b o })
          (busy_of_pc hne) (h.running w hne)).congr rfl rfl rfl rfl
      · cases hs
  | merge v p behind copied =>
      cases hw
      simp only [workerStep] at hs
      split at hs
      · rename_i b o hpc
        have hne : (s.members w).pc ≠ .pipe := by simp [hpc]
        cases hs
        exact (moves_setMember (p := { s.members w with pc := .commit .readFirst (.merged b o) })
          (busy_of_pc hne) (h.running w hne)).congr rfl rfl rfl rfl
      · cases hs
  | commit v =>
      cases hw
      simp only [workerStep] at hs
      split at hs
      · rename_i pc ret hpc
        obtain ⟨r, _, rfl⟩ := Option.map_eq_some_iff.1 hs
        exact moves_workerCommits h (by simp [hpc]) pc ret r
      · cases hs
  | teardown v =>
      cases hw
      simp only [workerStep] at hs
      split_ifs at hs with hpc
      have hne : (s.members w).pc ≠ .pipe := by simp [hpc]
      cases hs
      exact moves_setMember (busy_of_pc hne) (h.running w hne)
  | setFlag v =>
      cases hw
      simp only [workerStep] at hs
      split_ifs at hs with hpc
      have hne : (s.members w).pc ≠ .pipe := by simp [hpc]
      cases hs
      have hmove := moves_setMember (p := { s.members w with pc := .pipe })
        (busy_of_pc hne) (h.running w hne)
      exact ⟨rfl, rfl, hmove.others, hmove.busy, hmove.message,
        fun v hv => Function.update_of_ne hv _ _, Or.inr (by simp [setPc, setMember])⟩

namespace ControlOk

theorem moves (h : s.ControlOk) (hm : s.Moves s' w) : s'.ControlOk where
  resting hr := by
    rw [hm.main] at hr
    exact absurd (h.resting hr w) hm.busy
  untriggered k hk v hkv := by
    rw [hm.main] at hk
    by_cases hv : v = w
    · subst v
      exact absurd (h.untriggered k hk w hkv) hm.busy
    · rw [hm.others v hv]
      exact h.untriggered k hk v hkv
  flagged v hv := by
    by_cases hvw : v = w
    · subst v
      rcases hm.flag with hsame | hpipe
      · rw [hsame] at hv
        exact absurd (h.flagged w hv) hm.busy
      · exact ⟨hpipe, hm.message⟩
    · rw [hm.flags v hvw] at hv
      rw [hm.others v hvw]
      exact h.flagged v hv
  running v hv := by
    by_cases hvw : v = w
    · subst v
      exact hm.message
    · rw [hm.others v hvw] at hv ⊢
      exact h.running v hv

/-- The main process goes on; the workers wait at their pipes or it does not matter. -/
theorem of_main (h : s.ControlOk) {pc : MainPc} (hres : pc.resting = true → ∀ w, (s.members w).AtPipe)
    (htrig : ∀ k, pc = .trigger k → k = cfg.numWorkers) : ControlOk { s with main := pc } where
  resting := hres
  untriggered k hk w hkw := by
    rw [htrig k hk] at hkw
    exact absurd w.isLt (not_lt.2 hkw)
  flagged := h.flagged
  running := h.running

theorem congr (h : s.ControlOk) (hmain : s'.main = s.main) (hmembers : s'.members = s.members)
    (hflags : s'.workerDoneFlags = s.workerDoneFlags) : s'.ControlOk := by
  constructor
  · rw [hmain, hmembers]
    exact h.resting
  · rw [hmain, hmembers]
    exact h.untriggered
  · rw [hflags, hmembers]
    exact h.flagged
  · rw [hmembers]
    exact h.running

theorem restart (h : s.ControlOk) (hr : s.main.resting = true) (first : ℕ) :
    (s.restart first).ControlOk where
  resting hf := by cases hf
  untriggered _ _ w _ := h.resting hr w
  flagged w _ := h.resting hr w
  running w hw := absurd (h.resting hr w).1 hw

theorem triggerWorker (h : s.ControlOk) (hmain : s.main = .trigger w) :
    (s.triggerWorker w).ControlOk where
  resting hf := by cases hf
  untriggered k hk v hkv := by
    cases hk
    have hv : v ≠ w := fun he => by
      rw [he] at hkv
      omega
    change ((s.setMember w _).members v).AtPipe
    rw [setMember_of_ne _ _ hv]
    exact h.untriggered w hmain v (by omega)
  flagged v hv := by
    have hvw : v ≠ w := fun he => by
      subst v
      change Function.update s.workerDoneFlags w false w = true at hv
      rw [Function.update_self] at hv
      cases hv
    change Function.update s.workerDoneFlags w false v = true at hv
    rw [Function.update_of_ne hvw] at hv
    change ((s.setMember w _).members v).AtPipe
    rw [setMember_of_ne _ _ hvw]
    exact h.flagged v hv
  running v hv := by
    change ((s.setMember w _).members v).pc ≠ .pipe at hv
    change ((s.setMember w _).members v).message = none
    by_cases hvw : v = w
    · subst v
      rw [setMember_self] at hv
      exact absurd (h.untriggered w hmain w le_rfl).1 hv
    · rw [setMember_of_ne _ _ hvw] at hv ⊢
      exact h.running v hv

theorem mainCommits (h : s.ControlOk) (hr : s.main.resting = true) (pc : CommitPc)
    (r : CommitOutcome) : (s.mainCommits pc r).ControlOk := by
  have hall := h.resting hr
  have hmain : ∀ pc', MainPc.resting pc' = true → ControlOk { s with main := pc' } := fun pc' hp =>
    h.of_main (fun _ => hall) (fun k hk => by rw [hk] at hp; cases hp)
  cases r with
  | next m pc' => cases pc <;> exact (hmain (.commit pc') rfl).congr rfl rfl rfl
  | returns m => exact (hmain .adopt rfl).congr rfl rfl rfl
  | misspecAt m iter => exact (hmain .lost rfl).congr rfl rfl rfl
  | abort => exact hmain .aborted rfl

theorem mainStep (h : s.ControlOk) (hs : s.mainStep a = some s') : s'.ControlOk := by
  cases a with
  | beginInvocation =>
      simp only [Team.mainStep] at hs
      split_ifs at hs with hm
      cases hs
      exact h.restart (by rw [hm]; rfl) 0
  | trigger =>
      simp only [Team.mainStep] at hs
      split at hs
      · rename_i k hm
        split_ifs at hs with hk
        · cases hs
          exact h.triggerWorker (w := ⟨k, hk⟩) hm
        · cases hs
          exact h.of_main (fun hr => by cases hr) (fun j hj => by cases hj)
      · cases hs
  | almostDone =>
      simp only [Team.mainStep] at hs
      split_ifs at hs
      cases hs
      exact h.of_main (fun hr => by cases hr) (fun j hj => by cases hj)
  | allDone =>
      simp only [Team.mainStep] at hs
      split_ifs at hs with hg
      cases hs
      exact h.of_main (fun _ w => h.flagged w (hg.2 w)) (fun j hj => by cases hj)
  | mainCommit =>
      simp only [Team.mainStep] at hs
      split at hs
      · rename_i pc hm
        obtain ⟨r, _, rfl⟩ := Option.map_eq_some_iff.1 hs
        exact h.mainCommits (by rw [hm]; rfl) pc r
      · cases hs
  | adopt =>
      simp only [Team.mainStep] at hs
      split_ifs at hs with hm
      have hall := h.resting (by rw [hm]; rfl)
      split at hs
      · split_ifs at hs
        · cases hs
          exact h.congr rfl rfl rfl
        · cases hs
          exact h.of_main (fun _ => hall) (fun j hj => by cases hj)
      · cases hs
        exact h.of_main (fun _ => hall) (fun j hj => by cases hj)
  | squash =>
      simp only [Team.mainStep] at hs
      by_cases hm : s.main = .squash
      · rw [if_pos hm] at hs
        have hall := h.resting (by rw [hm]; rfl)
        split at hs
        · cases hs
          exact h.congr rfl rfl rfl
        · cases hs
          exact h.of_main (fun _ => hall) (fun j hj => by split_ifs at hj)
      · rw [if_neg hm] at hs
        cases hs
  | recovered exits =>
      simp only [Team.mainStep] at hs
      split_ifs at hs with hm hex
      · cases hs
        have hidle : ControlOk { s with main := .idle } :=
          h.of_main (fun _ => h.resting (by rw [hm]; rfl)) (fun j hj => by cases hj)
        exact hidle.congr rfl rfl rfl
      · cases hs
        exact h.restart (by rw [hm]; rfl) _
  | start w | get w | giveUp w | poll w | wake w | retry w | lock w | commit w | teardown w
  | setFlag w => cases hs
  | checkpoint w iter b => cases hs
  | misspec w iter | leave w iter => cases hs
  | merge w p behind copied => cases hs

theorem initial (cfg : Config) (chkpt : ℕ → Checkpoint) (reduxUsed : ℕ → ℕ) :
    (Team.initial cfg chkpt reduxUsed).ControlOk where
  resting _ _ := ⟨rfl, rfl⟩
  untriggered _ _ _ _ := ⟨rfl, rfl⟩
  flagged _ _ := ⟨rfl, rfl⟩
  running _ _ := rfl

end ControlOk

theorem step_cases (hs : s.step z a = some s') :
    (a.worker = none ∧ s.mainStep a = some s') ∨
      ∃ w, a.worker = some w ∧ workerStep z s a = some s' := by
  cases a with
  | beginInvocation | trigger | almostDone | allDone | mainCommit | adopt | squash =>
      exact Or.inl ⟨rfl, hs⟩
  | recovered exits => exact Or.inl ⟨rfl, hs⟩
  | start w | get w | giveUp w | poll w | wake w | retry w | lock w | commit w | teardown w
  | setFlag w => exact Or.inr ⟨w, rfl, hs⟩
  | checkpoint w iter b => exact Or.inr ⟨w, rfl, hs⟩
  | misspec w iter | leave w iter => exact Or.inr ⟨w, rfl, hs⟩
  | merge w p behind copied => exact Or.inr ⟨w, rfl, hs⟩

theorem ControlOk.step (h : s.ControlOk) (hs : s.step z a = some s') : s'.ControlOk := by
  rcases step_cases hs with ⟨_, hm⟩ | ⟨w, hw, hm⟩
  · exact h.mainStep hm
  · exact h.moves (moves_of_workerStep h hw hm)

end Team
end Cpf.Executive
