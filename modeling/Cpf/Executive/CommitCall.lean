import Cpf.Executive.Team

/-!
# One call of the commit function among many

A process reads `alpha` and `beta` without a lock, and both may be freed and reused before it has
their locks. `Shared` is what the processes share, together with the lists that the manager's
pointers stand for. While a process holds on to `alpha`, either `alpha` is still the oldest
checkpoint, or it cannot be complete (`Sees`). So the test under the locks passes for the two oldest
checkpoints only.
-/

namespace Cpf.Executive

/-- The checkpoint that a process has read as the first one and not yet tested under its lock. -/
def CommitPc.seen : CommitPc → Option ℕ
  | .readAlpha alpha | .readNext alpha | .readBeta alpha _ | .lockAlpha alpha _
  | .lockBeta alpha _ | .recheck alpha _ => some alpha
  | .readFirst | .combine _ _ | .conflict _ _ | .retire _ _ | .unlock _ _ => none

def CommitPc.claims : CommitPc → Option (ℕ × ℕ)
  | .combine alpha beta | .retire alpha beta => some (alpha, beta)
  | _ => none

/-- The manager, the workers that have merged into each object, and the two lists. -/
structure Shared (n : ℕ) where
  mgr : Manager
  merged : ℕ → Finset (Fin n)
  us : List ℕ
  fs : List ℕ

/-- Two managers with the same lists and checkpoints. -/
structure Manager.SameObjects (m m' : Manager) : Prop extends Manager.SameLists m m' where
  chkpt : m'.chkpt = m.chkpt

namespace Shared

variable {n : ℕ} {A : Shared n} {blind : ℕ → Prop} {alpha beta : ℕ}

structure Ok (A : Shared n) : Prop where
  lists : A.mgr.ListsOk A.us A.fs
  free : ∀ o ∈ A.fs, (A.mgr.chkpt o).type ≠ .clComplete
  passed : ∀ o ∈ A.us, (A.mgr.chkpt o).type = .clComplete → A.merged o = Finset.univ

/-- `alpha` is the oldest checkpoint, or free, or one that the process itself keeps from being
complete. -/
def Sees (A : Shared n) (blind : ℕ → Prop) (alpha : ℕ) : Prop :=
  A.us.head? = some alpha ∨ alpha ∈ A.fs ∨ (alpha ∈ A.us ∧ blind alpha)

/-- `alpha` and `beta` are the two oldest checkpoints and are being combined. -/
structure Claim (A : Shared n) (alpha beta : ℕ) : Prop where
  front : ∃ rest, A.us = alpha :: beta :: rest
  alphaType : (A.mgr.chkpt alpha).type = .clFree
  betaType : (A.mgr.chkpt beta).type = .clComplete
  passed : A.merged alpha = Finset.univ

structure CommitOk (A : Shared n) (blind : ℕ → Prop) (pc : CommitPc) : Prop where
  seen : ∀ alpha, pc.seen = some alpha → A.Sees blind alpha
  claims : ∀ alpha beta, pc.claims = some (alpha, beta) → A.Claim alpha beta

/-- What a step of a commit can do. -/
inductive CommitCase (A : Shared n) (blind : ℕ → Prop) : CommitPc → CommitOutcome → Prop
  | look {pc pc' : CommitPc} {m : Manager} (same : A.mgr.SameObjects m) (unclaimed : pc.claims = none)
      (claims : pc'.claims = none) (ok : A.CommitOk blind pc') : CommitCase A blind pc (.next m pc')
  | claim {alpha beta : ℕ} {rest : List ℕ} (front : A.us = alpha :: beta :: rest)
      (alphaType : (A.mgr.chkpt alpha).type = .clComplete)
      (betaType : (A.mgr.chkpt beta).type = .clComplete) :
      CommitCase A blind (.recheck alpha beta)
        (.next (A.mgr.setType alpha .clFree) (.combine alpha beta))
  | combined {alpha beta : ℕ} {c : Checkpoint} (claim : A.Claim alpha beta)
      (type : c.type = .clComplete) (iteration : c.iteration = (A.mgr.chkpt beta).iteration)
      (numWorkers : c.numWorkers = (A.mgr.chkpt beta).numWorkers) :
      CommitCase A blind (.combine alpha beta) (.next (A.mgr.setChkpt beta c) (.retire alpha beta))
  | conflict {alpha beta : ℕ} {c : Checkpoint} (claim : A.Claim alpha beta)
      (type : c.type = .clBroken) (iteration : c.iteration = (A.mgr.chkpt beta).iteration)
      (numWorkers : c.numWorkers = (A.mgr.chkpt beta).numWorkers) :
      CommitCase A blind (.combine alpha beta) (.next (A.mgr.setChkpt beta c) (.conflict alpha beta))
  | retire {alpha beta : ℕ} (claim : A.Claim alpha beta) :
      CommitCase A blind (.retire alpha beta) (.next (A.mgr.retire alpha) (.unlock alpha beta))
  | returns {pc : CommitPc} {m : Manager} (same : A.mgr.SameObjects m) (unclaimed : pc.claims = none) :
      CommitCase A blind pc (.returns m)
  | misspecAt {alpha beta iter : ℕ} {m : Manager} (same : A.mgr.SameObjects m) :
      CommitCase A blind (.conflict alpha beta) (.misspecAt m iter)

theorem sees_complete (h : A.Ok) (hsees : A.Sees blind alpha)
    (hblind : ∀ o ∈ A.us, blind o → A.merged o ≠ Finset.univ)
    (htype : (A.mgr.chkpt alpha).type = .clComplete) : A.us.head? = some alpha := by
  rcases hsees with hhead | hfree | ⟨hused, hb⟩
  · exact hhead
  · exact absurd htype (h.free alpha hfree)
  · exact absurd (h.passed alpha hused htype) (hblind alpha hused hb)

/-- The test under the locks passes for the two oldest checkpoints only. -/
theorem front_of_bothComplete (h : A.Ok) (hsees : A.Sees blind alpha)
    (hblind : ∀ o ∈ A.us, blind o → A.merged o ≠ Finset.univ)
    (hboth : A.mgr.bothComplete alpha beta = true) :
    (∃ rest, A.us = alpha :: beta :: rest) ∧ (A.mgr.chkpt alpha).type = .clComplete ∧
      (A.mgr.chkpt beta).type = .clComplete := by
  obtain ⟨htype, hnext, hbeta⟩ := of_decide_eq_true hboth
  refine ⟨?_, htype, hbeta⟩
  have hhead := sees_complete h hsees hblind htype
  have hused := h.lists.used
  cases hus : A.us with
  | nil =>
      rw [hus] at hhead
      cases hhead
  | cons a us =>
      rw [hus] at hhead hused
      cases hhead
      rw [hused.next_first] at hnext
      cases us with
      | nil => cases hnext
      | cons b rest =>
          cases hnext
          exact ⟨rest, rfl⟩

theorem commitOk_of_sees {pc : CommitPc} (hseen : ∀ o, pc.seen = some o → A.Sees blind o)
    (hclaims : pc.claims = none) : A.CommitOk blind pc :=
  ⟨hseen, fun a b hc => by rw [hclaims] at hc; cases hc⟩

theorem sameObjects_setLock (m : Manager) (o : ℕ) (b : Bool) : m.SameObjects (m.setLock o b) :=
  ⟨m.sameLists_setLock o b, rfl⟩

theorem sameObjects_unlock (m : Manager) (o p : ℕ) :
    m.SameObjects ((m.setLock o false).setLock p false) :=
  ⟨(m.sameLists_setLock o false).trans (Manager.sameLists_setLock _ p false), rfl⟩

theorem sameObjects_refl (m : Manager) : m.SameObjects m := ⟨m.sameLists_refl, rfl⟩

theorem CommitCase.of_step {cfg : Config} {pc : CommitPc} {r : CommitOutcome} (h : A.Ok)
    (hpc : A.CommitOk blind pc) (hblind : ∀ o ∈ A.us, blind o → A.merged o ≠ Finset.univ)
    (hs : cfg.commitStep A.mgr pc = some r) : CommitCase A blind pc r := by
  cases pc with
  | readFirst =>
      rw [Config.commitStep, h.lists.first_eq] at hs
      cases hus : A.us with
      | nil =>
          rw [hus] at hs
          cases hs
          exact .returns (sameObjects_refl _) rfl
      | cons a us =>
          rw [hus] at hs
          cases hs
          refine .look (sameObjects_refl _) rfl rfl (commitOk_of_sees (fun o ho => ?_) rfl)
          cases ho
          exact Or.inl (by rw [hus]; rfl)
  | readAlpha alpha =>
      rw [Config.commitStep] at hs
      split_ifs at hs
      all_goals cases hs
      · exact .look (sameObjects_refl _) rfl rfl (commitOk_of_sees hpc.seen rfl)
      · exact .returns (sameObjects_refl _) rfl
  | readNext alpha =>
      rw [Config.commitStep] at hs
      cases hn : A.mgr.links.next alpha with
      | none =>
          rw [hn] at hs
          cases hs
          exact .returns (sameObjects_refl _) rfl
      | some beta =>
          rw [hn] at hs
          cases hs
          exact .look (sameObjects_refl _) rfl rfl (commitOk_of_sees hpc.seen rfl)
  | readBeta alpha beta =>
      rw [Config.commitStep] at hs
      split_ifs at hs
      all_goals cases hs
      · exact .look (sameObjects_refl _) rfl rfl (commitOk_of_sees hpc.seen rfl)
      · exact .returns (sameObjects_refl _) rfl
  | lockAlpha alpha beta =>
      rw [Config.commitStep] at hs
      split_ifs at hs
      cases hs
      exact .look (sameObjects_setLock _ alpha true) rfl rfl (commitOk_of_sees hpc.seen rfl)
  | lockBeta alpha beta =>
      rw [Config.commitStep] at hs
      split_ifs at hs
      cases hs
      exact .look (sameObjects_setLock _ beta true) rfl rfl (commitOk_of_sees hpc.seen rfl)
  | recheck alpha beta =>
      rw [Config.commitStep] at hs
      split_ifs at hs with hboth
      all_goals cases hs
      · obtain ⟨⟨rest, hfront⟩, ha, hb⟩ :=
          front_of_bothComplete h (hpc.seen alpha rfl) hblind hboth
        exact .claim hfront ha hb
      · exact .look (sameObjects_refl _) rfl rfl (commitOk_of_sees (fun o ho => by cases ho) rfl)
  | combine alpha beta =>
      have hclaim := hpc.claims alpha beta rfl
      rw [Config.commitStep] at hs
      cases hc : cfg.combineCheckpoints (A.mgr.chkpt alpha) (A.mgr.chkpt beta) with
      | ok r =>
          rw [hc] at hs
          cases hs
          obtain ⟨img, _, hnewer, _⟩ := Config.combineCheckpoints_ok hc
          refine .combined hclaim ?_ ?_ ?_
          all_goals rw [hnewer]
          exact hclaim.betaType
      | error newer =>
          rw [hc] at hs
          cases hs
          obtain ⟨img, hnewer⟩ := Config.combineCheckpoints_error hc
          refine .conflict hclaim rfl ?_ ?_
          all_goals rw [hnewer]
  | conflict alpha beta =>
      rw [Config.commitStep] at hs
      cases hs
      exact .misspecAt (sameObjects_unlock _ beta alpha)
  | retire alpha beta =>
      have hclaim := hpc.claims alpha beta rfl
      obtain ⟨rest, hfront⟩ := hclaim.front
      have hfirst : A.mgr.used.first = some alpha := by
        rw [h.lists.first_eq, hfront]
        rfl
      rw [Config.commitStep, if_pos hfirst] at hs
      cases hs
      exact .retire hclaim
  | unlock alpha beta =>
      rw [Config.commitStep] at hs
      cases hs
      exact .returns (sameObjects_unlock _ beta alpha) rfl

end Shared
end Cpf.Executive
