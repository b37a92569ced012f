import Cpf.Executive.TeamSteps

/-!
# The invariant of the team

Every change keeps `TeamOk`, so it holds in every reachable state.
-/

namespace Cpf.Executive

namespace Shared

variable {n : ℕ} {A B : Shared n} {o : ℕ} {c : Checkpoint} {m : Manager} {fs : List ℕ} {iter : ℕ}

theorem Ok.of_same (h : A.Ok) (hobj : A.mgr.SameObjects B.mgr) (hmerged : B.merged = A.merged)
    (hus : B.us = A.us) (hfs : B.fs = A.fs) : B.Ok where
  lists := by
    rw [hus, hfs]
    exact h.lists.congr hobj.toSameLists
  free := by
    rw [hfs, hobj.chkpt]
    exact h.free
  passed := by
    rw [hus, hobj.chkpt, hmerged]
    exact h.passed

theorem CommitOk.of_same {blind : ℕ → Prop} {pc : CommitPc} (h : A.CommitOk blind pc)
    (hobj : A.mgr.SameObjects B.mgr) (hmerged : B.merged = A.merged) (hus : B.us = A.us)
    (hfs : B.fs = A.fs) : B.CommitOk blind pc where
  seen alpha ha := by
    rw [Sees, hus, hfs]
    exact h.seen alpha ha
  claims alpha beta hc := (h.claims alpha beta hc).of_same hobj hmerged hus

theorem Ok.created (h : A.Ok) (hc : A.mgr.Created A.us A.fs iter o m fs) :
    (A.created m o fs).Ok where
  lists := hc.lists
  free q hq := by
    have hqo : q ≠ o := fun he =>
      hc.lists.disjoint (List.mem_append_right A.us (List.mem_singleton_self o)) (he ▸ hq)
    have hq' : q ∈ A.fs := by
      rcases hc.rest with hrest | hrest
      · rw [hrest]
        exact List.mem_cons_of_mem o hq
      · rw [hrest]
        exact hq
    rw [Shared.created, hc.others q hqo]
    exact h.free q hq'
  passed q hq ht := by
    rcases List.mem_append.1 hq with hq | hq
    · have hqo : q ≠ o := fun he => hc.fresh (he ▸ hq)
      rw [Shared.created, hc.others q hqo] at ht
      simpa [Shared.created, hqo] using h.passed q hq ht
    · rw [List.mem_singleton.1 hq] at ht
      rw [Shared.created, hc.type] at ht
      cases ht

/-- A change of the checkpoint `o` that makes it complete only if all workers have merged. -/
theorem Ok.withChkpt (h : A.Ok) (ho : o ∈ A.us)
    (hc : c.type = .clComplete → A.merged o = Finset.univ) : (A.withChkpt o c).Ok where
  lists := h.lists.congr (A.mgr.sameLists_setChkpt o c)
  free q hq := by
    have hqo : q ≠ o := fun he => h.lists.disjoint ho (he ▸ hq)
    rw [withChkpt_chkpt, if_neg hqo]
    exact h.free q hq
  passed q hq ht := by
    rw [withChkpt_chkpt] at ht
    split_ifs at ht with hqo
    · rw [hqo]
      exact hc ht
    · exact h.passed q hq ht

theorem Ok.retired {us : List ℕ} (h : A.Ok) (hfront : A.us = o :: us)
    (ht : (A.mgr.chkpt o).type ≠ .clComplete) : (A.retired o us).Ok where
  lists := by
    have hl := h.lists
    rw [hfront] at hl
    exact hl.retire
  free q hq := by
    rcases List.mem_append.1 hq with hq | hq
    · exact h.free q hq
    · rw [List.mem_singleton.1 hq]
      exact ht
  passed q hq := h.passed q (by rw [hfront]; exact List.mem_cons_of_mem o hq)

/-- The manager `m` after a merge of another worker into `o`. -/
structure MergeInto (A : Shared n) (m : Manager) (o : ℕ) : Prop where
  lists : A.mgr.SameLists m
  others : ∀ q, q ≠ o → m.chkpt q = A.mgr.chkpt q
  iteration : (m.chkpt o).iteration = (A.mgr.chkpt o).iteration
  numWorkers : (m.chkpt o).numWorkers = (A.mgr.chkpt o).numWorkers + 1
  type : (m.chkpt o).type =
    if (A.mgr.chkpt o).numWorkers + 1 = n then .clComplete else (A.mgr.chkpt o).type

variable {v : Fin n} {asked : Fin n → ℕ} {q : ℕ}

theorem MergeInto.iteration_eq (h : A.MergeInto m o) (q : ℕ) :
    (m.chkpt q).iteration = (A.mgr.chkpt q).iteration := by
  by_cases hq : q = o
  · rw [hq, h.iteration]
  · rw [h.others q hq]

theorem Ok.mergedBy (h : A.Ok) (hm : A.MergeInto m o) (ho : o ∈ A.us) (hv : v ∉ A.merged o)
    (hcount : (A.mgr.chkpt o).numWorkers = (A.merged o).card) : (A.mergedBy m v o).Ok where
  lists := h.lists.congr hm.lists
  free q hq := by
    have hqo : q ≠ o := fun he => h.lists.disjoint ho (he ▸ hq)
    rw [Shared.mergedBy, hm.others q hqo]
    exact h.free q hq
  passed q hq ht := by
    simp only [Shared.mergedBy] at hq ht ⊢
    by_cases hqo : q = o
    · subst q
      rw [Function.update_self]
      rw [hm.type] at ht
      split_ifs at ht with hfull
      · refine Finset.eq_univ_of_card _ ?_
        rw [Finset.card_insert_of_notMem hv, ← hcount, hfull, Fintype.card_fin]
      · exact absurd (by rw [h.passed o hq ht]; exact Finset.mem_univ v) hv
    · rw [hm.others q hqo] at ht
      rw [Function.update_of_ne hqo]
      exact h.passed q hq ht

theorem ObjectOk.mergedBy (h : A.ObjectOk asked q) (hm : A.MergeInto m o) (hv : v ∉ A.merged o)
    (hasked : (A.mgr.chkpt o).iteration < asked v) : (A.mergedBy m v o).ObjectOk asked q := by
  constructor
  · simp only [Shared.mergedBy]
    by_cases hqo : q = o
    · subst q
      rw [Function.update_self, Finset.card_insert_of_notMem hv, hm.numWorkers, h.count]
    · rw [Function.update_of_ne hqo, hm.others q hqo, h.count]
  · simp only [Shared.mergedBy, hm.iteration_eq]
    intro u hu
    by_cases hqo : q = o
    · subst q
      rw [Function.update_self] at hu
      rcases Finset.mem_insert.1 hu with rfl | hu
      · exact hasked
      · exact h.below u hu
    · rw [Function.update_of_ne hqo] at hu
      exact h.below u hu

end Shared

namespace Team

variable {cfg : Config} {s s' : Team cfg} {us fs : List ℕ} {a : TeamAction cfg}
  {w : Fin cfg.numWorkers} {z : Sizes}

namespace TeamOk

/-- Workers that wait at their pipes rely on nothing. -/
theorem members_of_resting (h : s.TeamOk us fs) (hr : s.main.resting = true)
    (B : Shared cfg.numWorkers) (w : Fin cfg.numWorkers) : B.MemberOk w (s.members w) := by
  have hpc := (h.control.resting hr w).1
  refine memberOk_plain ?_ ?_ (fun pc ret he => ?_)
  · rw [hpc]
    rfl
  · rw [hpc]
    rfl
  · rw [hpc] at he
    cases he

theorem unclaimed_of_resting (h : s.TeamOk us fs) (hr : s.main.resting = true)
    (w : Fin cfg.numWorkers) : (s.members w).pc.claims = none := by
  rw [(h.control.resting hr w).1]
  rfl

/-- While a worker is in a commit, the main process is in none. -/
theorem main_of_busy (h : s.TeamOk us fs) (hw : (s.members w).pc ≠ .pipe) :
    s.main.resting = false :=
  Bool.eq_false_iff.2 (fun hr => hw (h.control.resting hr w).1)

theorem calm (h : s.TeamOk us fs) (hc : s.Calm us fs s') (hcontrol : s'.ControlOk) :
    s'.TeamOk us fs where
  control := hcontrol
  shared := h.shared.of_same hc.objects hc.merged rfl rfl
  objects o ho := by
    obtain ⟨hcount, hbelow⟩ := h.objects o ho
    refine ⟨?_, fun w hw => ?_⟩
    · change (s'.checkpoints.chkpt o).numWorkers = (s'.merged o).card
      rw [hc.objects.chkpt, hc.merged]
      exact hcount
    · change w ∈ s'.merged o at hw
      change (s'.checkpoints.chkpt o).iteration < (s'.members w).asked
      rw [hc.merged] at hw
      rw [hc.objects.chkpt, hc.asked]
      exact hbelow w hw
  members w := by
    have hrely : (s.shared us fs).Rely (s'.shared us fs) w :=
      .of_same hc.objects hc.merged rfl rfl
    rcases hc.members w with hsame | ⟨hok, hclaims⟩
    · rw [hsame]
      exact (h.members w).rely hrely
        (fun alpha beta hb => ((h.members w).claim hb).of_same hc.objects hc.merged rfl)
    · exact hok.rely hrely (fun alpha beta hb => by rw [hclaims] at hb; cases hb)
  unique w v hw hv := by
    rcases hc.members w with hsame | ⟨_, hnone⟩
    · rcases hc.members v with hsame' | ⟨_, hnone⟩
      · rw [hsame] at hw
        rw [hsame'] at hv
        exact h.unique w v hw hv
      · exact absurd hnone hv
    · exact absurd hnone hw
  main pc hpc := (hc.main pc hpc).of_same hc.objects hc.merged rfl rfl
  empty := hc.empty

theorem restart (h : s.TeamOk us fs) (hempty : us = []) (hr : s.main.resting = true) (first : ℕ) :
    (s.restart first).TeamOk us fs where
  control := h.control.restart hr first
  shared := h.shared
  objects o ho := by
    rw [hempty] at ho
    cases ho
  members w := by
    have hpc := (h.control.resting hr w).1
    refine memberOk_plain ?_ ?_ (fun pc ret he => ?_)
    all_goals simp [Team.restart, hpc, WorkerPc.holding, WorkerPc.asking] at *
  unique w v hw := by
    have hpc := (h.control.resting hr w).1
    simp [Team.restart, hpc, WorkerPc.claims] at hw
  main pc hpc := by cases hpc
  empty _ := hempty

theorem objectOk_grant {A B : Shared cfg.numWorkers} {p : Member} {o : ℕ}
    (h : A.ObjectOk (fun v => (s.members v).asked) o) (hasked : (s.members w).asked ≤ p.asked)
    (hcount : (B.mgr.chkpt o).numWorkers = (A.mgr.chkpt o).numWorkers)
    (hiter : (B.mgr.chkpt o).iteration = (A.mgr.chkpt o).iteration) (hmerged : B.merged o = A.merged o) :
    B.ObjectOk (fun v => ((s.setMember w p).members v).asked) o where
  count := by rw [hcount, hmerged, h.count]
  below v hv := by
    rw [hmerged] at hv
    rw [hiter]
    have hlt := h.below v hv
    by_cases hvw : v = w
    · subst v
      rw [setMember_self]
      exact lt_of_lt_of_le hlt hasked
    · rw [setMember_of_ne _ _ hvw]
      exact hlt

/-- Worker `w` has not merged into a checkpoint it still has to ask for. -/
theorem not_merged (h : s.TeamOk us fs) {b : Bool} {o : ℕ} (hask : (s.members w).pc.asking = some b)
    (ho : o ∈ us) (hiter : effectiveIter (s.members w) b ≤ (s.checkpoints.chkpt o).iteration) :
    w ∉ s.merged o := by
  intro hw
  have hlt := (h.objects o ho).below w hw
  have hle := (h.members w).asking b hask
  exact absurd (lt_of_lt_of_le hlt (le_trans hle hiter)) (lt_irrefl _)

theorem busy_of_asking {b : Bool} (hask : (s.members w).pc.asking = some b) :
    (s.members w).pc ≠ .pipe := by
  intro hpc
  rw [hpc] at hask
  cases hask

/-- Only worker `w` moves, and the main process does not commit. -/
theorem main_of_worker (h : s.TeamOk us fs) (hw : (s.members w).pc ≠ .pipe)
    {B : Shared cfg.numWorkers} :
    (∀ pc, s.main = .commit pc → B.CommitOk (fun _ => False) pc) ∧
      ∀ vs : List ℕ, (s.main = .idle ∨ s.main = .recover → vs = []) := by
  have hr := h.main_of_busy hw
  refine ⟨fun pc hpc => ?_, fun vs hm => ?_⟩
  · rw [hpc] at hr
    cases hr
  · rcases hm with hm | hm
    all_goals
      rw [hm] at hr
      cases hr

theorem old (h : s.TeamOk us fs) {b : Bool} {o : ℕ} (hask : (s.members w).pc.asking = some b)
    (ho : o ∈ us) (hiter : (s.checkpoints.chkpt o).iteration = effectiveIter (s.members w) b)
    (hcontrol : (s.grant w b o).ControlOk) : (s.grant w b o).TeamOk us fs := by
  have hbusy := busy_of_asking hask
  obtain ⟨hmain, hempty⟩ := h.main_of_worker hbusy (B := s.shared us fs)
  have hle := (h.members w).asking b hask
  refine ⟨hcontrol, h.shared, fun q hq => ?_, fun v => ?_, fun v u hv hu => ?_, hmain, hempty us⟩
  · exact objectOk_grant (h.objects q hq) (le_trans hle (Nat.le_succ _)) rfl rfl rfl
  · by_cases hvw : v = w
    · subst v
      refine ⟨fun q hq => ?_, fun b' hb => ?_, fun pc ret hpc => ?_⟩
      · simp only [grant, setMember_self, WorkerPc.holding, Option.some.injEq] at hq ⊢
        subst q
        exact ⟨ho, h.not_merged hask ho hiter.ge, by rw [← hiter]; rfl⟩
      · simp [grant, WorkerPc.asking] at hb
      · simp [grant] at hpc
    · have hsame : (s.grant w b o).members v = s.members v := s.setMember_of_ne _ hvw
      rw [hsame]
      exact h.members v
  · by_cases hvw : v = w
    · subst v
      simp [grant, WorkerPc.claims] at hv
    · by_cases huw : u = w
      · subst u
        simp [grant, WorkerPc.claims] at hu
      · have hv' : (s.grant w b o).members v = s.members v := s.setMember_of_ne _ hvw
        have hu' : (s.grant w b o).members u = s.members u := s.setMember_of_ne _ huw
        rw [hv'] at hv
        rw [hu'] at hu
        exact h.unique v u hv hu

theorem new (h : s.TeamOk us fs) {b : Bool} {o : ℕ} {m : Manager} {fs' : List ℕ}
    (hask : (s.members w).pc.asking = some b)
    (hc : s.checkpoints.Created us fs (effectiveIter (s.members w) b) o m fs')
    (hcontrol : (s.requested w b (.new o m)).ControlOk) :
    (s.requested w b (.new o m)).TeamOk (us ++ [o]) fs' := by
  have hbusy := busy_of_asking hask
  obtain ⟨hmain, hempty⟩ := h.main_of_worker hbusy (B := (s.shared us fs).created m o fs')
  have hle := (h.members w).asking b hask
  have hother : ∀ v, v ≠ w → (s.requested w b (.new o m)).members v = s.members v :=
    fun v hv => (s.setManager m).setMember_of_ne _ hv
  refine ⟨hcontrol, h.shared.created hc, fun q hq => ?_, fun v => ?_, fun v u hv hu => ?_, hmain,
    hempty _⟩
  · rcases List.mem_append.1 hq with hq | hq
    · have hqo : q ≠ o := fun he => hc.fresh (he ▸ hq)
      refine objectOk_grant (B := (s.shared us fs).created m o fs') (h.objects q hq)
        (le_trans hle (Nat.le_succ _)) ?_ ?_ ?_
      · simp [Shared.created, Team.shared, hc.others q hqo]
      · simp [Shared.created, Team.shared, hc.others q hqo]
      · simp [Shared.created, Team.shared, hqo]
    · rw [List.mem_singleton.1 hq]
      refine ⟨?_, fun v hv => ?_⟩
      · change (m.chkpt o).numWorkers = (Function.update s.merged o ∅ o).card
        rw [hc.numWorkers, Function.update_self, Finset.card_empty]
      · change v ∈ Function.update s.merged o ∅ o at hv
        rw [Function.update_self] at hv
        cases hv
  · by_cases hvw : v = w
    · subst v
      refine ⟨fun q hq => ?_, fun b' hb => ?_, fun pc ret hpc => ?_⟩
      · simp only [requested, grant, setMember_self, WorkerPc.holding, Option.some.injEq] at hq ⊢
        subst q
        refine ⟨List.mem_append_right us (List.mem_singleton_self o), ?_, ?_⟩
        · change w ∉ Function.update s.merged o ∅ o
          rw [Function.update_self]
          exact Finset.notMem_empty w
        · change effectiveIter (s.members w) b + 1 = (m.chkpt o).iteration + 1
          rw [hc.iteration]
      · simp [requested, grant, WorkerPc.asking] at hb
      · simp [requested, grant] at hpc
    · rw [hother v hvw]
      exact (h.members v).rely (.of_created hc)
        (fun alpha beta hb => ((h.members v).claim hb).of_created hc)
  · by_cases hvw : v = w
    · subst v
      simp [requested, grant, WorkerPc.claims] at hv
    · by_cases huw : u = w
      · subst u
        simp [requested, grant, WorkerPc.claims] at hu
      · rw [hother v hvw] at hv
        rw [hother u huw] at hu
        exact h.unique v u hv hu

theorem mergeInto_performCheckpoint (s : Team cfg) (us fs : List ℕ) (w : Fin cfg.numWorkers)
    (b : Bool) (o : ℕ) (p : Speculative) (behind : List IOEvt) (copied : ℕ) :
    (s.shared us fs).MergeInto (s.performCheckpoint w b o p behind copied).checkpoints o := by
  have hchk : ∀ q, (s.performCheckpoint w b o p behind copied).checkpoints.chkpt q =
      if q = o then cfg.performCheckpointLocked w (s.members w).currentIter behind p
        (s.checkpoints.chkpt o) else s.checkpoints.chkpt q := fun q => by
    simp only [performCheckpoint, setPc, setMember, setManager, Manager.setLock, Manager.setChkpt,
      Function.update_apply]
  refine ⟨⟨rfl, rfl, rfl, rfl, rfl⟩, fun q hq => ?_, ?_, ?_, ?_⟩
  · rw [hchk, if_neg hq]
    rfl
  · rw [hchk, if_pos rfl, Config.performCheckpointLocked_iteration]
    rfl
  · rw [hchk, if_pos rfl]
    rfl
  · rw [hchk, if_pos rfl]
    rfl

theorem merge (h : s.TeamOk us fs) {b : Bool} {o : ℕ} {p : Speculative} {behind : List IOEvt}
    {copied : ℕ} (hpc : (s.members w).pc = .merge b o)
    (hcontrol : (s.performCheckpoint w b o p behind copied).ControlOk) :
    (s.performCheckpoint w b o p behind copied).TeamOk us fs := by
  obtain ⟨ho, hnot, hasked⟩ := (h.members w).holding o (by rw [hpc]; rfl)
  have hinto := mergeInto_performCheckpoint s us fs w b o p behind copied
  set t := s.performCheckpoint w b o p behind copied
  have hmem : ∀ v, v ≠ w → t.members v = s.members v := fun v hv => setMember_of_ne _ _ hv
  have hmine : t.members w = { s.members w with pc := .commit .readFirst (.merged b o) } :=
    setMember_self _ _ _
  have haskedv : (fun v => (t.members v).asked) = fun v => (s.members v).asked := by
    funext v
    by_cases hvw : v = w
    · rw [hvw, hmine]
    · rw [hmem v hvw]
  obtain ⟨hmain, hempty⟩ := h.main_of_worker (w := w) (by simp [hpc]) (B := t.shared us fs)
  refine ⟨hcontrol, h.shared.mergedBy hinto ho hnot (h.objects o ho).count, fun q hq => ?_,
    fun v => ?_, fun v u hv hu => ?_, hmain, hempty us⟩
  · rw [haskedv]
    exact (h.objects q hq).mergedBy hinto hnot (by rw [hasked]; exact Nat.lt_succ_self _)
  · by_cases hvw : v = w
    · subst v
      rw [hmine]
      refine .of_plain rfl (fun b' hb => by cases hb) (fun pc ret he => ?_)
      cases he
      exact Shared.commitOk_of_sees (fun q hq => by cases hq) rfl
    · rw [hmem v hvw]
      exact (h.members v).rely (.of_mergedBy hvw hinto.iteration_eq)
        (fun alpha beta hb => ((h.members v).claim hb).of_mergedBy h.shared hnot hinto.others)
  · by_cases hvw : v = w
    · rw [hvw, hmine] at hv
      exact absurd rfl hv
    · by_cases huw : u = w
      · rw [huw, hmine] at hu
        exact absurd rfl hu
      · rw [hmem v hvw] at hv
        rw [hmem u huw] at hu
        exact h.unique v u hv hu

/-- No worker but the committer claims the two oldest checkpoints. -/
def Alone (s : Team cfg) (k : Committer cfg) : Prop :=
  ∀ v, (∀ w ret, k = .worker w ret → v ≠ w) → (s.members v).pc.claims = none

theorem alone_of_claims (h : s.TeamOk us fs) {k : Committer cfg} {pc : CommitPc}
    (hat : s.At k pc) (hpc : pc.claims ≠ none) : Alone s k := by
  intro v hv
  cases k with
  | worker w ret =>
      by_contra hne
      have hw : (s.members w).pc.claims ≠ none := by
        rw [show (s.members w).pc = .commit pc ret from hat]
        exact hpc
      exact hv w ret rfl (h.unique v w hne hw)
  | main => exact h.unclaimed_of_resting (by rw [show s.main = .commit pc from hat]; rfl) v

theorem alone_of_complete (h : s.TeamOk us fs) (k : Committer cfg) {alpha : ℕ} {rest : List ℕ}
    (hfront : us = alpha :: rest) (htype : (s.checkpoints.chkpt alpha).type = .clComplete) :
    Alone s k := by
  intro v _
  cases hc : (s.members v).pc.claims with
  | none => rfl
  | some r => exact absurd htype (((h.members v).claim hc).not_complete hfront)

theorem commits (h : s.TeamOk us fs) {k : Committer cfg} {pc pc' : CommitPc} {m : Manager}
    {us' fs' : List ℕ} (hat : s.At k pc) (halone : Alone s k)
    (hok : (⟨m, s.merged, us', fs'⟩ : Shared _).Ok)
    (hobj : ∀ o ∈ us', (⟨m, s.merged, us', fs'⟩ : Shared _).ObjectOk
      (fun v => (s.members v).asked) o)
    (hrely : ∀ v, (s.shared us fs).Rely ⟨m, s.merged, us', fs'⟩ v) (hseen : pc'.seen = none)
    (hclaims : ∀ alpha beta, pc'.claims = some (alpha, beta) →
      (⟨m, s.merged, us', fs'⟩ : Shared _).Claim alpha beta)
    (hcontrol : (s.commits k pc (.next m pc')).ControlOk) :
    (s.commits k pc (.next m pc')).TeamOk us' fs' := by
  have hcommit : ∀ blind : ℕ → Prop, (⟨m, s.merged, us', fs'⟩ : Shared _).CommitOk blind pc' :=
    fun blind => ⟨fun o ho => (by rw [hseen] at ho; cases ho), hclaims⟩
  cases k with
  | worker w ret =>
      have hpc : (s.members w).pc = .commit pc ret := hat
      have halone' : ∀ v, v ≠ w → (s.members v).pc.claims = none := fun v hv =>
        halone v (fun u ret' hu => by cases hu; exact hv)
      obtain ⟨hmain, hempty⟩ := h.main_of_worker (w := w) (by simp [hpc])
        (B := ⟨m, s.merged, us', fs'⟩)
      set t := s.commits (.worker w ret) pc (.next m pc') with ht
      have hmem : ∀ v, v ≠ w → t.members v = s.members v := fun v hv => by
        rw [ht]
        cases pc <;> exact setMember_of_ne _ _ hv
      have hmine : t.members w = { s.members w with pc := .commit pc' ret } := by
        rw [ht]
        cases pc <;> exact setMember_self _ _ _
      have hshared : t.shared us' fs' = ⟨m, s.merged, us', fs'⟩ := by
        rw [ht]
        cases pc <;> rfl
      have hmainpc : t.main = s.main := by
        rw [ht]
        cases pc <;> rfl
      have hasked : (fun v => (t.members v).asked) = fun v => (s.members v).asked := by
        funext v
        by_cases hvw : v = w
        · rw [hvw, hmine]
        · rw [hmem v hvw]
      refine ⟨hcontrol, by rwa [hshared], ?_, fun v => ?_, fun v u hv hu => ?_, ?_, ?_⟩
      · rw [hshared, hasked]
        exact hobj
      · rw [hshared]
        by_cases hvw : v = w
        · subst v
          rw [hmine]
          refine .of_plain rfl (fun b hb => (h.members w).asking b ?_) (fun pc'' ret' he => ?_)
          · rw [hpc]
            cases ret <;> exact hb
          · cases he
            exact hcommit _
        · rw [hmem v hvw]
          exact (h.members v).rely (hrely v)
            (fun alpha beta hb => by rw [halone' v hvw] at hb; cases hb)
      · have hself : ∀ u, (t.members u).pc.claims ≠ none → u = w := fun u hu => by
          by_contra huw
          rw [hmem u huw] at hu
          exact hu (halone' u huw)
        rw [hself v hv, hself u hu]
      · rw [hmainpc, hshared]
        exact hmain
      · rw [hmainpc]
        exact hempty us'
  | main =>
      have hr : s.main.resting = true := by
        rw [show s.main = .commit pc from hat]
        rfl
      set t := s.commits .main pc (.next m pc') with ht
      have hmem : t.members = s.members := by
        rw [ht]
        cases pc <;> rfl
      have hshared : t.shared us' fs' = ⟨m, s.merged, us', fs'⟩ := by
        rw [ht]
        cases pc <;> rfl
      have hmainpc : t.main = .commit pc' := by
        rw [ht]
        cases pc <;> rfl
      refine ⟨hcontrol, by rwa [hshared], ?_, fun v => ?_, fun v u hv hu => ?_, fun pc'' he => ?_,
        fun he => ?_⟩
      · rw [hshared, hmem]
        exact hobj
      · rw [hmem]
        exact h.members_of_resting hr _ v
      · rw [hmem, h.unclaimed_of_resting hr v] at hv
        exact absurd rfl hv
      · rw [hmainpc] at he
        cases he
        rw [hshared]
        exact hcommit _
      · rw [hmainpc] at he
        rcases he with he | he <;> cases he

theorem objectOk_withChkpt {A : Shared cfg.numWorkers} {asked : Fin cfg.numWorkers → ℕ} {o q : ℕ}
    {c : Checkpoint} (h : A.ObjectOk asked q) (hiter : c.iteration = (A.mgr.chkpt o).iteration)
    (hnum : c.numWorkers = (A.mgr.chkpt o).numWorkers) : (A.withChkpt o c).ObjectOk asked q := by
  constructor
  · rw [Shared.withChkpt_chkpt]
    split_ifs with hq
    · rw [hnum, ← hq]
      exact h.count
    · exact h.count
  · rw [Shared.withChkpt_chkpt]
    split_ifs with hq
    · rw [hiter, ← hq]
      exact h.below
    · exact h.below

theorem objectOk_retired {A : Shared cfg.numWorkers} {asked : Fin cfg.numWorkers → ℕ} {q : ℕ}
    (o : ℕ) (rest : List ℕ) (h : A.ObjectOk asked q) : (A.retired o rest).ObjectOk asked q :=
  ⟨h.count, h.below⟩

theorem claim (h : s.TeamOk us fs) {k : Committer cfg} {alpha beta : ℕ} {rest : List ℕ}
    (hat : s.At k (.recheck alpha beta)) (hfront : us = alpha :: beta :: rest)
    (halpha : (s.checkpoints.chkpt alpha).type = .clComplete)
    (hbeta : (s.checkpoints.chkpt beta).type = .clComplete)
    (hcontrol : (s.commits k (.recheck alpha beta)
      (.next (s.checkpoints.setType alpha .clFree) (.combine alpha beta))).ControlOk) :
    (s.commits k (.recheck alpha beta)
      (.next (s.checkpoints.setType alpha .clFree) (.combine alpha beta))).TeamOk us fs := by
  have hmem : alpha ∈ us := by
    rw [hfront]
    exact List.mem_cons_self
  have hne : beta ≠ alpha := by
    have hnodup := h.shared.lists.nodup_used
    change us.Nodup at hnodup
    rw [hfront] at hnodup
    exact fun he => (List.nodup_cons.1 hnodup).1 (he ▸ List.mem_cons_self)
  refine h.commits hat (h.alone_of_complete k hfront halpha)
    (h.shared.withChkpt hmem (fun ht => by cases ht)) (fun o ho => ?_) (fun v => ?_) rfl
    (fun a b hc => ?_) hcontrol
  · exact objectOk_withChkpt (h.objects o ho) rfl rfl
  · exact .of_withChkpt (A := s.shared us fs) rfl
  · cases hc
    refine ⟨⟨rest, hfront⟩, ?_, ?_, h.shared.passed alpha hmem halpha⟩
    · simp [Manager.setType, Manager.setChkpt]
    · simpa [Manager.setType, Manager.setChkpt, hne] using hbeta

theorem beta_mem {alpha beta : ℕ} (hclaim : (s.shared us fs).Claim alpha beta) : beta ∈ us := by
  obtain ⟨rest, hfront⟩ := hclaim.front
  rw [show us = _ from hfront]
  exact List.mem_cons_of_mem _ List.mem_cons_self

theorem beta_ne (h : s.TeamOk us fs) {alpha beta : ℕ} (hclaim : (s.shared us fs).Claim alpha beta) :
    alpha ≠ beta := by
  obtain ⟨rest, hfront⟩ := hclaim.front
  have hnodup := h.shared.lists.nodup_used
  rw [hfront] at hnodup
  exact fun he => (List.nodup_cons.1 hnodup).1 (he ▸ List.mem_cons_self)

theorem combine (h : s.TeamOk us fs) {k : Committer cfg} {alpha beta : ℕ} {c : Checkpoint}
    {pc' : CommitPc} (hat : s.At k (.combine alpha beta))
    (hclaim : (s.shared us fs).Claim alpha beta)
    (htype : c.type = .clComplete ∧ pc' = .retire alpha beta ∨
      c.type = .clBroken ∧ pc' = .conflict alpha beta)
    (hiter : c.iteration = (s.checkpoints.chkpt beta).iteration)
    (hnum : c.numWorkers = (s.checkpoints.chkpt beta).numWorkers)
    (hcontrol : (s.commits k (.combine alpha beta)
      (.next (s.checkpoints.setChkpt beta c) pc')).ControlOk) :
    (s.commits k (.combine alpha beta)
      (.next (s.checkpoints.setChkpt beta c) pc')).TeamOk us fs := by
  have hmem := beta_mem hclaim
  refine h.commits hat (h.alone_of_claims hat (by simp [CommitPc.claims]))
    (h.shared.withChkpt hmem (fun _ => h.shared.passed beta hmem hclaim.betaType))
    (fun o ho => objectOk_withChkpt (h.objects o ho) hiter hnum)
    (fun v => .of_withChkpt (A := s.shared us fs) hiter) ?_ (fun a b hc => ?_) hcontrol
  · rcases htype with ⟨_, rfl⟩ | ⟨_, rfl⟩ <;> rfl
  · rcases htype with ⟨ht, rfl⟩ | ⟨_, rfl⟩
    · cases hc
      refine ⟨hclaim.front, ?_, ?_, hclaim.passed⟩
      · simpa [Manager.setChkpt, h.beta_ne hclaim, Team.shared] using hclaim.alphaType
      · simpa [Manager.setChkpt] using ht
    · cases hc

theorem retire (h : s.TeamOk us fs) {k : Committer cfg} {alpha beta : ℕ} {rest : List ℕ}
    (hat : s.At k (.retire alpha beta)) (hclaim : (s.shared us fs).Claim alpha beta)
    (hfront : us = alpha :: beta :: rest)
    (hcontrol : (s.commits k (.retire alpha beta)
      (.next (s.checkpoints.retire alpha) (.unlock alpha beta))).ControlOk) :
    (s.commits k (.retire alpha beta)
      (.next (s.checkpoints.retire alpha) (.unlock alpha beta))).TeamOk (beta :: rest)
        (fs ++ [alpha]) := by
  refine h.commits hat (h.alone_of_claims hat (by simp [CommitPc.claims])) ?_ (fun o ho => ?_)
    (fun v => .of_retired (A := s.shared us fs) hfront hclaim.passed) rfl
    (fun a b hc => by cases hc) hcontrol
  · exact h.shared.retired hfront (by rw [hclaim.alphaType]; exact fun he => by cases he)
  · exact objectOk_retired alpha _ (h.objects o (by rw [hfront]; exact List.mem_cons_of_mem _ ho))

theorem free (h : s.TeamOk us fs) {o : ℕ} {rest : List ℕ} (hmain : s.main = .adopt ∨ s.main = .squash)
    (hfront : us = o :: rest) (hcontrol : (s.freeFirst o).ControlOk) :
    (s.freeFirst o).TeamOk rest (fs ++ [o]) := by
  have hr : s.main.resting = true := by rcases hmain with hm | hm <;> rw [hm] <;> rfl
  have hmem : o ∈ us := by
    rw [hfront]
    exact List.mem_cons_self
  have hok : ((s.shared us fs).withChkpt o { s.checkpoints.chkpt o with type := .clFree }).Ok :=
    h.shared.withChkpt hmem (fun ht => by cases ht)
  refine ⟨hcontrol, hok.retired hfront ?_, fun q hq => ?_, fun v => h.members_of_resting hr _ v,
    fun v u hv => ?_, fun pc hpc => ?_, fun he => ?_⟩
  · rw [Shared.withChkpt_chkpt, if_pos rfl]
    exact fun he => by cases he
  · have hq' := h.objects q (by rw [hfront]; exact List.mem_cons_of_mem o hq)
    exact objectOk_retired o rest (objectOk_withChkpt (o := o)
      (c := { s.checkpoints.chkpt o with type := .clFree }) hq' rfl rfl)
  · exact absurd (h.unclaimed_of_resting hr v) hv
  · change s.main = _ at hpc
    rcases hmain with hm | hm
    all_goals
      rw [hm] at hpc
      cases hpc
  · change s.main = _ ∨ s.main = _ at he
    rcases hmain with hm | hm
    all_goals
      rw [hm] at he
      rcases he with he | he <;> cases he

theorem of_change (h : s.TeamOk us fs) {us' fs' : List ℕ} (hc : s.Change us fs a s' us' fs')
    (hcontrol : s'.ControlOk) : s'.TeamOk us' fs' := by
  cases hc with
  | calm hcalm => exact h.calm hcalm hcontrol
  | restart empty resting => exact h.restart empty resting _
  | old asks unclaimed used iteration => exact h.old asks used iteration hcontrol
  | new asks unclaimed created order => exact h.new asks created hcontrol
  | merge pc => exact h.merge pc hcontrol
  | claim pc front alphaType betaType => exact h.claim pc front alphaType betaType hcontrol
  | combined pc claim type iteration numWorkers =>
      exact h.combine pc claim (Or.inl ⟨type, rfl⟩) iteration numWorkers hcontrol
  | conflict pc claim type iteration numWorkers =>
      exact h.combine pc claim (Or.inr ⟨type, rfl⟩) iteration numWorkers hcontrol
  | retire pc claim front => exact h.retire pc claim front hcontrol
  | free main front => exact h.free main front hcontrol

theorem step (h : s.TeamOk us fs) (hs : s.step z a = some s') :
    ∃ us' fs', s.Change us fs a s' us' fs' ∧ s'.TeamOk us' fs' := by
  obtain ⟨us', fs', hc⟩ := h.change hs
  exact ⟨us', fs', hc, h.of_change hc (h.control.step hs)⟩

theorem initial (cfg : Config) (chkpt : ℕ → Checkpoint) (reduxUsed : ℕ → ℕ) :
    (Team.initial cfg chkpt reduxUsed).TeamOk [] [] where
  control := .initial cfg chkpt reduxUsed
  shared := ⟨Manager.listsOk_init chkpt reduxUsed, fun _ ho => (by cases ho), fun _ ho => by cases ho⟩
  objects _ ho := by cases ho
  members _ := memberOk_plain rfl rfl (fun pc ret he => by cases he)
  unique _ _ hw := absurd rfl hw
  main pc hpc := by cases hpc
  empty _ := rfl

end TeamOk
end Team
end Cpf.Executive
