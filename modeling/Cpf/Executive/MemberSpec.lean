import Cpf.Executive.CommitCall

/-!
# What a worker can rely on

`MemberOk` says what holds of a worker wherever it is: the object it was given is in use and lacks
its merge, an open request goes beyond what it has asked for, and in a commit it knows what
`CommitOk` says. The steps of the other workers keep this (`Rely`).
-/

namespace Cpf.Executive

/-- The object that a worker was given and has not merged into yet. -/
def WorkerPc.holding : WorkerPc → Option ℕ
  | .lockChkpt _ o | .merge _ o => some o
  | _ => none

def WorkerPc.asking : WorkerPc → Option Bool
  | .request b | .wait b | .retry b | .commit _ (.waiting b) => some b
  | _ => none

def WorkerPc.claims : WorkerPc → Option (ℕ × ℕ)
  | .commit pc _ => pc.claims
  | _ => none

namespace Shared

variable {n : ℕ} {A B : Shared n} {w : Fin n} {p : Member} {o alpha beta : ℕ}

structure MemberOk (A : Shared n) (w : Fin n) (p : Member) : Prop where
  holding : ∀ o, p.pc.holding = some o →
    o ∈ A.us ∧ w ∉ A.merged o ∧ p.asked = (A.mgr.chkpt o).iteration + 1
  asking : ∀ b, p.pc.asking = some b → p.asked ≤ Team.effectiveIter p b
  commit : ∀ pc ret, p.pc = .commit pc ret → A.CommitOk (fun o => w ∉ A.merged o) pc

/-- The merges into an object are counted, and each is one of a worker that has asked for it. -/
structure ObjectOk (A : Shared n) (asked : Fin n → ℕ) (o : ℕ) : Prop where
  count : (A.mgr.chkpt o).numWorkers = (A.merged o).card
  below : ∀ w ∈ A.merged o, (A.mgr.chkpt o).iteration < asked w

/-- What a step of another worker leaves to worker `w`. -/
structure Rely (A B : Shared n) (w : Fin n) : Prop where
  used : ∀ o ∈ A.us, w ∉ A.merged o →
    o ∈ B.us ∧ w ∉ B.merged o ∧ (B.mgr.chkpt o).iteration = (A.mgr.chkpt o).iteration
  head : ∀ o, A.us.head? = some o → B.us.head? = some o ∨ o ∈ B.fs
  free : ∀ o ∈ A.fs, o ∈ B.fs ∨ (o ∈ B.us ∧ w ∉ B.merged o)

theorem Sees.rely (hr : A.Rely B w) (h : A.Sees (fun o => w ∉ A.merged o) alpha) :
    B.Sees (fun o => w ∉ B.merged o) alpha := by
  rcases h with hhead | hfree | ⟨hused, hnot⟩
  · exact (hr.head alpha hhead).imp_right Or.inl
  · exact Or.inr (hr.free alpha hfree)
  · obtain ⟨hu, hm, _⟩ := hr.used alpha hused hnot
    exact Or.inr (Or.inr ⟨hu, hm⟩)

theorem MemberOk.rely (h : A.MemberOk w p) (hr : A.Rely B w)
    (hclaims : ∀ alpha beta, p.pc.claims = some (alpha, beta) → B.Claim alpha beta) :
    B.MemberOk w p where
  holding o ho := by
    obtain ⟨hu, hm, hasked⟩ := h.holding o ho
    obtain ⟨hu', hm', hiter⟩ := hr.used o hu hm
    exact ⟨hu', hm', hasked.trans (by rw [hiter])⟩
  asking := h.asking
  commit pc ret hpc := by
    refine ⟨fun alpha hseen => ((h.commit pc ret hpc).seen alpha hseen).rely hr,
      fun alpha beta hc => hclaims alpha beta ?_⟩
    rw [hpc]
    exact hc

theorem MemberOk.claim (h : A.MemberOk w p) (hc : p.pc.claims = some (alpha, beta)) :
    A.Claim alpha beta := by
  cases hpc : p.pc with
  | commit pc ret =>
      rw [hpc] at hc
      exact (h.commit pc ret hpc).claims alpha beta hc
  | _ =>
      rw [hpc] at hc
      cases hc

/-- A worker that holds no object, has read none and asks for nothing new. -/
theorem MemberOk.of_plain (hhold : p.pc.holding = none)
    (hask : ∀ b, p.pc.asking = some b → p.asked ≤ Team.effectiveIter p b)
    (hcommit : ∀ pc ret, p.pc = .commit pc ret → A.CommitOk (fun o => w ∉ A.merged o) pc) :
    A.MemberOk w p :=
  ⟨fun o ho => (by rw [hhold] at ho; cases ho), hask, hcommit⟩

/-- No two oldest checkpoints are claimed twice. -/
theorem Claim.not_complete {us : List ℕ} (h : A.Claim alpha beta) (hfront : A.us = o :: us) :
    (A.mgr.chkpt o).type ≠ .clComplete := by
  obtain ⟨rest, hus⟩ := h.front
  rw [hfront] at hus
  cases hus
  rw [h.alphaType]
  exact fun he => by cases he

/-! ## What each change leaves to the others -/

theorem Rely.of_same (hobj : A.mgr.SameObjects B.mgr) (hmerged : B.merged = A.merged)
    (hus : B.us = A.us) (hfs : B.fs = A.fs) : A.Rely B w where
  used o ho hm := by
    rw [hus, hmerged, hobj.chkpt]
    exact ⟨ho, hm, rfl⟩
  head o ho := Or.inl (by rw [hus, ho])
  free o ho := Or.inl (by rw [hfs]; exact ho)

theorem Claim.of_same (h : A.Claim alpha beta) (hobj : A.mgr.SameObjects B.mgr)
    (hmerged : B.merged = A.merged) (hus : B.us = A.us) : B.Claim alpha beta where
  front := by
    rw [hus]
    exact h.front
  alphaType := by
    rw [hobj.chkpt]
    exact h.alphaType
  betaType := by
    rw [hobj.chkpt]
    exact h.betaType
  passed := by
    rw [hmerged]
    exact h.passed

variable {m : Manager} {fs : List ℕ} {iter : ℕ} {c : Checkpoint}

def created (A : Shared n) (m : Manager) (o : ℕ) (fs : List ℕ) : Shared n :=
  ⟨m, Function.update A.merged o ∅, A.us ++ [o], fs⟩

theorem Rely.of_created (h : A.mgr.Created A.us A.fs iter o m fs) : A.Rely (A.created m o fs) w where
  used q hq hm := by
    have hqo : q ≠ o := fun he => h.fresh (he ▸ hq)
    refine ⟨List.mem_append_left [o] hq, ?_, ?_⟩
    · simpa [created, hqo] using hm
    · simp [created, h.others q hqo]
  head q hq := by
    refine Or.inl ?_
    rw [created, List.head?_append, hq]
    rfl
  free q hq := by
    rcases h.rest with hrest | hrest
    · rw [hrest] at hq
      rcases List.mem_cons.1 hq with rfl | hq
      · exact Or.inr ⟨by simp [created], by simp [created]⟩
      · exact Or.inl hq
    · rw [hrest] at hq
      exact Or.inl hq

theorem Claim.of_created (h : A.Claim alpha beta) (hc : A.mgr.Created A.us A.fs iter o m fs) :
    (A.created m o fs).Claim alpha beta := by
  obtain ⟨rest, hus⟩ := h.front
  have ha : alpha ≠ o := fun he => hc.fresh (by rw [hus, ← he]; exact List.mem_cons_self)
  have hb : beta ≠ o := fun he =>
    hc.fresh (by rw [hus, ← he]; exact List.mem_cons_of_mem _ List.mem_cons_self)
  refine ⟨⟨rest ++ [o], by simp [created, hus]⟩, ?_, ?_, ?_⟩
  · simpa [created, hc.others alpha ha] using h.alphaType
  · simpa [created, hc.others beta hb] using h.betaType
  · simpa [created, ha] using h.passed

def mergedBy (A : Shared n) (m : Manager) (v : Fin n) (o : ℕ) : Shared n :=
  ⟨m, Function.update A.merged o (insert v (A.merged o)), A.us, A.fs⟩

theorem Rely.of_mergedBy {v : Fin n} (hwv : w ≠ v)
    (hiter : ∀ q, (m.chkpt q).iteration = (A.mgr.chkpt q).iteration) :
    A.Rely (A.mergedBy m v o) w where
  used q hq hm := by
    refine ⟨hq, ?_, hiter q⟩
    by_cases hqo : q = o
    · subst q
      simp [mergedBy, hwv, hm]
    · simpa [mergedBy, hqo] using hm
  head q hq := Or.inl hq
  free q hq := Or.inl hq

theorem Claim.of_mergedBy {v : Fin n} (h : A.Claim alpha beta) (hok : A.Ok) (hv : v ∉ A.merged o)
    (hothers : ∀ q, q ≠ o → m.chkpt q = A.mgr.chkpt q) : (A.mergedBy m v o).Claim alpha beta := by
  obtain ⟨rest, hus⟩ := h.front
  have hbeta : A.merged beta = Finset.univ :=
    hok.passed beta (by rw [hus]; exact List.mem_cons_of_mem _ List.mem_cons_self) h.betaType
  have ha : alpha ≠ o := fun he => hv (by rw [← he, h.passed]; exact Finset.mem_univ v)
  have hb : beta ≠ o := fun he => hv (by rw [← he, hbeta]; exact Finset.mem_univ v)
  refine ⟨⟨rest, hus⟩, ?_, ?_, ?_⟩
  · simpa [mergedBy, hothers alpha ha] using h.alphaType
  · simpa [mergedBy, hothers beta hb] using h.betaType
  · simpa [mergedBy, ha] using h.passed

/-- The state after a field of the checkpoint `o` has changed that is not its iteration. -/
def withChkpt (A : Shared n) (o : ℕ) (c : Checkpoint) : Shared n :=
  { A with mgr := A.mgr.setChkpt o c }

theorem withChkpt_chkpt (A : Shared n) (o q : ℕ) (c : Checkpoint) :
    (A.withChkpt o c).mgr.chkpt q = if q = o then c else A.mgr.chkpt q := by
  simp only [withChkpt, Manager.setChkpt, Function.update_apply]

theorem Rely.of_withChkpt (hiter : c.iteration = (A.mgr.chkpt o).iteration) :
    A.Rely (A.withChkpt o c) w where
  used q hq hm := by
    refine ⟨hq, hm, ?_⟩
    rw [withChkpt_chkpt]
    split_ifs with he
    · rw [hiter, he]
    · rfl
  head q hq := Or.inl hq
  free q hq := Or.inl hq

/-- The state after the oldest checkpoint has been retired. -/
def retired (A : Shared n) (o : ℕ) (us : List ℕ) : Shared n :=
  ⟨A.mgr.retire o, A.merged, us, A.fs ++ [o]⟩

theorem Rely.of_retired {us : List ℕ} (hfront : A.us = o :: us) (hpassed : A.merged o = Finset.univ) :
    A.Rely (A.retired o us) w where
  used q hq hm := by
    rw [hfront] at hq
    rcases List.mem_cons.1 hq with rfl | hq
    · rw [hpassed] at hm
      exact absurd (Finset.mem_univ w) hm
    · exact ⟨hq, hm, rfl⟩
  head q hq := by
    rw [hfront] at hq
    cases hq
    exact Or.inr (by simp [retired])
  free q hq := Or.inl (List.mem_append_left [o] hq)

end Shared
end Cpf.Executive
