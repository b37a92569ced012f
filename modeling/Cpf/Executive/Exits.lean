import Cpf.Executive.Machine
import Cpf.Executive.TeamControl

/-!
# How a worker leaves an invocation

A worker that finishes, and one that reports a misspeculation, unmounts its heaps and sets its flag
before it waits at its pipe again. A worker that finds in `__specpriv_end_iter` that another one has
misspeculated in an earlier iteration goes to its pipe at once: the main process then waits for a
flag that nobody sets.
-/

namespace Cpf.Executive.Team

variable {cfg : Config} {s s' : Team cfg} {a : TeamAction cfg} {w : Fin cfg.numWorkers} {z : Sizes}

/-- No call of `__specpriv_end_iter` finds the misspeculation of an earlier iteration. -/
def noEarlierMisspec (s : Team cfg) : TeamAction cfg → Bool
  | .leave _ iter => !(s.misspeculationHappened && decide (s.misspeculatedIteration < iter))
  | _ => true

/-- The workers that return to the pipe in a step have set their flag and unmounted their heaps, and
the loop that waits for all flags waits for no worker that waits for the next invocation. -/
structure ExitOk (s s' : Team cfg) : Prop where
  returns : ∀ w, (s.members w).pc ≠ .pipe → (s'.members w).pc = .pipe →
    s'.workerDoneFlags w = true ∧ (s'.members w).mounted = false
  awaited : s'.main = .allDone → ∀ w, (s'.members w).AtPipe → s'.workerDoneFlags w = true

def Started (s : Team cfg) (w : Fin cfg.numWorkers) : Prop :=
  s.main = .spin ∨ s.main = .allDone ∨ ∃ k, s.main = .trigger k ∧ w < k

structure FlagsOk (s : Team cfg) : Prop where
  unmounted : ∀ w, (s.members w).pc = .setFlag → (s.members w).mounted = false
  flagged : ∀ w, s.Started w → (s.members w).AtPipe → s.workerDoneFlags w = true

/-- The steps that end at the pipe, or right before it. -/
theorem workerStep_exits (hw : a.worker = some w) (hcond : s.noEarlierMisspec a = true)
    (hs : workerStep z s a = some s') :
    ((s'.members w).pc = .setFlag → (s'.members w).mounted = false) ∧
      ((s'.members w).pc = .pipe → (s.members w).pc = .setFlag ∧ s'.workerDoneFlags w = true ∧
        (s'.members w).mounted = (s.members w).mounted) := by
  cases a with
  | beginInvocation | trigger | almostDone | allDone | mainCommit | adopt | squash => cases hw
  | recovered exits => cases hw
  | start v =>
      cases hw
      simp only [workerStep] at hs
      split at hs
      · cases hs
        simp
      · cases hs
  | checkpoint v iter b =>
      cases hw
      simp only [workerStep] at hs
      split_ifs at hs
      all_goals
        cases hs
        simp [misspecAt, setPc, setMember]
  | misspec v iter =>
      cases hw
      simp only [workerStep] at hs
      split_ifs at hs
      cases hs
      simp [misspecAt, setPc, setMember]
  | leave v iter =>
      cases hw
      simp only [workerStep] at hs
      split_ifs at hs with hg
      simp [noEarlierMisspec, hg.2.2.1, hg.2.2.2] at hcond
  | get v | retry v =>
      cases hw
      simp only [workerStep] at hs
      split at hs
      · cases hs
        unfold requested
        split <;> simp [grant, setPc, setMember, setManager]
      · cases hs
  | giveUp v =>
      cases hw
      simp only [workerStep] at hs
      split at hs
      · split_ifs at hs
        cases hs
        simp [misspecAt, setPc, setMember]
      · cases hs
  | poll v | wake v =>
      cases hw
      simp only [workerStep] at hs
      split at hs
      · cases hs
        simp [setPc, setMember]
      · cases hs
  | lock v =>
      cases hw
      simp only [workerStep] at hs
      split at hs
      · split_ifs at hs
        cases hs
        simp [setPc, setMember, setManager]
      · cases hs
  | merge v p behind copied =>
      cases hw
      simp only [workerStep] at hs
      split at hs
      · cases hs
        simp [performCheckpoint, setPc, setMember, setManager]
      · cases hs
  | commit v =>
      cases hw
      simp only [workerStep] at hs
      split at hs
      · rename_i pc ret hpc
        obtain ⟨r, _, rfl⟩ := Option.map_eq_some_iff.1 hs
        cases r with
        | next m pc' => cases pc <;> simp [workerCommits, noteRetired, setPc, setMember, setManager]
        | returns m =>
            cases ret with
            | merged b o => cases b <;> simp [workerCommits, returned, setPc, setMember, setManager]
            | waiting b => simp [workerCommits, returned, setPc, setMember, setManager]
        | misspecAt m iter => simp [workerCommits, misspecAt, setPc, setMember, setManager]
        | abort => simp [workerCommits, setPc, setMember]
      · cases hs
  | teardown v =>
      cases hw
      simp only [workerStep] at hs
      split_ifs at hs
      cases hs
      simp
  | setFlag v =>
      cases hw
      simp only [workerStep] at hs
      split_ifs at hs with hpc
      cases hs
      simp [setPc, setMember, hpc]

theorem FlagsOk.moves (h : s.FlagsOk) (hc : s.ControlOk) (hw : a.worker = some w)
    (hcond : s.noEarlierMisspec a = true) (hs : workerStep z s a = some s') :
    s'.FlagsOk ∧ s.ExitOk s' := by
  have hm := moves_of_workerStep hc hw hs
  obtain ⟨hset, hpipe⟩ := workerStep_exits hw hcond hs
  have hflags : s'.FlagsOk := by
    constructor
    · intro v hv
      by_cases hvw : v = w
      · subst v
        exact hset hv
      · rw [hm.others v hvw] at hv ⊢
        exact h.unmounted v hv
    · intro v hst hat
      by_cases hvw : v = w
      · subst v
        exact (hpipe hat.1).2.1
      · rw [hm.others v hvw] at hat
        rw [hm.flags v hvw]
        rw [Started, hm.main] at hst
        exact h.flagged v hst hat
  refine ⟨hflags, fun v hne hv => ?_, fun hall v hat => hflags.flagged v (Or.inr (Or.inl hall)) hat⟩
  by_cases hvw : v = w
  · subst v
    obtain ⟨hpc, hflag, hmount⟩ := hpipe hv
    exact ⟨hflag, hmount.trans (h.unmounted w hpc)⟩
  · rw [hm.others v hvw] at hv
    exact absurd hv hne

/-- Where the main process goes without changing workers or flags. -/
theorem FlagsOk.of_main (h : s.FlagsOk) (hmembers : s'.members = s.members)
    (hflags : s'.workerDoneFlags = s.workerDoneFlags)
    (hstarted : ∀ w, s'.Started w → s.Started w) : s'.FlagsOk ∧ s.ExitOk s' := by
  have hok : s'.FlagsOk := by
    constructor
    · rw [hmembers]
      exact h.unmounted
    · rw [hmembers, hflags]
      exact fun w hst => h.flagged w (hstarted w hst)
  refine ⟨hok, fun w hne hw => ?_, fun hall w => hok.flagged w (Or.inr (Or.inl hall))⟩
  rw [hmembers] at hw
  exact absurd hw hne

theorem not_started_of_resting (h : s.main.resting = true) (w : Fin cfg.numWorkers) :
    ¬ s.Started w := by
  rintro (hm | hm | ⟨k, hm, _⟩)
  all_goals
    rw [hm] at h
    cases h

theorem flagsOk_restart (h : s.FlagsOk) (first : ℕ) :
    (s.restart first).FlagsOk ∧ s.ExitOk (s.restart first) := by
  refine ⟨⟨h.unmounted, ?_⟩, fun w hne hw => absurd hw hne, fun hall => by cases hall⟩
  rintro w (hm | hm | ⟨k, hm, hk⟩) _
  · cases hm
  · cases hm
  · cases hm
    exact absurd hk (Nat.not_lt_zero _)

theorem flagsOk_triggerWorker (h : s.FlagsOk) (hmain : s.main = .trigger w) :
    (s.triggerWorker w).FlagsOk ∧ s.ExitOk (s.triggerWorker w) := by
  have hmem : ∀ v, ((s.triggerWorker w).members v).pc = (s.members v).pc ∧
      ((s.triggerWorker w).members v).mounted = (s.members v).mounted := fun v => by
    by_cases hv : v = w <;> simp [triggerWorker, setMember, hv]
  refine ⟨⟨fun v hv => ?_, fun v hst hat => ?_⟩, fun v hne hv => ?_, fun hall => by cases hall⟩
  · rw [(hmem v).1] at hv
    rw [(hmem v).2]
    exact h.unmounted v hv
  · by_cases hv : v = w
    · subst v
      have hmsg := hat.2
      simp [triggerWorker] at hmsg
    · have hst' : s.Started v := by
        rcases hst with hm | hm | ⟨k, hm, hk⟩
        · cases hm
        · cases hm
        · cases hm
          refine Or.inr (Or.inr ⟨w, hmain, ?_⟩)
          have hne : (v : ℕ) ≠ w := fun he => hv (Fin.ext he)
          omega
      have hsame : (s.triggerWorker w).members v = s.members v := by
        simp [triggerWorker, setMember, hv]
      rw [hsame] at hat
      simpa [triggerWorker, hv] using h.flagged v hst' hat
  · rw [(hmem v).1] at hv
    exact absurd hv hne

theorem FlagsOk.mainStep (h : s.FlagsOk) (hs : s.mainStep a = some s') :
    s'.FlagsOk ∧ s.ExitOk s' := by
  have hrest : s'.main.resting = true → s'.members = s.members →
      s'.workerDoneFlags = s.workerDoneFlags → s'.FlagsOk ∧ s.ExitOk s' := fun hr hm hf =>
    h.of_main hm hf (fun w hst => absurd hst (not_started_of_resting hr w))
  cases a with
  | beginInvocation =>
      simp only [Team.mainStep] at hs
      split_ifs at hs
      cases hs
      exact flagsOk_restart h 0
  | trigger =>
      simp only [Team.mainStep] at hs
      split at hs
      · rename_i k hm
        split_ifs at hs with hk
        · cases hs
          exact flagsOk_triggerWorker h (w := ⟨k, hk⟩) hm
        · cases hs
          refine h.of_main rfl rfl (fun w _ => Or.inr (Or.inr ⟨k, hm, ?_⟩))
          exact lt_of_lt_of_le w.isLt (not_lt.1 hk)
      · cases hs
  | almostDone =>
      simp only [Team.mainStep] at hs
      split_ifs at hs with hg
      cases hs
      exact h.of_main rfl rfl (fun w _ => Or.inl hg.1)
  | allDone =>
      simp only [Team.mainStep] at hs
      split_ifs at hs with hg
      cases hs
      exact hrest rfl rfl rfl
  | mainCommit =>
      simp only [Team.mainStep] at hs
      split at hs
      · rename_i pc hm
        obtain ⟨r, _, rfl⟩ := Option.map_eq_some_iff.1 hs
        cases r with
        | next m pc' => cases pc <;> exact hrest rfl rfl rfl
        | returns m => exact hrest rfl rfl rfl
        | misspecAt m iter => exact hrest rfl rfl rfl
        | abort => exact hrest rfl rfl rfl
      · cases hs
  | adopt =>
      simp only [Team.mainStep] at hs
      split_ifs at hs with hm
      split at hs
      · split_ifs at hs
        · cases hs
          exact hrest (by simp [freeFirst, setManager, hm, MainPc.resting]) rfl rfl
        · cases hs
          exact hrest rfl rfl rfl
      · cases hs
        exact hrest rfl rfl rfl
  | squash =>
      simp only [Team.mainStep] at hs
      by_cases hm : s.main = .squash
      · rw [if_pos hm] at hs
        split at hs
        · cases hs
          exact hrest (by simp [freeFirst, setManager, hm, MainPc.resting]) rfl rfl
        · cases hs
          exact hrest (by dsimp only; split_ifs <;> rfl) rfl rfl
      · rw [if_neg hm] at hs
        cases hs
  | recovered exits =>
      simp only [Team.mainStep] at hs
      split_ifs at hs
      · cases hs
        exact hrest rfl rfl rfl
      · cases hs
        exact flagsOk_restart h _
  | start w | get w | giveUp w | poll w | wake w | retry w | lock w | commit w | teardown w
  | setFlag w => cases hs
  | checkpoint w iter b => cases hs
  | misspec w iter | leave w iter => cases hs
  | merge w p behind copied => cases hs

theorem FlagsOk.step (h : s.FlagsOk) (hc : s.ControlOk) (hcond : s.noEarlierMisspec a = true)
    (hs : s.step z a = some s') : s'.FlagsOk ∧ s.ExitOk s' := by
  rcases step_cases hs with ⟨_, hm⟩ | ⟨w, hw, hm⟩
  · exact h.mainStep hm
  · exact h.moves hc hw hcond hm

/-- In every run in which `__specpriv_end_iter` never finds a misspeculation of an earlier iteration,
every worker leaves an invocation with its flag set and its heaps unmounted. -/
theorem exits_set_flag (z : Sizes) (chkpt : ℕ → Checkpoint) (reduxUsed : ℕ → ℕ)
    (h : Run (step z) (fun s a => s.noEarlierMisspec a = true) (initial cfg chkpt reduxUsed) s)
    (hcond : s.noEarlierMisspec a = true) (hs : s.step z a = some s') : s.ExitOk s' := by
  have hstart : (initial cfg chkpt reduxUsed).FlagsOk :=
    ⟨fun _ _ => rfl, fun w hst => absurd hst (not_started_of_resting (s := initial _ _ _) rfl w)⟩
  obtain ⟨hc, hf⟩ := h.invariant (fun s => s.ControlOk ∧ s.FlagsOk)
    ⟨ControlOk.initial cfg chkpt reduxUsed, hstart⟩
    (fun _ _ _ hok hp hstep => ⟨hok.1.step hstep, (hok.2.step hok.1 hp hstep).1⟩)
  exact (hf.step hc hcond hs).2

def pair : Config := Config.ofWorkers 2 twoWorkers_pos twoWorkers_le

def pairSizes : Sizes := ⟨16, 0, sixteen_lt, (Nat.zero_le 16).trans_lt sixteen_lt⟩

/-- Two workers at their pipes, and a memory without contents. -/
def pairStart : Team pair := initial pair (fun _ => Loop.blankChkpt) (fun _ => 0)

def startPair : List (TeamAction pair) :=
  [.beginInvocation, .trigger, .trigger, .trigger, .start (0 : Fin 2), .start (1 : Fin 2)]

/-- Both workers misspeculate in their first iteration. -/
def bothMisspeculate : List (TeamAction pair) :=
  startPair ++ [.misspec (0 : Fin 2) 0, .teardown (0 : Fin 2), .setFlag (0 : Fin 2), .almostDone,
    .misspec (1 : Fin 2) 1, .teardown (1 : Fin 2)]

theorem exits_set_flag_bothMisspeculate : ∃ s s' : Team pair,
    Run (step pairSizes) (fun s a => s.noEarlierMisspec a = true) pairStart s ∧
      s.step pairSizes (.setFlag (1 : Fin 2)) = some s' ∧ s.ExitOk s' := by
  have hreplay : (Run.replay (step pairSizes) (fun s a => s.noEarlierMisspec a = true) pairStart
      bothMisspeculate).any (fun s => (s.step pairSizes (.setFlag (1 : Fin 2))).isSome) = true := by
    decide +kernel
  obtain ⟨s, hrun, hs⟩ := Run.exists_of_any hreplay
  obtain ⟨s', hs'⟩ := Option.isSome_iff_exists.1 hs
  exact ⟨s, s', hrun, hs', exits_set_flag pairSizes _ _ hrun rfl hs'⟩

/-- Worker 0 misspeculates in iteration 0, and the main process waits for all flags. -/
def oneMisspeculates : List (TeamAction pair) :=
  startPair ++ [.misspec (0 : Fin 2) 0, .teardown (0 : Fin 2), .setFlag (0 : Fin 2), .almostDone]

/-- Worker 1 comes to the end of iteration 1 and goes to its pipe; its flag is not set and its heaps
are mounted. -/
theorem early_exit_sets_no_flag : ¬ ∀ (cfg : Config) (z : Sizes) (chkpt : ℕ → Checkpoint)
    (reduxUsed : ℕ → ℕ) (s s' : Team cfg) (a : TeamAction cfg),
    Run (step z) (fun _ _ => True) (initial cfg chkpt reduxUsed) s → s.step z a = some s' →
      s.ExitOk s' := by
  intro hall
  have hreplay : (Run.replay (step pairSizes) (fun _ _ => True) pairStart oneMisspeculates).any
      (fun s => (s.step pairSizes (.leave (1 : Fin 2) 1)).any (fun s' =>
        decide (s'.main = .allDone ∧ (s'.members (1 : Fin 2)).pc = .pipe ∧
          (s'.members (1 : Fin 2)).message = none ∧ s'.workerDoneFlags (1 : Fin 2) = false))) =
        true := by
    decide +kernel
  obtain ⟨s, hrun, hs⟩ := Run.exists_of_any hreplay
  obtain ⟨s', hs', hq⟩ := (Option.any_eq_true _ _).1 hs
  obtain ⟨hmain, hpc, hmsg, hflag⟩ := of_decide_eq_true hq
  have hset := (hall pair pairSizes _ _ s s' _ hrun hs').awaited hmain _ ⟨hpc, hmsg⟩
  rw [hflag] at hset
  cases hset

end Cpf.Executive.Team
