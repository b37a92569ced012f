import Cpf.Executive.ShareSteps

/-!
# Share-private updates survive

A join without a misspeculation adopts the share-private updates of all checkpoints. A join after a
misspeculation adopts none of them, though the iterations of the complete checkpoints count as
committed; this loses nothing only if there is nothing to adopt.
-/

namespace Cpf.Executive

open Loop

variable {cfg : Config} {loop : ShareLoop cfg} {start : Heap} {t t' : Sharing cfg} {s : State cfg}
  {a : ShareAction cfg} {w : Fin cfg.numWorkers}

namespace Config

/-- After a misspeculation the share-private heap of the main process stays. -/
theorem sharepriv_adoptComplete_misspec (cfg : Config) (m : Main) (used : List Checkpoint) :
    (cfg.adoptComplete true m used).main.sharepriv = m.sharepriv := by
  induction used generalizing m with
  | nil => rfl
  | cons c cs ih =>
      rw [adoptComplete]
      split_ifs
      · exact ih _
      · rfl

/-- Without a misspeculation a byte is that of a checkpoint that holds an update of it, or stays. -/
theorem sharepriv_adoptComplete (cfg : Config) (m : Main) {used : List Checkpoint} (k : ℕ)
    (hw : ∀ c ∈ leading used, c.share.range.Within cfg.sizeofShareprivate.val) :
    ((∀ c ∈ leading used, ¬ (c.share.range.Covers k ∧ c.share.Updated k)) ∧
        (cfg.adoptComplete false m used).main.sharepriv k = m.sharepriv k) ∨
      ∃ c ∈ leading used, c.share.range.Covers k ∧ c.share.Updated k ∧
        (cfg.adoptComplete false m used).main.sharepriv k = c.share.priv k := by
  induction used generalizing m with
  | nil => exact Or.inl ⟨fun c hc => (by cases hc), rfl⟩
  | cons c cs ih =>
      rw [adoptComplete]
      by_cases hc : c.type = .clComplete
      · rw [leading_cons_of_complete hc] at hw ⊢
        rw [if_pos hc]
        have hadopt : (cfg.adopt false m c).sharepriv k =
            if c.share.range.Covers k ∧ c.share.Updated k then c.share.priv k else m.sharepriv k :=
          Image.distillCommittedShareprivateIntoMain_apply (hw c List.mem_cons_self) m.sharepriv
        rcases ih (cfg.adopt false m c) (fun d hd => hw d (List.mem_cons_of_mem _ hd)) with
          ⟨hnone, hkeep⟩ | ⟨d, hd, hcov, hupd, hval⟩
        · by_cases hu : c.share.range.Covers k ∧ c.share.Updated k
          · rw [if_pos hu] at hadopt
            exact Or.inr ⟨c, List.mem_cons_self, hu.1, hu.2, hkeep.trans hadopt⟩
          · rw [if_neg hu] at hadopt
            refine Or.inl ⟨fun d hd => ?_, hkeep.trans hadopt⟩
            rcases List.mem_cons.1 hd with rfl | hd
            · exact hu
            · exact hnone d hd
        · exact Or.inr ⟨d, List.mem_cons_of_mem _ hd, hcov, hupd, hval⟩
      · rw [if_neg hc, leading_cons_of_not_complete hc]
        exact Or.inl ⟨fun d hd => (by cases hd), rfl⟩

end Config

/-- The group of an iteration, among those from `e` on of which the first one holds all before. -/
theorem Loop.exists_group {loop : Loop cfg} {first e n i : ℕ} (hn : 0 < n)
    (hfirst : first ≤ i) (hi : i < loop.reach first (e + n)) :
    ∃ m, e ≤ m ∧ m < e + n ∧ low cfg first e m ≤ i ∧ i < loop.groupEnd first m := by
  have hstop : i < loop.stop first := lt_of_lt_of_le hi (min_le_right _ _)
  by_cases he : i < loop.groupEnd first e
  · exact ⟨e, le_rfl, by omega, by rw [low_self]; exact hfirst, he⟩
  · have hpos := cfg.granularity_pos
    have hge : groupStart cfg first (e + 1) ≤ i := by
      by_contra hlt
      exact he (lt_min (not_le.1 hlt) hstop)
    obtain ⟨m, hm⟩ : ∃ m, m = (i - first) / cfg.granularity := ⟨_, rfl⟩
    have hlo : groupStart cfg first m ≤ i := by
      have hle := Nat.div_mul_le_self (i - first) cfg.granularity
      rw [groupStart, hm]
      omega
    have hhi : i < groupStart cfg first (m + 1) := by
      have hlt := Nat.lt_div_mul_add hpos (a := i - first)
      rw [groupStart_succ, groupStart, hm]
      omega
    have hem : e < m := by
      by_contra hle
      have hmono : groupStart cfg first (m + 1) ≤ groupStart cfg first (e + 1) :=
        groupStart_mono (by omega)
      omega
    have hmn : m < e + n := by
      by_contra hle
      have hmono : groupStart cfg first (e + n) ≤ groupStart cfg first m :=
        groupStart_mono (not_lt.1 hle)
      have hlt : i < groupStart cfg first (e + n) := lt_of_lt_of_le hi (min_le_left _ _)
      omega
    exact ⟨m, hem.le, hmn, by rw [low_of_ne hem.ne']; exact hlo, lt_min hhi hstop⟩

namespace ShareEpisode

/-- A value that some leading checkpoint holds, if it is not that of the main process. -/
theorem exists_leading (h : ShareEpisode loop start t) (hep : EpisodeOk loop.toLoop t.state) {k : ℕ}
    {v : UInt8} (hs : t.stored k = some v) (hne : v ≠ t.state.main.sharepriv k)
    (hfirst : t.state.firstIteration ≤ loop.writer k)
    (hreach : loop.writer k < loop.reach t.state.firstIteration
      (t.state.emitted.length + (leading t.state.used).length)) (hlead : leading t.state.used ≠ []) :
    ∃ c ∈ leading t.state.used, c.share.range.Covers k ∧ c.share.Updated k := by
  obtain ⟨m, he, hm, hlow, hend⟩ :=
    Loop.exists_group (List.length_pos_of_ne_nil hlead) hfirst hreach
  have hboth := (hep.groups.and h.groups).takeWhile (fun c => decide (c.type = .clComplete))
  obtain ⟨c, hc, hgroup, hshare⟩ := hboth.exists_of_lt he hm
  exact ⟨c, hc, hshare.holds k v hs hne hlow hend
    (hgroup.passed (complete_of_mem_leading hc) _)⟩

theorem executed_of_stored (h : ShareEpisode loop start t) {k : ℕ} {v : UInt8}
    (hs : t.stored k = some v) (hfirst : t.state.firstIteration ≤ loop.writer k) :
    k < cfg.sizeofShareprivate.val ∧ loop.writer k < loop.trip := by
  obtain ⟨hk, ht, _⟩ := (h.procs (loop.owner (loop.writer k))).executed k v hs rfl hfirst
  exact ⟨hk, ht⟩

theorem survives_adopt (h : ShareEpisode loop start t) (hep : EpisodeOk loop.toLoop t.state)
    (hmis : t.state.misspeculationHappened = false)
    (hdone : ∀ w, (t.state.procs w).pc = .done) :
    Sharing.Survives start ⟨t.state.adopt, t.stored⟩ := by
  obtain ⟨hlead, hlen⟩ := hep.leading_of_done hmis hdone
  have hshare := h.groups.takeWhile (fun c => decide (c.type = .clComplete))
  have hwithin : ∀ c ∈ leading t.state.used,
      c.share.range.Within cfg.sizeofShareprivate.val := fun c hc => by
    obtain ⟨i, _, _, hg⟩ := hshare.exists_of_mem hc
    exact hg.within
  funext k
  change (cfg.adoptComplete t.state.misspeculationHappened t.state.main t.state.used).main.sharepriv
    k = (t.stored k).getD (start k)
  rw [hmis]
  have hmain := h.main k
  rcases cfg.sharepriv_adoptComplete t.state.main k hwithin with
    ⟨hnone, hkeep⟩ | ⟨c, hc, hcov, hupd, hval⟩
  · rw [hkeep]
    by_cases hlt : loop.writer k < t.state.firstIteration
    · rw [hmain, if_pos hlt]
    · cases hs : t.stored k with
      | none =>
          rw [hmain, if_neg hlt]
          rfl
      | some v =>
          rw [Option.getD_some]
          by_contra hne
          have hex := h.executed_of_stored hs (not_lt.1 hlt)
          have hreach : loop.writer k < loop.reach t.state.firstIteration
              (t.state.emitted.length + (leading t.state.used).length) := by
            rw [hlen, reach_numGroups]
            exact lt_of_lt_of_le hex.2 (le_max_left _ _)
          obtain ⟨c, hc, hboth⟩ := h.exists_leading hep hs (fun he => hne he.symm) (not_lt.1 hlt)
            hreach hlead
          exact hnone c hc hboth
  · obtain ⟨i, _, _, hg⟩ := hshare.exists_of_mem hc
    have hk := hcov.coversWord.lt_size hg.within cfg.sizeofShareprivate.aligned
    rw [hval, (hg.only k hk hupd).1, Option.getD_some]

/-- Nothing that a join after a misspeculation counts as committed is lost. -/
def LosesNothing (loop : ShareLoop cfg) (t : Sharing cfg) : Prop :=
  (∀ c ∈ leading t.state.used, ∀ k < cfg.sizeofShareprivate.val, ¬ c.share.Updated k) ∧
    ∀ c ∈ (leading t.state.used).getLast?, ∀ k < cfg.sizeofShareprivate.val,
      loop.writer k = c.iteration → t.stored k = none

theorem adopt_misspec (h : ShareEpisode loop start t) (hep : EpisodeOk loop.toLoop t.state)
    (hmis : t.state.misspeculationHappened = true) (hcond : LosesNothing loop t) :
    (∀ k, t.state.adopt.main.sharepriv k = if loop.writer k < lowIter t.state.adopt then
      (t.stored k).getD (start k) else start k) ∧
      lowIter t.state.adopt ≤ t.state.misspeculatedIteration + 1 := by
  have hsame : t.state.adopt.main.sharepriv = t.state.main.sharepriv := by
    change (cfg.adoptComplete t.state.misspeculationHappened _ _).main.sharepriv = _
    rw [hmis]
    exact cfg.sharepriv_adoptComplete_misspec _ _
  have hiter : t.state.adopt.main.iteration = ((leading t.state.used).getLast?.map
      (fun c => (c.iteration : ℤ))).getD t.state.main.iteration :=
    (cfg.adoptComplete_eq t.state.misspeculationHappened t.state.main t.state.used).2.2
  rw [hsame]
  cases hlast : (leading t.state.used).getLast? with
  | none =>
      have hlow : lowIter t.state.adopt = t.state.firstIteration := by
        rw [lowIter, hiter, hlast]
        exact lowIter_of_startOk h.startOk
      rw [hlow]
      exact ⟨h.main, le_trans (hep.misspec hmis).1 (Nat.le_succ _)⟩
  | some c =>
      obtain ⟨hreach, _, hle⟩ := hep.last_leading hmis hlast
      have hlow : lowIter t.state.adopt = c.iteration + 1 := by
        rw [lowIter, hiter, hlast, Option.map_some, Option.getD_some]
        omega
      have hlead : leading t.state.used ≠ [] := fun hnil => by
        rw [hnil] at hlast
        cases hlast
      have hfirst : t.state.firstIteration ≤ c.iteration := by
        rw [hreach]
        exact first_le_reach
      rw [hlow]
      refine ⟨fun k => ?_, Nat.succ_le_succ hle⟩
      rw [h.main k]
      by_cases hlt : loop.writer k < t.state.firstIteration
      · rw [if_pos hlt, if_pos (by omega)]
      · rw [if_neg hlt]
        by_cases hc : loop.writer k < c.iteration + 1
        · rw [if_pos hc]
          cases hs : t.stored k with
          | none => rfl
          | some v =>
              have hex := h.executed_of_stored hs (not_lt.1 hlt)
              rcases Nat.lt_or_eq_of_le (Nat.lt_succ_iff.1 hc) with hbefore | heq
              · -- the iteration is in a checkpoint that is adopted
                rw [Option.getD_some]
                by_contra hne
                have hbase : t.state.main.sharepriv k = start k := by rw [h.main k, if_neg hlt]
                obtain ⟨d, hd, _, hupd⟩ := h.exists_leading hep hs
                  (by rw [hbase]; exact fun he => hne he.symm) (not_lt.1 hlt)
                  (by rw [← hreach]; exact hbefore) hlead
                exact hcond.1 d hd k hex.1 hupd
              · rw [hcond.2 c hlast k hex.1 heq] at hs
                cases hs
        · rw [if_neg hc]

/-- One more combination by the main process changes nothing about the condition. -/
theorem losesNothing_combined (h : ShareEpisode loop start t) {used : List Checkpoint}
    {out : List IOEvt} (hc : cfg.commitZeroOrMoreCheckpoints t.state.used = .combined used out)
    (hcond : LosesNothing loop t) : LosesNothing loop ⟨t.state.combined used out, t.stored⟩ := by
  have hgetLast := getLast_leading_combined (s := t.state) hc
  obtain ⟨alpha, beta, newer, rest, hused, rfl, hat, hbt, hcomb⟩ := Config.commit_combined hc
  obtain ⟨img, _, hnewer, _⟩ := Config.combineCheckpoints_ok hcomb
  have hnt : newer.type = .clComplete := by rw [hnewer, ← hbt]
  have hs : (t.state.combined (newer :: rest) out).used = newer :: rest := by
    simp only [State.combined, hused]
  have hold := hcond.1
  rw [hused, leading_cons_of_complete hat, leading_cons_of_complete hbt] at hold
  refine ⟨?_, fun c hlast k hk hwriter => ?_⟩
  · change ∀ c ∈ leading (t.state.combined (newer :: rest) out).used, _
    rw [hs, leading_cons_of_complete hnt]
    intro c hc k hk hu
    rcases List.mem_cons.1 hc with rfl | hc
    · have hgroups := h.groups
      rw [hused] at hgroups
      obtain ⟨hshared, _⟩ := Image.shared_distillCommitted hgroups.1.within beta.share
      rw [hnewer] at hu
      refine hold beta (by simp) k hk ((updated_congr (hshared.kept k (fun hb => ?_))).1.1 hu)
      exact hold alpha (by simp) k hk hb.2
    · exact hold c (by simp [hc]) k hk hu
  · have hmap : (leading t.state.used).getLast?.map Checkpoint.iteration = some c.iteration := by
      rw [← hgetLast]
      exact congrArg (Option.map Checkpoint.iteration) hlast
    obtain ⟨d, hd, hdi⟩ := Option.map_eq_some_iff.1 hmap
    exact hcond.2 d hd k hk (by rw [hwriter, hdi])

end ShareEpisode

/-- The condition on a join. -/
def ShareAction.LosesNothing (loop : ShareLoop cfg) (t : Sharing cfg) : ShareAction cfg → Prop
  | .act .join => t.state.misspeculationHappened = true → ShareEpisode.LosesNothing loop t
  | _ => True

instance (loop : ShareLoop cfg) (t : Sharing cfg) : Decidable (ShareEpisode.LosesNothing loop t) :=
  inferInstanceAs (Decidable (_ ∧ _))

instance (loop : ShareLoop cfg) (t : Sharing cfg) (a : ShareAction cfg) :
    Decidable (a.LosesNothing loop t) :=
  match a with
  | .act .join => inferInstanceAs (Decidable (_ → _))
  | .act (.checkpoint _ _ _) => inferInstanceAs (Decidable True)
  | .act (.finish _ _ _) => inferInstanceAs (Decidable True)
  | .act (.access _ _) => inferInstanceAs (Decidable True)
  | .act (.update _ _ _ _) => inferInstanceAs (Decidable True)
  | .act (.endIter _) => inferInstanceAs (Decidable True)
  | .act (.commit _) => inferInstanceAs (Decidable True)
  | .act (.skip _) => inferInstanceAs (Decidable True)
  | .act (.misspec _) => inferInstanceAs (Decidable True)
  | .act (.recover _ _) => inferInstanceAs (Decidable True)
  | .store _ _ _ => inferInstanceAs (Decidable True)
  | .recover _ _ _ => inferInstanceAs (Decidable True)

/-- What holds in every state of a run under the condition. -/
structure ShareOk (loop : ShareLoop cfg) (start : Heap) (t : Sharing cfg) : Prop where
  machine : MachineOk loop.toLoop t.state
  within : ∀ w, (t.state.procs w).spec.share.range.Within cfg.sizeofShareprivate.val
  running : t.state.phase = .parallel → ShareEpisode loop start t
  recovering : t.state.phase = .recovering →
    (∀ k, t.state.main.sharepriv k = if loop.writer k < lowIter t.state then
      (t.stored k).getD (start k) else start k) ∧
      lowIter t.state ≤ t.state.misspeculatedIteration + 1
  ended : t.state.phase = .ended → t.Survives start

namespace ShareOk

theorem of_parallel (hm : MachineOk loop.toLoop t.state) (hphase : t.state.phase = .parallel)
    (h : ShareEpisode loop start t) : ShareOk loop start t where
  machine := hm
  within w := (h.procs w).within
  running _ := h
  recovering hr := by
    rw [hphase] at hr
    cases hr
  ended he := by
    rw [hphase] at he
    cases he

/-- The main process has adopted the complete checkpoints. -/
theorem adopt (h : ShareEpisode loop start t) (hep : EpisodeOk loop.toLoop t.state)
    (hdone : ∀ w, (t.state.procs w).pc = .done)
    (hcond : t.state.misspeculationHappened = true → ShareEpisode.LosesNothing loop t) :
    ShareOk loop start ⟨t.state.adopt, t.stored⟩ := by
  have hm : MachineOk loop.toLoop t.state.adopt := MachineOk.of_adopt _
  have hphase := RecoveryOk.phase_adopt t.state
  cases hmis : t.state.misspeculationHappened with
  | false =>
      rw [hmis] at hphase
      refine ⟨hm, fun w => (h.procs w).within, fun hp => ?_, fun hr => ?_, fun _ => ?_⟩
      · rw [hphase] at hp
        cases hp
      · rw [hphase] at hr
        cases hr
      · exact h.survives_adopt hep hmis hdone
  | true =>
      rw [hmis] at hphase
      refine ⟨hm, fun w => (h.procs w).within, fun hp => ?_, fun _ => ?_, fun he => ?_⟩
      · rw [hphase] at hp
        cases hp
      · exact h.adopt_misspec hep hmis (hcond hmis)
      · rw [hphase] at he
        cases he

theorem join (h : ShareOk loop start t) (hphase : t.state.phase = .parallel)
    (hdone : ∀ w, (t.state.procs w).pc = .done)
    (hcond : t.state.misspeculationHappened = true → ShareEpisode.LosesNothing loop t) :
    ShareOk loop start ⟨t.state.join, t.stored⟩ := by
  have hep := h.machine.episode hphase
  have hsh := h.running hphase
  rcases t.state.join_cases with he | ⟨used, out, hc, he⟩ | ⟨i, he⟩
  · rw [he]
    exact adopt hsh hep hdone hcond
  · rw [he]
    apply adopt (t := ⟨t.state.combined used out, t.stored⟩) (hsh.combined hep hc) (hep.combined hc)
    · intro w
      dsimp only
      rw [procs_combined]
      exact hdone w
    · intro hmis
      dsimp only at hmis
      rw [(misspec_combined t.state used out).1] at hmis
      exact hsh.losesNothing_combined hc (hcond hmis)
  · rw [he]
    exact ⟨⟨fun hr => (by cases hr), fun hr => (by cases hr)⟩, h.within, fun hr => (by cases hr),
      fun hr => (by cases hr), fun hr => (by cases hr)⟩

theorem heapStep (h : ShareOk loop start t) {b : Action cfg} {s' : State cfg}
    (hs : loop.toLoop.step t.state b = some s')
    (hshare : ∀ w killpriv share redux, b = .update w killpriv share redux →
      share = (t.state.procs w).spec.share)
    (hrecover : ∀ heaps redux, b ≠ .recover heaps redux)
    (hjoin : b = .join → t.state.misspeculationHappened = true → ShareEpisode.LosesNothing loop t) :
    ShareOk loop start ⟨s', t.stored⟩ := by
  have hm := (h.machine.step hs).2
  cases h.machine.heapStep hs with
  | keeps phase keeps =>
      have hsh := h.running phase
      exact of_parallel hm phase
        (hsh.setProc ((hsh.procs _).keeps keeps.share keeps.merges keeps.goes) keeps.merges)
  | @updates w killpriv share redux phase action pc =>
      have hsh := h.running phase
      have hsame := hshare w killpriv share redux action
      refine of_parallel hm phase (hsh.setProc ((hsh.procs w).keeps hsame rfl (Or.inr ⟨rfl, ?_, ?_⟩))
        rfl)
      · simp [pc]
      · intro b
        simp [pc]
  | misspec phase => exact of_parallel hm phase ((h.running phase).misspecAt _ _)
  | merge phase ends pc =>
      exact of_parallel hm phase ((h.running phase).performCheckpoint (h.machine.episode phase) ends
        pc _ _)
  | @combined w pc used out phase keeps commit =>
      have hcomb := (h.running phase).combined (h.machine.episode phase) commit
      have hprocs := procs_combined t.state used out
      rw [← hprocs] at keeps hm ⊢
      exact of_parallel hm ((sameMain_combined t.state used out).phase.trans phase)
        (hcomb.setProc ((hcomb.procs w).keeps keeps.share keeps.merges keeps.goes) keeps.merges)
  | conflict phase commit => exact of_parallel hm phase ((h.running phase).conflict commit _)
  | join phase action done => exact h.join phase done (hjoin action)
  | recover phase action => exact absurd action (hrecover _ _)

theorem store (h : ShareOk loop start t) {ptr : ℕ} {bytes : List UInt8}
    (hs : loop.step t (.store w ptr bytes) = some t') : ShareOk loop start t' := by
  simp only [ShareLoop.step] at hs
  split_ifs at hs with hg
  obtain ⟨s', hs', rfl⟩ := Option.map_eq_some_iff.1 hs
  obtain ⟨hlt, hw, hwriter, hsize⟩ := hg
  have hm := (h.machine.step hs').2
  simp only [Loop.step] at hs'
  split_ifs at hs' with hpar
  cases hs'
  have hsh := h.running hpar.1
  have hep := h.machine.episode hpar.1
  refine of_parallel hm hpar.1 (hsh.store hep hpar.2 hw (fun k hk => ?_)
    ((hsh.procs w).store hpar.2 hlt hw hwriter hsize (hep.procs w).first_le) rfl)
  cases hv : storedAt ptr bytes k with
  | none => rfl
  | some v => exact absurd (writer_of_storedAt hwriter hv) hk

theorem overlay_recovered {m : Heap} (stores : ℕ → Option UInt8)
    (hmain : ∀ k, m k = if loop.writer k < lowIter s then (t.stored k).getD (start k) else start k)
    (k : ℕ) : overlay (loop.recoveredStores s stores) m k =
      (if loop.writer k ∈ loop.recovered s then stores k
        else if loop.writer k < lowIter s then t.stored k else none).getD (start k) := by
  have hlow : loop.writer k ∈ loop.recovered s → ¬ loop.writer k < lowIter s := fun hmem =>
    not_lt.2 (mem_forRange_one.1 hmem).1
  unfold overlay ShareLoop.recoveredStores
  rw [hmain k]
  by_cases hk : loop.writer k ∈ loop.recovered s
  · rw [if_pos hk, if_pos hk, if_neg (hlow hk)]
  · rw [if_neg hk, if_neg hk, Option.getD_none]
    split_ifs <;> rfl

/-- The recovery and, unless the loop is over, the start of the workers behind it. -/
theorem recover (h : ShareOk loop start t) {heaps : Main} {redux : ReduxHeap}
    {stores : ℕ → Option UInt8}
    (hs : loop.step t (.recover heaps redux stores) = some t') : ShareOk loop start t' := by
  simp only [ShareLoop.step] at hs
  obtain ⟨s', hs', rfl⟩ := Option.map_eq_some_iff.1 hs
  have hm := (h.machine.step hs').2
  simp only [Loop.step] at hs'
  split_ifs at hs' with hphase
  cases hs'
  obtain ⟨hmain, hle⟩ := h.recovering hphase
  have hover := overlay_recovered stores hmain
  have hpast : ∀ k, t.state.misspeculatedIteration + 1 ≤ loop.writer k →
      (if loop.writer k ∈ loop.recovered t.state then stores k
        else if loop.writer k < lowIter t.state then t.stored k else none) = none := fun k hk => by
    rw [if_neg (fun hmem => ?_), if_neg (by omega)]
    have hlt := lt_of_lt_of_le (mem_forRange_one.1 hmem).2 (min_le_left _ _)
    omega
  refine ⟨hm, h.within, fun hpar => ?_, fun hrec => ?_, fun _ => funext hover⟩
  · refine ⟨rfl, fun k => ?_, fun w => ?_, ?_⟩
    · refine (hover k).trans ?_
      dsimp only
      by_cases hk : loop.writer k < t.state.misspeculatedIteration + 1
      · exact (if_pos hk).symm
      · rw [hpast k (not_lt.1 hk)]
        exact (if_neg hk).symm
    · exact ShareProc.starts _ _ (h.within w) hpast
    · dsimp only [Loop.recover]
      rw [h.machine.joined hphase]
      trivial
  · change (if loop.recoveryExits t.state then Phase.ended else Phase.parallel) = _ at hrec
    split_ifs at hrec

theorem step (h : ShareOk loop start t) (hs : loop.step t a = some t')
    (hcond : a.LosesNothing loop t) : ShareOk loop start t' := by
  cases a with
  | store w ptr bytes => exact h.store hs
  | recover heaps redux stores => exact h.recover hs
  | act b =>
      simp only [ShareLoop.step] at hs
      obtain ⟨c, hc, hs⟩ := Option.bind_eq_some_iff.1 hs
      obtain ⟨s', hs', ht⟩ := Option.bind_eq_some_iff.1 hs
      cases ht
      refine h.heapStep hs' (fun w killpriv share redux he => ?_) (fun heaps redux he => ?_)
        (fun he hmis => ?_)
      · subst c
        cases b <;> cases hc
        rfl
      · subst c
        cases b <;> cases hc
      · subst c
        cases b <;> cases hc
        exact hcond hmis

theorem initial (loop : ShareLoop cfg) (m : Main) (redux : ReduxHeap)
    {procs : Fin cfg.numWorkers → Proc}
    (hreset : ∀ w, (procs w).spec.share.range = ShadowRange.reset) :
    ShareOk loop m.sharepriv ⟨Loop.initial m redux procs, fun _ => none⟩ := by
  refine of_parallel (MachineOk.initial _ m redux procs) rfl ⟨rfl, fun k => ?_, fun w => ?_, ?_⟩
  · split_ifs <;> rfl
  · apply ShareProc.starts { m with iteration := -1 }
    · rw [hreset w]
      exact ShadowRange.reset_within _
    · intro k _
      rfl
  · trivial

end ShareOk

def ShareLoop.solo (trip : ℕ) (h : trip < lastIteration) :
    ShareLoop { Config.ofWorkers 1 oneWorker_pos oneWorker_le with
      sizeofShareprivate := sixteen } where
  trip := trip
  trip_lt := h
  owner _ := (0 : Fin 1)
  evts _ := []
  evts_iter := iter_of_mem_nil
  writer k := k

/-- Iteration 1 misspeculates; the recovery executes the iterations 0 and 1 and the worker
iteration 2. -/
def storeAndRecover : List (ShareAction { Config.ofWorkers 1 oneWorker_pos oneWorker_le with
    sizeofShareprivate := sixteen }) :=
  [.store (0 : Fin 1) 0 [7], .act (.endIter (0 : Fin 1)), .store (0 : Fin 1) 1 [8],
    .act (.misspec (0 : Fin 1)), .act .join,
    .recover Config.zeroMain Config.zeroMain.redux (fun k => if k = 0 then some 7 else none),
    .store (0 : Fin 1) 2 [9], .act (.endIter (0 : Fin 1)),
    .act (.finish (0 : Fin 1) blankChkpt []), .act (.commit (0 : Fin 1)), .act .join]

/-- Iteration 0 stores 7, its group is committed, and iteration 253 misspeculates. -/
def storeAndAdopt : List (ShareAction { Config.ofWorkers 1 oneWorker_pos oneWorker_le with
    sizeofShareprivate := sixteen }) :=
  .store (0 : Fin 1) 0 [7] :: List.replicate 253 (.act (.endIter (0 : Fin 1))) ++
    [.act (.checkpoint (0 : Fin 1) blankChkpt []), .act (.commit (0 : Fin 1)),
      .act (.misspec (0 : Fin 1)), .act .join,
      .recover Config.zeroMain Config.zeroMain.redux (fun _ => none),
      .act (.finish (0 : Fin 1) blankChkpt []), .act (.commit (0 : Fin 1)), .act .join]

end Cpf.Executive
