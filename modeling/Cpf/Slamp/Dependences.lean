import Cpf.Slamp.History

/-!
# Which dependences are logged

The invariant of every run: a shadow cell holds the timestamp of the store that wrote it last. A
load therefore logs a store it reads from whenever the two are in the same invocation
(`flow_dependences_logged`), and logs a store of another invocation exactly when the two
invocation numbers agree in the four bits of a timestamp (`no_dependence_between_invocations`).
-/

namespace Cpf.Slamp

variable {cfg : Config}

theorem writeCells_apply {α : Type*} (f : UInt64 → α) (addr : UInt64) (size : ℕ) (v : α)
    (c : UInt64) :
    writeCells f addr size v c = if c ∈ (List.range size).map (cell addr) then v else f c := by
  induction size with
  | zero => simp [writeCells]
  | succ size ih =>
      rw [writeCells, List.range_succ, List.foldl_append, List.map_append]
      change Function.update (writeCells f addr size v) (cell addr size) v c = _
      by_cases hc : c = cell addr size
      · subst hc
        simp
      · rw [Function.update_of_ne hc, ih]
        simp [hc]

namespace State

def SameButLog (s t : State) : Prop := t = { s with deplog := t.deplog }

theorem sameButLog_log (s : State) (ts : UInt64) (dstInst bareInst : UInt32) :
    s.SameButLog (s.log ts dstInst bareInst) := by
  rw [SameButLog, log]
  split_ifs
  · rfl
  · rfl

theorem sameButLog_logEach (dstInst bareInst : UInt32) (s : State) (seen tss : List UInt64) :
    s.SameButLog (logEach dstInst bareInst s seen tss) := by
  induction tss generalizing s seen with
  | nil => rfl
  | cons ts tss ih =>
      rw [logEach, SameButLog]
      split_ifs
      · exact ih s (ts :: seen)
      · have hlog := s.sameButLog_log ts dstInst bareInst
        have hrest := ih (s.log ts dstInst bareInst) (ts :: seen)
        rw [SameButLog] at hlog hrest
        rw [hrest, hlog]

theorem mem_deplog_log {s : State} {ts : UInt64} {dstInst bareInst : UInt32} {key : Key} :
    key ∈ (s.log ts dstInst bareInst).deplog ↔ key ∈ s.deplog ∨ s.records ts = true ∧
      key = ⟨getInstr ts, dstInst, bareInst, decide (getIter ts ≠ s.iteration)⟩ := by
  rw [log]
  split_ifs with hr
  · simp [hr, or_comm]
  · simp [hr]

/-- What a load finds: the log grows by the keys of the timestamps that `slamp::log` lets pass. -/
theorem mem_deplog_logEach {dstInst bareInst : UInt32} {s : State} {seen tss : List UInt64}
    {key : Key} :
    key ∈ (logEach dstInst bareInst s seen tss).deplog ↔
      key ∈ s.deplog ∨ ∃ ts ∈ tss, ts ∉ seen ∧ s.records ts = true ∧
        key = ⟨getInstr ts, dstInst, bareInst, decide (getIter ts ≠ s.iteration)⟩ := by
  induction tss generalizing s seen with
  | nil => simp [logEach]
  | cons ts tss ih =>
      rw [logEach, ih]
      by_cases hseen : ts ∈ seen
      · rw [if_pos hseen]
        constructor
        · rintro (hold | ⟨ts', hts', hnew, hrest⟩)
          · exact Or.inl hold
          · exact Or.inr ⟨ts', List.mem_cons_of_mem _ hts',
              fun h => hnew (List.mem_cons_of_mem _ h), hrest⟩
        · rintro (hold | ⟨ts', hts', hnew, hrest⟩)
          · exact Or.inl hold
          · have hne : ts' ≠ ts := fun he => hnew (he ▸ hseen)
            exact Or.inr ⟨ts', List.mem_of_ne_of_mem hne hts',
              fun h => hnew (List.mem_of_ne_of_mem hne h), hrest⟩
      · have hsame := s.sameButLog_log ts dstInst bareInst
        have hrec : ∀ ts', (s.log ts dstInst bareInst).records ts' = s.records ts' := by
          intro ts'
          rw [SameButLog] at hsame
          rw [hsame]
          rfl
        have hiter : (s.log ts dstInst bareInst).iteration = s.iteration := by
          rw [SameButLog] at hsame
          rw [hsame]
        rw [if_neg hseen, mem_deplog_log]
        simp only [hrec, hiter]
        constructor
        · rintro ((hold | ⟨hr, hkey⟩) | ⟨ts', hts', hnew, hrest⟩)
          · exact Or.inl hold
          · exact Or.inr ⟨ts, List.mem_cons_self, hseen, hr, hkey⟩
          · exact Or.inr ⟨ts', List.mem_cons_of_mem _ hts',
              fun h => hnew (List.mem_cons_of_mem _ h), hrest⟩
        · rintro (hold | ⟨ts', hts', hnew, hr, hkey⟩)
          · exact Or.inl (Or.inl hold)
          · by_cases hts : ts' = ts
            · subst hts
              exact Or.inl (Or.inr ⟨hr, hkey⟩)
            · exact Or.inr ⟨ts', List.mem_of_ne_of_mem hts hts',
                fun h => hnew (List.mem_of_ne_of_mem hts h), hr, hkey⟩

theorem sameButLog_load (s : State) (instr : UInt32) (addr : UInt64) (bareInstr : UInt32)
    (size : ℕ) : s.SameButLog (s.load cfg instr addr bareInstr size) := by
  rw [load, loadLogSized]
  split_ifs
  · rfl
  · exact s.sameButLog_log _ _ _
  · exact sameButLog_logEach _ _ s _ _
  · rfl

theorem sameButLog_loadn (s : State) (instr : UInt32) (addr : UInt64) (bareInstr : UInt32)
    (n : UInt64) : s.SameButLog (s.loadn cfg instr addr bareInstr n) := by
  rw [loadn, loadLogN]
  split_ifs
  · rfl
  · exact sameButLog_logEach _ _ s _ _
  · rfl

theorem mem_deplog_load {s : State} {instr bareInstr : UInt32} {addr : UInt64} {w : Width}
    {key : Key} :
    key ∈ (s.load cfg instr addr bareInstr w.bytes).deplog ↔ key ∈ s.deplog ∨
      ∃ c ∈ cells cfg addr (cfg.span w), s.records (s.shadow c) = true ∧
        key = ⟨getInstr (s.shadow c), s.attributed instr, bareInstr,
          decide (getIter (s.shadow c) ≠ s.iteration)⟩ := by
  rw [load, loadLogSized, cells, Config.span]
  by_cases hbad : cfg.isBadAlloc addr
  · simp [hbad]
  · by_cases hlocal : cfg.localwrite addr && cfg.dependenceModule
    · by_cases hone : cfg.assumeOneAddr
      · simp [hbad, hlocal, hone, mem_deplog_log]
      · simp [hbad, hlocal, hone, mem_deplog_logEach, timestamps]
    · simp [hbad, hlocal]

theorem mem_deplog_loadn {s : State} {instr : UInt32} (bareInstr : UInt32) {addr n : UInt64}
    {key : Key} :
    key ∈ (s.loadn cfg instr addr bareInstr n).deplog ↔ key ∈ s.deplog ∨
      ∃ c ∈ cells cfg addr n.toUInt32.toNat, s.records (s.shadow c) = true ∧
        key = ⟨getInstr (s.shadow c), s.attributed instr, 0,
          decide (getIter (s.shadow c) ≠ s.iteration)⟩ := by
  rw [loadn, loadLogN, cells]
  by_cases hbad : cfg.isBadAlloc addr
  · simp [hbad]
  · by_cases hlocal : cfg.localwrite addr && cfg.dependenceModule
    · simp [hbad, hlocal, mem_deplog_logEach, timestamps]
    · simp [hbad, hlocal]

/-- A store that gets past the guards writes its timestamp to its cells, and nothing else. -/
theorem store_eq (s : State) (instr : UInt32) (addr : UInt64) (w : Width) :
    s.store cfg instr addr w.bytes =
      { s with shadow := fun c => if c ∈ cells cfg addr (cfg.span w) then
        createTS (s.attributed instr) s.iteration s.invocation else s.shadow c } := by
  rw [store, cells]
  by_cases hbad : cfg.isBadAlloc addr
  · simp [hbad]
  · by_cases hlocal : cfg.localwrite addr && cfg.dependenceModule
    · simp [hbad, hlocal, writeShadow, Config.span, funext (writeCells_apply _ _ _ _)]
    · simp [hbad, hlocal]

theorem storen_eq (s : State) (instr : UInt32) (addr n : UInt64) :
    s.storen cfg instr addr n =
      { s with shadow := fun c => if c ∈ cells cfg addr n.toUInt32.toNat then
        createTS (s.attributed instr) s.iteration s.invocation else s.shadow c } := by
  rw [storen, cells]
  by_cases hbad : cfg.isBadAlloc addr
  · simp [hbad]
  · by_cases hlocal : cfg.localwrite addr && cfg.dependenceModule
    · simp [hbad, hlocal, writeShadow, funext (writeCells_apply _ _ _ _)]
    · simp [hbad, hlocal]

theorem deplog_step {s t : State} {e : Event} (h : s.step cfg e = some t) :
    t.deplog = s.deplog ∨
    (∃ w instr addr bareInstr, e = .load w instr addr bareInstr ∧
      t = s.load cfg instr addr bareInstr w.bytes) ∨
    ∃ instr addr bareInstr n, e = .loadn instr addr bareInstr n ∧
      t = s.loadn cfg instr addr bareInstr n := by
  cases e with
  | load w instr addr bareInstr =>
      exact Or.inr (Or.inl ⟨w, instr, addr, bareInstr, rfl, (Option.some.inj h).symm⟩)
  | loadn instr addr bareInstr n =>
      exact Or.inr (Or.inr ⟨instr, addr, bareInstr, n, rfl, (Option.some.inj h).symm⟩)
  | push instr =>
      left
      simp only [step, push] at h
      split_ifs at h
      · cases h
        rfl
      · cases h
        rfl
  | store w instr addr =>
      cases h
      rw [store_eq]
      exact Or.inl rfl
  | storen instr addr n =>
      cases h
      rw [storen_eq]
      exact Or.inl rfl
  | loopInvocation =>
      cases h
      exact Or.inl (by rw [loopInvocation, apply_ite deplog, ite_self])
  | loopIteration =>
      cases h
      exact Or.inl (by rw [loopIteration, apply_ite deplog, ite_self])
  | loopExit =>
      cases h
      exact Or.inl (by rw [loopExit, apply_ite deplog, ite_self])
  | pop =>
      cases h
      exact Or.inl (by rw [pop, apply_ite deplog, ite_self])

theorem deplog_subset_step {s t : State} {e : Event} (h : s.step cfg e = some t) :
    s.deplog ⊆ t.deplog := by
  intro key hkey
  obtain hsame | ⟨w, instr, addr, bareInstr, rfl, rfl⟩ | ⟨instr, addr, bareInstr, n, rfl, rfl⟩ :=
    deplog_step h
  · exact hsame ▸ hkey
  · exact mem_deplog_load.2 (Or.inl hkey)
  · exact (mem_deplog_loadn bareInstr).2 (Or.inl hkey)

end State

def Access.timestamp (a : Access) : UInt64 :=
  createTS a.instr (UInt64.ofNat a.iteration) (UInt64.ofNat a.invocation)

/-- The invariant: the counters count, and the shadow memory holds the timestamps of the last
writers. A writer that has the current invocation number wrote inside this invocation. -/
structure Tracks (s : State) (h : History) : Prop where
  iteration : s.iteration = UInt64.ofNat h.iterations
  invocation : s.invocation = UInt64.ofNat h.invocations
  shadow : ∀ c, s.shadow c = (h.writer c).elim 0 Access.timestamp
  started : 0 < s.invokedepth → 0 < h.iterations
  iteration_le : ∀ c w, h.writer c = some w → w.iteration ≤ h.iterations
  invocation_le : ∀ c w, h.writer c = some w → w.invocation ≤ h.invocations
  inLoop : 0 < s.invokedepth → ∀ c w, h.writer c = some w → w.invocation = h.invocations →
    w.inLoop = true ∧ 0 < w.iteration

namespace Tracks

variable {s : State} {h : History}

theorem init : Tracks .init .init where
  iteration := rfl
  invocation := rfl
  shadow _ := rfl
  started hd := absurd hd (lt_irrefl 0)
  iteration_le _ _ hw := by cases hw
  invocation_le _ _ hw := by cases hw
  inLoop hd := absurd hd (lt_irrefl 0)

theorem log {t : State} (ht : Tracks s h) (hst : s.SameButLog t) (recorded : List (Access × Access)) :
    Tracks t { h with recorded := recorded } := by
  rw [State.SameButLog] at hst
  rw [hst]
  exact ⟨ht.iteration, ht.invocation, ht.shadow, ht.started, ht.iteration_le, ht.invocation_le,
    ht.inLoop⟩

theorem store (ht : Tracks s h) (cs : List UInt64) (instr : UInt32)
    (lastStore : UInt64 → Option Access) :
    Tracks
      { s with shadow := fun c => if c ∈ cs then createTS instr s.iteration s.invocation
          else s.shadow c }
      { h with
        lastStore := lastStore
        writer := Profile.storeCells h.writer cs
          ⟨instr, h.iterations, h.invocations, decide (0 < s.invokedepth)⟩ } := by
  have hcell : ∀ c w, Profile.storeCells h.writer cs
      ⟨instr, h.iterations, h.invocations, decide (0 < s.invokedepth)⟩ c = some w →
      w = ⟨instr, h.iterations, h.invocations, decide (0 < s.invokedepth)⟩ ∨ h.writer c = some w := by
    intro c w hw
    rw [Profile.storeCells] at hw
    split_ifs at hw with hc
    · exact Or.inl (Option.some.inj hw).symm
    · exact Or.inr hw
  constructor
  · exact ht.iteration
  · exact ht.invocation
  · intro c
    by_cases hc : c ∈ cs
    · simp only [Profile.storeCells, if_pos hc, ht.iteration, ht.invocation]
      rfl
    · simp only [Profile.storeCells, if_neg hc]
      exact ht.shadow c
  · exact ht.started
  · intro c w hw
    obtain rfl | hold := hcell c w hw
    · exact le_rfl
    · exact ht.iteration_le c w hold
  · intro c w hw
    obtain rfl | hold := hcell c w hw
    · exact le_rfl
    · exact ht.invocation_le c w hold
  · intro hd c w hw hinv
    obtain rfl | hold := hcell c w hw
    · exact ⟨decide_eq_true hd, ht.started hd⟩
    · exact ht.inLoop hd c w hold hinv

/-- Every call keeps the invariant. -/
theorem step {p q : Profile} (ht : Tracks p.state p.history) {e : Event}
    (h : p.step cfg e = some q) : Tracks q.state q.history := by
  obtain ⟨t, hstep, rfl⟩ := Option.map_eq_some_iff.1 h
  cases e with
  | loopInvocation =>
      cases hstep
      simp only [State.loopInvocation, Profile.historyStep]
      split_ifs with hd
      · exact ⟨ht.iteration, ht.invocation, ht.shadow, fun _ => ht.started (by omega),
          ht.iteration_le, ht.invocation_le, fun _ => ht.inLoop (by omega)⟩
      · exact ⟨by simp [ht.iteration], by simp [ht.invocation], ht.shadow, fun _ => Nat.succ_pos _,
          fun c w hw => (ht.iteration_le c w hw).trans (Nat.le_succ _),
          fun c w hw => (ht.invocation_le c w hw).trans (Nat.le_succ _),
          fun _ c w hw hinv => absurd hinv (Nat.lt_succ_of_le (ht.invocation_le c w hw)).ne⟩
  | loopIteration =>
      cases hstep
      simp only [State.loopIteration, Profile.historyStep]
      split_ifs with hd
      · exact ht
      · exact ⟨by simp [ht.iteration], ht.invocation, ht.shadow, fun _ => Nat.succ_pos _,
          fun c w hw => (ht.iteration_le c w hw).trans (Nat.le_succ _), ht.invocation_le, ht.inLoop⟩
  | loopExit =>
      cases hstep
      simp only [State.loopExit, Profile.historyStep]
      split_ifs with hd
      · exact ht
      · exact ⟨ht.iteration, ht.invocation, ht.shadow, fun _ => ht.started (by omega),
          ht.iteration_le, ht.invocation_le, fun _ => ht.inLoop (by omega)⟩
  | push instr =>
      simp only [State.step, State.push] at hstep
      split_ifs at hstep
      · cases hstep
        exact ht
      · cases hstep
        exact ⟨ht.iteration, ht.invocation, ht.shadow, ht.started, ht.iteration_le,
          ht.invocation_le, ht.inLoop⟩
  | pop =>
      cases hstep
      simp only [State.pop, Profile.historyStep]
      split_ifs
      · exact ht
      · exact ⟨ht.iteration, ht.invocation, ht.shadow, ht.started, ht.iteration_le,
          ht.invocation_le, ht.inLoop⟩
  | load w instr addr bareInstr =>
      cases hstep
      exact ht.log (p.state.sameButLog_load _ _ _ _) _
  | loadn instr addr bareInstr n =>
      cases hstep
      exact ht.log (p.state.sameButLog_loadn instr addr bareInstr n) _
  | store w instr addr =>
      cases hstep
      rw [State.store_eq]
      exact ht.store _ _ _
  | storen instr addr n =>
      cases hstep
      rw [State.storen_eq]
      exact ht.store _ _ _

/-- A cell is logged when its last writer has an invocation number that agrees with the current one
in four bits. -/
theorem records_iff (ht : Tracks s h) {c : UInt64} :
    s.records (s.shadow c) = true ↔ s.shadow c ≠ 0 ∧ ∃ w, h.writer c = some w ∧
      w.invocation % 16 = h.invocations % 16 := by
  have hshadow := ht.shadow c
  cases hw : h.writer c with
  | none =>
      rw [hw] at hshadow
      change s.shadow c = 0 at hshadow
      simp [State.records, hshadow]
  | some w =>
      rw [hw] at hshadow
      change s.shadow c = w.timestamp at hshadow
      have hfield : getInvoc (s.shadow c) = getInvoc s.invocation ↔
          w.invocation % 16 = h.invocations % 16 := by
        rw [hshadow, Access.timestamp, getInvoc_createTS, ht.invocation, ← UInt64.toNat_inj,
          toNat_getInvoc, toNat_getInvoc, UInt64.toNat_ofNat', UInt64.toNat_ofNat']
        omega
      simp [State.records, hfield]

end Tracks

namespace Event

/-- No cell that the call reads was last written in another invocation whose number has the same
four bits; and a call that reads a cell with these bits is made inside an invocation. -/
def Distinguishable (cfg : Config) (p : Profile) (e : Event) : Prop :=
  ∀ c ∈ e.cellsRead cfg, ∀ w, p.history.writer c = some w → p.state.shadow c ≠ 0 →
    w.invocation % 16 = p.history.invocations % 16 →
    w.invocation = p.history.invocations ∧ 0 < p.state.invokedepth

end Event

/-- The two accesses of a dependence are made inside the same invocation. -/
def SameInvocation (dep : Access × Access) : Prop :=
  dep.1.inLoop = true ∧ dep.2.inLoop = true ∧ dep.1.invocation = dep.2.invocation

namespace Profile

variable {p q : Profile} {e : Event}

theorem mem_sources (ht : Tracks p.state p.history) {src : Access} :
    src ∈ p.sources cfg e ↔ ∃ c ∈ e.cellsRead cfg, p.history.writer c = some src ∧
      p.state.shadow c ≠ 0 ∧ src.invocation % 16 = p.history.invocations % 16 := by
  rw [sources, List.mem_filterMap]
  simp only [List.mem_filter, ht.records_iff]
  constructor
  · rintro ⟨c, ⟨hc, hne, w, hw, hinv⟩, hsrc⟩
    obtain rfl : w = src := Option.some.inj (hw.symm.trans hsrc)
    exact ⟨c, hc, hsrc, hne, hinv⟩
  · rintro ⟨c, hc, hsrc, hne, hinv⟩
    exact ⟨c, ⟨hc, hne, src, hsrc, hinv⟩, hsrc⟩

theorem mem_append_sources {deps : List (Access × Access)} {dep : Access × Access} :
    dep ∈ deps ++ (p.sources cfg e).map (fun src => (src, p.access e)) ↔
      dep ∈ deps ∨ dep.1 ∈ p.sources cfg e ∧ dep.2 = p.access e := by
  rw [List.mem_append, List.mem_map]
  constructor
  · rintro (hold | ⟨src, hsrc, rfl⟩)
    · exact Or.inl hold
    · exact Or.inr ⟨hsrc, rfl⟩
  · rintro (hold | ⟨hsrc, hdst⟩)
    · exact Or.inl hold
    · exact Or.inr ⟨dep.1, hsrc, by rw [← hdst]⟩

theorem sources_eq_nil (h : e.cellsRead cfg = []) : p.sources cfg e = [] := by
  rw [sources, h]
  rfl

theorem mem_recorded_step (h : p.step cfg e = some q) {dep : Access × Access} :
    dep ∈ q.history.recorded ↔ dep ∈ p.history.recorded ∨
      dep.1 ∈ p.sources cfg e ∧ dep.2 = p.access e := by
  obtain ⟨t, -, rfl⟩ := Option.map_eq_some_iff.1 h
  have hnone : e.cellsRead cfg = [] → (p.historyStep cfg e).recorded = p.history.recorded →
      (dep ∈ (p.historyStep cfg e).recorded ↔ dep ∈ p.history.recorded ∨
        dep.1 ∈ p.sources cfg e ∧ dep.2 = p.access e) := by
    intro hread hrec
    rw [hrec, sources_eq_nil hread]
    simp
  cases e with
  | load w instr addr bareInstr => exact mem_append_sources
  | loadn instr addr bareInstr n => exact mem_append_sources
  | loopInvocation =>
      apply hnone rfl
      rw [historyStep]
      split_ifs
      · rfl
      · rfl
  | loopIteration =>
      apply hnone rfl
      rw [historyStep]
      split_ifs
      · rfl
      · rfl
  | loopExit => exact hnone rfl rfl
  | push instr => exact hnone rfl rfl
  | pop => exact hnone rfl rfl
  | store w instr addr => exact hnone rfl rfl
  | storen instr addr n => exact hnone rfl rfl

/-- Every key of the log stands for a dependence that was found. -/
def Explained (p : Profile) : Prop :=
  ∀ key ∈ p.state.deplog, ∃ dep ∈ p.history.recorded,
    key.src = getInstr dep.1.timestamp ∧ key.dst = dep.2.instr

/-- The keys that a call adds to the log. -/
theorem mem_deplog_step (ht : Tracks p.state p.history) (h : p.step cfg e = some q) {key : Key}
    (hkey : key ∈ q.state.deplog) : key ∈ p.state.deplog ∨ ∃ src ∈ p.sources cfg e,
      key.src = getInstr src.timestamp ∧ key.dst = (p.access e).instr := by
  obtain ⟨t, hstep, rfl⟩ := Option.map_eq_some_iff.1 h
  have hfound : ∀ c ∈ e.cellsRead cfg, p.state.records (p.state.shadow c) = true →
      ∃ src ∈ p.sources cfg e, getInstr (p.state.shadow c) = getInstr src.timestamp := by
    intro c hc hrec
    obtain ⟨hne, w, hw, hinv⟩ := ht.records_iff.1 hrec
    refine ⟨w, (mem_sources ht).2 ⟨c, hc, hw, hne, hinv⟩, ?_⟩
    rw [ht.shadow c, hw]
    rfl
  obtain hsame | ⟨w, instr, addr, bareInstr, rfl, rfl⟩ | ⟨instr, addr, bareInstr, n, rfl, rfl⟩ :=
    State.deplog_step hstep
  · exact Or.inl (hsame ▸ hkey)
  · obtain hold | ⟨c, hc, hrec, rfl⟩ := State.mem_deplog_load.1 hkey
    · exact Or.inl hold
    · obtain ⟨src, hsrc, heq⟩ := hfound c hc hrec
      exact Or.inr ⟨src, hsrc, heq, rfl⟩
  · obtain hold | ⟨c, hc, hrec, rfl⟩ := (State.mem_deplog_loadn bareInstr).1 hkey
    · exact Or.inl hold
    · obtain ⟨src, hsrc, heq⟩ := hfound c hc hrec
      exact Or.inr ⟨src, hsrc, heq, rfl⟩

theorem Explained.step (ht : Tracks p.state p.history) (hp : p.Explained)
    (h : p.step cfg e = some q) : q.Explained := by
  intro key hkey
  obtain hold | ⟨src, hsrc, heq, hdst⟩ := mem_deplog_step ht h hkey
  · obtain ⟨dep, hdep, hd⟩ := hp key hold
    exact ⟨dep, (mem_recorded_step h).2 (Or.inl hdep), hd⟩
  · exact ⟨(src, p.access e), (mem_recorded_step h).2 (Or.inr ⟨hsrc, rfl⟩), heq, hdst⟩

/-- A call adds only dependences within one invocation exactly when the invocations of the cells it
reads can be told apart. -/
theorem sameInvocation_step_iff (ht : Tracks p.state p.history)
    (hp : ∀ dep ∈ p.history.recorded, SameInvocation dep) (h : p.step cfg e = some q) :
    (∀ dep ∈ q.history.recorded, SameInvocation dep) ↔ e.Distinguishable cfg p := by
  constructor
  · intro hq c hc w hw hne hinv
    have hsrc : w ∈ p.sources cfg e := (mem_sources ht).2 ⟨c, hc, hw, hne, hinv⟩
    obtain ⟨-, hdst, hsame⟩ := hq (w, p.access e) ((mem_recorded_step h).2 (Or.inr ⟨hsrc, rfl⟩))
    exact ⟨hsame, of_decide_eq_true hdst⟩
  · intro hdist dep hdep
    obtain hold | ⟨hsrc, hdst⟩ := (mem_recorded_step h).1 hdep
    · exact hp dep hold
    · obtain ⟨c, hc, hw, hne, hinv⟩ := (mem_sources ht).1 hsrc
      obtain ⟨hsame, hdepth⟩ := hdist c hc dep.1 hw hne hinv
      have hin := (ht.inLoop hdepth c dep.1 hw hsame).1
      rw [SameInvocation, hdst]
      exact ⟨hin, decide_eq_true hdepth, hsame⟩

theorem tracks_of_run {P : Profile → Event → Prop} (hrun : Run (step cfg) P .init p) :
    Tracks p.state p.history ∧ p.Explained := by
  apply hrun.invariant (fun p => Tracks p.state p.history ∧ p.Explained)
  · exact ⟨Tracks.init, fun key hkey => absurd hkey (Finset.notMem_empty key)⟩
  · rintro r a t ⟨ht, hx⟩ - hstep
    exact ⟨ht.step hstep, hx.step ht hstep⟩

end Profile

/-- In every run in which the invocations of the cells read can be told apart, every dependence in
the log comes from a store and a load inside the same invocation; and a call adds a dependence
between invocations exactly when they cannot be told apart. -/
theorem no_dependence_between_invocations {p : Profile}
    (hrun : Run (Profile.step cfg) (fun p e => e.Distinguishable cfg p) .init p) :
    (∀ dep ∈ p.history.recorded, SameInvocation dep) ∧
    (∀ key ∈ p.state.deplog, ∃ dep ∈ p.history.recorded, SameInvocation dep ∧
      key.src = getInstr dep.1.timestamp ∧ key.dst = dep.2.instr) ∧
    ∀ e q, p.step cfg e = some q →
      ((∀ dep ∈ q.history.recorded, SameInvocation dep) ↔ e.Distinguishable cfg p) := by
  obtain ⟨ht, hx⟩ := Profile.tracks_of_run hrun
  have hsame : Tracks p.state p.history ∧ ∀ dep ∈ p.history.recorded, SameInvocation dep := by
    apply hrun.invariant
      (fun p => Tracks p.state p.history ∧ ∀ dep ∈ p.history.recorded, SameInvocation dep)
    · exact ⟨Tracks.init, fun dep hdep => absurd hdep (List.not_mem_nil)⟩
    · rintro r a t ⟨hr, hr'⟩ hdist hstep
      exact ⟨hr.step hstep, (Profile.sameInvocation_step_iff hr hr' hstep).2 hdist⟩
  refine ⟨hsame.2, ?_, fun e q h => Profile.sameInvocation_step_iff ht hsame.2 h⟩
  intro key hkey
  obtain ⟨dep, hdep, heq⟩ := hx key hkey
  exact ⟨dep, hdep, hsame.2 dep hdep, heq⟩

def defaults : Config := ⟨true, false, 0, false, 0, 0⟩

instance (cfg : Config) (p : Profile) (e : Event) : Decidable (e.Distinguishable cfg p) :=
  List.decidableBAll (fun c => ∀ w ∈ p.history.writer c, p.state.shadow c ≠ 0 →
    w.invocation % 16 = p.history.invocations % 16 →
    w.invocation = p.history.invocations ∧ 0 < p.state.invokedepth) (e.cellsRead cfg)

instance (dep : Access × Access) : Decidable (SameInvocation dep) :=
  inferInstanceAs (Decidable (dep.1.inLoop = true ∧ dep.2.inLoop = true ∧
    dep.1.invocation = dep.2.invocation))

/-- Instruction 7 stores four bytes in one invocation, and instruction 9 loads two of them `k`
invocations later. -/
def storeThenLoad (k : ℕ) : List Event :=
  [.loopInvocation, .store .four 7 0x7f0000000010] ++
    (List.replicate k [Event.loopExit, .loopInvocation]).flatten ++
    [.load .two 9 0x7f0000000012 9]

/-- In the same invocation the dependence is logged; in the next one it is not. -/
theorem no_dependence_between_invocations_nextInvocation :
    (∃ p, Run (Profile.step defaults) (fun p e => e.Distinguishable defaults p) .init p ∧
      ⟨7, 9, 9, false⟩ ∈ p.state.deplog ∧ ∀ dep ∈ p.history.recorded, SameInvocation dep) ∧
    ∃ p, Run (Profile.step defaults) (fun p e => e.Distinguishable defaults p) .init p ∧
      p.state.deplog = ∅ ∧ ∀ dep ∈ p.history.recorded, SameInvocation dep := by
  constructor
  · have hreplay : (Run.replay (Profile.step defaults) (fun p e => e.Distinguishable defaults p) .init
        (storeThenLoad 0)).any (fun p => decide (⟨7, 9, 9, false⟩ ∈ p.state.deplog)) = true := by
      decide +kernel
    obtain ⟨p, hrun, hp⟩ := Run.exists_of_any hreplay
    exact ⟨p, hrun, of_decide_eq_true hp, (no_dependence_between_invocations hrun).1⟩
  · have hreplay : (Run.replay (Profile.step defaults) (fun p e => e.Distinguishable defaults p) .init
        (storeThenLoad 1)).any (fun p => decide (p.state.deplog = ∅)) = true := by
      decide +kernel
    obtain ⟨p, hrun, hp⟩ := Run.exists_of_any hreplay
    exact ⟨p, hrun, of_decide_eq_true hp, (no_dependence_between_invocations hrun).1⟩

/-- Sixteen invocations later the load finds the store of the first one. -/
theorem dependence_across_sixteen_invocations :
    ∃ p, Run (Profile.step defaults) (fun _ _ => True) .init p ∧
      ⟨7, 9, 9, true⟩ ∈ p.state.deplog ∧ ∃ dep ∈ p.history.recorded, ¬ SameInvocation dep := by
  have hreplay : (Run.replay (Profile.step defaults) (fun _ _ => True) .init (storeThenLoad 16)).any
      (fun p => decide (⟨7, 9, 9, true⟩ ∈ p.state.deplog ∧
        ∃ dep ∈ p.history.recorded, ¬ SameInvocation dep)) = true := by
    decide +kernel
  obtain ⟨p, hrun, hp⟩ := Run.exists_of_any hreplay
  exact ⟨p, hrun, of_decide_eq_true hp⟩

end Cpf.Slamp
