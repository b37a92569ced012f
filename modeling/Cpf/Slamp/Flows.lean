import Cpf.Slamp.Dependences

/-!
# Every flow dependence is logged

A load inside an invocation logs every store of that invocation that it reads from, if the two
accesses get past the profiler's own address filters and use the same shadow cells for the same
bytes. Shadow cells are shared by bytes that are `2 ^ 44` apart, and an access that crosses a
multiple of `2 ^ 42` runs out of its cells.
-/

namespace Cpf.Slamp

variable {cfg : Config}

/-- What SLAMP expects of a call: its instruction fits in a timestamp, its address passes the
filters, and its length is below `2 ^ 31`. -/
structure Event.Ok (cfg : Config) (e : Event) : Prop where
  instr_lt : e.instr.toNat < 2 ^ 20
  bytes : ∀ addr size, e.bytes = some (addr, size) →
    cfg.isBadAlloc addr = false ∧ cfg.localwrite addr = true ∧ size < 2 ^ 31

/-- The calls use the same shadow cell exactly for the same byte. -/
def CellsOk (T : Set Event) : Prop :=
  ∀ e ∈ T, ∀ e' ∈ T, ∀ a n a' n', e.bytes = some (a, n) → e'.bytes = some (a', n') →
    ∀ i < n, ∀ j < n', cell a i = cell a' j ↔ a + UInt64.ofNat i = a' + UInt64.ofNat j

/-- The invariant: the last store to a byte is the last writer of its cell, and the context and the
writers have instructions that fit in a timestamp. -/
structure Follows (T : Set Event) (p : Profile) : Prop where
  lastStore : ∀ e ∈ T, ∀ a n, e.bytes = some (a, n) → ∀ i < n,
    p.history.lastStore (a + UInt64.ofNat i) = p.history.writer (cell a i)
  context : p.state.context.toNat < 2 ^ 20
  writer : ∀ c w, p.history.writer c = some w → w.instr.toNat < 2 ^ 20

/-- The bytes of an access, by their distance from its address. -/
theorem sub_lt_iff {addr b : UInt64} {size : ℕ} (hsize : size < 2 ^ 31) :
    (b - addr).toNat < size ↔ ∃ j < size, addr + UInt64.ofNat j = b := by
  constructor
  · intro h
    refine ⟨(b - addr).toNat, h, ?_⟩
    rw [UInt64.ofNat_toNat]
    rw [UInt64.add_comm]
    exact UInt64.sub_add_cancel b addr
  · rintro ⟨j, hj, rfl⟩
    have hsub : addr + UInt64.ofNat j - addr = UInt64.ofNat j := by
      rw [UInt64.add_comm]
      exact UInt64.add_sub_cancel _ addr
    rw [hsub, UInt64.toNat_ofNat', Nat.mod_eq_of_lt (by omega)]
    exact hj

theorem cells_eq (hmod : cfg.dependenceModule = true) {addr : UInt64}
    (hbad : cfg.isBadAlloc addr = false) (hlocal : cfg.localwrite addr = true) (size : ℕ) :
    cells cfg addr size = (List.range size).map (cell addr) := by
  rw [cells, hbad, hlocal, hmod]
  rfl

theorem toUInt32_toNat_of_lt {n : UInt64} (hn : n.toNat < 2 ^ 31) : n.toUInt32.toNat = n.toNat := by
  rw [UInt64.toNat_toUInt32]
  exact Nat.mod_eq_of_lt (by omega)

theorem attributed_lt {s : State} (hctx : s.context.toNat < 2 ^ 20) {instr : UInt32}
    (hinstr : instr.toNat < 2 ^ 20) : (s.attributed instr).toNat < 2 ^ 20 := by
  rw [State.attributed]
  split_ifs
  · exact hctx
  · exact hinstr

namespace Follows

variable {T : Set Event} {p q : Profile}

theorem init : Follows T .init where
  lastStore _ _ _ _ _ _ _ := rfl
  context := by decide
  writer _ _ hw := by cases hw

/-- A store of the run keeps the last stores and the last writers together. -/
theorem lastStore_store (hT : CellsOk T) (hp : Follows T p) {e : Event} (he : e ∈ T) {addr : UInt64}
    {size : ℕ} (hbytes : e.bytes = some (addr, size)) (hsize : size < 2 ^ 31) (acc : Access) :
    ∀ e' ∈ T, ∀ a n, e'.bytes = some (a, n) → ∀ i < n,
      Profile.storeBytes p.history.lastStore addr size acc (a + UInt64.ofNat i) =
        Profile.storeCells p.history.writer ((List.range size).map (cell addr)) acc (cell a i) := by
  intro e' he' a n hb i hi
  have hmem : cell a i ∈ (List.range size).map (cell addr) ↔
      (a + UInt64.ofNat i - addr).toNat < size := by
    rw [sub_lt_iff hsize, List.mem_map]
    constructor
    · rintro ⟨j, hj, hcell⟩
      exact ⟨j, List.mem_range.1 hj,
        (hT e he e' he' addr size a n hbytes hb j (List.mem_range.1 hj) i hi).1 hcell⟩
    · rintro ⟨j, hj, hbyte⟩
      exact ⟨j, List.mem_range.2 hj, (hT e he e' he' addr size a n hbytes hb j hj i hi).2 hbyte⟩
  rw [Profile.storeBytes, Profile.storeCells]
  by_cases hin : (a + UInt64.ofNat i - addr).toNat < size
  · rw [if_pos hin, if_pos (hmem.2 hin)]
  · rw [if_neg hin, if_neg (fun hc => hin (hmem.1 hc))]
    exact hp.lastStore e' he' a n hb i hi

theorem writer_store {writer : UInt64 → Option Access} {cs : List UInt64} {acc : Access}
    (hw : ∀ c w, writer c = some w → w.instr.toNat < 2 ^ 20) (hacc : acc.instr.toNat < 2 ^ 20) :
    ∀ c w, Profile.storeCells writer cs acc c = some w → w.instr.toNat < 2 ^ 20 := by
  intro c w h
  rw [Profile.storeCells] at h
  split_ifs at h
  · cases h
    exact hacc
  · exact hw c w h

theorem step (hmod : cfg.dependenceModule = true) (hone : cfg.assumeOneAddr = false)
    (hT : CellsOk T) (hok : ∀ e ∈ T, e.Ok cfg) (hp : Follows T p) {e : Event} (he : e ∈ T)
    (h : p.step cfg e = some q) : Follows T q := by
  obtain ⟨t, hstep, rfl⟩ := Option.map_eq_some_iff.1 h
  have hacc : (p.access e).instr.toNat < 2 ^ 20 := attributed_lt hp.context (hok e he).instr_lt
  cases e with
  | loopInvocation =>
      cases hstep
      simp only [State.loopInvocation, Profile.historyStep]
      split_ifs
      · exact ⟨hp.lastStore, hp.context, hp.writer⟩
      · exact ⟨hp.lastStore, hp.context, hp.writer⟩
  | loopIteration =>
      cases hstep
      simp only [State.loopIteration, Profile.historyStep]
      split_ifs
      · exact hp
      · exact ⟨hp.lastStore, hp.context, hp.writer⟩
  | loopExit =>
      cases hstep
      simp only [State.loopExit, Profile.historyStep]
      split_ifs
      · exact hp
      · exact ⟨hp.lastStore, hp.context, hp.writer⟩
  | push instr =>
      simp only [State.step, State.push] at hstep
      split_ifs at hstep
      · cases hstep
        exact hp
      · cases hstep
        exact ⟨hp.lastStore, (hok _ he).instr_lt, hp.writer⟩
  | pop =>
      cases hstep
      simp only [State.pop, Profile.historyStep]
      split_ifs
      · exact hp
      · exact ⟨hp.lastStore, Nat.two_pow_pos 20, hp.writer⟩
  | load w instr addr bareInstr =>
      cases hstep
      have hsame : p.state.SameButLog (p.state.load cfg instr addr bareInstr w.bytes) :=
        p.state.sameButLog_load instr addr bareInstr w.bytes
      rw [State.SameButLog] at hsame
      rw [hsame]
      exact ⟨hp.lastStore, hp.context, hp.writer⟩
  | loadn instr addr bareInstr n =>
      cases hstep
      have hsame : p.state.SameButLog (p.state.loadn cfg instr addr bareInstr n) :=
        p.state.sameButLog_loadn instr addr bareInstr n
      rw [State.SameButLog] at hsame
      rw [hsame]
      exact ⟨hp.lastStore, hp.context, hp.writer⟩
  | store w instr addr =>
      cases hstep
      obtain ⟨hbad, hlocal, hsize⟩ := (hok _ he).bytes addr w.bytes rfl
      rw [State.store_eq]
      constructor
      · simp only [Profile.historyStep, Config.span, hone, cells_eq hmod hbad hlocal]
        exact hp.lastStore_store hT he rfl hsize _
      · exact hp.context
      · exact writer_store hp.writer hacc
  | storen instr addr n =>
      cases hstep
      obtain ⟨hbad, hlocal, hsize⟩ := (hok _ he).bytes addr n.toNat rfl
      rw [State.storen_eq]
      constructor
      · simp only [Profile.historyStep, cells_eq hmod hbad hlocal, toUInt32_toNat_of_lt hsize]
        exact hp.lastStore_store hT he rfl hsize _
      · exact hp.context
      · exact writer_store hp.writer hacc

end Follows

/-- The timestamp that a load finds at a byte whose last store was made in this invocation. -/
theorem flow_found {s : State} {h : History} (ht : Tracks s h) (hin : 0 < s.invokedepth)
    (hiter : h.iterations < 2 ^ 40) {c : UInt64} {src : Access} (hw : h.writer c = some src)
    (hinstr : src.instr.toNat < 2 ^ 20) (hinv : src.invocation = h.invocations) :
    s.records (s.shadow c) = true ∧ getInstr (s.shadow c) = src.instr ∧
      (getIter (s.shadow c) ≠ s.iteration ↔ src.iteration ≠ h.iterations) := by
  have hshadow : s.shadow c = src.timestamp := by
    rw [ht.shadow c, hw]
    rfl
  have hle := ht.iteration_le c src hw
  have hpos := (ht.inLoop hin c src hw hinv).2
  have htoNat : (UInt64.ofNat src.iteration).toNat = src.iteration := by
    rw [UInt64.toNat_ofNat']
    exact Nat.mod_eq_of_lt (by omega)
  have hfits : (UInt64.ofNat src.iteration).toNat < 2 ^ 40 := by
    rw [htoNat]
    omega
  refine ⟨ht.records_iff.2 ⟨?_, src, hw, by rw [hinv]⟩, ?_, ?_⟩
  · rw [hshadow]
    exact createTS_ne_zero _ _ (by rwa [htoNat]) hfits
  · rw [hshadow]
    exact getInstr_createTS hinstr _ _
  · rw [hshadow, Access.timestamp, getIter_createTS _ hfits, ht.iteration, Ne, ← UInt64.toNat_inj,
      htoNat, UInt64.toNat_ofNat', Nat.mod_eq_of_lt (by omega : h.iterations < 2 ^ 64)]

theorem deplog_subset_run {P : Profile → Event → Prop} {p q : Profile}
    (hrun : Run (Profile.step cfg) P p q) : p.state.deplog ⊆ q.state.deplog := by
  apply hrun.invariant (fun r => p.state.deplog ⊆ r.state.deplog)
  · exact Finset.Subset.refl _
  · intro r e t hr _ hstep
    obtain ⟨s, hs, rfl⟩ := Option.map_eq_some_iff.1 hstep
    exact hr.trans (State.deplog_subset_step hs)

/-- In every run of calls that pass the filters, a load inside an invocation that reads a byte last
stored in the same invocation leaves a key in the log for good: with the store's instruction, its
own, its bare instruction if it has a fixed size, and whether the two are in different
iterations. -/
theorem flow_dependences_logged (hmod : cfg.dependenceModule = true)
    (hone : cfg.assumeOneAddr = false) {T : Set Event} (hT : CellsOk T) (hok : ∀ e ∈ T, e.Ok cfg)
    {p : Profile} (hrun : Run (Profile.step cfg) (fun _ e => e ∈ T) .init p)
    (hin : 0 < p.state.invokedepth) (hiter : p.history.iterations < 2 ^ 40) {e : Event} (he : e ∈ T)
    {addr : UInt64} {size : ℕ} (hbytes : e.bytes = some (addr, size)) {i : ℕ} (hi : i < size)
    {src : Access} (hsrc : p.history.lastStore (addr + UInt64.ofNat i) = some src)
    (hinv : src.invocation = p.history.invocations) {q r : Profile} (hstep : p.step cfg e = some q)
    {P : Profile → Event → Prop} (hlater : Run (Profile.step cfg) P q r) :
    (∀ w instr bareInstr, e = .load w instr addr bareInstr →
      ⟨src.instr, p.state.attributed instr, bareInstr,
        decide (src.iteration ≠ p.history.iterations)⟩ ∈ r.state.deplog) ∧
    ∀ instr bareInstr n, e = .loadn instr addr bareInstr n → ∃ bare,
      ⟨src.instr, p.state.attributed instr, bare,
        decide (src.iteration ≠ p.history.iterations)⟩ ∈ r.state.deplog := by
  have ht : Tracks p.state p.history := (Profile.tracks_of_run hrun).1
  have hp : Follows T p := by
    apply hrun.invariant (Follows T) Follows.init
    intro r a t hr ha hstep
    exact hr.step hmod hone hT hok ha hstep
  have hw : p.history.writer (cell addr i) = some src := by
    rw [← hp.lastStore e he addr size hbytes i hi]
    exact hsrc
  obtain ⟨hrec, hinstr, hcross⟩ := flow_found ht hin hiter hw (hp.writer _ _ hw) hinv
  obtain ⟨hbad, hlocal, hsize⟩ := (hok e he).bytes addr size hbytes
  have hcell : cell addr i ∈ cells cfg addr size := by
    rw [cells_eq hmod hbad hlocal]
    exact List.mem_map.2 ⟨i, List.mem_range.2 hi, rfl⟩
  obtain ⟨t, hst, rfl⟩ := Option.map_eq_some_iff.1 hstep
  constructor
  · rintro w instr bareInstr rfl
    cases hst
    cases hbytes
    apply deplog_subset_run hlater
    apply State.mem_deplog_load.2
    right
    refine ⟨cell addr i, ?_, hrec, ?_⟩
    · rw [Config.span, hone]
      exact hcell
    · rw [hinstr]
      simp only [hcross]
  · rintro instr bareInstr n rfl
    cases hst
    cases hbytes
    refine ⟨0, ?_⟩
    apply deplog_subset_run hlater
    apply (State.mem_deplog_loadn bareInstr).2
    right
    refine ⟨cell addr i, ?_, hrec, ?_⟩
    · rw [toUInt32_toNat_of_lt hsize]
      exact hcell
    · rw [hinstr]
      simp only [hcross]

def fourThenTwo : Set Event :=
  {.loopInvocation, .store .four 7 0x7f0000000010, .load .two 9 0x7f0000000012 9}

theorem cellsOk_fourThenTwo : CellsOk fourThenTwo := by
  intro e he e' he' a n a' n' hb hb'
  simp only [fourThenTwo, Set.mem_insert_iff, Set.mem_singleton_iff] at he he'
  rcases he with rfl | rfl | rfl <;> rcases he' with rfl | rfl | rfl <;> cases hb <;> cases hb' <;>
    decide +kernel

theorem ok_fourThenTwo : ∀ e ∈ fourThenTwo, e.Ok defaults := by
  intro e he
  simp only [fourThenTwo, Set.mem_insert_iff, Set.mem_singleton_iff] at he
  rcases he with rfl | rfl | rfl
  · exact ⟨by decide, fun _ _ h => by cases h⟩
  · refine ⟨by decide, fun _ _ h => ?_⟩
    cases h
    decide +kernel
  · refine ⟨by decide, fun _ _ h => ?_⟩
    cases h
    decide +kernel

theorem flow_dependences_logged_fourThenTwo :
    ∃ p q, Run (Profile.step defaults) (fun _ e => e ∈ fourThenTwo) .init p ∧
      p.step defaults (.load .two 9 0x7f0000000012 9) = some q ∧
      ⟨7, 9, 9, false⟩ ∈ q.state.deplog := by
  have hrun : ∃ p, Run (Profile.step defaults) (fun _ e => e ∈ fourThenTwo) .init p ∧
      0 < p.state.invokedepth ∧ p.history.iterations < 2 ^ 40 ∧ p.history.invocations = 1 ∧
      p.history.lastStore (0x7f0000000012 + UInt64.ofNat 0) = some ⟨7, 1, 1, true⟩ ∧
      p.state.attributed 9 = 9 ∧ p.history.iterations = 1 := by
    have hfirst : Event.loopInvocation ∈ fourThenTwo := Or.inl rfl
    have hsecond : Event.store .four 7 0x7f0000000010 ∈ fourThenTwo := Or.inr (Or.inl rfl)
    have hbegun : Run (Profile.step defaults) (fun _ e => e ∈ fourThenTwo) .init _ :=
      Run.tail Run.refl hfirst rfl
    exact ⟨_, Run.tail hbegun hsecond rfl, by decide +kernel⟩
  obtain ⟨p, hrun, hin, hlt, hinv, hsrc, hattr, hiter⟩ := hrun
  have hlogged := flow_dependences_logged rfl rfl cellsOk_fourThenTwo ok_fourThenTwo hrun hin hlt
    (Or.inr (Or.inr rfl) : Event.load .two 9 0x7f0000000012 9 ∈ fourThenTwo) rfl (Nat.succ_pos 1)
    hsrc hinv.symm rfl (Run.refl : Run (Profile.step defaults) (fun _ _ => True) _ _)
  have hkey := hlogged.1 .two 9 9 rfl
  rw [hattr, hiter] at hkey
  exact ⟨p, _, hrun, rfl, hkey⟩

/-- After the calls `before`, the load `e` inside an invocation reads the byte `b`, which was last
stored in this invocation, and still the log does not have `key`. -/
def misses (cfg : Config) (before : List Event) (e : Event) (b : UInt64) (key : Key) : Bool :=
  (Run.replay (Profile.step cfg) (fun _ _ => True) .init before).any fun p =>
    decide (0 < p.state.invokedepth) &&
    (p.history.lastStore b).any (fun src => decide (src.invocation = p.history.invocations)) &&
    (p.step cfg e).any fun q => decide (key ∉ q.state.deplog)

/-- Flows that are not logged: in the address range that is taken for the program's own heap; at an
address that the local-write filter leaves to another run; after a store to a byte `2 ^ 44` away;
past a multiple of `2 ^ 42`; and, with its bare instruction, through a load of `n` bytes. -/
theorem flows_are_missed :
    misses { defaults with heapStart := 0x1000000 }
      [.loopInvocation, .store .four 7 0x2000000] (.load .four 9 0x2000000 9) 0x2000000
      ⟨7, 9, 9, false⟩ = true ∧
    misses { defaults with localwriteModule := true, localwriteMask := 0xf, localwritePattern := 0 }
      [.loopInvocation, .store .four 7 0x7f0000000010] (.load .two 9 0x7f0000000012 9) 0x7f0000000012
      ⟨7, 9, 9, false⟩ = true ∧
    misses defaults
      [.loopInvocation, .store .four 7 0x7f0000000010, .store .four 8 0x6f0000000010]
      (.load .four 9 0x7f0000000010 9) 0x7f0000000010 ⟨7, 9, 9, false⟩ = true ∧
    misses defaults
      [.loopInvocation, .store .eight 7 0x7bfffffffffc] (.load .four 9 0x7c0000000000 9)
      0x7c0000000000 ⟨7, 9, 9, false⟩ = true ∧
    misses defaults
      [.loopInvocation, .store .four 7 0x7f0000000010] (.loadn 9 0x7f0000000010 9 3) 0x7f0000000010
      ⟨7, 9, 9, false⟩ = true := by
  decide +kernel

end Cpf.Slamp
