import Cpf.Lamp.Tracks
import Cpf.Basics.Trans

/-!
# The memory profile is exact

Every event keeps the relation between the profiler and the history, so that the profile of a run has a line for
each dependence that occurred and for no other, and counts the iterations in which it did.
-/

namespace Cpf.Lamp

variable {cfg : Config} {s s' : State} {h : History} {instr n : ℕ} {addrs : List UInt64}

/-! ### Stores and allocations -/

/-- Bytes are written by the event with a number. -/
def History.storeAt (h : History) (n store : ℕ) (addrs : List UInt64) : History :=
  { h with lastStore := fun addr => if addr ∈ addrs then some (store, n) else h.lastStore addr }

theorem History.storeAt_cons (h : History) (n store : ℕ) (addr : UInt64) (addrs : List UInt64) :
    (h.storeAt n store [addr]).storeAt n store addrs = h.storeAt n store (addr :: addrs) := by
  simp only [History.storeAt, List.mem_cons, List.not_mem_nil, or_false]
  congr 1
  funext a
  by_cases ha : a ∈ addrs <;> by_cases heq : a = addr <;> simp [ha, heq]

theorem History.forgetBytes_storeAt (h : History) (n store : ℕ) (addrs : List UInt64) :
    (h.storeAt n store addrs).forgetBytes addrs = h.forgetBytes addrs := by
  simp only [History.storeAt, History.forgetBytes]
  congr 1
  funext a
  by_cases ha : a ∈ addrs <;> simp [ha]

/-- The marks of the bytes are set one after another. -/
theorem foldlM_setItem (value : Timestamp) (hwf : s.shadow.Wf)
    (hpage : ∀ a ∈ addrs, s.shadow.pageCache instr = amPageAddr a) :
    ∃ shadow, addrs.foldlM (fun s a => s.setItem instr value a) s = some { s with shadow := shadow } ∧
    shadow.Wf ∧
      shadow.item = fun a => if a ∈ addrs then some value else s.shadow.item a := by
  induction addrs generalizing s with
  | nil => exact ⟨s.shadow, rfl, hwf, by simp⟩
  | cons addr addrs ih =>
    obtain ⟨shadow₁, hset, hwf₁, hitem₁, hcache₁⟩ :=
      Shadow.setItem_spec hwf (hpage addr List.mem_cons_self) value
    obtain ⟨shadow₂, hrest, hwf₂, hitem₂⟩ := ih (s := { s with shadow := shadow₁ }) hwf₁ fun a ha => by
      rw [hcache₁]
      exact hpage a (List.mem_cons_of_mem _ ha)
    refine ⟨shadow₂, by simpa [List.foldlM_cons, State.setItem, hset] using hrest, hwf₂, ?_⟩
    rw [hitem₂]
    funext a
    by_cases ha : a ∈ addrs <;> by_cases heq : a = addr <;> simp [ha, heq, hitem₁]

/-- The marks of the bytes are cleared one after another. -/
theorem foldlM_setInvalid (hwf : s.shadow.Wf) (addrs : List UInt64) :
    ∃ shadow, addrs.foldlM (fun s a => (s.shadow.setInvalid a).map fun shadow => { s with shadow := shadow })
    s =
      some { s with shadow := shadow } ∧ shadow.Wf ∧
      shadow.item = fun a => if a ∈ addrs then none else s.shadow.item a := by
  induction addrs generalizing s with
  | nil => exact ⟨s.shadow, rfl, hwf, by simp⟩
  | cons addr addrs ih =>
    obtain ⟨shadow₁, hset, hwf₁, hitem₁⟩ := Shadow.setInvalid_spec hwf addr
    obtain ⟨shadow₂, hrest, hwf₂, hitem₂⟩ := ih (s := { s with shadow := shadow₁ }) hwf₁
    refine ⟨shadow₂, by simpa [List.foldlM_cons, hset] using hrest, hwf₂, ?_⟩
    rw [hitem₂]
    funext a
    by_cases ha : a ∈ addrs <;> by_cases heq : a = addr <;> simp [ha, heq, hitem₁]

namespace Tracks

theorem tick (ht : Tracks cfg s h) : Tracks cfg s { h with clock := h.clock + 1 } :=
  { ht with
    stored := fun addr e he => ⟨(ht.stored addr e he).1.trans (Nat.lt_succ_self _), (ht.stored addr e he).2⟩
    iterations_lt := fun k hk => (ht.iterations_lt k hk).trans (Nat.lt_succ_self _)
    loops := { ht.loops with
      past := fun d hd => ⟨(ht.loops.past d hd).entered_lt.trans (Nat.lt_succ_self _),
        (ht.loops.past d hd).began_lt.trans (Nat.lt_succ_self _), (ht.loops.past d hd).subset⟩ }
    found_lt := fun o ho => (ht.found_lt o ho).trans (Nat.lt_succ_self _) }

/-- A number that no iteration has and that is not before one. -/
structure Now (h : History) (n : ℕ) : Prop where
  lt : n < h.clock
  latest : ∀ k ∈ h.iterations, k < n

theorem mark_now (ht : Tracks cfg s h) (hn : Now h n) (instr : ℕ) :
    h.mark (instr, n) = ⟨instr, s.timeStamp⟩ := by
  rw [History.mark, History.stamp, ht.time_eq, List.countP_eq_length.2]
  exact fun k hk => decide_eq_true (hn.latest k hk).le

theorem alignedStore (ht : Tracks cfg s h) (hn : Now h n) (hcfg : cfg.numInstrs ≤ instrMax)
    (htime : s.timeStamp ≤ timeStampMax) (hinstr : instr < cfg.numInstrs) {addr : UInt64} {size : ℕ}
    (hpage : ∀ a ∈ State.bytes addr size, amPageAddr a = amPageAddr addr) :
    ∃ shadow, s.alignedStore cfg instr addr size = some { s with shadow := shadow } ∧
      Tracks cfg { s with shadow := shadow } (h.storeAt n instr (State.bytes addr size)) := by
  obtain ⟨shadow₁, htouch, hwf₁, hitem₁, hcache⟩ := ht.touch hinstr addr
  have hform : formTimestamp instr s.timeStamp = some (h.mark (instr, n)) := by
    rw [formTimestamp, if_pos ⟨htime, by omega⟩, ht.mark_now hn]
  obtain ⟨shadow₂, hfold, hwf₂, hitem₂⟩ := foldlM_setItem (s := { s with shadow := shadow₁ })
      (h.mark (instr, n)) hwf₁
    fun a ha => hcache.trans (hpage a ha).symm
  refine ⟨shadow₂, ?_, { ht with
    wf := hwf₂, loops := { ht.loops with }, items := fun a => ?_, stored := fun a e he => ?_ }⟩
  · simp only [State.alignedStore, htouch, Option.bind_eq_bind, Option.bind_some, hform]
    exact hfold
  · simp only [hitem₂, hitem₁, ht.items, History.storeAt]
    by_cases ha : a ∈ State.bytes addr size
    · simp only [if_pos ha, Option.map_some]
      rfl
    · simp only [if_neg ha]
      rfl
  · simp only [History.storeAt] at he
    split_ifs at he with ha
    · cases he
      exact ⟨hn.lt, fun hin => (hn.latest n hin).false⟩
    · exact ht.stored a e he

theorem storeEach (ht : Tracks cfg s h) (hn : Now h n) (hcfg : cfg.numInstrs ≤ instrMax)
    (htime : s.timeStamp ≤ timeStampMax) (hinstr : instr < cfg.numInstrs) (addrs : List UInt64) :
    ∃ shadow, addrs.foldlM (fun s addr => s.alignedStore cfg instr addr 1) s =
    some { s with shadow := shadow } ∧
      Tracks cfg { s with shadow := shadow } (h.storeAt n instr addrs) := by
  induction addrs generalizing s h with
  | nil => exact ⟨s.shadow, rfl, by simpa [History.storeAt] using ht⟩
  | cons addr addrs ih =>
    obtain ⟨shadow₁, hstore, ht₁⟩ := ht.alignedStore hn hcfg htime hinstr (amPageAddr_of_mem_one addr)
    rw [bytes_one] at ht₁
    obtain ⟨shadow₂, hrest, ht₂⟩ := ih ht₁ ⟨hn.lt, hn.latest⟩ htime
    rw [History.storeAt_cons] at ht₂
    exact ⟨shadow₂, by simpa [List.foldlM_cons, hstore] using hrest, ht₂⟩

theorem invalidateRegion (ht : Tracks cfg s h) (addr : UInt64) (size : ℕ) :
    ∃ s', s.invalidateRegion addr size = some s' ∧ s'.timeStamp = s.timeStamp ∧
      Tracks cfg s' (h.forgetBytes (State.bytes addr size)) := by
  obtain ⟨shadow, hfold, hwf, hitem⟩ := foldlM_setInvalid ht.wf (State.bytes addr size)
  refine ⟨_, hfold, rfl, { ht with
    wf := hwf, loops := { ht.loops with }, items := fun a => ?_, stored := fun a e he => ?_ }⟩
  · simp only [hitem, ht.items, History.forgetBytes]
    by_cases ha : a ∈ State.bytes addr size
    · simp only [if_pos ha, Option.map_none]
    · simp only [if_neg ha]
      rfl
  · simp only [History.forgetBytes] at he
    split_ifs at he with ha
    exact ht.stored a e he

theorem deallocate (ht : Tracks cfg s h) (hcfg : cfg.numInstrs ≤ instrMax) (htime : s.timeStamp ≤ timeStampMax)
    (hinstr : instr < cfg.numInstrs) (addr : UInt64) (size : ℕ) :
    ∃ s', s.deallocate cfg instr addr size = some s' ∧
      Tracks cfg s' { h.forgetBytes (State.bytes addr size) with clock := h.clock + 1 } := by
  have hnow : Now { h with clock := h.clock + 1 } h.clock := ⟨Nat.lt_succ_self _, ht.iterations_lt⟩
  obtain ⟨shadow, hstore, ht₁⟩ := ht.tick.storeEach hnow hcfg htime hinstr (State.bytes addr size)
  obtain ⟨s', hs', _, ht'⟩ := ht₁.invalidateRegion addr size
  rw [History.forgetBytes_storeAt] at ht'
  refine ⟨s', ?_, ht'⟩
  rw [State.deallocate, State.storeEach, hstore]
  exact hs'

theorem externalLoad (ht : Tracks cfg s h) (hcall : h.externalCallId < cfg.numInstrs) (addrs : List UInt64) :
    ∃ s', addrs.foldlM (fun s addr => s.load cfg .one s.externalCallId addr) s = some s' ∧
      Tracks cfg s' (h.loadBytes h.externalCallId addrs) := by
  induction addrs generalizing s h with
  | nil => exact ⟨s, rfl, by rwa [History.loadBytes_nil]⟩
  | cons addr addrs ih =>
    obtain ⟨s₁, hs₁, ht₁⟩ := ht.load (w := .one) hcall addr
    have hone : State.bytes addr Slamp.Width.one.bytes = [addr] := bytes_one addr
    rw [hone] at ht₁
    obtain ⟨s₂, hs₂, ht₂⟩ := ih ht₁ hcall
    change Tracks cfg s₂ ((h.loadBytes h.externalCallId [addr]).loadBytes h.externalCallId addrs) at ht₂
    refine ⟨s₂, by simp [List.foldlM_cons, ht.external_eq, hs₁, hs₂], ?_⟩
    rwa [History.loadBytes_cons, History.loadBytes_nil, ← History.loadBytes_cons] at ht₂

end Tracks

/-! ### Loops -/

/-- A new iteration does not change the time stamps of the past. -/
theorem History.stamp_iteration {h h' : History} (hi : h'.iterations = h.clock :: h.iterations) {m : ℕ}
    (hm : m < h.clock) : h'.stamp m = h.stamp m := by
  rw [History.stamp, History.stamp, hi, List.countP_cons_of_neg (by simpa using hm)]

theorem History.stamp_clock {h : History} (hlt : ∀ k ∈ h.iterations, k < h.clock) :
    h.stamp h.clock = 1 + h.iterations.length := by
  rw [History.stamp, List.countP_eq_length.2 fun k hk => decide_eq_true (hlt k hk).le]

/-- The time stamps of a loop's iterations may be computed later. -/
theorem Level.restamp {stamp stamp' : ℕ → ℕ} {found : Finset Occurrence} {info : LoopInfo} {a : Active}
    (h : Level stamp found info a) (hstamp : ∀ k ∈ a.iterations, stamp' k = stamp k) :
    Level stamp' found info a :=
  ⟨h.loop_eq, fun t => (h.distance t).trans (exists_congr fun k => and_congr_right
    fun hk => by rw [hstamp k hk]), h.sets⟩

theorem Level.iteration {stamp stamp' : ℕ → ℕ} {found : Finset Occurrence} {info : LoopInfo}
    {a : Active} {n : ℕ}
    (h : Level stamp found info a) (hnew : ∀ k ∈ a.iterations, stamp' k ≤ stamp' n)
    (hfound : ∀ o ∈ found, o.began < n) :
    Level stamp' found (info.iteration (stamp' n)).initializeSets
      { a with iterations := n :: a.iterations, began := n } := by
  refine ⟨h.loop_eq, fun t => ?_, fun dep => ?_⟩
  · rw [LoopInfo.calculateDistance_pos]
    simp only [LoopInfo.initializeSets, LoopInfo.iteration, maxDepDist, List.take_succ_cons, List.head?_cons,
      Option.some.injEq, exists_eq_left', List.mem_cons, exists_eq_or_imp]
    constructor
    · exact .inl
    · rintro (hlt | ⟨k, hk, hlt⟩)
      · exact hlt
      · exact hlt.trans_le (hnew k hk)
  · simp only [LoopInfo.initializeSets, Finset.notMem_empty, false_iff]
    rintro ⟨o, ho, _, hbegan⟩
    exact (hfound o ho).ne hbegan

theorem History.stamp_step_clock {h : History} (hlt : ∀ k ∈ h.iterations, k < h.clock) :
    (h.step .loopIterationBegin).stamp h.clock = h.iterations.length + 2 := by
  have hiterations : (h.step .loopIterationBegin).iterations = h.clock :: h.iterations := rfl
  rw [History.stamp, hiterations, List.countP_cons_of_pos (by simp),
    List.countP_eq_length.2 fun k hk => decide_eq_true (hlt k hk).le]
  omega

theorem LoopsTrack.iteration {numLoops : ℕ} {loops : LoopHierarchy} (hl : LoopsTrack numLoops loops h)
    (hlt : ∀ k ∈ h.iterations, k < h.clock) (hfound : ∀ o ∈ h.found, o.began < h.clock) :
    LoopsTrack numLoops (loops.update h.depth
      ((loops.loopInfo h.depth).iteration ((h.step .loopIterationBegin).stamp h.clock)).initializeSets)
      (h.step .loopIterationBegin) := by
  set h' := h.step .loopIterationBegin with hh'
  have hiterations : h'.iterations = h.clock :: h.iterations := rfl
  have hstamp : ∀ m < h.clock, h'.stamp m = h.stamp m := fun m hm => History.stamp_iteration hiterations hm
  have hle : ∀ m < h.clock, h'.stamp m ≤ h'.stamp h.clock := by
    intro m hm
    have hcount := List.countP_le_length (p := fun k => decide (k ≤ m)) (l := h.iterations)
    rw [History.stamp_step_clock hlt, hstamp m hm, History.stamp]
    omega
  have hpast : ∀ d ≤ h.depth, ∀ k ∈ (h.active d).iterations, k < h.clock := fun d hd k hk =>
    hlt k ((hl.past d hd).subset hk)
  have hactive : ∀ d, d ≠ h.depth → h'.active d = h.active d := fun d hd => Function.update_of_ne hd _ _
  have hself : h'.active h.depth =
      { h.active h.depth with iterations := h.clock :: (h.active h.depth).iterations, began := h.clock } :=
    Function.update_self _ _ _
  have hinvocation : ∀ d, ((loops.update h.depth
      ((loops.loopInfo h.depth).iteration (h'.stamp h.clock)).initializeSets).loopInfo d).invocationTimeStamp =
        (loops.loopInfo d).invocationTimeStamp := by
    intro d
    by_cases hdepth : d = h.depth
    · subst hdepth
      simp only [LoopHierarchy.update, Function.update_self]
      rfl
    · simp only [LoopHierarchy.update, Function.update_of_ne hdepth]
  have hkept : ∀ d, (h'.active d).entered = (h.active d).entered ∧ (h'.active d).loop = (h.active d).loop := by
    intro d
    by_cases hdepth : d = h.depth
    · rw [hdepth, hself]
      exact ⟨rfl, rfl⟩
    · rw [hactive d hdepth]
      exact ⟨rfl, rfl⟩
  refine ⟨hl.depth_eq, fun d hd => ?_, fun d hd hpos => ?_, (hinvocation 0).trans hl.program, fun d hd => ?_,
    fun d hd => (hkept d).2 ▸ hl.known d hd, fun d d' hd hd' => ?_⟩
  · by_cases hdepth : d = h.depth
    · subst hdepth
      simp only [LoopHierarchy.update, Function.update_self]
      rw [hself]
      exact (hl.levels _ le_rfl).iteration (fun k hk => hle k (hpast _ le_rfl k hk)) hfound
    · simp only [LoopHierarchy.update, Function.update_of_ne hdepth]
      rw [hactive d hdepth]
      exact (hl.levels d hd).restamp fun k hk => hstamp k (hpast d hd k hk)
  · rw [hinvocation, (hkept d).1, hstamp _ (hl.past d hd).entered_lt]
    exact hl.invocation d hd hpos
  · have hold := hl.past d hd
    by_cases hdepth : d = h.depth
    · subst hdepth
      rw [hself]
      exact ⟨hold.entered_lt.trans (Nat.lt_succ_self _), Nat.lt_succ_self _,
        List.cons_subset_cons _ hold.subset⟩
    · rw [hactive d hdepth]
      exact ⟨hold.entered_lt.trans (Nat.lt_succ_self _), hold.began_lt.trans (Nat.lt_succ_self _),
        fun k hk => List.mem_cons_of_mem _ (hold.subset hk)⟩
  · have hd' : d' ≤ h.depth := hd'
    rw [hactive d (by omega)]
    by_cases hdepth : d' = h.depth
    · rw [hdepth, hself]
      exact (hl.past d (by omega)).began_lt
    · rw [hactive d' hdepth]
      exact hl.began_lt d d' hd hd'

namespace Tracks

theorem loopInvocation (ht : Tracks cfg s h) {loop : UInt16} (hdepth : h.depth + 1 < maxLoopDepth)
    (hloop : loop.toNat ≤ cfg.numLoops) :
    ∃ s', s.loopInvocation loop = some s' ∧ s'.timeStamp = s.timeStamp ∧
      Tracks cfg s' (h.step (.loopInvocation loop)) := by
  have hl := ht.loops
  have hentered : s.timeStamp = h.stamp h.clock := by rw [ht.time_eq, History.stamp_clock ht.iterations_lt]
  have hne : ∀ d ≤ h.depth, d ≠ h.depth + 1 := fun d hd => by omega
  simp only [State.loopInvocation, LoopHierarchy.enterLoop, hl.depth_eq, if_pos hdepth, Option.bind_eq_bind,
    Option.bind_some]
  refine ⟨_, rfl, rfl, { ht.tick with loops := ⟨?_, fun d hd => ?_, fun d hd hpos => ?_, ?_, fun d hd => ?_,
    fun d hd => ?_,
    fun d d' hlt hd' => ?_⟩ }⟩
  · rfl
  · simp only [History.step, History.apply] at hd ⊢
    simp only [LoopHierarchy.setCurrentLoop, LoopHierarchy.update, LoopHierarchy.getCurrentLoop]
    rcases Nat.le_or_eq_of_le_succ hd with hd | rfl
    · simp only [Function.update_of_ne (hne d hd)]
      exact hl.levels d hd
    · simp only [Function.update_self]
      refine ⟨rfl, fun t => ?_, fun dep => ?_⟩
      · rw [LoopInfo.calculateDistance_pos]
        simp [LoopInfo.reset, LoopInfo.initializeSets]
      · simp only [LoopInfo.initializeSets, Finset.notMem_empty, false_iff]
        rintro ⟨o, ho, _, hbegan⟩
        exact (ht.found_lt o ho).ne hbegan
  · simp only [History.step, History.apply] at hd ⊢
    simp only [LoopHierarchy.setCurrentLoop, LoopHierarchy.update, LoopHierarchy.getCurrentLoop]
    rcases Nat.le_or_eq_of_le_succ hd with hd | rfl
    · simp only [Function.update_of_ne (hne d hd)]
      exact hl.invocation d hd hpos
    · simp only [Function.update_self]
      exact hentered
  · simp only [LoopHierarchy.setCurrentLoop, LoopHierarchy.update, LoopHierarchy.getCurrentLoop]
    simp only [Function.update_of_ne (hne 0 (Nat.zero_le _))]
    exact hl.program
  · simp only [History.step, History.apply] at hd ⊢
    rcases Nat.le_or_eq_of_le_succ hd with hd | rfl
    · simp only [Function.update_of_ne (hne d hd)]
      exact ht.tick.loops.past d hd
    · simp only [Function.update_self]
      exact ⟨Nat.lt_succ_self _, Nat.lt_succ_self _, fun _ h => by cases h⟩
  · simp only [History.step, History.apply] at hd ⊢
    rcases Nat.le_or_eq_of_le_succ hd with hd | rfl
    · simp only [Function.update_of_ne (hne d hd)]
      exact hl.known d hd
    · simp only [Function.update_self]
      exact hloop
  · simp only [History.step, History.apply] at hd' ⊢
    have hd : d ≤ h.depth := by omega
    rw [Function.update_of_ne (hne d hd)]
    rcases Nat.le_or_eq_of_le_succ hd' with hd' | rfl
    · rw [Function.update_of_ne (hne d' hd')]
      exact hl.began_lt d d' hlt hd'
    · rw [Function.update_self]
      exact (hl.past d hd).began_lt

theorem loopExit (ht : Tracks cfg s h) (hdepth : 0 < h.depth) :
    ∃ loops, s.loops.exitLoop = some loops ∧ Tracks cfg { s with loops := loops } (h.step .loopExit) := by
  have hl := ht.loops
  refine ⟨{ s.loops with currentDepth := s.loops.currentDepth - 1 }, ?_, { ht.tick with loops :=
    ⟨?_, fun d hd => ?_, fun d hd => ?_, hl.program, fun d hd => ?_, fun d hd => ?_, fun d d' hlt hd' => ?_⟩ }⟩
  · rw [LoopHierarchy.exitLoop, if_pos (hl.depth_eq ▸ hdepth)]
  · simp only [hl.depth_eq, History.step, History.apply]
  all_goals simp only [History.step, History.apply] at *
  · exact hl.levels d (by omega)
  · exact hl.invocation d (by omega)
  · exact ht.tick.loops.past d (by simp only; omega)
  · exact hl.known d (by omega)
  · exact hl.began_lt d d' hlt (by omega)

theorem loopIterationBegin (ht : Tracks cfg s h) :
    ∃ s', s.loopIterationBegin cfg = some s' ∧ s'.timeStamp = s.timeStamp + 1 ∧
      Tracks cfg s' (h.step .loopIterationBegin) := by
  have hl := ht.loops
  have hcurrent : s.loops.getCurrentLoop = s.loops.loopInfo h.depth := by
    rw [LoopHierarchy.getCurrentLoop, hl.depth_eq]
  have hlevel := hl.levels h.depth le_rfl
  have hknown : ¬ cfg.numLoops < (s.loops.loopInfo h.depth).loopId.toNat := by
    rw [hlevel.loop_eq]
    exact Nat.not_lt.2 (hl.known h.depth le_rfl)
  have hiterations : (h.step .loopIterationBegin).iterations = h.clock :: h.iterations := rfl
  refine ⟨{ s with
    timeStamp := s.timeStamp + 1
    loops := s.loops.update h.depth ((s.loops.loopInfo h.depth).iteration (s.timeStamp + 1)).initializeSets
    iterationCount := Function.update s.iterationCount (s.loops.loopInfo h.depth).loopId.toNat
      (s.iterationCount (s.loops.loopInfo h.depth).loopId.toNat + 1) }, ?_, rfl, ?_⟩
  · simp only [State.loopIterationBegin, hcurrent, if_neg hknown, LoopHierarchy.setCurrentLoop, hl.depth_eq]
  refine ⟨?_, ht.external_eq, ht.wf, fun addr => ?_, fun addr e he => ?_, fun k hk => ?_, ?_,
    fun o ho => (ht.found_lt o ho).trans (Nat.lt_succ_self _), ht.counts, fun l => ?_⟩
  · simp only [hiterations, List.length_cons, ht.time_eq]
    omega
  · rw [ht.items]
    show (h.lastStore addr).map h.mark = (h.lastStore addr).map (h.step .loopIterationBegin).mark
    cases hstore : h.lastStore addr with
    | none => rfl
    | some e =>
      have hstamp := History.stamp_iteration hiterations (ht.stored addr e hstore).1
      simp only [Option.map_some, History.mark, hstamp]
  · obtain ⟨hlt, hnot⟩ := ht.stored addr e he
    refine ⟨hlt.trans (Nat.lt_succ_self _), ?_⟩
    rw [hiterations, List.mem_cons, not_or]
    exact ⟨hlt.ne, hnot⟩
  · rcases List.mem_cons.1 hk with rfl | hk
    · exact Nat.lt_succ_self _
    · exact (ht.iterations_lt k hk).trans (Nat.lt_succ_self _)
  · have hnow : s.timeStamp + 1 = (h.step .loopIterationBegin).stamp h.clock := by
      rw [History.stamp_step_clock ht.iterations_lt, ht.time_eq]
      omega
    simp only [hnow]
    exact hl.iteration ht.iterations_lt ht.found_lt
  · have hcount := ht.iterationCount l
    have hbegun : (h.step .loopIterationBegin).begun = (h.active h.depth).loop :: h.begun := rfl
    rw [hbegun, List.map_cons, List.count_cons, hlevel.loop_eq]
    by_cases hloop : (h.active h.depth).loop.toNat = l
    · subst hloop
      simp only [Function.update_self, ht.iterationCount, beq_self_eq_true, if_true]
      omega
    · simp only [Function.update_of_ne (Ne.symm hloop), beq_iff_eq, if_neg hloop, hcount, Nat.add_zero]

/-- Every event that the history permits is followed. -/
theorem step (ht : Tracks cfg s h) (hcfg : cfg.numInstrs ≤ instrMax)
    (htime : h.iterations.length + 1 ≤ timeStampMax)
    {e : Event} (he : h.Permits cfg e) : ∃ s', s.step cfg e = some s' ∧ Tracks cfg s' (h.step e) := by
  have hstamp : s.timeStamp ≤ timeStampMax := by
    rw [ht.time_eq]
    omega
  have hnow : Now { h with clock := h.clock + 1 } h.clock := ⟨Nat.lt_succ_self _, ht.iterations_lt⟩
  cases e with
  | load w instr addr =>
    obtain ⟨s', hs', ht'⟩ := ht.load (w := w) he addr
    exact ⟨s', hs', ht'.tick⟩
  | store w instr addr silent =>
    cases silent with
    | true => exact ⟨s, rfl, ht.tick⟩
    | false =>
      simp only [State.step, State.store, Bool.false_eq_true, if_false]
      by_cases haligned : addr.toNat % w.bytes = 0
      · rw [if_neg (not_not.2 haligned)]
        obtain ⟨shadow, hs', ht'⟩ := ht.tick.alignedStore hnow hcfg hstamp he (amPageAddr_of_mem_bytes haligned)
        exact ⟨_, hs', ht'⟩
      · rw [if_pos haligned]
        obtain ⟨shadow, hs', ht'⟩ := ht.tick.storeEach hnow hcfg hstamp he (State.bytes addr w.bytes)
        exact ⟨_, hs', ht'⟩
  | allocate addr size =>
    obtain ⟨s', hs', _, ht'⟩ := ht.invalidateRegion addr size
    exact ⟨s', hs', ht'.tick⟩
  | deallocate instr addr size => exact ht.deallocate hcfg hstamp he addr size
  | externalLoad addr size =>
    obtain ⟨s', hs', ht'⟩ := ht.externalLoad he (State.bytes addr size)
    exact ⟨s', hs', ht'.tick⟩
  | externalStore addr size =>
    have hinstr : s.externalCallId < cfg.numInstrs := ht.external_eq ▸ he
    obtain ⟨shadow, hs', ht'⟩ := ht.tick.storeEach hnow hcfg hstamp hinstr (State.bytes addr size)
    have hstep : h.step (.externalStore addr size) =
        { h with clock := h.clock + 1 }.storeAt h.clock s.externalCallId (State.bytes addr size) := by
      rw [ht.external_eq]
      rfl
    rw [hstep]
    exact ⟨_, hs', ht'⟩
  | externalDeallocate addr size =>
    have hinstr : s.externalCallId < cfg.numInstrs := ht.external_eq ▸ he
    exact ht.deallocate hcfg hstamp hinstr addr size
  | register id => exact ⟨_, rfl, { ht.tick with external_eq := rfl, loops := { ht.tick.loops with } }⟩
  | loopInvocation loop =>
    obtain ⟨s', hs', _, ht'⟩ := ht.loopInvocation he.1 he.2
    exact ⟨s', hs', ht'⟩
  | loopIterationBegin =>
    obtain ⟨s', hs', _, ht'⟩ := ht.loopIterationBegin
    exact ⟨s', hs', ht'⟩
  | loopIterationEnd => exact ⟨s, rfl, ht.tick⟩
  | loopExit =>
    obtain ⟨loops, hloops, ht'⟩ := ht.loopExit he
    exact ⟨_, by rw [State.step, hloops]; rfl, ht'⟩

end Tracks

/-! ### Runs -/

namespace History

def Allows (cfg : Config) : History → List Event → Prop
  | _, [] => True
  | h, e :: es => h.Permits cfg e ∧ Allows cfg (h.step e) es

theorem step_inTime {e : Event} (htime : h.iterations.length + 1 ≤ timeStampMax) (he : h.Permits cfg e) :
    (h.step e).iterations.length + 1 ≤ timeStampMax := by
  cases e with
  | loopIterationBegin => exact he
  | store w instr addr silent => cases silent <;> exact htime
  | _ => exact htime

end History

theorem tracks_run (hcfg : cfg.numInstrs ≤ instrMax) {es : List Event} (ht : Tracks cfg s h)
    (htime : h.iterations.length + 1 ≤ timeStampMax) (hes : h.Allows cfg es) :
    ∃ s', es.foldlM (State.step cfg) s = some s' ∧ Tracks cfg s' (es.foldl History.step h) := by
  induction es generalizing s h with
  | nil => exact ⟨s, rfl, ht⟩
  | cons e es ih =>
    obtain ⟨s₁, hs₁, ht₁⟩ := ht.step hcfg htime hes.1
    obtain ⟨s₂, hs₂, ht₂⟩ := ih ht₁ (History.step_inTime htime hes.1) hes.2
    exact ⟨s₂, by simp [List.foldlM_cons, hs₁, hs₂], ht₂⟩

/-- The profiler goes through every run, and at its end there is a line of the profile for each dependence that
occurred and for no other. The second count of a line is the number of iterations, told apart by the events that
began them, in which its dependence occurred, and the iterations of all loops are counted. -/
theorem profile_exact (hcfg : cfg.numInstrs ≤ instrMax) {es : List Event} (hes : History.init.Allows cfg es) :
    ∃ s, es.foldlM (State.step cfg) .init = some s ∧
      (∀ key, 0 < (s.profile key).totalCount ↔ ∃ o ∈ (es.foldl History.step .init).found, o.key = key) ∧
      (∀ key, (s.profile key).loopCount = ((es.foldl History.step .init).found.filter fun o => o.key =
      key).card) ∧
      ∀ l, s.iterationCount l =
        ((es.foldl History.step .init).begun.map UInt16.toNat).count l + if l = 0 then 1 else 0 := by
  obtain ⟨s, hs, ht⟩ := tracks_run hcfg tracks_init (by decide) hes
  exact ⟨s, hs, ht.counts.total, ht.counts.loop, ht.iterationCount⟩

def storeThenLoad : List Event :=
  [.loopInvocation 1, .loopIterationBegin, .store .two 1 64 false, .loopIterationBegin, .load .four 2 64]

theorem profile_exact_storeThenLoad : ∃ s, storeThenLoad.foldlM (State.step ⟨3, 2⟩) .init = some s ∧
    0 < (s.profile ⟨2, 1, 1, 1⟩).totalCount ∧ (s.profile ⟨2, 1, 1, 1⟩).loopCount = 1 := by
  have hfound : (storeThenLoad.foldl History.step .init).found = {⟨2, 1, 1, true, 4⟩} := by decide
  have hallows : History.init.Allows ⟨3, 2⟩ storeThenLoad := by
    simp only [storeThenLoad, History.Allows, History.Permits]
    decide
  have hcfg : (⟨3, 2⟩ : Config).numInstrs ≤ instrMax := by decide
  obtain ⟨s, hs, htotal, hloop, _⟩ := profile_exact hcfg hallows
  refine ⟨s, hs, (htotal _).2 ⟨⟨2, 1, 1, true, 4⟩, ?_, rfl⟩, ?_⟩
  · rw [hfound]
    exact Finset.mem_singleton_self _
  · rw [hloop, hfound]
    rfl

end Cpf.Lamp
