import Cpf.Lamp.History

/-!
# The profiler follows the history

`Tracks` relates the state of the profiler to the history of its run. The time stamps of the profiler are the
numbers of iterations that began up to an event, the mark of a byte is that of its last store, and the
dependence set of an active loop holds the occurrences of its current iteration.
-/

namespace Cpf.Lamp

def Occurrence.dep (o : Occurrence) : Dependence := ⟨o.store, o.loop.toNat, if o.carried then 1 else 0, o.load⟩

theorem Occurrence.key_dep (o : Occurrence) : o.dep.key = o.key := by
  cases hc : o.carried <;> simp [Occurrence.dep, Occurrence.key, Dependence.key, trackedDistance,
    maxDepDist, hc]

theorem Occurrence.ext_dep {o o' : Occurrence} (hdep : o.dep = o'.dep) (hbegan : o.began = o'.began) :
    o = o' := by
  obtain ⟨load, store, loop, carried, began⟩ := o
  obtain ⟨load', store', loop', carried', began'⟩ := o'
  simp only [Occurrence.dep, Dependence.mk.injEq] at hdep hbegan
  obtain ⟨hstore, hloop, hcarried, hload⟩ := hdep
  have hbool : carried = carried' := by cases carried <;> cases carried' <;> simp at hcarried <;> rfl
  rw [hstore, UInt16.toNat_inj.1 hloop, hbool, hload, hbegan]

def History.stamp (h : History) (m : ℕ) : ℕ := 1 + h.iterations.countP fun k => k ≤ m

/-- More iterations began up to `m` than up to `a` if one began in between. -/
theorem countP_lt_iff {l : List ℕ} {a m : ℕ} :
    (l.countP fun k => k ≤ a) < (l.countP fun k => k ≤ m) ↔ ∃ k ∈ l, a < k ∧ k ≤ m := by
  constructor
  · intro hlt
    by_contra hnone
    have hle : (l.countP fun k => k ≤ m) ≤ l.countP fun k => k ≤ a := by
      refine List.countP_mono_left fun k hk hkm => ?_
      have hkm := of_decide_eq_true hkm
      exact decide_eq_true (Nat.le_of_not_lt fun hak => hnone ⟨k, hk, hak, hkm⟩)
    omega
  · rintro ⟨k, hk, hak, hkm⟩
    obtain ⟨l₁, l₂, rfl⟩ := List.append_of_mem hk
    have hmono : ∀ l' : List ℕ, (l'.countP fun k => k ≤ a) ≤ l'.countP fun k => k ≤ m := fun l' =>
      List.countP_mono_left fun j _ hj => decide_eq_true (by have := of_decide_eq_true hj; omega)
    have h₁ := hmono l₁
    have h₂ := hmono l₂
    have hnot : ¬ k ≤ a := by omega
    simp only [List.countP_append, List.countP_cons, hkm, hnot, decide_true, decide_false, if_true,
      Bool.false_eq_true,
      if_false]
    omega

theorem History.stamp_lt_iff {h : History} {a m : ℕ} : h.stamp a < h.stamp m ↔ ∃ k ∈ h.iterations, a < k ∧
    k ≤ m := by
  rw [← countP_lt_iff, stamp, stamp]
  omega

theorem LoopInfo.calculateDistance_pos {info : LoopInfo} {t : ℕ} :
    0 < info.calculateDistance t ↔ ∃ x, info.iterationTimeStamps.head? = some x ∧ t < x := by
  rw [LoopInfo.calculateDistance]
  cases info.iterationTimeStamps with
  | nil => simp
  | cons x l => by_cases hx : t < x <;> simp [hx]

theorem trackedDistance_eq (dist : ℕ) : trackedDistance dist = if 0 < dist then 1 else 0 := by
  rw [trackedDistance, maxDepDist]
  by_cases htwo : 2 ≤ dist
  · rw [if_pos htwo, if_pos (by omega)]
  · rw [if_neg htwo]
    split_ifs <;> omega

/-! ### The relation -/

/-- An active loop of the profiler and of the history. -/
structure Level (stamp : ℕ → ℕ) (found : Finset Occurrence) (info : LoopInfo) (a : Active) : Prop where
  loop_eq : info.loopId = a.loop
  distance : ∀ t, 0 < info.calculateDistance t ↔ ∃ k ∈ a.iterations, t < stamp k
  sets : ∀ dep, dep ∈ info.dependenceSets dep.dist ↔ ∃ o ∈ found, o.dep = dep ∧ o.began = a.began

/-- The numbers of an active loop are those of events of the past. -/
structure Active.Past (a : Active) (clock : ℕ) (iterations : List ℕ) : Prop where
  entered_lt : a.entered < clock
  began_lt : a.began < clock
  subset : a.iterations ⊆ iterations

structure LoopsTrack (numLoops : ℕ) (loops : LoopHierarchy) (h : History) : Prop where
  depth_eq : loops.currentDepth = h.depth
  levels : ∀ d ≤ h.depth, Level h.stamp h.found (loops.loopInfo d) (h.active d)
  invocation : ∀ d ≤ h.depth, 0 < d → (loops.loopInfo d).invocationTimeStamp = h.stamp (h.active d).entered
  program : (loops.loopInfo 0).invocationTimeStamp = 0
  past : ∀ d ≤ h.depth, (h.active d).Past h.clock h.iterations
  known : ∀ d ≤ h.depth, (h.active d).loop.toNat ≤ numLoops
  began_lt : ∀ d d', d < d' → d' ≤ h.depth → (h.active d).began < (h.active d').began

structure Counts (profile : Key → MemoryProfile) (found : Finset Occurrence) : Prop where
  total : ∀ key, 0 < (profile key).totalCount ↔ ∃ o ∈ found, o.key = key
  loop : ∀ key, (profile key).loopCount = (found.filter fun o => o.key = key).card

def History.Stored (h : History) (e : ℕ × ℕ) : Prop := e.2 < h.clock ∧ e.2 ∉ h.iterations

def History.mark (h : History) (e : ℕ × ℕ) : Timestamp := ⟨e.1, h.stamp e.2⟩

structure Tracks (cfg : Config) (s : State) (h : History) : Prop where
  time_eq : s.timeStamp = 1 + h.iterations.length
  external_eq : s.externalCallId = h.externalCallId
  wf : s.shadow.Wf
  items : ∀ addr, s.shadow.item addr = (h.lastStore addr).map h.mark
  stored : ∀ addr e, h.lastStore addr = some e → h.Stored e
  iterations_lt : ∀ k ∈ h.iterations, k < h.clock
  loops : LoopsTrack cfg.numLoops s.loops h
  found_lt : ∀ o ∈ h.found, o.began < h.clock
  counts : Counts s.profile h.found
  iterationCount : ∀ l, s.iterationCount l = (h.begun.map UInt16.toNat).count l + if l = 0 then 1 else 0

variable {cfg : Config} {s s' : State} {h : History} {e : ℕ × ℕ}

theorem tracks_init : Tracks cfg .init .init where
  time_eq := rfl
  external_eq := rfl
  wf := Shadow.wf_init.1
  items addr := congrFun Shadow.wf_init.2 addr
  stored := nofun
  iterations_lt := nofun
  loops := by
    refine ⟨rfl, fun d hd => ?_, fun d hd hpos => absurd hd (Nat.not_le_of_lt hpos), ?_,
      fun d hd => ⟨by simp [History.init], by simp [History.init], nofun⟩, fun d _ => Nat.zero_le _,
      fun d d' hlt hd' => absurd hd' (by simp [History.init]; omega)⟩
    · obtain rfl : d = 0 := Nat.le_zero.1 hd
      refine ⟨rfl, fun t => ?_, fun dep => ?_⟩
      · rw [LoopInfo.calculateDistance_pos]
        simp [State.init, LoopHierarchy.setCurrentLoop, LoopHierarchy.update, LoopHierarchy.init,
          LoopInfo.iteration,
          LoopHierarchy.getCurrentLoop, History.init, maxDepDist]
      · simp [State.init, LoopHierarchy.setCurrentLoop, LoopHierarchy.update, LoopHierarchy.init,
          LoopInfo.iteration,
          LoopHierarchy.getCurrentLoop, History.init]
    · rfl
  found_lt := nofun
  counts := ⟨fun key => by simp [State.init, History.init], fun key => rfl⟩
  iterationCount l := by
    by_cases hl : l = 0
    · subst hl
      rfl
    · simp [State.init, History.init, hl]

/-! ### The mark of a byte -/

namespace Tracks

theorem findLoop_eq (ht : Tracks cfg s h) (he : h.Stored e) :
    s.loops.findLoop (h.stamp e.2) = some (h.level e.2) := by
  have hfrom : ∀ d ≤ h.depth, s.loops.findFrom (h.stamp e.2) d =
      Nat.findGreatest (fun d => ∃ k ∈ h.iterations, (h.active d).entered < k ∧ k < e.2) d := by
    intro d hd
    induction d with
    | zero => rfl
    | succ d ih =>
      have hiff : (s.loops.loopInfo (d + 1)).invocationTimeStamp < h.stamp e.2 ↔
          ∃ k ∈ h.iterations, (h.active (d + 1)).entered < k ∧ k < e.2 := by
        rw [ht.loops.invocation (d + 1) hd (Nat.succ_pos d), History.stamp_lt_iff]
        refine exists_congr fun k => and_congr_right fun hk => and_congr_right fun _ => ?_
        exact ⟨fun hle => lt_of_le_of_ne hle fun heq => he.2 (heq ▸ hk), Nat.le_of_lt⟩
      rw [LoopHierarchy.findFrom, Nat.findGreatest_succ, ih (Nat.le_of_succ_le hd)]
      simp only [hiff]
  have hpos : h.stamp e.2 ≠ 0 := by
    rw [History.stamp]
    omega
  rw [LoopHierarchy.findLoop, if_neg hpos, ht.loops.depth_eq, hfrom h.depth le_rfl, ht.loops.program]
  simp [History.level]

theorem level_le (h : History) (m : ℕ) : h.level m ≤ h.depth := Nat.findGreatest_le _

/-- The tracked distance of a store tells if an iteration of the loop began since. -/
theorem distance_eq (ht : Tracks cfg s h) {d m : ℕ} (hd : d ≤ h.depth) :
    trackedDistance ((s.loops.loopInfo d).calculateDistance (h.stamp m)) =
      if ∃ k ∈ (h.active d).iterations, m < k then 1 else 0 := by
  have hiff : 0 < (s.loops.loopInfo d).calculateDistance (h.stamp m) ↔ ∃ k ∈ (h.active d).iterations,
      m < k := by
    rw [(ht.loops.levels d hd).distance]
    refine exists_congr fun k => and_congr_right fun hk => ?_
    rw [History.stamp_lt_iff]
    exact ⟨fun ⟨j, _, hmj, hjk⟩ => by omega, fun hmk => ⟨k, (ht.loops.past d hd).subset hk, hmk, le_rfl⟩⟩
  rw [trackedDistance_eq]
  simp only [hiff]

theorem dep_eq (ht : Tracks cfg s h) (load : ℕ) (e : ℕ × ℕ) :
    (⟨(h.mark e).instr, (s.loops.loopInfo (h.level e.2)).loopId.toNat,
      trackedDistance ((s.loops.loopInfo (h.level e.2)).calculateDistance (h.mark e).timestamp), load⟩ :
      Dependence) =
        (h.occurrence load e).dep := by
  have hlevel := level_le h e.2
  rw [(ht.loops.levels _ hlevel).loop_eq, History.mark, ht.distance_eq hlevel]
  simp [Occurrence.dep, History.occurrence]

end Tracks

def History.insertFound (h : History) (o : Occurrence) : History := { h with found := insert o h.found }

/-- An occurrence that is new in its loop's current iteration is new. -/
theorem LoopsTrack.insert {n : ℕ} {loops : LoopHierarchy} (hl : LoopsTrack n loops h) {o : Occurrence} {d : ℕ}
    (hd : d ≤ h.depth) (hbegan : o.began = (h.active d).began) :
    LoopsTrack n (loops.update d ((loops.loopInfo d).insert o.dep)) (h.insertFound o) := by
  refine ⟨hl.depth_eq, fun d' hd' => ?_, fun d' hd' hpos => ?_, ?_, hl.past, hl.known, hl.began_lt⟩
  · have hlevel := hl.levels d' hd'
    by_cases heq : d' = d
    · subst heq
      simp only [LoopHierarchy.update, Function.update_self]
      refine ⟨hlevel.loop_eq, hlevel.distance, fun dep => ?_⟩
      have hsets := hlevel.sets dep
      simp only [LoopInfo.insert, History.insertFound, Finset.mem_insert]
      by_cases hdep : dep = o.dep
      · subst hdep
        simp only [Function.update_self, Finset.mem_insert_self, true_iff]
        exact ⟨o, .inl rfl, rfl, hbegan⟩
      · have hmem : dep ∈ Function.update (loops.loopInfo d').dependenceSets o.dep.dist
            (Insert.insert o.dep ((loops.loopInfo d').dependenceSets o.dep.dist)) dep.dist ↔
              dep ∈ (loops.loopInfo d').dependenceSets dep.dist := by
          by_cases hdist : dep.dist = o.dep.dist
          · rw [hdist, Function.update_self, Finset.mem_insert]
            exact or_iff_right hdep
          · rw [Function.update_of_ne hdist]
        rw [hmem, hsets]
        constructor
        · rintro ⟨o', ho', hdep', hbegan'⟩
          exact ⟨o', .inr ho', hdep', hbegan'⟩
        · rintro ⟨o', ho' | ho', hdep', hbegan'⟩
          · exact absurd hdep'.symm (by rw [ho']; exact hdep)
          · exact ⟨o', ho', hdep', hbegan'⟩
    · simp only [LoopHierarchy.update, Function.update_of_ne heq]
      refine ⟨hlevel.loop_eq, hlevel.distance, fun dep => (hlevel.sets dep).trans ?_⟩
      have hne : o.began ≠ (h.active d').began := by
        rw [hbegan]
        rcases lt_or_gt_of_ne heq with hlt | hlt
        · exact (hl.began_lt d' d hlt hd).ne'
        · exact (hl.began_lt d d' hlt hd').ne
      simp only [History.insertFound, Finset.mem_insert]
      constructor
      · rintro ⟨o', ho', hdep', hbegan'⟩
        exact ⟨o', .inr ho', hdep', hbegan'⟩
      · rintro ⟨o', ho' | ho', hdep', hbegan'⟩
        · exact absurd (ho' ▸ hbegan') hne
        · exact ⟨o', ho', hdep', hbegan'⟩
  · by_cases heq : d' = d
    · subst heq
      simp only [LoopHierarchy.update, Function.update_self]
      exact hl.invocation d' hd' hpos
    · simp only [LoopHierarchy.update, Function.update_of_ne heq]
      exact hl.invocation d' hd' hpos
  · by_cases heq : 0 = d
    · subst heq
      simp only [LoopHierarchy.update, Function.update_self]
      exact hl.program
    · simp only [LoopHierarchy.update, Function.update_of_ne heq]
      exact hl.program

/-- A new occurrence counts on its line and in its iteration. -/
theorem Counts.insert {profile : Key → MemoryProfile} {found : Finset Occurrence} (hc : Counts profile found)
    {o : Occurrence} (ho : o ∉ found) :
    Counts (Function.update profile o.key ⟨(profile o.key).totalCount + 1, (profile o.key).loopCount + 1⟩)
      (Insert.insert o found) := by
  refine ⟨fun key => ?_, fun key => ?_⟩
  · by_cases hkey : key = o.key
    · subst hkey
      simp
    · simp [hkey, Ne.symm hkey, hc.total key]
  · by_cases hkey : key = o.key
    · subst hkey
      have hnot : o ∉ found.filter fun o' => o'.key = o.key := fun hmem => ho (Finset.mem_filter.1 hmem).1
      rw [Function.update_self, Finset.filter_insert, if_pos rfl, Finset.card_insert_of_notMem hnot,
        ← hc.loop o.key]
    · rw [Function.update_of_ne hkey, Finset.filter_insert, if_neg (Ne.symm hkey), hc.loop key]

theorem Counts.again {profile : Key → MemoryProfile} {found : Finset Occurrence} (hc : Counts profile found)
    {o : Occurrence} (ho : o ∈ found) :
    Counts (Function.update profile o.key { profile o.key with totalCount :=
    (profile o.key).totalCount + 1 }) found := by
  refine ⟨fun key => ?_, fun key => ?_⟩
  · by_cases hkey : key = o.key
    · subst hkey
      simp only [Function.update_self, Nat.succ_pos, true_iff]
      exact ⟨o, ho, rfl⟩
    · rw [Function.update_of_ne hkey, hc.total key]
  · by_cases hkey : key = o.key
    · subst hkey
      rw [Function.update_self, ← hc.loop o.key]
    · rw [Function.update_of_ne hkey, hc.loop key]

namespace Tracks

theorem record (ht : Tracks cfg s h) {load : ℕ} (hload : load < cfg.numInstrs) (he : h.Stored e) :
    ∃ s', s.record cfg load (h.mark e) = some s' ∧ s'.shadow = s.shadow ∧
      Tracks cfg s' (h.insertFound (h.occurrence load e)) := by
  have hfind : s.loops.findLoop (h.mark e).timestamp = some (h.level e.2) := ht.findLoop_eq he
  have hdep := ht.dep_eq load e
  have hlevel := level_le h e.2
  set o := h.occurrence load e with ho
  have hbegan : o.began = (h.active (h.level e.2)).began := rfl
  have hsets := (ht.loops.levels _ hlevel).sets o.dep
  have hlt : o.began < h.clock := by
    rw [hbegan]
    exact (ht.loops.past _ hlevel).began_lt
  have hfound : ∀ o' ∈ Insert.insert o h.found, o'.began < h.clock := by
    intro o' ho'
    rcases Finset.mem_insert.1 ho' with rfl | ho'
    · exact hlt
    · exact ht.found_lt o' ho'
  rw [State.record, hfind]
  have hdist := congrArg Dependence.dist hdep
  simp only [Option.bind_eq_bind, Option.bind_some, if_neg (Nat.not_le.2 hload), hdep, Occurrence.key_dep]
  simp only at hdist
  rw [hdist]
  by_cases hmem : o.dep ∈ (s.loops.loopInfo (h.level e.2)).dependenceSets o.dep.dist
  · rw [if_pos hmem]
    obtain ⟨o', ho', hdep', hbegan'⟩ := hsets.1 hmem
    have hknown : o ∈ h.found := Occurrence.ext_dep hdep' hbegan' ▸ ho'
    have hsame : h.insertFound o = h := by rw [History.insertFound, Finset.insert_eq_of_mem hknown]
    refine ⟨_, rfl, rfl, ?_⟩
    rw [hsame]
    exact { ht with counts := ht.counts.again hknown }
  · rw [if_neg hmem]
    have hnot : o ∉ h.found := fun hin => hmem (hsets.2 ⟨o, hin, rfl, hbegan⟩)
    exact ⟨_, rfl, rfl, { ht with
      loops := ht.loops.insert hlevel hbegan
      found_lt := hfound
      counts := ht.counts.insert hnot }⟩

/-- Stores with the same mark give the same occurrence. -/
theorem occurrence_eq (ht : Tracks cfg s h) {load : ℕ} {e' : ℕ × ℕ} (he : h.Stored e) (he' : h.Stored e')
    (hmark : h.mark e = h.mark e') : h.occurrence load e = h.occurrence load e' := by
  have hlevel : h.level e.2 = h.level e'.2 := by
    have hfind : s.loops.findLoop (h.stamp e.2) = s.loops.findLoop (h.stamp e'.2) :=
      congrArg (fun v => s.loops.findLoop v.timestamp) hmark
    rw [ht.findLoop_eq he, ht.findLoop_eq he'] at hfind
    exact Option.some.inj hfind
  refine Occurrence.ext_dep ?_ ?_
  · rw [← ht.dep_eq load e, ← ht.dep_eq load e', hlevel, hmark]
  · simp only [History.occurrence, hlevel]

end Tracks

theorem History.loadBytes_nil (h : History) (load : ℕ) : h.loadBytes load [] = h := by
  simp [History.loadBytes]

theorem History.loadBytes_cons (h : History) (load : ℕ) (addr : UInt64) (addrs : List UInt64) :
    h.loadBytes load (addr :: addrs) = ((h.lastStore addr).elim h fun e => h.insertFound
    (h.occurrence load e)).loadBytes
      load addrs := by
  cases hstore : h.lastStore addr with
  | none => simp [History.loadBytes, hstore]
  | some e =>
    simp only [History.loadBytes, List.filterMap_cons, hstore, List.map_cons, List.toFinset_cons,
      Option.elim_some,
      History.insertFound, Finset.union_insert, Finset.insert_union]
    rfl

namespace Tracks

/-- The loop over the bytes of a load finds the occurrences of all bytes. -/
theorem memoryProfile {load : ℕ} {addrs : List UInt64} {lastStore : Option Timestamp} (ht : Tracks cfg s h)
    (hload : load < cfg.numInstrs) (hpage : ∀ addr ∈ addrs, s.shadow.pageCache load = amPageAddr addr)
    (hlast : ∀ v, lastStore = some v → ∃ e, h.Stored e ∧ v = h.mark e ∧ h.occurrence load e ∈ h.found) :
    ∃ s', State.memoryProfile cfg load addrs lastStore s = some s' ∧ s'.shadow = s.shadow ∧
      Tracks cfg s' (h.loadBytes load addrs) := by
  induction addrs generalizing s h lastStore with
  | nil => exact ⟨s, rfl, rfl, by rwa [History.loadBytes_nil]⟩
  | cons addr addrs ih =>
    have hitem : s.shadow.getItem load addr = some ((h.lastStore addr).map h.mark) := by
      rw [Shadow.getItem_eq ht.wf (hpage addr List.mem_cons_self), ht.items]
    have hpages : ∀ a ∈ addrs, s.shadow.pageCache load = amPageAddr a :=
      fun a ha => hpage a (List.mem_cons_of_mem _ ha)
    rw [State.memoryProfile, hitem, History.loadBytes_cons]
    cases hstore : h.lastStore addr with
    | none => exact ih ht hpages hlast
    | some e =>
      have he := ht.stored addr e hstore
      simp only [Option.map_some, Option.bind_eq_bind, Option.bind_some, Option.elim_some]
      by_cases hsame : lastStore = some (h.mark e)
      · rw [if_pos hsame]
        obtain ⟨e', he', hmark, hfound⟩ := hlast _ hsame
        have hknown : h.insertFound (h.occurrence load e) = h := by
          rw [ht.occurrence_eq he he' hmark, History.insertFound, Finset.insert_eq_of_mem hfound]
        rw [hknown]
        exact ih ht hpages hlast
      · rw [if_neg hsame]
        obtain ⟨s₁, hrecord, hshadow, ht₁⟩ := ht.record hload he
        rw [hrecord, Option.bind_some]
        have hlast₁ : ∀ v, some (h.mark e) = some v → ∃ e', (h.insertFound (h.occurrence load e)).Stored e' ∧
            v = (h.insertFound (h.occurrence load e)).mark e' ∧
              (h.insertFound (h.occurrence load e)).occurrence load e' ∈
                (h.insertFound (h.occurrence load e)).found := by
          rintro v hv
          exact ⟨e, he, (Option.some.inj hv).symm, Finset.mem_insert_self _ _⟩
        obtain ⟨s₂, hrest, hshadow₂, ht₂⟩ := ih ht₁ (by rwa [hshadow]) hlast₁
        exact ⟨s₂, hrest, hshadow₂.trans hshadow, ht₂⟩

theorem setShadow (ht : Tracks cfg s h) {shadow : Shadow Timestamp} (hwf : shadow.Wf)
    (hitem : shadow.item = s.shadow.item) : Tracks cfg { s with shadow := shadow } h :=
  { ht with
    wf := hwf
    items := fun addr => by rw [hitem, ht.items] }

theorem touch (ht : Tracks cfg s h) {instr : ℕ} (hinstr : instr < cfg.numInstrs) (addr : UInt64) :
    ∃ shadow, s.touch cfg instr addr = some { s with shadow := shadow } ∧ shadow.Wf ∧
      shadow.item = s.shadow.item ∧ shadow.pageCache instr = amPageAddr addr := by
  obtain ⟨shadow, hshadow, hwf, hitem, hcache⟩ := Shadow.setStampPage_spec ht.wf instr addr
  exact ⟨shadow, by simp [State.touch, Nat.not_le.2 hinstr, hshadow], hwf, hitem, hcache⟩

/-- An access whose bytes lie in one page. -/
theorem alignedLoad (ht : Tracks cfg s h) {load : ℕ} (hload : load < cfg.numInstrs) {addr : UInt64} {size : ℕ}
    (hpage : ∀ a ∈ State.bytes addr size, amPageAddr a = amPageAddr addr) :
    ∃ s', s.alignedLoad cfg load addr size = some s' ∧
    Tracks cfg s' (h.loadBytes load (State.bytes addr size)) := by
  obtain ⟨shadow, htouch, hwf, hitem, hcache⟩ := ht.touch hload addr
  obtain ⟨s', hprofile, _, ht'⟩ := (ht.setShadow hwf hitem).memoryProfile hload
    (fun a ha => hcache.trans (hpage a ha).symm) fun v (hv : none = some v) => nomatch hv
  exact ⟨s', by simp [State.alignedLoad, htouch, hprofile], ht'⟩

end Tracks

theorem bytes_one (addr : UInt64) : State.bytes addr 1 = [addr] := by simp [State.bytes]

theorem amPageAddr_of_mem_one (addr : UInt64) : ∀ a ∈ State.bytes addr 1, amPageAddr a = amPageAddr addr := by
  simp [bytes_one]

/-- The bytes of an aligned access lie in one page. -/
theorem amPageAddr_of_mem_bytes {addr : UInt64} {w : Slamp.Width} (haligned : addr.toNat % w.bytes = 0) :
    ∀ a ∈ State.bytes addr w.bytes, amPageAddr a = amPageAddr addr := by
  intro a ha
  obtain ⟨i, hi, rfl⟩ := List.mem_map.1 ha
  exact amPageAddr_add (by cases w <;> decide) haligned (List.mem_range.1 hi)

namespace Tracks

theorem loadEach {load : ℕ} {f : State → UInt64 → Option State}
    (hf : ∀ s h addr, Tracks cfg s h → ∃ s', f s addr = some s' ∧ Tracks cfg s' (h.loadBytes load [addr]))
    {addrs : List UInt64} (ht : Tracks cfg s h) :
    ∃ s', addrs.foldlM f s = some s' ∧ Tracks cfg s' (h.loadBytes load addrs) := by
  induction addrs generalizing s h with
  | nil => exact ⟨s, rfl, by rwa [History.loadBytes_nil]⟩
  | cons addr addrs ih =>
    obtain ⟨s₁, hs₁, ht₁⟩ := hf s h addr ht
    obtain ⟨s₂, hs₂, ht₂⟩ := ih ht₁
    refine ⟨s₂, by simp [List.foldlM_cons, hs₁, hs₂], ?_⟩
    rwa [History.loadBytes_cons, History.loadBytes_nil, ← History.loadBytes_cons] at ht₂

theorem load (ht : Tracks cfg s h) {w : Slamp.Width} {instr : ℕ} (hinstr : instr < cfg.numInstrs)
    (addr : UInt64) :
    ∃ s', s.load cfg w instr addr = some s' ∧ Tracks cfg s' (h.loadBytes instr (State.bytes addr w.bytes)) := by
  rw [State.load]
  by_cases haligned : addr.toNat % w.bytes = 0
  · rw [if_neg (not_not.2 haligned)]
    exact ht.alignedLoad hinstr (amPageAddr_of_mem_bytes haligned)
  · rw [if_pos haligned]
    refine ht.loadEach fun s h a ht => ?_
    have hone := ht.alignedLoad hinstr (amPageAddr_of_mem_one a)
    rwa [bytes_one] at hone

end Tracks

end Cpf.Lamp
