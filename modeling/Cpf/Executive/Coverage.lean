import Cpf.Executive.Join

/-!
# The iterations that the adopted checkpoints hold

The leading complete checkpoints hold the effects of consecutive iterations, from the start of the
workers on; without a misspeculation up to the end of the loop. After a misspeculation the last of
them is a boundary that the misspeculating worker has passed.
-/

namespace Cpf.Executive

open Loop

variable {cfg : Config} {loop : Loop cfg} {s : State cfg} {first : ℕ} {misspec : Bool}
  {merges : Fin cfg.numWorkers → ℕ} {effects : ℕ → List ℕ} {low m : ℕ} {c : Checkpoint}
  {l : List Checkpoint}

/-- Where the groups before `m` end. -/
def Loop.reach (loop : Loop cfg) (first m : ℕ) : ℕ :=
  min (groupStart cfg first m) (loop.stop first)

theorem Loop.reach_eq (h : m < loop.numGroups first) : loop.reach first m = groupStart cfg first m :=
  min_eq_left (groupStart_le_iff.2 h)

theorem Loop.reach_numGroups : loop.reach first (loop.numGroups first) = loop.stop first :=
  groupEnd_of_last (m := (loop.trip - first) / cfg.granularity) rfl

theorem Loop.reach_mono {m' : ℕ} (h : m ≤ m') : loop.reach first m ≤ loop.reach first m' :=
  min_le_min_right _ (groupStart_mono h)

theorem Loop.first_le_reach : first ≤ loop.reach first m := le_min (Nat.le_add_right _ _) le_stop

namespace GroupOk

theorem effects_of_complete (h : GroupOk loop first misspec merges effects low m c)
    (hc : c.type = .clComplete) :
    (effects c.iteration : Multiset ℕ) = (forRange low (loop.reach first (m + 1)) 1 : Multiset ℕ) := by
  rw [h.effects, Multiset.filter_eq_self.2 (fun i _ => h.passed hc _)]
  rfl

/-- The output of a complete checkpoint is that of its group, in order. -/
theorem output_of_complete (h : GroupOk loop first misspec merges effects low m c)
    (hm : m < loop.numGroups first) (hc : c.type = .clComplete)
    (hrun : ∀ w < cfg.numWorkers, c.ioEvents.NoOverrun w) :
    c.ioEvents.commitIo cfg.numWorkers =
      (forRange (loop.reach first m) (loop.reach first (m + 1)) 1).flatMap loop.evts := by
  rw [reach_eq hm]
  refine IOEvtSet.commitIo_eq loop.evts_iter (fun i => (loop.owner i).isLt) (pairwise_forRange _ _)
    (fun w hw => ?_) hrun
  exact h.events ⟨w, hw⟩ (h.passed hc _)

end GroupOk

theorem effects_of_numbered (hl : Numbered (fun m c => GroupOk loop first misspec merges effects
      (groupStart cfg first m) m c) m l) (hc : ∀ c ∈ l, c.type = .clComplete)
    (hlen : m + l.length ≤ loop.numGroups first) :
    (l.flatMap (fun c => effects c.iteration) : Multiset ℕ) =
      (forRange (loop.reach first m) (loop.reach first (m + l.length)) 1 : Multiset ℕ) := by
  induction l generalizing m with
  | nil => simp
  | cons c l ih =>
      obtain ⟨hhead, htail⟩ := hl
      rw [List.length_cons, Nat.add_comm l.length, ← Nat.add_assoc] at hlen ⊢
      have hrest := ih htail (fun d hd => hc d (List.mem_cons_of_mem _ hd)) hlen
      have hhead' := hhead.effects_of_complete (hc c List.mem_cons_self)
      rw [← reach_eq (show m < loop.numGroups first by omega)] at hhead'
      rw [List.flatMap_cons, ← Multiset.coe_add, hrest, hhead', Multiset.coe_add,
        ← forRange_append (reach_mono (Nat.le_add_right m 1)) (reach_mono (Nat.le_add_right _ _))]

theorem output_of_numbered {lows : ℕ → ℕ} (hl : Numbered (fun m c => GroupOk loop first misspec
      merges effects (lows m) m c) m l) (hc : ∀ c ∈ l, c.type = .clComplete)
    (hlen : m + l.length ≤ loop.numGroups first)
    (hrun : ∀ c ∈ l, ∀ w < cfg.numWorkers, c.ioEvents.NoOverrun w) :
    l.flatMap (fun c => c.ioEvents.commitIo cfg.numWorkers) =
      (forRange (loop.reach first m) (loop.reach first (m + l.length)) 1).flatMap loop.evts := by
  induction l generalizing m with
  | nil => simp
  | cons c l ih =>
      obtain ⟨hhead, htail⟩ := hl
      rw [List.length_cons, Nat.add_comm l.length, ← Nat.add_assoc] at hlen ⊢
      have hrest := ih htail (fun d hd => hc d (List.mem_cons_of_mem _ hd)) hlen
        (fun d hd => hrun d (List.mem_cons_of_mem _ hd))
      have hhead' := hhead.output_of_complete (by omega) (hc c List.mem_cons_self)
        (hrun c List.mem_cons_self)
      rw [List.flatMap_cons, hrest, hhead', ← List.flatMap_append,
        ← forRange_append (reach_mono (Nat.le_add_right m 1)) (reach_mono (Nat.le_add_right _ _))]

namespace EpisodeOk

theorem numbered_leading (h : EpisodeOk loop s) :
    Numbered (fun m c => GroupOk loop s.firstIteration s.misspeculationHappened s.merges
      s.effects (Loop.low cfg s.firstIteration s.emitted.length m) m c) s.emitted.length
      (leading s.used) :=
  h.groups.takeWhile _

theorem leading_length_le (h : EpisodeOk loop s) :
    s.emitted.length + (leading s.used).length ≤ loop.numGroups s.firstIteration :=
  le_trans (Nat.add_le_add_left (List.Sublist.length_le (List.takeWhile_sublist _)) _) h.length_le

/-- The adopted checkpoints hold the iterations since the start of the workers. -/
theorem effects_leading (h : EpisodeOk loop s) (hne : leading s.used ≠ []) :
    ((leading s.used).flatMap (fun c => s.effects c.iteration) : Multiset ℕ) =
      (forRange s.firstIteration (loop.reach s.firstIteration
        (s.emitted.length + (leading s.used).length)) 1 : Multiset ℕ) := by
  have hnum := h.numbered_leading
  have hlen := h.leading_length_le
  have hcomplete : ∀ c ∈ leading s.used, c.type = .clComplete :=
    fun c hc => complete_of_mem_leading hc
  obtain ⟨c, cs, hcs⟩ := List.exists_cons_of_ne_nil hne
  rw [hcs] at hnum hlen hcomplete ⊢
  obtain ⟨hhead, htail⟩ := hnum
  rw [low_self] at hhead
  rw [List.length_cons, Nat.add_comm cs.length, ← Nat.add_assoc] at hlen ⊢
  have htail' := effects_of_numbered
    (htail.mono (fun i hi _ d hd => by rwa [low_of_ne (by omega)] at hd))
    (fun d hd => hcomplete d (List.mem_cons_of_mem _ hd)) hlen
  rw [List.flatMap_cons, ← Multiset.coe_add, htail',
    hhead.effects_of_complete (hcomplete c List.mem_cons_self), Multiset.coe_add,
    ← forRange_append first_le_reach (reach_mono (Nat.le_add_right _ _))]

theorem output_leading (h : EpisodeOk loop s)
    (hrun : ∀ c ∈ leading s.used, ∀ w < cfg.numWorkers, c.ioEvents.NoOverrun w) :
    (leading s.used).flatMap (fun c => c.ioEvents.commitIo cfg.numWorkers) =
      (forRange (loop.reach s.firstIteration s.emitted.length) (loop.reach s.firstIteration
        (s.emitted.length + (leading s.used).length)) 1).flatMap loop.evts :=
  output_of_numbered h.numbered_leading (fun _ hc => complete_of_mem_leading hc)
    h.leading_length_le hrun

/-- Without a misspeculation everything is adopted, up to the end of the loop. -/
theorem leading_of_done (h : EpisodeOk loop s) (hmis : s.misspeculationHappened = false)
    (hdone : ∀ w, (s.procs w).pc = .done) :
    leading s.used ≠ [] ∧
      s.emitted.length + (leading s.used).length = loop.numGroups s.firstIteration := by
  have hmerges := h.merges_of_done hmis hdone
  have hall : leading s.used = s.used :=
    List.takeWhile_eq_self_iff.2 (fun c hc => by simpa using h.complete_of_done hmis hdone hc)
  have hw : Fin cfg.numWorkers := ⟨0, cfg.workers_pos⟩
  have hle := h.merges_le hw
  rw [hmerges] at hle
  refine ⟨fun hnil => ?_, ?_⟩
  · rw [hall] at hnil
    rw [hnil, List.length_nil] at hle
    have hpos : 0 < loop.numGroups s.firstIteration := Nat.succ_pos _
    have hpassed := h.passed (by omega) hw
    rw [hmerges] at hpassed
    omega
  · rw [hall]
    exact le_antisymm h.length_le hle

/-- After a misspeculation the last adopted boundary is before the misspeculated iteration, and the
iterations before it are all adopted. -/
theorem last_leading (h : EpisodeOk loop s) (hmis : s.misspeculationHappened = true)
    (hlast : (leading s.used).getLast? = some c) :
    c.iteration = loop.reach s.firstIteration (s.emitted.length + (leading s.used).length) ∧
      c.iteration ≤ loop.trip ∧ c.iteration ≤ s.misspeculatedIteration := by
  have hmem : c ∈ leading s.used := List.mem_of_getLast? hlast
  have hcomplete := complete_of_mem_leading hmem
  obtain ⟨i, hi, hgroup⟩ := h.numbered_leading.getLast hlast
  rcases (h.misspec hmis).2 with ⟨v, _, hcur, hlt⟩ | ⟨d, ds, hused, htype, _⟩
  · have hpassed := hgroup.passed hcomplete v
    have hnext : i + 1 < loop.numGroups s.firstIteration := by omega
    have hstart := (h.procs v).start_le hlt
    rw [hcur] at hstart
    rw [← hi, reach_eq hnext, hgroup.iteration, boundary_of_lt hnext]
    refine ⟨rfl, ?_, le_trans (groupStart_mono hpassed) hstart⟩
    rw [← stop_of_lt hnext]
    exact groupStart_le_iff.2 hnext
  · rw [hused, leading_cons_of_not_complete htype] at hmem
    cases hmem

end EpisodeOk
end Cpf.Executive
