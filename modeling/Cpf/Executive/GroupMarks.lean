import Cpf.Executive.Group

/-!
# The marks of a worker inside a checkpoint group

Every access keeps `Tracked`: the marks of a worker tell which bytes it has written in the group
and which it has read before writing them.
-/

namespace Cpf.Executive
open Heap

theorem ReadsAs.cases {code : UInt8} {S R : ℕ → Prop} {h h' : Heap} (hr : ReadsAs code S R h h')
    (k : ℕ) : h' k = h k ∨ R k ∧ h k = liveIn ∧ h' k = readLiveIn := by
  rcases hr.frame k with he | ⟨hR, hm⟩
  · exact Or.inl he
  · rcases readMark_eq_some hm with ⟨hl, hread⟩ | ⟨_, _, he⟩
    · exact Or.inr ⟨hR, hl, hread⟩
    · exact Or.inl he

namespace Tracked

variable {size : HeapLen} {g : Group size.val} {H : List (ℕ × Op)} {w v : Worker} {j : ℕ} {o : Op}

theorem initial (g : Group size.val) (w : Fin g.numWorkers) : Tracked g [] (g.initial w) where
  first := g.initial_first w
  granularity := g.initial_granularity w
  untouched k _ := ⟨by simp, congrFun (g.initial_priv w) k⟩
  written k hne := absurd (g.initial_shadow w k) hne
  exposed k he := by
    obtain ⟨H₁, i, r, H₂, hnil, _⟩ := he
    simp at hnil
  covered k hne := absurd (g.initial_shadow w k) hne
  within := g.initial_range w

theorem advanceIter (ht : Tracked g H w) (i : ℕ) : Tracked g H (w.advanceIter i 1) :=
  ⟨ht.first, ht.granularity, ht.untouched, ht.written, ht.exposed, ht.covered, ht.within⟩

theorem advanceIter_code8 (ht : Tracked g H w) (i : ℕ) : (w.advanceIter i 1).code8 = g.code i := by
  change iterCode w.firstIteration w.checkpointGranularity i = _
  rw [ht.first, ht.granularity]
  rfl

/-- A read finds the byte live-in, unless the iteration has written it itself. -/
theorem mark_of_read (ht : Tracked g H w) (hcode : w.code8 = g.code j) (hj : g.base ≤ j)
    (hj' : j < g.stop) (hH : ∀ e ∈ H, g.base ≤ e.1 ∧ e.1 < g.stop)
    (h16 : o.access.isStride16 = false) (h : o.access.call w = .ok v) {k : ℕ}
    (hreads : o.access.Reads k) (hno : ∀ e ∈ H, e.1 = j → ¬ e.2.access.Writes k) :
    (w.shadow k = liveIn ∨ w.shadow k = readLiveIn) ∧ v.shadow k = readLiveIn := by
  obtain ⟨hc0, hc1⟩ := g.code_ne hj hj'
  have hmark := (Access.call_reads hreads.1 h16 (hcode ▸ hc0) h).marks k hreads.2
  rcases readMark_eq_some hmark with ⟨hl, hread⟩ | ⟨hl, hcases, hsame⟩
  · exact ⟨Or.inl hl, hread⟩
  · rcases hcases with hown | hread
    · exfalso
      rw [hcode] at hown
      obtain ⟨e, he, hwrites, hmark'⟩ := ht.written k hl (by rw [hown]; exact hc1)
      obtain ⟨hlo, hhi⟩ := hH e he
      exact hno e he (g.code_inj hlo hhi hj hj' (hmark'.symm.trans hown)) hwrites
    · exact ⟨Or.inr hread, hsame.trans hread⟩

theorem read (ht : Tracked g H w) (hcode : w.code8 = g.code j) (hj : g.base ≤ j)
    (hj' : j < g.stop) (hH : ∀ e ∈ H, g.base ≤ e.1 ∧ e.1 < g.stop)
    (hread : o.access.isWrite = false) (h16 : o.access.isStride16 = false)
    (hin : o.access.InHeap size.val) (h : o.access.call w = .ok v) :
    Tracked g (H ++ [(j, o)]) v := by
  have hk := Access.call_keeps h
  have hreads := Access.call_reads hread h16 (hcode ▸ (g.code_ne hj hj').1) h
  have hnw : ∀ k, ¬ o.access.Writes k := fun k hw => by
    rw [hw.1] at hread
    cases hread
  refine ⟨hk.firstIteration.trans ht.first, hk.checkpointGranularity.trans ht.granularity,
    fun k hm => ?_, fun k hne hnr => ?_, fun k he => ?_, fun k hne => ?_, ?_⟩
  · have hold : w.shadow k = liveIn ∨ w.shadow k = readLiveIn := by
      rcases hreads.cases k with he | ⟨_, hl, _⟩
      · rwa [he] at hm
      · exact Or.inl hl
    obtain ⟨hno, hval⟩ := ht.untouched k hold
    refine ⟨fun e he => ?_, by rw [hk.priv, hval]⟩
    rcases List.mem_append.1 he with he | he
    · exact hno e he
    · rw [List.mem_singleton.1 he]
      exact hnw k
  · have hsame : v.shadow k = w.shadow k := by
      rcases hreads.cases k with he | ⟨_, _, hr⟩
      · exact he
      · exact absurd hr hnr
    obtain ⟨e, he, hwrites, hmark⟩ := ht.written k (hsame ▸ hne) (hsame ▸ hnr)
    exact ⟨e, List.mem_append_left _ he, hwrites, hsame.trans hmark⟩
  · rcases exposed_append_singleton he with hold | ⟨hreadk, hno⟩
    · have hmark := ht.exposed k hold
      rcases hreads.cases k with hsame | ⟨_, _, hr⟩
      · rw [hsame, hmark]
      · exact hr
    · exact (ht.mark_of_read hcode hj hj' hH h16 h hreadk hno).2
  · rcases hreads.cases k with hsame | ⟨hR, _, _⟩
    · rw [hk.range]
      exact Access.coversWord_touchedRange (ht.covered k (hsame ▸ hne))
    · exact hR
  · rw [hk.range]
    exact Access.within_touchedRange ht.within size.lt hin

theorem write (ht : Tracked g H w) (hcode : w.code8 = g.code j) (hj : g.base ≤ j)
    (hj' : j < g.stop) (hwrite : o.access.isWrite = true) (hin : o.access.InHeap size.val)
    (hfresh : Fresh o.access.Touches w.shadow) (h : o.access.call w = .ok v) :
    Tracked g (H ++ [(j, o)])
      { v with priv := fun k => if o.access.Writes k then o.data k else v.priv k } := by
  have hk := Access.call_keeps h
  have hover := Access.call_writes hwrite h
  obtain ⟨hc0, hc1⟩ := g.code_ne hj hj'
  refine ⟨hk.firstIteration.trans ht.first, hk.checkpointGranularity.trans ht.granularity,
    fun k hm => ?_, fun k hne hnr => ?_, fun k he => ?_, fun k hne => ?_, ?_⟩
  · have hnt : ¬ o.access.Touches k := by
      intro htouch
      have hmark : v.shadow k = g.code j := (hover.marks k htouch).trans hcode
      rcases hm with hm | hm
      · exact hc0 (hmark.symm.trans hm)
      · exact hc1 (hmark.symm.trans hm)
    have hnw : ¬ o.access.Writes k := fun hw => hnt hw.2
    have hsame : v.shadow k = w.shadow k := hover.frame k hnt
    obtain ⟨hno, hval⟩ := ht.untouched k (by rwa [← hsame])
    refine ⟨fun e he => ?_, ?_⟩
    · rcases List.mem_append.1 he with he | he
      · exact hno e he
      · rw [List.mem_singleton.1 he]
        exact hnw
    · change (if o.access.Writes k then o.data k else v.priv k) = _
      rw [if_neg hnw, hk.priv, hval]
  · by_cases htouch : o.access.Touches k
    · exact ⟨(j, o), by simp, ⟨hwrite, htouch⟩, (hover.marks k htouch).trans hcode⟩
    · have hsame : v.shadow k = w.shadow k := hover.frame k htouch
      obtain ⟨e, he, hwrites, hmark⟩ := ht.written k (hsame ▸ hne) (hsame ▸ hnr)
      exact ⟨e, List.mem_append_left _ he, hwrites, hsame.trans hmark⟩
  · rcases exposed_append_singleton he with hold | ⟨hreadk, _⟩
    · have hmark := ht.exposed k hold
      exact (hover.frame k (fun htouch => hfresh k htouch hmark)).trans hmark
    · rw [hreadk.1] at hwrite
      cases hwrite
  · change v.range.CoversWord k
    rw [hk.range]
    by_cases htouch : o.access.Touches k
    · exact (Access.touchedRange_covers htouch).coversWord
    · have hsame : v.shadow k = w.shadow k := hover.frame k htouch
      exact Access.coversWord_touchedRange (ht.covered k (hsame ▸ hne))
  · change v.range.Within size.val
    rw [hk.range]
    exact Access.within_touchedRange ht.within size.lt hin

/-- The step lemma: an access of iteration `j` that does not misspeculate keeps the relation. -/
theorem exec (ht : Tracked g H w) (hcode : w.code8 = g.code j) (hj : g.base ≤ j)
    (hj' : j < g.stop) (hH : ∀ e ∈ H, g.base ≤ e.1 ∧ e.1 < g.stop)
    (h16 : o.access.isStride16 = false) (hin : o.access.InHeap size.val)
    (hguard : o.access.skipsCheck w = true → Fresh o.access.Touches w.shadow)
    (h : o.exec w = .ok v) : Tracked g (H ++ [(j, o)]) v ∧ v.code8 = g.code j := by
  obtain ⟨u, hu, hv⟩ := bind_eq_ok.1 h
  cases hv
  refine ⟨?_, (Access.call_keeps hu).code8.trans hcode⟩
  cases hwrite : o.access.isWrite with
  | false =>
      have hpriv : (fun k => if o.access.Writes k then o.data k else u.priv k) = u.priv := by
        funext k
        exact if_neg (fun hw => by rw [hw.1] at hwrite; cases hwrite)
      rw [hpriv]
      exact ht.read hcode hj hj' hH hwrite h16 hin hu
  | true =>
      refine ht.write hcode hj hj' hwrite hin ?_ hu
      cases hskip : o.access.skipsCheck w with
      | false => exact Access.call_fresh hwrite hskip hu
      | true => exact hguard hskip

end Tracked

end Cpf.Executive
