import Cpf.CodeGen.StageCode

/-!
# A stage follows the loop

The graph of one iteration ends with the back edge and the exits. When the copied branches are those on which
the relevant blocks and the end of the iteration are control dependent, a stage that is given the outcomes of
its branches runs the clones of the relevant blocks of every run of the loop, in the same order, and leaves by
the same exit.
-/

set_option linter.unusedSectionVars false

namespace Cpf.CodeGen

variable {β ι : Type*} [DecidableEq β]

namespace Loop

variable (L : Loop β ι)

/-- Where an edge to a block leads within an iteration. -/
def edgeTo (b : β) : LoopBlock β :=
  if b = L.header then .loopContinue else if b ∈ L.blocks then .block b else .loopExit b

def graph : ControlGraph (LoopBlock β) where
  Succ v w := ∃ b c, v = .block b ∧ b ∈ L.blocks ∧ c ∈ L.liveSuccs b ∧ w = L.edgeTo c
  End v := v.isAfterIteration = true

def edges : List (LoopBlock β × LoopBlock β) :=
  L.blocks.flatMap fun b => (L.liveSuccs b).map fun c => (.block b, L.edgeTo c)

theorem mem_edges {v w : LoopBlock β} : (v, w) ∈ L.edges ↔ L.graph.Succ v w := by
  constructor
  · intro h
    obtain ⟨b, hb, h⟩ := List.mem_flatMap.1 h
    obtain ⟨c, hc, heq⟩ := List.mem_map.1 h
    cases heq
    exact ⟨b, c, rfl, hb, hc, rfl⟩
  · rintro ⟨b, c, rfl, hb, hc, rfl⟩
    exact List.mem_flatMap.2 ⟨b, hb, List.mem_map_of_mem hc⟩

/-- A natural loop whose back edges are not speculatively dead. -/
structure Natural : Prop where
  header_mem : L.header ∈ L.blocks
  reaches : ∀ b ∈ L.blocks, Relation.ReflTransGen L.graph.Succ (.block b) .loopContinue
  back_live : ∀ b ∈ L.blocks, L.header ∈ L.succs b → L.header ∈ L.liveSuccs b

variable {L} {b c : β}

theorem mem_liveSuccs {sn : ℕ} (h : (L.succs b)[sn]? = some c) (hlive : L.isSpeculativelyDead b sn = false) :
    c ∈ L.liveSuccs b := by
  refine List.mem_map.2 ⟨(c, sn), List.mem_filter.2 ⟨?_, by simp [hlive]⟩, rfl⟩
  exact List.mem_zipIdx_iff_getElem?.2 h

theorem graph_succ (hb : b ∈ L.blocks) (hc : c ∈ L.liveSuccs b) : L.graph.Succ (.block b) (L.edgeTo c) :=
  ⟨b, c, rfl, hb, hc, rfl⟩

theorem edgeTo_header : L.edgeTo L.header = .loopContinue := if_pos rfl

theorem edgeTo_block (hb : b ∈ L.blocks) (hne : b ≠ L.header) : L.edgeTo b = .block b := by
  rw [edgeTo, if_neg hne, if_pos hb]

theorem Natural.toEnd (h : L.Natural) (hb : b ∈ L.blocks) : ∃ p, L.graph.ToEnd (.block b) p := by
  have hwalk : ∀ v, Relation.ReflTransGen L.graph.Succ v .loopContinue → ∃ p, L.graph.ToEnd v p := by
    intro v hv
    induction hv using Relation.ReflTransGen.head_induction_on with
    | refl => exact ⟨_, .last rfl⟩
    | head hs _ ih =>
        obtain ⟨p, hp⟩ := ih
        exact ⟨_, .step hs hp⟩
  exact hwalk _ (h.reaches b hb)

theorem Natural.toEnd_edge (h : L.Natural) (c : β) : ∃ p, L.graph.ToEnd (L.edgeTo c) p := by
  rw [edgeTo]
  split_ifs with hheader hmem
  · exact ⟨_, .last rfl⟩
  · exact h.toEnd hmem
  · exact ⟨_, .last rfl⟩

end Loop

namespace StageOf

variable (S : StageOf β ι)

/-- What the stage sees of an iteration: its relevant blocks and the end. -/
def Observable : LoopBlock β → Prop
  | .beforeIteration => False
  | .block b => b ∈ S.plan.rel
  | .loopContinue | .loopExit _ => True

def Decides (v : LoopBlock β) : Prop := ∃ b ∈ S.loop.blocks, v = .block b ∧ S.copiesTerminator b

/-- What code generation relies on. The immediate post-dominators are right, and the branches on which the
relevant blocks and the end of the iteration depend are copied. An irrelevant header is neither looked up for
an edge block nor the default of a clone. -/
structure Prepared : Prop where
  natural : S.loop.Natural
  ipdom : ∀ b ∈ S.loop.blocks, (∃ w, S.loop.graph.StrictPostDom w (.block b)) →
    S.loop.graph.IsImmediate (S.ipdom (.block b)) (.block b)
  rel_mem : ∀ b ∈ S.plan.rel, b ∈ S.loop.blocks
  term_rel : ∀ b ∈ S.loop.blocks, S.copiesTerminator b → b ∈ S.plan.rel
  controls : ∀ n v, S.Observable n → S.loop.graph.ControlDep n v → S.Decides v
  begins : ∃ b ∈ S.plan.rel, Relation.ReflTransGen S.loop.graph.Succ (.block S.loop.header) (.block b)
  header : S.loop.header ∈ S.plan.rel ∨
    (∀ c ∈ S.loop.blocks, c ∉ S.plan.rel → ¬ S.isHeaderCritEdge c) ∧
      ∀ b ∈ S.plan.rel, ¬ S.copiesTerminator b → ∀ c ∈ S.loop.liveSuccs b, c ≠ S.loop.header →
        ∀ l, ¬ S.loop.graph.Silent S.Observable (.block c) l .loopContinue

/-- A node of the new function that leads to what the stage sees next. -/
def Leads (n : Node β) : LoopBlock β → Prop
  | .beforeIteration => False
  | .block b => n = .clone b
  | .loopContinue => n = .preheader ∨ S.entry = some n
  | .loopExit b => n = .exit b

variable {S} {b c e : β} {v w : LoopBlock β} {l : List (LoopBlock β)} {n : Node β}

namespace Prepared

theorem closed (h : S.Prepared) : S.loop.graph.Closed S.Observable S.Decides where
  obs v hv := by
    obtain ⟨b, hb, rfl, hcopies⟩ := hv
    exact h.term_rel b hb hcopies
  ends v hv := by
    cases v with
    | beforeIteration => cases hv
    | block b => cases hv
    | loopContinue => trivial
    | loopExit b => trivial
  controls := h.controls
  reaches u v hs := by
    obtain ⟨_, c, rfl, _, _, rfl⟩ := hs
    exact h.natural.toEnd_edge c

/-- The end of a silent walk can be walked on from. -/
theorem toEnd_of_silent (h : S.Prepared) (hl : S.loop.graph.Silent S.Observable v l w)
    (hv : ∃ p, S.loop.graph.ToEnd v p) : ∃ p, S.loop.graph.ToEnd w p := by
  induction hl with
  | here _ => exact hv
  | step _ hs _ ih => exact ih (h.closed.reaches _ _ hs)

/-- The blocks before the next observable node are blocks of the loop. -/
theorem silent_subset (hl : S.loop.graph.Silent S.Observable v l w) :
    l ⊆ S.loop.blocks.map LoopBlock.block := by
  induction hl with
  | here _ => exact List.nil_subset _
  | step _ hs _ ih =>
      obtain ⟨b, _, rfl, hb, _⟩ := hs
      exact List.cons_subset.2 ⟨List.mem_map_of_mem hb, ih⟩

theorem exit_not_mem (hl : S.loop.graph.Silent S.Observable v l (.loopExit e)) (hv : v ≠ .loopExit e) :
    e ∉ S.loop.blocks := by
  generalize hw : LoopBlock.loopExit e = w at hl
  induction hl with
  | here _ => exact absurd hw.symm hv
  | @step v u w l _ hs hl ih =>
      obtain ⟨b, c, rfl, hb, _, rfl⟩ := hs
      by_cases hu : S.loop.edgeTo c = .loopExit e
      · rw [Loop.edgeTo] at hu
        split_ifs at hu with hheader hmem
        cases hu
        exact hmem
      · exact ih hu hw

theorem crpd_from (h : S.Prepared) (hl : S.loop.graph.Silent S.Observable v l w)
    (hend : ∃ p, S.loop.graph.ToEnd w p)
    {fuel : ℕ} (hfuel : l.length < fuel) : S.closestRelevantPostdomFrom fuel v = some w := by
  induction fuel generalizing v l with
  | zero => omega
  | succ fuel ih =>
      rw [closestRelevantPostdomFrom]
      by_cases hv : S.Observable v
      · cases hl with
        | step hnot _ _ => exact absurd hv hnot
        | here _ =>
            rw [if_pos]
            cases w with
            | beforeIteration => cases hv
            | block b => exact .inr ⟨b, rfl, hv⟩
            | loopContinue => exact .inl rfl
            | loopExit b => exact .inl rfl
      · have hstrict : S.loop.graph.StrictPostDom w v := ⟨fun heq => hv (heq ▸ hl.obs), h.closed.postDom hl⟩
        have himm : S.loop.graph.IsImmediate (S.ipdom v) v := by
          cases hl with
          | here hobs => exact absurd hobs hv
          | step _ hs _ =>
              obtain ⟨b, _, rfl, hb, _⟩ := hs
              exact h.ipdom b hb ⟨w, hstrict⟩
        obtain ⟨l', hl', hlen, -⟩ := h.closed.immediate hv himm hl hend
        rw [if_neg, if_neg himm.1.1]
        · exact ih hl' (by omega)
        · rintro (hafter | ⟨b, hb, hrel⟩)
          · exact hv (h.closed.ends v hafter)
          · cases v with
            | beforeIteration => cases hb
            | block c =>
                cases hb
                exact hv hrel
            | loopContinue => cases hb
            | loopExit c => exact hv trivial

theorem crpd (h : S.Prepared) (hl : S.loop.graph.Silent S.Observable (.block b) l w) (hb : b ∈ S.loop.blocks) :
    S.closestRelevantPostdom b = some w := by
  obtain ⟨l', hl', hnodup, -⟩ := hl.exists_nodup
  refine h.crpd_from hl' (h.toEnd_of_silent hl' (h.natural.toEnd hb)) ?_
  have hlen := (List.subperm_of_subset hnodup (silent_subset hl')).length_le
  rw [List.length_map] at hlen
  omega

theorem exists_begin (h : S.Prepared) : ∃ l b, S.loop.graph.Silent S.Observable (.block S.loop.header) l
    (.block b) ∧
    b ∈ S.plan.rel := by
  obtain ⟨b, hrel, hreach⟩ := h.begins
  obtain ⟨l, w, hl, hw⟩ := ControlGraph.exists_silent hreach (show S.Observable (.block b) from hrel)
  rcases hw.cases_head with heq | ⟨u, hs, -⟩
  · exact ⟨l, b, heq ▸ hl, hrel⟩
  · obtain ⟨c, _, rfl, _⟩ := hs
    exact ⟨l, c, hl, hl.obs⟩

theorem vmap_rel (hb : b ∈ S.plan.rel) : S.vmap b = some (some (.clone b)) := by rw [vmap, if_pos hb]

theorem vmap_exit (h : S.Prepared) (he : e ∉ S.loop.blocks) : S.vmap e = some (some (.exit e)) := by
  rw [vmap, if_neg fun hrel => he (h.rel_mem e hrel), if_pos he]

/-- The preheader branches to the clone of the first relevant block. -/
theorem entry_eq (h : S.Prepared) (hl : S.loop.graph.Silent S.Observable (.block S.loop.header) l (.block b)) :
    S.entry = some (.clone b) := by
  have hrel : b ∈ S.plan.rel := hl.obs
  rw [entry, iterationBegin, h.crpd hl h.natural.header_mem]
  simp [LoopBlock.isAfterIteration, LoopBlock.getBlock, vmap_rel hrel]

theorem silent_after (hl : S.loop.graph.Silent S.Observable v l w) (hv : S.Observable v) : w = v := by
  cases hl with
  | here _ => rfl
  | step hnot _ _ => exact absurd hv hnot

theorem silent_edge_mem (hl : S.loop.graph.Silent S.Observable (S.loop.edgeTo c) l w)
    (hcontinue : w ≠ .loopContinue)
    (hexit : ∀ e, w ≠ .loopExit e) : c ∈ S.loop.blocks ∧ c ≠ S.loop.header := by
  rw [Loop.edgeTo] at hl
  split_ifs at hl with hheader hmem
  · exact absurd (silent_after hl trivial) hcontinue
  · exact ⟨hmem, hheader⟩
  · exact absurd (silent_after hl trivial) (hexit c)

/-- An irrelevant block that branches to the header ends the iteration. -/
theorem silent_latch (h : S.Prepared) (hc : c ∈ S.loop.blocks) (hrel : c ∉ S.plan.rel)
    (hsucc : S.loop.header ∈ S.loop.succs c) (hl : S.loop.graph.Silent S.Observable (S.loop.edgeTo c) l w) :
    w = .loopContinue := by
  by_cases hheader : c = S.loop.header
  · rw [hheader, Loop.edgeTo_header] at hl
    exact silent_after hl trivial
  · rw [Loop.edgeTo_block hc hheader] at hl
    have hs := Loop.graph_succ hc (h.natural.back_live c hc hsucc)
    rw [Loop.edgeTo_header] at hs
    exact (h.closed.silent_unique hl (.step hrel hs (.here trivial))
      (h.toEnd_of_silent hl (h.natural.toEnd hc))).symm

/-- A new branch in place of one to the block `c` leads to what the stage sees after it. -/
theorem fixTarget_leads (h : S.Prepared) (hl : S.loop.graph.Silent S.Observable (S.loop.edgeTo c) l w) :
    ∃ n, S.fixTarget c = some n ∧ S.Leads n w := by
  obtain ⟨lb, b₀, hbegin, hb₀⟩ := h.exists_begin
  by_cases hrel : c ∈ S.plan.rel
  · refine ⟨.clone c, by rw [fixTarget, vmap_rel hrel], ?_⟩
    by_cases hheader : c = S.loop.header
    · subst hheader
      rw [Loop.edgeTo_header] at hl
      obtain rfl := silent_after hl trivial
      exact .inr (h.entry_eq (.here hrel))
    · rw [Loop.edgeTo_block (h.rel_mem c hrel) hheader] at hl
      obtain rfl := silent_after hl hrel
      rfl
  by_cases hmem : c ∈ S.loop.blocks
  swap
  · have hheader : c ≠ S.loop.header := fun heq => hmem (heq ▸ h.natural.header_mem)
    rw [Loop.edgeTo, if_neg hheader, if_neg hmem] at hl
    obtain rfl := silent_after hl trivial
    exact ⟨.exit c, by rw [fixTarget, h.vmap_exit hmem], rfl⟩
  have hcrit : S.loop.header ∉ S.plan.rel → ∀ b ∈ S.loop.blocks, b ∉ S.plan.rel → ¬ S.isHeaderCritEdge b :=
    fun hnot => (h.header.resolve_left hnot).1
  have hnull : ¬ (c = S.loop.header ∧
      ∃ b ∈ S.loop.blocks, b ∉ S.plan.rel ∧ S.loop.header ∈ S.loop.succs b ∧ S.isHeaderCritEdge b) := by
    rintro ⟨rfl, b, hb, hbrel, -, hedge⟩
    exact hcrit hrel b hb hbrel hedge
  rw [fixTarget, vmap, if_neg hrel, if_neg (not_not_intro hmem), if_neg hnull]
  by_cases hsucc : S.loop.header ∈ S.loop.succs c
  · obtain rfl := h.silent_latch hmem hrel hsucc hl
    rw [if_pos hsucc]
    split_ifs with hedge
    · have hheader : S.loop.header ∈ S.plan.rel := by
        by_contra hnot
        exact hcrit hnot c hmem hrel hedge
      exact ⟨_, if_pos hheader, .inr (h.entry_eq (.here hheader))⟩
    · exact ⟨.preheader, rfl, .inl rfl⟩
  rw [if_neg hsucc]
  by_cases hheader : c = S.loop.header
  · rw [hheader, Loop.edgeTo_header] at hl
    obtain rfl := silent_after hl trivial
    refine ⟨.clone b₀, ?_, .inr (h.entry_eq hbegin)⟩
    rw [hheader, h.crpd hbegin h.natural.header_mem]
    simp [LoopBlock.getBlock, vmap_rel hb₀]
  · rw [Loop.edgeTo_block hmem hheader] at hl
    rw [h.crpd hl hmem]
    cases w with
    | beforeIteration => exact absurd hl.obs id
    | block b => exact ⟨.clone b, by simp [LoopBlock.getBlock, vmap_rel (show b ∈ S.plan.rel from hl.obs)], rfl⟩
    | loopContinue => exact ⟨.clone b₀, h.entry_eq hbegin, .inr (h.entry_eq hbegin)⟩
    | loopExit e =>
        exact ⟨.exit e, by simp [LoopBlock.getBlock, h.vmap_exit (exit_not_mem hl nofun)], rfl⟩

/-! ### Clones without a terminator -/

/-- A block whose terminator is not copied does not leave the loop. -/
theorem not_exit (h : S.Prepared) (hb : b ∈ S.loop.blocks) (hcopies : ¬ S.copiesTerminator b)
    (hc : c ∈ S.loop.liveSuccs b) (hl : S.loop.graph.Silent S.Observable (S.loop.edgeTo c) l (.loopExit e)) :
    False := by
  have hdecides : ¬ S.Decides (.block b) := by
    rintro ⟨_, _, heq, hcopied⟩
    cases heq
    exact hcopies hcopied
  rcases (h.natural.reaches b hb).cases_head with heq | ⟨u, hs, hreach⟩
  · cases heq
  obtain ⟨l', x, hl', hx⟩ := ControlGraph.exists_silent hreach (show S.Observable .loopContinue from trivial)
  have heq := h.closed.next_unique hdecides (Loop.graph_succ hb hc) hl hs hl' ⟨_, .last rfl⟩
  rw [heq] at hx
  rcases hx.cases_head with heq' | ⟨_, ⟨_, _, heq', _⟩, _⟩ <;> cases heq'

theorem foldlM_uniqueDst {d : β} {cs : List β} (hcs : ∀ c ∈ cs, ∃ x, S.closestRelevantPostdom c = some x ∧
      (x.getBlock = some d ∨ x = .loopContinue ∧ d = S.loop.header ∧ d ∈ S.plan.rel)) {dst : Option β}
    (hdst : dst = some d ∨ dst = none ∧ cs ≠ []) :
    cs.foldlM (fun dst c => (S.closestRelevantPostdom c).bind (S.uniqueDst dst)) dst = some (some d) := by
  induction cs generalizing dst with
  | nil =>
      obtain rfl := hdst.resolve_right fun hnil => hnil.2 rfl
      rfl
  | cons c cs ih =>
      obtain ⟨x, hx, hd⟩ := hcs c List.mem_cons_self
      have hstep : S.uniqueDst dst x = some (some d) := by
        rcases hdst with rfl | ⟨rfl, -⟩ <;> rcases hd with hd | ⟨rfl, rfl, hrel⟩
        · simp [uniqueDst, hd]
        · simp [uniqueDst, LoopBlock.getBlock]
        · have hne : x ≠ .loopContinue := fun heq => by rw [heq] at hd; cases hd
          simp [uniqueDst, hd, hne]
        · simp [uniqueDst, hrel]
      rw [List.foldlM_cons, hx, Option.bind_some, hstep]
      exact ih (fun c hc => hcs c (List.mem_cons_of_mem _ hc)) (.inl rfl)

/-- The branch of a clone without a terminator leads to what the stage sees next. -/
theorem default_leads (h : S.Prepared) (hrel : b ∈ S.plan.rel) (hcopies : ¬ S.copiesTerminator b)
    (hc : c ∈ S.loop.liveSuccs b) (hl : S.loop.graph.Silent S.Observable (S.loop.edgeTo c) l w) :
    ∃ n, (S.defaultBranch b).bind S.fixTarget = some n ∧ S.Leads n w := by
  have hb := h.rel_mem b hrel
  have hdecides : ¬ S.Decides (.block b) := by
    rintro ⟨_, _, heq, hcopied⟩
    cases heq
    exact hcopies hcopied
  have hstart := h.closed.reaches _ _ (Loop.graph_succ hb hc)
  have hall : ∀ c' ∈ S.loop.liveSuccs b, ∃ l', S.loop.graph.Silent S.Observable (S.loop.edgeTo c') l' w := by
    intro c' hc'
    obtain ⟨p, hp⟩ := h.closed.reaches _ _ (Loop.graph_succ hb hc')
    obtain ⟨l', x, hl', -⟩ := ControlGraph.Silent.of_toEnd h.closed.ends hp
    have heq := h.closed.next_unique hdecides (Loop.graph_succ hb hc) hl (Loop.graph_succ hb hc') hl'
      (h.toEnd_of_silent hl hstart)
    exact ⟨l', heq ▸ hl'⟩
  obtain ⟨lb, b₀, hbegin, hb₀⟩ := h.exists_begin
  have hdst : ∃ d ∈ S.plan.rel, S.Leads (.clone d) w ∧ ∀ c' ∈ S.loop.liveSuccs b, ∃ x,
      S.closestRelevantPostdom c' = some x ∧
        (x.getBlock = some d ∨ x = .loopContinue ∧ d = S.loop.header ∧ d ∈ S.plan.rel) := by
    cases w with
    | beforeIteration => exact absurd hl.obs id
    | loopExit e => exact (h.not_exit hb hcopies hc hl).elim
    | block d =>
        refine ⟨d, hl.obs, rfl, fun c' hc' => ?_⟩
        obtain ⟨l', hl'⟩ := hall c' hc'
        have hmem := silent_edge_mem hl' nofun nofun
        rw [Loop.edgeTo_block hmem.1 hmem.2] at hl'
        exact ⟨_, h.crpd hl' hmem.1, .inl rfl⟩
    | loopContinue =>
        refine ⟨b₀, hb₀, .inr (h.entry_eq hbegin), fun c' hc' => ?_⟩
        by_cases hheader : c' = S.loop.header
        · rw [hheader]
          exact ⟨_, h.crpd hbegin h.natural.header_mem, .inl rfl⟩
        obtain ⟨l', hl'⟩ := hall c' hc'
        have hmem : c' ∈ S.loop.blocks := by
          by_contra hout
          rw [Loop.edgeTo, if_neg hheader, if_neg hout] at hl'
          cases silent_after hl' trivial
        rw [Loop.edgeTo_block hmem hheader] at hl'
        have hheaderRel : S.loop.header ∈ S.plan.rel := by
          by_contra hnot
          exact (h.header.resolve_left hnot).2 b hrel hcopies c' hc' hheader l' hl'
        have heq : b₀ = S.loop.header := LoopBlock.block.inj (silent_after hbegin hheaderRel)
        exact ⟨_, h.crpd hl' hmem, .inr ⟨rfl, heq, hb₀⟩⟩
  obtain ⟨d, hd, hleads, hcrpd⟩ := hdst
  refine ⟨.clone d, ?_, hleads⟩
  rw [defaultBranch, foldlM_uniqueDst hcrpd (.inr ⟨rfl, List.ne_nil_of_mem hc⟩), Option.join_some,
    Option.bind_some,
    fixTarget, vmap_rel hd]

/-! ### Runs -/

variable [DecidableEq ι] {sn : ℕ} {t : List (β × ℕ)} {fuel : ℕ}

theorem outcomes_cons (b : β) (sn : ℕ) (t : List (β × ℕ)) :
    S.outcomes ((b, sn) :: t) = if S.copiesTerminator b then sn :: S.outcomes t else S.outcomes t := by
  rw [outcomes, List.filterMap_cons]
  split_ifs with hcopies <;> simp [outcomes]

theorem relevant_cons (b : β) (sn : ℕ) (t : List (β × ℕ)) :
    S.relevant ((b, sn) :: t) = if b ∈ S.plan.rel then b :: S.relevant t else S.relevant t := by
  rw [relevant, List.map_cons, List.filter_cons]
  split_ifs with hrel <;> simp_all [relevant]

/-- The clone of a block goes on to what the stage sees after the edge that the loop takes. -/
theorem run_clone (h : S.Prepared) (hrel : b ∈ S.plan.rel) (hsucc : (S.loop.succs b)[sn]? = some c)
    (hlive : S.loop.isSpeculativelyDead b sn = false)
    (hl : S.loop.graph.Silent S.Observable (S.loop.edgeTo c) l w) :
    ∃ n, S.Leads n w ∧ ∀ fuel t, S.run (fuel + 1) (.clone b) (S.outcomes ((b, sn) :: t)) =
      (S.run fuel n (S.outcomes t)).map fun rest => (b :: rest.1, rest.2) := by
  by_cases hcopies : S.copiesTerminator b
  · obtain ⟨n, hn, hleads⟩ := h.fixTarget_leads hl
    refine ⟨n, hleads, fun fuel t => ?_⟩
    have hterm : S.terminatorOf b = some (.branch ((S.loop.succs b).map S.fixTarget)) := by
      rw [terminatorOf, if_pos hcopies]
    have htarget : ((S.loop.succs b).map S.fixTarget)[sn]?.join = some n := by
      rw [List.getElem?_map, hsucc, Option.map_some, hn]
      rfl
    rw [outcomes_cons, if_pos hcopies, run, hterm]
    dsimp only
    rw [htarget, Option.bind_some]
  · obtain ⟨n, hn, hleads⟩ := h.default_leads hrel hcopies (Loop.mem_liveSuccs hsucc hlive) hl
    refine ⟨n, hleads, fun fuel t => ?_⟩
    have hterm : S.terminatorOf b = some (.jump n) := by
      rw [terminatorOf, if_neg hcopies, hn]
      rfl
    rw [outcomes_cons, if_neg hcopies, run, hterm]

/-- From a node that leads to what the stage sees next, the stage follows the loop. -/
theorem run_leads (h : S.Prepared) (hexec : LoopExec S.loop b t e)
    (hl : S.loop.graph.Silent S.Observable (.block b) l w) (hn : S.Leads n w)
    (hfuel : 2 * t.length + 2 ≤ fuel) :
    S.run fuel n (S.outcomes t) = some (S.relevant t, e) := by
  obtain ⟨lb, b₀, hbegin, -⟩ := h.exists_begin
  induction hexec generalizing l w n fuel with
  | @exit b e sn hb hsucc hlive hout =>
      obtain ⟨fuel, rfl⟩ : ∃ k, fuel = k + 2 := ⟨fuel - 2, by omega⟩
      have hedge : S.loop.edgeTo e = .loopExit e := by
        rw [Loop.edgeTo, if_neg fun heq : e = S.loop.header => hout (heq ▸ h.natural.header_mem), if_neg hout]
      have hexit : S.loop.graph.Silent S.Observable (S.loop.edgeTo e) [] (.loopExit e) := by
        rw [hedge]
        exact .here trivial
      by_cases hrel : b ∈ S.plan.rel
      · obtain rfl := silent_after hl hrel
        obtain rfl : n = .clone b := hn
        obtain ⟨n', rfl, hrun⟩ := h.run_clone hrel hsucc hlive hexit
        rw [hrun, relevant_cons, if_pos hrel]
        rfl
      · have hs := Loop.graph_succ hb (Loop.mem_liveSuccs hsucc hlive)
        obtain rfl := h.closed.silent_unique hl (.step hrel hs hexit)
            (h.toEnd_of_silent hl (h.natural.toEnd hb))
        obtain rfl : n = .exit e := hn
        rw [relevant_cons, if_neg hrel]
        rfl
  | @step b c e sn t hb hsucc hlive hc hexec ih =>
      rw [List.length_cons] at hfuel
      have hs := Loop.graph_succ hb (Loop.mem_liveSuccs hsucc hlive)
      -- after the edge the loop is at `c`, in this iteration or at the start of the next one
      have hnext : ∀ {n' w' l' k}, S.loop.graph.Silent S.Observable (S.loop.edgeTo c) l' w' → S.Leads n' w' →
          2 * t.length + 3 ≤ k → S.run k n' (S.outcomes t) = some (S.relevant t, e) := by
        intro n' w' l' k hl' hn' hk
        by_cases hheader : c = S.loop.header
        · rw [hheader, Loop.edgeTo_header] at hl'
          obtain rfl := silent_after hl' trivial
          rcases hn' with rfl | hentry
          · obtain ⟨k, rfl⟩ : ∃ j, k = j + 1 := ⟨k - 1, by omega⟩
            rw [run, h.entry_eq hbegin, Option.bind_some]
            exact ih (w := .block b₀) (hheader ▸ hbegin) rfl (by omega)
          · obtain rfl := Option.some.inj ((h.entry_eq hbegin).symm.trans hentry)
            exact ih (w := .block b₀) (hheader ▸ hbegin) rfl (by omega)
        · rw [Loop.edgeTo_block hc hheader] at hl'
          exact ih hl' hn' (by omega)
      obtain ⟨p, hp⟩ := h.closed.reaches _ _ hs
      obtain ⟨l', w', hl', -⟩ := ControlGraph.Silent.of_toEnd h.closed.ends hp
      by_cases hrel : b ∈ S.plan.rel
      · obtain rfl := silent_after hl hrel
        obtain rfl : n = .clone b := hn
        obtain ⟨n', hn', hrun⟩ := h.run_clone hrel hsucc hlive hl'
        obtain ⟨fuel, rfl⟩ : ∃ k, fuel = k + 1 := ⟨fuel - 1, by omega⟩
        rw [hrun, hnext hl' hn' (by omega), relevant_cons, if_pos hrel]
        rfl
      · obtain rfl := h.closed.silent_unique hl (.step hrel hs hl') (h.toEnd_of_silent hl (h.natural.toEnd hb))
        have hcopies : ¬ S.copiesTerminator b := fun hcopied => hrel (h.term_rel b hb hcopied)
        rw [outcomes_cons, if_neg hcopies, relevant_cons, if_neg hrel]
        exact hnext hl' hn (by omega)

theorem run_preheader (h : S.Prepared) (hexec : LoopExec S.loop S.loop.header t e)
    (hfuel : 2 * t.length + 3 ≤ fuel) :
    S.run fuel .preheader (S.outcomes t) = some (S.relevant t, e) := by
  obtain ⟨l, b, hbegin, -⟩ := h.exists_begin
  obtain ⟨fuel, rfl⟩ : ∃ k, fuel = k + 1 := ⟨fuel - 1, by omega⟩
  rw [run, h.entry_eq hbegin, Option.bind_some]
  exact h.run_leads hexec hbegin rfl (by omega)

end Prepared

/-! ### What a run does -/

variable [DecidableEq ι] {t : List (β × ℕ)}

/-- What is read off the operations of a run is what is read off all its blocks, when an irrelevant block has
nothing to read. -/
theorem read_relevant {μ : Type*} {f : List (Op ι) → List μ} (hnil : f [] = [])
    (happend : ∀ ops ops', f (ops ++ ops') = f ops ++ f ops') (g : β → List μ)
    (hbody : ∀ edge ∈ t, f (S.cloneBody edge.1) = g edge.1)
    (hirrelevant : ∀ edge ∈ t, edge.1 ∉ S.plan.rel → g edge.1 = []) :
    f (S.opsOf (S.relevant t)) = t.flatMap fun edge => g edge.1 := by
  induction t with
  | nil => exact hnil
  | cons edge t ih =>
      obtain ⟨hbody, hbodies⟩ := List.forall_mem_cons.1 hbody
      obtain ⟨hirr, hirrs⟩ := List.forall_mem_cons.1 hirrelevant
      have ih := ih hbodies hirrs
      rw [opsOf] at ih
      rw [List.flatMap_cons, opsOf, Prepared.relevant_cons]
      split_ifs with hrel
      · rw [List.flatMap_cons, happend, hbody, ih]
      · rw [hirr hrel, List.nil_append, ih]

/-- What is read off a clone, when every instruction adds to it at the end. -/
theorem read_cloneBody {μ : Type*} {f : List (Op ι) → List μ} (hnil : f [] = []) {g : ι → List μ}
    (hstep : ∀ body i, f (S.cloneInst body i) = f body ++ g i) (b : β) :
    f (S.cloneBody b) = (S.loop.code b).flatMap g := by
  have hfold : ∀ (is : List ι) (body : List (Op ι)), f (is.foldl S.cloneInst body) = f body ++
      is.flatMap g := by
    intro is
    induction is with
    | nil => exact fun body => (List.append_nil _).symm
    | cons i is ih =>
        intro body
        rw [List.foldl_cons, ih, hstep, List.flatMap_cons, List.append_assoc]
  rw [cloneBody, hfold, hnil, List.nil_append]

theorem performed_append (ops ops' : List (Op ι)) : performed (ops ++ ops') = performed ops ++ performed ops' :=
  List.filterMap_append

/-- Only the copies of PHIs change places: what is performed keeps its order where no PHI, or one instruction
only, is looked at. -/
theorem performed_cloneInst {p : ι → Bool}
    (hp : (∀ i, S.loop.isPhi i = true → p i = false) ∨ ∃ j, ∀ i, p i = true → i = j)
    (body : List (Op ι)) (i : ι) :
    (performed (S.cloneInst body i)).filter p =
      (performed body).filter p ++ if S.Has i ∧ p i = true then [i] else [] := by
  have hproduce : ∀ endPoints : List (ℕ × Bool),
      performed (endPoints.map fun endPoint => .produce endPoint.1 i endPoint.2) = [] := fun endPoints => by
    simp [performed]
  have hcopy : performed [Op.copy i] = [i] := rfl
  have hlast : ∀ op : Op ι, performed [op] = [i] → S.Has i →
      (performed (body ++ [op])).filter p = (performed body).filter p ++ if S.Has i ∧
        p i = true then [i] else [] := by
    intro op hop hhas
    rw [performed_append, hop, List.filter_append]
    congr 1
    by_cases hpi : p i = true <;> simp [hpi, hhas]
  rw [cloneInst]
  cases hcons : S.plan.cons i with
  | some point => exact hlast _ rfl (.inr (by rw [hcons]; rfl))
  | none =>
      by_cases hmem : i ∈ S.plan.insts
      swap
      · have hhas : ¬ S.Has i := by simp [Has, hmem, hcons]
        simp [hmem, hhas]
      simp only [if_pos hmem]
      rw [performed_append, hproduce, List.append_nil]
      split_ifs with hphi hhas
      · -- the copy comes first, but all that is looked at is this instruction
        obtain ⟨j, hj⟩ := hp.resolve_left fun hall => by rw [hall i hphi] at hhas; cases hhas.2
        have hfirst : (performed (Op.copy i :: body)).filter p = i :: (performed body).filter p := by
          rw [← List.filter_cons_of_pos hhas.2]
          rfl
        have hrep : (performed body).filter p = List.replicate ((performed body).filter p).length i :=
          List.eq_replicate_iff.2 ⟨rfl, fun x hx => (hj x (List.mem_filter.1 hx).2).trans (hj i hhas.2).symm⟩
        rw [hfirst, hrep, ← List.replicate_succ, List.replicate_succ']
      · have hpi : p i = false := by
          by_contra hne
          exact hhas ⟨.inl hmem, Bool.eq_true_of_not_eq_false hne⟩
        rw [List.append_nil]
        exact List.filter_cons_of_neg (by simp [hpi])
      · rename_i hhas
        rw [hlast _ hcopy (.inl hmem), if_pos hhas]
      · rename_i hhas
        rw [hlast _ hcopy (.inl hmem), if_neg hhas]

/-- What a run performs, where no PHI, or one instruction only, is looked at. -/
theorem performed_run {p : ι → Bool}
    (hp : (∀ i, S.loop.isPhi i = true → p i = false) ∨ ∃ j, ∀ i, p i = true → i = j)
    (hirrelevant : ∀ edge ∈ t, edge.1 ∉ S.plan.rel → ∀ i ∈ S.loop.code edge.1, ¬ S.Has i) :
    (performed (S.opsOf (S.relevant t))).filter p =
      (t.flatMap fun edge => S.loop.code edge.1).filter fun i => S.Has i ∧ p i = true := by
  have hcode : ∀ is : List ι, is.flatMap (fun i => if S.Has i ∧ p i = true then [i] else []) =
      is.filter fun i => S.Has i ∧ p i = true := by
    intro is
    induction is with
    | nil => rfl
    | cons i is ih =>
        rw [List.flatMap_cons, List.filter_cons, ih]
        by_cases hi : S.Has i ∧ p i = true <;> simp [hi]
  rw [List.filter_flatMap]
  refine read_relevant (S := S) (f := fun ops => (performed ops).filter p) rfl (fun ops ops' => ?_)
    (fun b => (S.loop.code b).filter fun i => S.Has i ∧ p i = true) (fun edge _ => ?_)
      (fun edge hedge hnot => ?_)
  · rw [performed_append, List.filter_append]
  · rw [read_cloneBody (f := fun ops => (performed ops).filter p) rfl (performed_cloneInst hp), hcode]
  · rw [List.filter_eq_nil_iff]
    intro i hi hhas
    exact hirrelevant edge hedge hnot i hi (of_decide_eq_true hhas).1

theorem mem_blocks_of_exec {L : Loop β ι} (h : LoopExec L b t e) : ∀ edge ∈ t, edge.1 ∈ L.blocks := by
  induction h with
  | exit hb _ _ _ => exact fun edge hedge => List.mem_singleton.1 hedge ▸ hb
  | step hb _ _ _ _ ih => exact List.forall_mem_cons.2 ⟨hb, ih⟩

/-- A stage that is given the outcomes of its branches leaves by the exit of the loop's run. It performs every
instruction that it has as often as the run does, and in the order of the run but for the PHIs. -/
theorem copyInstructions_simulates (h : S.Prepared)
    (hcovered : ∀ b ∈ S.loop.blocks, b ∉ S.plan.rel → ∀ i ∈ S.loop.code b, ¬ S.Has i)
    (hexec : LoopExec S.loop S.loop.header t e) {fuel : ℕ} (hfuel : 2 * t.length + 3 ≤ fuel) :
    ∃ bs, S.run fuel .preheader (S.outcomes t) = some (bs, e) ∧
      (∀ i, (performed (S.opsOf bs)).count i = if S.Has
      i then (t.flatMap fun edge => S.loop.code edge.1).count i else 0) ∧
      (performed (S.opsOf bs)).filter (fun i => !S.loop.isPhi i) =
        (t.flatMap fun edge => S.loop.code edge.1).filter fun i => S.Has i ∧ S.loop.isPhi i = false := by
  have hirrelevant : ∀ edge ∈ t, edge.1 ∉ S.plan.rel → ∀ i ∈ S.loop.code edge.1, ¬ S.Has i := fun edge hedge =>
    hcovered edge.1 (mem_blocks_of_exec hexec edge hedge)
  refine ⟨_, h.run_preheader hexec hfuel, fun i => ?_, ?_⟩
  · have hone := performed_run (S := S) (p := fun j => decide (j = i))
      (.inr ⟨i, fun j hj => of_decide_eq_true hj⟩)
      hirrelevant
    have hcount : ∀ is : List ι, is.count i = (is.filter fun j => decide (j = i)).length := fun is => by
      rw [List.count_eq_length_filter]
      rfl
    rw [hcount, hone]
    split_ifs with hhas
    · rw [hcount]
      congr 1
      refine List.filter_congr fun j _ => ?_
      by_cases hj : j = i <;> simp [hj, hhas]
    · rw [List.length_eq_zero_iff, List.filter_eq_nil_iff]
      intro j _ hj
      obtain ⟨hj, heq⟩ := of_decide_eq_true hj
      exact hhas (of_decide_eq_true heq ▸ hj)
  · rw [performed_run (p := fun i => !S.loop.isPhi i) (.inl fun i hi => by simp [hi]) hirrelevant]
    exact List.filter_congr fun i _ => by simp

end StageOf

/-! ### A branch that a stage does not see -/

/-- Block 1 goes to block 3 at once or by block 2, and a stage has the loop's branch and an instruction of
block 3. -/
def branchStage : StageOf ℕ ℕ where
  loop :=
    { header := 0
      blocks := [0, 1, 2, 3]
      code := fun b => if b = 3 then [13, 3] else [b]
      terminator := id
      isPhi := fun _ => false
      succs := fun b => match b with | 0 => [1, 4] | 1 => [2, 3] | 2 => [3] | 3 => [0] | _ => []
      isSpeculativelyDead := fun _ _ => false
      isCritEdge := fun _ => false }
  plan := ⟨{0, 13}, fun _ => none, fun _ => [], {0, 3}⟩
  ipdom
    | .block 1 | .block 2 => .block 3
    | _ => .loopContinue

namespace BranchStage

open LoopBlock

theorem succ_iff {v w : LoopBlock ℕ} : branchStage.loop.graph.Succ v w ↔
    (v, w) ∈ [(block 0, block 1), (block 0, loopExit 4), (block 1, block 2), (block 1, block 3),
    (block 2, block 3),
      (block 3, loopContinue)] := by
  rw [show [(block 0, block 1), (block 0, loopExit 4), (block 1, block 2), (block 1, block 3),
    (block 2, block 3),
    (block 3, loopContinue)] = branchStage.loop.edges from rfl]
  exact branchStage.loop.mem_edges.symm

theorem walk_end {v : LoopBlock ℕ} {p : List (LoopBlock ℕ)} (h : branchStage.loop.graph.ToEnd v p)
    (hv : v.isAfterIteration = true) : p = [v] := by
  cases h with
  | last _ => rfl
  | step hs _ =>
      obtain ⟨b, _, rfl, _⟩ := hs
      cases hv

theorem walk_three {p : List (LoopBlock ℕ)} (h : branchStage.loop.graph.ToEnd (block 3) p) :
    p = [block 3, loopContinue] := by
  cases h with
  | last hend => cases hend
  | step hs hp =>
      simp [succ_iff] at hs
      subst hs
      rw [walk_end hp rfl]

theorem walk_two {p : List (LoopBlock ℕ)} (h : branchStage.loop.graph.ToEnd (block 2) p) :
    p = [block 2, block 3, loopContinue] := by
  cases h with
  | last hend => cases hend
  | step hs hp =>
      simp [succ_iff] at hs
      subst hs
      rw [walk_three hp]

theorem walk_one {p : List (LoopBlock ℕ)} (h : branchStage.loop.graph.ToEnd (block 1) p) :
    p = [block 1, block 2, block 3, loopContinue] ∨ p = [block 1, block 3, loopContinue] := by
  cases h with
  | last hend => cases hend
  | step hs hp =>
      simp [succ_iff] at hs
      rcases hs with rfl | rfl
      · exact .inl (by rw [walk_two hp])
      · exact .inr (by rw [walk_three hp])

theorem toEnd_continue : branchStage.loop.graph.ToEnd loopContinue [loopContinue] := .last rfl

theorem toEnd_three : branchStage.loop.graph.ToEnd (block 3) [block 3, loopContinue] :=
  .step (succ_iff.2 (by simp)) toEnd_continue

theorem toEnd_one : branchStage.loop.graph.ToEnd (block 1) [block 1, block 3, loopContinue] :=
  .step (succ_iff.2 (by simp)) toEnd_three

/-- Block 3 and the end of the iteration are all that post-dominates the blocks 1, 2 and 3 strictly. -/
theorem postDom_of_mem {n v : LoopBlock ℕ} (hv : v ∈ [block 1, block 2, block 3])
    (hn : n ∈ [block 3, loopContinue]) :
    branchStage.loop.graph.PostDom n v := by
  intro p hp
  have hmem : block 3 ∈ p ∧ loopContinue ∈ p := by
    simp only [List.mem_cons, List.not_mem_nil, or_false] at hv
    rcases hv with rfl | rfl | rfl
    · rcases walk_one hp with rfl | rfl <;> simp
    · simp [walk_two hp]
    · simp [walk_three hp]
  simp only [List.mem_cons, List.not_mem_nil, or_false] at hn
  rcases hn with rfl | rfl
  · exact hmem.1
  · exact hmem.2

theorem mem_of_postDom {n v : LoopBlock ℕ} (hv : v ∈ [block 1, block 2, block 3])
    (hn : branchStage.loop.graph.PostDom n v) (hne : n ≠ v) : n ∈ [block 3, loopContinue] := by
  simp only [List.mem_cons, List.not_mem_nil, or_false] at hv
  rcases hv with rfl | rfl | rfl
  · exact (List.mem_cons.1 (hn _ toEnd_one)).resolve_left hne
  · exact (List.mem_cons.1 (hn _ (.step (succ_iff.2 (by simp)) toEnd_three))).resolve_left hne
  · exact List.mem_cons_of_mem _ ((List.mem_cons.1 (hn _ toEnd_three)).resolve_left hne)

theorem ipdom_immediate {v : LoopBlock ℕ} (hv : v ∈ [block 1, block 2, block 3]) :
    branchStage.loop.graph.IsImmediate (branchStage.ipdom v) v := by
  have hd : branchStage.ipdom v ≠ v ∧ branchStage.ipdom v ∈ [block 3, loopContinue] := by
    simp only [List.mem_cons, List.not_mem_nil, or_false] at hv
    rcases hv with rfl | rfl | rfl <;> simp [branchStage]
  refine ⟨⟨hd.1, postDom_of_mem hv hd.2⟩, fun w hw => ?_⟩
  have hmem := mem_of_postDom hv hw.2 hw.1
  by_cases hthree : v = block 3
  · subst hthree
    have hcontinue : w = loopContinue := by simpa [hw.1] using hmem
    exact hcontinue ▸ .refl _ _
  · have himm : branchStage.ipdom v = block 3 := by
      simp only [List.mem_cons, List.not_mem_nil, or_false, hthree] at hv
      rcases hv with rfl | rfl <;> rfl
    exact himm ▸ postDom_of_mem (by simp) hmem

theorem reaches_continue : Relation.ReflTransGen branchStage.loop.graph.Succ (block 1) loopContinue :=
  .head (succ_iff.2 (by simp)) (toEnd_three.reaches (by simp))

theorem natural : branchStage.loop.Natural where
  header_mem := by decide
  reaches b hb := by
    have hb : b ∈ [0, 1, 2, 3] := hb
    simp only [List.mem_cons, List.not_mem_nil, or_false] at hb
    rcases hb with rfl | rfl | rfl | rfl
    · exact .head (succ_iff.2 (by simp)) reaches_continue
    · exact reaches_continue
    · exact .head (succ_iff.2 (by simp)) (toEnd_three.reaches (by simp))
    · exact toEnd_three.reaches (by simp)
  back_live := by decide

/-- The header's branch is the only one that relevant blocks depend on. -/
theorem decides_of_controlDep {n v : LoopBlock ℕ} (hn : branchStage.Observable n)
    (hdep : branchStage.loop.graph.ControlDep n v) : branchStage.Decides v := by
  obtain ⟨⟨u, hs, hpost⟩, hnot⟩ := hdep
  by_cases hv : v = block 0
  · subst hv
    exact ⟨0, by decide, rfl, rfl, by decide⟩
  have hmem : v ∈ [block 1, block 2, block 3] ∧ u ∈ [block 2, block 3, loopContinue] := by
    have hs := succ_iff.1 hs
    simp only [List.mem_cons, List.not_mem_nil, or_false, Prod.mk.injEq] at hs ⊢
    tauto
  have hn : n ≠ block 1 ∧ n ≠ block 2 := ⟨fun heq => by simp [heq, StageOf.Observable, branchStage] at hn,
    fun heq => by simp [heq, StageOf.Observable, branchStage] at hn⟩
  have hn' : n ∈ [block 3, loopContinue] := by
    rcases List.mem_cons.1 hmem.2 with rfl | hu
    · exact mem_of_postDom (by simp) hpost hn.2
    rcases List.mem_cons.1 hu with rfl | hu
    · by_cases hthree : n = block 3
      · simp [hthree]
      · exact mem_of_postDom (by simp) hpost hthree
    · obtain rfl := List.mem_singleton.1 hu
      exact List.mem_cons_of_mem _ (hpost _ toEnd_continue)
  refine absurd ⟨fun heq => ?_, postDom_of_mem hmem.1 hn'⟩ hnot
  subst heq
  have hthree : n = block 3 := by
    have := hmem.1
    simp only [List.mem_cons, List.not_mem_nil, or_false] at this
    tauto
  subst hthree
  have hu : u = loopContinue := by
    have := succ_iff.1 hs
    simpa using this
  subst hu
  have := hpost _ toEnd_continue
  simp at this

theorem prepared : branchStage.Prepared where
  natural := natural
  ipdom b hb hex := by
    have hb : b ∈ [0, 1, 2, 3] := hb
    simp only [List.mem_cons, List.not_mem_nil, or_false] at hb
    by_cases hzero : b = 0
    · subst hzero
      obtain ⟨w, hne, hw⟩ := hex
      have hexit := hw _ (.step (u := loopExit 4) (succ_iff.2 (by simp)) (.last rfl))
      have hbody := hw _ (.step (succ_iff.2 (by simp)) toEnd_one)
      simp only [List.mem_cons, List.not_mem_nil, or_false, hne, false_or] at hexit hbody
      subst hexit
      simp at hbody
    · refine ipdom_immediate ?_
      rcases hb with rfl | rfl | rfl | rfl
      · exact absurd rfl hzero
      all_goals simp
  rel_mem := by decide
  term_rel := by decide
  controls _ _ := decides_of_controlDep
  begins := ⟨0, by decide, .refl⟩
  header := .inl (by decide)

/-- Two iterations, one with block 2 and one without it, and the exit. -/
theorem exec : LoopExec branchStage.loop 0 [(0, 0), (1, 0), (2, 0), (3, 0), (0, 0), (1, 1), (3, 0),
    (0, 1)] 4 := by
  refine .step (c := 1) ?_ rfl rfl ?_ (.step (c := 2) ?_ rfl rfl ?_ (.step (c := 3) ?_ rfl rfl ?_
    (.step (c := 0) ?_ rfl rfl ?_ (.step (c := 1) ?_ rfl rfl ?_ (.step (c := 3) ?_ rfl rfl ?_
      (.step (c := 0) ?_ rfl rfl ?_ (.exit ?_ rfl rfl ?_)))))))
  all_goals decide

end BranchStage

theorem copyInstructions_simulates_branch : ∃ bs, branchStage.run 19 .preheader [0, 0, 1] = some (bs, 4) ∧
    (performed (branchStage.opsOf bs)).count 13 = 2 ∧
    (performed (branchStage.opsOf bs)).filter (fun i => !branchStage.loop.isPhi i) = [0, 13, 0, 13, 0] := by
  obtain ⟨bs, hrun, hcount, hperformed⟩ := StageOf.copyInstructions_simulates BranchStage.prepared (by decide)
    BranchStage.exec (show _ ≤ 19 by decide)
  exact ⟨bs, hrun, (hcount 13).trans (by decide), hperformed.trans (by decide)⟩

end Cpf.CodeGen
