import Cpf.Basics.RingIndex
import Cpf.Planner.Compatibility

/-!
# No two loops of the plan are active together

What the memo holds for a loop are the functions that a call in it leads to, so two loops are joined
exactly if they are not nested and no call in one of them leads to the function of the other. On the
stack of an execution every block is reached by a call from each block below it.
-/

namespace Cpf.Planner

variable {F B L : Type} {m : Module F B L} {callsBack : F → F → Prop}

/-- The condition under which two loops are not joined. -/
def Together (m : Module F B L) (a b : L) : Prop :=
  (m.header b ∈ m.getBlocks a ∨ m.header a ∈ m.getBlocks b) ∨ Leads m a (m.function b) ∨
    Leads m b (m.function a)

theorem Together.symm {a b : L} (h : Together m a b) : Together m b a := by
  rcases h with h | h
  · exact Or.inl h.symm
  · exact Or.inr h.symm

theorem mem_defined {fs : List F} {f : F} : f ∈ m.defined fs ↔ f ∈ fs ∧ m.isDeclaration f = false := by
  simp [Module.defined]

section Edges

variable [DecidableEq F] [DecidableEq B] [DecidableEq L] [Fintype F] {fuel : ℕ}

omit [DecidableEq B] [DecidableEq L] in
/-- The set of a loop is complete and holds nothing else. -/
theorem transCalledFuncs_spec (hfuel : Fintype.card F < fuel) (l : L) :
    ∃ calledFuns, m.transCalledFuncs fuel l = .ok calledFuns ∧
      ∀ g, g ∈ calledFuns ↔ Leads m l g := by
  have hlist : ∀ (calls : List F) (s : Finset F), ∃ t,
      calls.foldlM (fun calledFuns cFun => m.getCalledFuns fuel cFun (insert cFun calledFuns)) s = .ok t ∧
        Visited m.callees calls s t := by
    intro calls
    induction calls with
    | nil => exact fun s => ⟨s, rfl, Visited.nil⟩
    | cons cFun calls ih =>
        intro s
        obtain ⟨t, ht, hvis⟩ := visit_spec m.callees cFun (insert cFun s)
          ((Finset.card_le_univ _).trans_lt hfuel)
        obtain ⟨u, hu, hvis'⟩ := ih t
        exact ⟨u, foldlM_cons_eq_ok.2 ⟨t, ht, hu⟩, (Visited.of_insert hvis).cons hvis'⟩
  obtain ⟨t, ht, hvis⟩ := hlist (m.loopCalls l) ∅
  refine ⟨t, ht, fun g => ?_⟩
  rw [hvis.mem_iff, Leads]
  constructor
  · rintro ⟨f, hf, hreach⟩
    obtain ⟨hmem, hdef⟩ := mem_defined.1 hf
    obtain ⟨b, hb, hcall⟩ := List.mem_flatMap.1 hmem
    exact ⟨b, hb, f, hcall, hdef, hreach⟩
  · rintro ⟨b, hb, f, hcall, hdef, hreach⟩
    exact ⟨f, mem_defined.2 ⟨List.mem_flatMap.2 ⟨b, hb, hcall⟩, hdef⟩, hreach⟩

def MemoOk (m : Module F B L) (memo : LoopToTransCalledFuncs F L) : Prop :=
  ∀ l calledFuns, memo l = some calledFuns → ∀ g, g ∈ calledFuns ↔ Leads m l g

omit [DecidableEq B] in
theorem callsFun_spec (hfuel : Fintype.card F < fuel) {memo : LoopToTransCalledFuncs F L}
    (hmemo : MemoOk m memo) (l : L) (g : F) :
    ∃ r memo', m.callsFun fuel l g memo = .ok (r, memo') ∧ MemoOk m memo' ∧
      (r = true ↔ Leads m l g) := by
  unfold Module.callsFun
  cases hl : memo l with
  | some calledFuns =>
      refine ⟨_, _, rfl, hmemo, ?_⟩
      rw [decide_eq_true_iff]
      exact hmemo l calledFuns hl g
  | none =>
      obtain ⟨calledFuns, hok, hmem⟩ := transCalledFuncs_spec (m := m) hfuel l
      refine ⟨decide (g ∈ calledFuns), Function.update memo l (some calledFuns), ?_, ?_, ?_⟩
      · rw [hok]
        rfl
      · intro l' s hs
        by_cases hll : l' = l
        · subst hll
          rw [Function.update_self] at hs
          cases hs
          exact hmem
        · rw [Function.update_of_ne hll] at hs
          exact hmemo l' s hs
      · rw [decide_eq_true_iff]
        exact hmem g

theorem mustBeSimultaneouslyActive_spec (hfuel : Fintype.card F < fuel)
    {memo : LoopToTransCalledFuncs F L} (hmemo : MemoOk m memo) (a b : L) :
    ∃ r memo', m.mustBeSimultaneouslyActive fuel a b memo = .ok (r, memo') ∧ MemoOk m memo' ∧
      (r = true ↔ Together m a b) := by
  unfold Module.mustBeSimultaneouslyActive
  by_cases hnest : m.header b ∈ m.getBlocks a ∨ m.header a ∈ m.getBlocks b
  · rw [if_pos hnest]
    exact ⟨true, memo, rfl, hmemo, iff_of_true rfl (Or.inl hnest)⟩
  · rw [if_neg hnest]
    obtain ⟨r, memo', hr, hmemo', hiff⟩ := callsFun_spec hfuel hmemo a (m.function b)
    obtain ⟨r', memo'', hr', hmemo'', hiff'⟩ := callsFun_spec hfuel hmemo' b (m.function a)
    rw [hr]
    cases r with
    | true => exact ⟨true, memo', rfl, hmemo', iff_of_true rfl (Or.inr (Or.inl (hiff.1 rfl)))⟩
    | false =>
        refine ⟨r', memo'', hr', hmemo'', hiff'.trans ⟨fun h => Or.inr (Or.inr h), ?_⟩⟩
        rintro (h | h | h)
        · exact absurd h hnest
        · cases hiff.2 h
        · exact h

theorem edgesFrom_spec (hfuel : Fintype.card F < fuel) (a : L) (i : ℕ) (rest : List L) (j : ℕ)
    (edges : Edges) {memo : LoopToTransCalledFuncs F L} (hmemo : MemoOk m memo) :
    ∃ edges' memo', m.edgesFrom fuel a i rest j (edges, memo) = .ok (edges', memo') ∧
      MemoOk m memo' ∧ ∀ p, p ∈ edges' ↔ p ∈ edges ∨ ∃ k b, rest[k]? = some b ∧ ¬ Together m a b ∧
        (p = (i, j + k) ∨ p = (j + k, i)) := by
  induction rest generalizing j edges memo with
  | nil => exact ⟨edges, memo, rfl, hmemo, fun p => by simp⟩
  | cons b rest ih =>
      obtain ⟨r, memo', hr, hmemo', hiff⟩ := mustBeSimultaneouslyActive_spec hfuel hmemo a b
      obtain ⟨edges', memo'', hrest, hmemo'', hmem⟩ := ih (j + 1)
        (if r then edges else insert (j, i) (insert (i, j) edges)) hmemo'
      refine ⟨edges', memo'', ?_, hmemo'', fun p => ?_⟩
      · rw [Module.edgesFrom, hr]
        exact hrest
      · have hfirst : (p ∈ if r = true then edges else insert (j, i) (insert (i, j) edges)) ↔
            p ∈ edges ∨ (¬ Together m a b ∧ (p = (i, j) ∨ p = (j, i))) := by
          cases r with
          | true => simp [hiff.1 rfl]
          | false =>
              have hnot : ¬ Together m a b := fun h => by cases hiff.2 h
              simp only [Bool.false_eq_true, if_false, Finset.mem_insert, hnot, not_false_eq_true,
                true_and]
              tauto
        rw [hmem p, hfirst, or_assoc]
        apply or_congr_right
        constructor
        · rintro (⟨hnot, hp⟩ | ⟨k, b', hb', hnot, hp⟩)
          · exact ⟨0, b, rfl, hnot, hp⟩
          · refine ⟨k + 1, b', hb', hnot, ?_⟩
            rw [show j + (k + 1) = j + 1 + k by omega]
            exact hp
        · rintro ⟨k, b', hb', hnot, hp⟩
          cases k with
          | zero =>
              cases hb'
              exact Or.inl ⟨hnot, hp⟩
          | succ k =>
              refine Or.inr ⟨k, b', hb', hnot, ?_⟩
              rw [show j + 1 + k = j + (k + 1) by omega]
              exact hp

theorem allEdges_spec (hfuel : Fintype.card F < fuel) (vertices : List L) (i : ℕ)
    (edges : Edges) {memo : LoopToTransCalledFuncs F L} (hmemo : MemoOk m memo) :
    ∃ edges' memo', m.allEdges fuel vertices i (edges, memo) = .ok (edges', memo') ∧
      ∀ p, p ∈ edges' ↔ p ∈ edges ∨ ∃ k k' a b, k < k' ∧ vertices[k]? = some a ∧
        vertices[k']? = some b ∧ ¬ Together m a b ∧ (p = (i + k, i + k') ∨ p = (i + k', i + k)) := by
  induction vertices generalizing i edges memo with
  | nil => exact ⟨edges, memo, rfl, fun p => by simp⟩
  | cons a rest ih =>
      obtain ⟨edges', memo', hfrom, hmemo', hmem⟩ := edgesFrom_spec hfuel a i rest (i + 1) edges hmemo
      obtain ⟨edges'', memo'', hall, hmem'⟩ := ih (i + 1) edges' hmemo'
      refine ⟨edges'', memo'', ?_, fun p => ?_⟩
      · rw [Module.allEdges, hfrom]
        exact hall
      · rw [hmem' p, hmem p, or_assoc]
        apply or_congr_right
        constructor
        · rintro (⟨k, b, hb, hnot, hp⟩ | ⟨k, k', a', b, hlt, ha', hb, hnot, hp⟩)
          · refine ⟨0, k + 1, a, b, Nat.succ_pos k, rfl, hb, hnot, ?_⟩
            rw [show i + (k + 1) = i + 1 + k by omega]
            exact hp
          · refine ⟨k + 1, k' + 1, a', b, by omega, ha', hb, hnot, ?_⟩
            rw [show i + (k + 1) = i + 1 + k by omega, show i + (k' + 1) = i + 1 + k' by omega]
            exact hp
        · rintro ⟨k, k', a', b, hlt, ha', hb, hnot, hp⟩
          obtain ⟨k', rfl⟩ : ∃ n, k' = n + 1 := ⟨k' - 1, by omega⟩
          cases k with
          | zero =>
              cases ha'
              refine Or.inl ⟨k', b, hb, hnot, ?_⟩
              rw [show i + 1 + k' = i + (k' + 1) by omega]
              exact hp
          | succ k =>
              refine Or.inr ⟨k, k', a', b, by omega, ha', hb, hnot, ?_⟩
              rw [show i + 1 + k = i + (k + 1) by omega, show i + 1 + k' = i + (k' + 1) by omega]
              exact hp

/-- Two loops are joined if and only if they need not be active together. -/
theorem computeEdges_spec (hfuel : Fintype.card F < fuel) (vertices : List L) :
    ∃ edges, m.computeEdges fuel vertices = .ok edges ∧
      ∀ i j, (i, j) ∈ edges ↔ i ≠ j ∧ ∃ a b, vertices[i]? = some a ∧ vertices[j]? = some b ∧
        ¬ Together m a b := by
  have hmemo : MemoOk m fun _ => none := fun l s hs => by cases hs
  obtain ⟨edges, memo, hall, hmem⟩ := allEdges_spec hfuel vertices 0 ∅ hmemo
  refine ⟨edges, ?_, fun i j => ?_⟩
  · rw [Module.computeEdges, hall]
    rfl
  · rw [hmem]
    constructor
    · rintro (h | ⟨k, k', a, b, hlt, ha, hb, hnot, hp⟩)
      · exact absurd h (Finset.notMem_empty _)
      · rcases hp with hp | hp
        · obtain ⟨rfl, rfl⟩ := Prod.mk.inj hp
          rw [Nat.zero_add, Nat.zero_add]
          exact ⟨by omega, a, b, ha, hb, hnot⟩
        · obtain ⟨rfl, rfl⟩ := Prod.mk.inj hp
          rw [Nat.zero_add, Nat.zero_add]
          exact ⟨by omega, b, a, hb, ha, fun h => hnot h.symm⟩
    · rintro ⟨hne, a, b, ha, hb, hnot⟩
      rcases Nat.lt_or_gt_of_ne hne with hlt | hlt
      · exact Or.inr ⟨i, j, a, b, hlt, ha, hb, hnot, Or.inl (by simp)⟩
      · exact Or.inr ⟨j, i, b, a, hlt, hb, ha, fun h => hnot h.symm, Or.inr (by simp)⟩

/-- The edges are symmetric and join no loop to itself. -/
theorem edgesOk_computeEdges (hfuel : Fintype.card F < fuel) {vertices : List L} {edges : Edges}
    (h : m.computeEdges fuel vertices = .ok edges) : Graph.EdgesOk edges := by
  obtain ⟨edges', hedges, hmem⟩ := computeEdges_spec (m := m) hfuel vertices
  obtain rfl : edges = edges' := Except.ok.inj (h.symm.trans hedges)
  refine ⟨fun i j hij => ?_, fun i hi => ((hmem i i).1 hi).1 rfl⟩
  obtain ⟨hne, a, b, ha, hb, hnot⟩ := (hmem i j).1 hij
  exact (hmem j i).2 ⟨hne.symm, b, a, hb, ha, fun h => hnot h.symm⟩

end Edges

/-! ### Executions -/

def CallsTo (m : Module F B L) (b : B) (g : F) : Prop :=
  ∃ f ∈ m.calls b, m.isDeclaration f = false ∧
    Relation.ReflTransGen (fun f g => g ∈ m.callees f) f g

/-- Every block of the stack calls the functions of the blocks above it. -/
def StackOk (m : Module F B L) (stack : List B) : Prop :=
  stack.Pairwise fun above b => CallsTo m b (m.getParent above)

theorem StackOk.step (hno : NoCallback m callsBack) {stack stack' : List B} (h : StackOk m stack)
    (hstep : Step m callsBack stack stack') : StackOk m stack' := by
  cases hstep with
  | @branch b b' stack hsucc =>
      obtain ⟨habove, hrest⟩ := List.pairwise_cons.1 h
      refine List.pairwise_cons.2 ⟨?_, hrest⟩
      rw [m.parent_successors b b' hsucc]
      exact habove
  | @call b f stack hcall hdef =>
      obtain ⟨habove, -⟩ := List.pairwise_cons.1 h
      refine List.pairwise_cons.2 ⟨?_, h⟩
      rw [m.parent_entry f hdef]
      intro c hc
      rcases List.mem_cons.1 hc with rfl | hc
      · exact ⟨f, hcall, hdef, Relation.ReflTransGen.refl⟩
      · obtain ⟨g, hg, hgdef, hreach⟩ := habove c hc
        have hedge : f ∈ m.callees (m.getParent b) :=
          mem_defined.2 ⟨(m.mem_outgoing _ f).2 ⟨b, rfl, hcall⟩, hdef⟩
        exact ⟨g, hg, hgdef, hreach.tail hedge⟩
  | callback _ hf hback _ => exact absurd hback (hno _ _ hf)
  | ret => exact (List.pairwise_cons.1 h).2

theorem StackOk.of_reachable (hno : NoCallback m callsBack) {stack : List B}
    (h : Reachable m callsBack stack) : StackOk m stack := by
  obtain ⟨f, -, hrun⟩ := h
  induction hrun with
  | refl => exact List.pairwise_singleton _ _
  | tail _ hstep ih => exact ih.step hno hstep

/-- A loop with a block below a block of another loop calls the function of the other. -/
theorem leads_of_callsTo {a b : L} {x y : B} (hx : x ∈ m.getBlocks a) (hy : y ∈ m.getBlocks b)
    (h : CallsTo m x (m.getParent y)) : Leads m a (m.function b) := by
  rw [m.parent_blocks b y hy] at h
  exact ⟨x, hx, h⟩

/-- Loops that are active together are nested, or a call in one leads to the function of the other. -/
theorem together_of_active (hno : NoCallback m callsBack) {stack : List B}
    (h : Reachable m callsBack stack) {a b : L} (hne : a ≠ b)
    (ha : Active m a stack) (hb : Active m b stack) : Together m a b := by
  obtain ⟨x, hx, hxa⟩ := ha
  obtain ⟨y, hy, hyb⟩ := hb
  by_cases hxy : x = y
  · subst hxy
    rcases m.nested a b hne with hsub | hsub | hdisj
    · exact Or.inl (Or.inr (hsub (m.header_mem a)))
    · exact Or.inl (Or.inl (hsub (m.header_mem b)))
    · exact absurd hyb (hdisj hxa)
  · have hpairs : stack.Pairwise fun x y => CallsTo m y (m.getParent x) ∨ CallsTo m x (m.getParent y) :=
      (StackOk.of_reachable hno h).imp Or.inl
    have : Std.Symm fun x y => CallsTo m y (m.getParent x) ∨ CallsTo m x (m.getParent y) :=
      ⟨fun _ _ => Or.symm⟩
    rcases hpairs.forall hx hy hxy with hcall | hcall
    · exact Or.inr (Or.inr (leads_of_callsTo hyb hxa hcall))
    · exact Or.inr (Or.inl (leads_of_callsTo hxa hyb hcall))

/-- Where no external function calls back, two loops that are joined are never active together, nor are two
loops of the clique that is selected; and loops of different functions are not joined only if a call in one of
them leads to the function of the other. -/
theorem planned_loops_not_active_together [DecidableEq F] [DecidableEq B] [DecidableEq L] [Fintype F]
    (m : Module F B L) (callsBack : F → F → Prop) (hno : NoCallback m callsBack) (fuel : ℕ) (vertices : List L)
    (scaledweights : List Int64) (hnodup : vertices.Nodup) (hweights : scaledweights.length = vertices.length)
    (hfuel : Fintype.card F < fuel) (hfuel' : vertices.length < fuel) :
    ∃ edges maxClique, m.computeEdges fuel vertices = .ok edges ∧
      m.runOnModule fuel vertices scaledweights = .ok maxClique ∧
      (∀ i j a b stack, vertices[i]? = some a → vertices[j]? = some b → (i, j) ∈ edges →
        Reachable m callsBack stack → ¬ (Active m a stack ∧ Active m b stack)) ∧
      (∀ i ∈ maxClique, ∀ j ∈ maxClique, i ≠ j → ∀ a b stack, vertices[i]? = some a →
        vertices[j]? = some b → Reachable m callsBack stack → ¬ (Active m a stack ∧ Active m b stack)) ∧
      ∀ i j a b, i ≠ j → vertices[i]? = some a → vertices[j]? = some b →
        m.function a ≠ m.function b → (i, j) ∉ edges → Leads m a (m.function b) ∨
          Leads m b (m.function a) := by
  obtain ⟨edges, hedges, hmem⟩ := computeEdges_spec (m := m) hfuel vertices
  have hsafe : ∀ i j a b stack, vertices[i]? = some a → vertices[j]? = some b → (i, j) ∈ edges →
      Reachable m callsBack stack → ¬ (Active m a stack ∧ Active m b stack) := by
    rintro i j a b stack hi hj hij hreach ⟨ha, hb⟩
    obtain ⟨hne, a', b', hi', hj', hnot⟩ := (hmem i j).1 hij
    rw [hi] at hi'
    rw [hj] at hj'
    cases hi'
    cases hj'
    refine hnot (together_of_active hno hreach ?_ ha hb)
    rintro rfl
    exact hne ((List.getElem?_inj (List.getElem?_eq_some_iff.1 hi).1 hnodup).1 (hi.trans hj.symm))
  have hcount : Graph.vertexCount scaledweights < fuel :=
    (Nat.mod_le _ _).trans_lt (hweights ▸ hfuel')
  obtain ⟨b, hebk, hclique⟩ := Graph.ebk_clique (edgesOk_computeEdges hfuel hedges) hcount
  refine ⟨edges, b.best, hedges, ?_, hsafe, ?_, ?_⟩
  · rw [Module.runOnModule, bind_eq_ok]
    exact ⟨edges, hedges, bind_eq_ok.2 ⟨b, hebk, rfl⟩⟩
  · intro i hi j hj hne a b stack ha hb
    exact hsafe i j a b stack ha hb (hclique i hi j hj hne)
  · intro i j a b hne hi hj hfun hij
    have htogether : Together m a b := by
      by_contra hnot
      exact hij ((hmem i j).2 ⟨hne, a, b, hi, hj, hnot⟩)
    rcases htogether with hnest | hleads
    · exfalso
      apply hfun
      rcases hnest with h | h
      · exact (m.parent_blocks a _ h).symm
      · exact m.parent_blocks b _ h
    · exact hleads

/-- The blocks of the loops: the first one of `main`, which calls `f`; that of `f`; and the second
one of `main`. -/
def loopBlock : Fin 3 → Bool × Fin 3 := ![(true, 1), (false, 1), (true, 2)]

def callInLoop : Module Bool (Bool × Fin 3) (Fin 3) where
  isDeclaration _ := false
  getParent b := b.1
  entry f := (f, 0)
  successors b := if b.2 = 2 then [b] else [b, (b.1, b.2 + 1)]
  calls b := if b = (true, 1) then [false] else []
  outgoing f := if f then [false] else []
  header := loopBlock
  getBlocks l := [loopBlock l]
  parent_entry _ _ := rfl
  parent_successors := by decide
  mem_outgoing := by decide
  header_mem l := List.mem_singleton_self _
  parent_blocks := by decide
  nested l l' hne := by
    refine Or.inr (Or.inr fun b hb hb' => hne ?_)
    have hinj : ∀ l l', loopBlock l = loopBlock l' → l = l' := by decide
    exact hinj l l' ((List.mem_singleton.1 hb).symm.trans (List.mem_singleton.1 hb'))

theorem planned_loops_not_active_together_callInLoop :
    ∃ edges, callInLoop.computeEdges 4 [0, 1, 2] = .ok edges ∧ (0, 1) ∉ edges ∧ (1, 2) ∈ edges ∧
      ∀ stack, Reachable callInLoop (fun _ _ => False) stack →
      ¬ (Active callInLoop 1 stack ∧ Active callInLoop 2 stack) := by
  obtain ⟨edges, maxClique, hedges, -, hsafe, -⟩ :=
    planned_loops_not_active_together callInLoop (fun _ _ => False) (fun _ _ _ h => h) 4 [0, 1, 2] [5, 7, 9]
      (by decide) rfl (by decide)
      (by decide)
  have hvalue : callInLoop.computeEdges 4 [0, 1, 2] = .ok {(2, 1), (1, 2), (2, 0), (0, 2)} := by
    decide
  obtain rfl : {(2, 1), (1, 2), (2, 0), (0, 2)} = edges := Except.ok.inj (hvalue.symm.trans hedges)
  exact ⟨_, hvalue, by decide, by decide, fun stack => hsafe 1 2 1 2 stack rfl rfl (by decide)⟩

/-- `main` calls `qsort` in a loop; `qsort` is only declared, and calls the function `cmp`, which has a loop. -/
def sortInLoop : Module (Fin 3) (Fin 3 × Fin 2) Bool where
  isDeclaration f := f = 1
  getParent b := b.1
  entry f := (f, 0)
  successors b := [b, (b.1, 1)]
  calls b := if b = (0, 1) then [1] else []
  outgoing f := if f = 0 then [1] else []
  header l := if l then (2, 1) else (0, 1)
  getBlocks l := if l then [(2, 1)] else [(0, 1)]
  parent_entry _ _ := rfl
  parent_successors := by decide
  mem_outgoing := by decide
  header_mem := by decide
  parent_blocks := by decide
  nested := by
    intro l l' hne
    refine .inr (.inr ?_)
    cases l <;> cases l' <;> simp at hne ⊢

/-- The loops of `main` and of `cmp` are joined, and both are active while `qsort` calls `cmp`. -/
theorem called_back_loop_active : ¬ ∀ (F B L : Type) [DecidableEq F] [DecidableEq B] [DecidableEq L] [Fintype F]
    (m : Module F B L) (callsBack : F → F → Prop) (fuel : ℕ) (vertices : List L)
    (edges : Edges), vertices.Nodup →
    Fintype.card F < fuel → m.computeEdges fuel vertices = .ok edges →
    ∀ i j a b stack, vertices[i]? = some a → vertices[j]? = some b → (i, j) ∈ edges →
      Reachable m callsBack stack → ¬ (Active m a stack ∧ Active m b stack) := by
  intro hall
  have hstack : Reachable sortInLoop (fun _ g => g = 2) [(2, 1), (0, 1)] := by
    refine ⟨0, by decide, ?_⟩
    have hloop : Step sortInLoop (fun _ g => g = 2) [(0, 0)] [(0, 1)] := .branch (by decide)
    have hcall : Step sortInLoop (fun _ g => g = 2) [(0, 1)] [(2, 0), (0, 1)] :=
      .callback (f := 1) (g := 2) (by decide) (by decide) rfl (by decide)
    have hcmp : Step sortInLoop (fun _ g => g = 2) [(2, 0), (0, 1)] [(2, 1), (0, 1)] := .branch (by decide)
    exact ((Relation.ReflTransGen.single hloop).tail hcall).tail hcmp
  exact hall _ _ _ sortInLoop (fun _ g => g = 2) 4 [false, true] {(1, 0), (0, 1)} (by decide) (by decide)
    (by decide)
    0 1 false true _ rfl rfl (by decide) hstack ⟨⟨(0, 1), by decide, by decide⟩, ⟨(2, 1), by decide, by decide⟩⟩

end Cpf.Planner
