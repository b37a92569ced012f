import Cpf.Executive.ReduxTeam

/-!
# The value of a reduction during an invocation

A reduction is seen as the collection of one value: what the heaps hold of it is an accumulator,
an iteration adds an amount, and a distill adds the value of the source to that of the destination.
-/

namespace Cpf.Executive
namespace ReduxTeam

variable {F : Type*} [LinearOrder F] {n : ℕ} {V : Type*} [AddCommMonoid V]

def updated (reg : Bool) (p : ReduxWorker F) : ReduxSide F :=
  ⟨if reg then p.regs else p.mem, p.lastUp⟩

section Frame

variable {r : ReduxList} {loop : ReduxLoop F n} {info : ReduxInfo} {au : ℕ}

theorem updateUnit_sameAt (h : au ≠ info.au) (i : ℕ) (q : ReduxSide F) :
    (r.updateUnit loop i info q).mem.SameAt q.mem au := by
  unfold ReduxList.updateUnit
  cases info.type with
  | addI32 => exact ReduxMem.sameAt_setI32 h _
  | maxU64 =>
      cases info.dep with
      | none => exact ReduxMem.sameAt_setU64 h _
      | some k =>
          dsimp only
          split_ifs
          · exact ReduxMem.sameAt_setU64 h _
          · exact .refl _ _
  | maxF32 => exact ReduxMem.sameAt_setF32 h _

theorem foldl_updateWorker_sameAt (r : ReduxList) (loop : ReduxLoop F n) {is : List ReduxInfo}
    (h : ∀ j ∈ is, au ≠ j.au) (i : ℕ) (p : ReduxWorker F) :
    (is.foldl (r.updateWorker loop i) p).regs.SameAt p.regs au ∧
      (is.foldl (r.updateWorker loop i) p).mem.SameAt p.mem au := by
  induction is generalizing p with
  | nil => exact ⟨.refl _ _, .refl _ _⟩
  | cons j is ih =>
      have hrest := ih (fun j' hj => h j' (List.mem_cons_of_mem _ hj)) (r.updateWorker loop i p j)
      have hj : (r.updateWorker loop i p j).regs.SameAt p.regs au ∧
          (r.updateWorker loop i p j).mem.SameAt p.mem au := by
        have hne := h j List.mem_cons_self
        rw [ReduxList.updateWorker]
        split_ifs
        · exact ⟨updateUnit_sameAt hne i _, .refl _ _⟩
        · exact ⟨.refl _ _, updateUnit_sameAt hne i _⟩
      exact ⟨hrest.1.trans hj.1, hrest.2.trans hj.2⟩

/-- An iteration updates an object of the list once, as it was before. -/
theorem iterate_at (loop : ReduxLoop F n) (hi : info ∈ r.infos) (i : ℕ) (p : ReduxWorker F) :
    ∃ q : ReduxSide F, q.mem.SameAt (updated info.reg p).mem info.au ∧
      (updated info.reg (r.iterate loop i p)).mem.SameAt (r.updateUnit loop i info q).mem
        info.au := by
  obtain ⟨as, bs, hsplit, has, hbs⟩ := ReduxList.exists_split hi
  have hbefore := foldl_updateWorker_sameAt r loop has i p
  have hafter := foldl_updateWorker_sameAt r loop hbs i
    (r.updateWorker loop i (as.foldl (r.updateWorker loop i) p) info)
  refine ⟨updated info.reg (as.foldl (r.updateWorker loop i) p), ?_, ?_⟩
  · unfold updated
    split_ifs
    · exact hbefore.1
    · exact hbefore.2
  · unfold ReduxList.iterate
    rw [hsplit, List.foldl_append, List.foldl_cons]
    generalize as.foldl (r.updateWorker loop i) p = q at hafter ⊢
    unfold ReduxList.updateWorker at hafter ⊢
    unfold updated
    by_cases hreg : info.reg = true
    · simp only [hreg, if_true] at hafter ⊢
      exact hafter.1
    · simp only [hreg, if_false, Bool.false_eq_true] at hafter ⊢
      exact hafter.2

omit [LinearOrder F] in
theorem storeRegister_sameAt (h : au ≠ info.au) (regs m : ReduxMem F) :
    (info.storeRegister regs m).SameAt m au := by
  unfold ReduxInfo.storeRegister
  cases info.type with
  | addI32 => exact ReduxMem.sameAt_setI32 h _
  | maxU64 => exact ReduxMem.sameAt_setU64 h _
  | maxF32 => exact ReduxMem.sameAt_setF32 h _

omit [LinearOrder F] in
theorem foldl_storeRegister_sameAt {is : List ReduxInfo} (h : ∀ j ∈ is, au ≠ j.au)
    (regs m : ReduxMem F) :
    (is.foldl (fun m j => if j.reg then j.storeRegister regs m else m) m).SameAt m au := by
  induction is generalizing m with
  | nil => exact .refl _ _
  | cons j is ih =>
      refine (ih (fun j' hj => h j' (List.mem_cons_of_mem _ hj)) _).trans ?_
      dsimp only
      split_ifs
      · exact storeRegister_sameAt (h j List.mem_cons_self) regs m
      · exact .refl _ _

omit [LinearOrder F] in
/-- What a worker distills of an object is what its iterations have updated. -/
theorem source_at (hi : info ∈ r.infos) (p : ReduxWorker F) :
    ∃ m : ReduxMem F, m.SameAt p.mem info.au ∧
      (source r p).mem.SameAt (if info.reg then info.storeRegister p.regs m else m) info.au := by
  obtain ⟨as, bs, hsplit, has, hbs⟩ := ReduxList.exists_split hi
  refine ⟨_, foldl_storeRegister_sameAt has p.regs p.mem, ?_⟩
  rw [source, ReduxList.storeRegisters, hsplit, List.foldl_append, List.foldl_cons]
  exact foldl_storeRegister_sameAt hbs p.regs _

end Frame

theorem iterate_carried {r : ReduxList} {loop : ReduxLoop F n} {i : ℕ} (p : ReduxWorker F) :
    (r.iterate loop i p).carried = p.carried := by
  unfold ReduxList.iterate
  induction r.infos generalizing p with
  | nil => rfl
  | cons info is ih =>
      rw [List.foldl_cons, ih, ReduxList.updateWorker]
      split_ifs <;> rfl

theorem iterate_merges {r : ReduxList} {loop : ReduxLoop F n} {i : ℕ} (p : ReduxWorker F) :
    (r.iterate loop i p).merges = p.merges := by
  unfold ReduxList.iterate
  induction r.infos generalizing p with
  | nil => rfl
  | cons info is ih =>
      rw [List.foldl_cons, ih, ReduxList.updateWorker]
      split_ifs <;> rfl

/-- How a reduction is seen: its value, what an iteration adds to it, and when a heap, a worker or a
distill is in order. -/
structure View (F : Type*) (V : Type*) where
  reg : Bool
  value : ReduxSide F → V
  amount : ℕ → V
  Ok : ReduxSide F → Prop
  WorkerOk : ReduxWorker F → Prop
  Allowed : ReduxSide F → ReduxSide F → Prop

structure View.Laws (v : View F V) (r : ReduxList) (lowest : F) (loop : ReduxLoop F n) : Prop where
  run : ∀ i p, v.WorkerOk p → p.next ≤ i →
    v.value (updated v.reg (r.iterate loop i p)) = v.value (updated v.reg p) + v.amount i ∧
      v.WorkerOk { r.iterate loop i p with next := i + 1 }
  source : ∀ p, v.WorkerOk p →
    v.value (source r p) = v.value (updated v.reg p) ∧ v.Ok (source r p)
  rest : ∀ p dst, v.WorkerOk p →
    v.WorkerOk { p with
      mem := (r.distill (ReduxTeam.source r p) dst).1
      merges := p.merges + 1
      carried := (r.distill (ReduxTeam.source r p) dst).1 }
  lastUp : v.reg = false → ∀ m l l', v.value ⟨m, l⟩ = v.value ⟨m, l'⟩
  first : ∀ src (c : ReduxChkpt F), v.Ok src → c.numWorkers = 0 →
    v.Allowed src (prepared r lowest c) →
      v.value (r.distill src (prepared r lowest c)).2 = v.value src ∧
        v.Ok (r.distill src (prepared r lowest c)).2
  join : ∀ src dst, v.Ok src → v.Ok dst → v.Allowed src dst →
    v.value (r.distill src dst).2 = v.value dst + v.value src ∧ v.Ok (r.distill src dst).2
  combine : ∀ older newer, v.Ok older.side → v.Ok newer.side →
    v.Allowed (committed r lowest older) newer.side →
      v.value (combineRedux r lowest older newer).side =
        (if v.reg then v.value newer.side else v.value newer.side + v.value older.side) ∧
        v.Ok (combineRedux r lowest older newer).side

def View.plan (v : View F V) (loop : ReduxLoop F n) : Collect.Plan V n :=
  ⟨loop.owner, loop.round, loop.round_mono, v.amount⟩

omit [LinearOrder F] [AddCommMonoid V] in
@[simp] theorem View.plan_owner (v : View F V) (loop : ReduxLoop F n) (i : ℕ) :
    (v.plan loop).owner i = loop.owner i := rfl

omit [LinearOrder F] [AddCommMonoid V] in
@[simp] theorem View.plan_round (v : View F V) (loop : ReduxLoop F n) (i : ℕ) :
    (v.plan loop).round i = loop.round i := rfl

omit [LinearOrder F] [AddCommMonoid V] in
@[simp] theorem View.plan_amount (v : View F V) (loop : ReduxLoop F n) (i : ℕ) :
    (v.plan loop).amount i = v.amount i := rfl

def View.batch (v : View F V) (c : ReduxChkpt F) : Collect.Batch V :=
  ⟨c.iteration, c.numWorkers, v.value c.side⟩

/-- The state of the runtime and that of the collection, up to the main accumulator. -/
structure Sees (v : View F V) (s : ReduxTeam F n) (t : Collect.Team V n) : Prop where
  worker_ok : ∀ w, v.WorkerOk (s.workers w)
  acc : ∀ w, (t.workers w).acc = v.value (updated v.reg (s.workers w))
  carried : v.reg = false → ∀ w, (t.workers w).carried =
    v.value ⟨(s.workers w).carried, (s.workers w).lastUp⟩
  merges : ∀ w, (t.workers w).merges = (s.workers w).merges
  next : ∀ w, (t.workers w).next = (s.workers w).next
  used : t.used = s.used.map v.batch
  used_ok : ∀ c ∈ s.used, c.numWorkers ≠ 0 ∧ v.Ok c.side
  done : t.done = s.done

variable {v : View F V} {r : ReduxList} {lowest : F} {loop : ReduxLoop F n}
  {s s' : ReduxTeam F n} {t t' : Collect.Team V n}

theorem mergeInto_fst (iter : ℕ) (object src : ReduxSide F) (cs : List (ReduxChkpt F)) :
    (mergeInto r lowest iter object src cs).1 =
      (r.distill src (prepared r lowest (target iter object cs))).1 := by
  induction cs with
  | nil => rfl
  | cons c cs ih =>
      rw [mergeInto, target]
      split_ifs with hc
      · rw [List.find?_cons_of_pos (by simpa using hc)]
        rfl
      · rw [List.find?_cons_of_neg (by simpa using hc)]
        exact ih

/-- A merge adds the value of the source to the batch of the checkpoint. -/
theorem View.Laws.mergeInto (h : v.Laws r lowest loop) {iter : ℕ} {object src : ReduxSide F}
    {cs : List (ReduxChkpt F)} (hsrc : v.Ok src) (hcs : ∀ c ∈ cs, c.numWorkers ≠ 0 ∧ v.Ok c.side)
    (hallow : v.Allowed src (prepared r lowest (target iter object cs))) :
    (ReduxTeam.mergeInto r lowest iter object src cs).2.map v.batch =
        Collect.mergeInto iter (v.value src) (cs.map v.batch) ∧
      ∀ c ∈ (ReduxTeam.mergeInto r lowest iter object src cs).2, c.numWorkers ≠ 0 ∧ v.Ok c.side := by
  induction cs with
  | nil =>
      obtain ⟨hval, hok⟩ := h.first src ⟨iter, 0, object⟩ hsrc rfl hallow
      refine ⟨?_, fun c hc => ?_⟩
      · simp only [ReduxTeam.mergeInto, performCheckpoint, List.map_cons, List.map_nil, View.batch,
          hval, Collect.mergeInto]
      · rw [List.mem_singleton.1 hc]
        exact ⟨Nat.succ_ne_zero _, hok⟩
  | cons c cs ih =>
      have hhead := hcs c List.mem_cons_self
      have htail : ∀ d ∈ cs, d.numWorkers ≠ 0 ∧ v.Ok d.side :=
        fun d hd => hcs d (List.mem_cons_of_mem _ hd)
      rw [ReduxTeam.mergeInto, List.map_cons, Collect.mergeInto]
      rw [target] at hallow
      by_cases hc : c.iteration = iter
      · rw [List.find?_cons_of_pos (by simpa using hc), Option.getD_some, prepared,
          if_neg hhead.1] at hallow
        obtain ⟨hval, hok⟩ := h.join src c.side hsrc hhead.2 hallow
        rw [if_pos hc, if_pos (show (v.batch c).round = iter from hc)]
        refine ⟨?_, fun d hd => ?_⟩
        · simp only [performCheckpoint, prepared, if_neg hhead.1, List.map_cons, View.batch, hval]
        · rcases List.mem_cons.1 hd with rfl | hd
          · refine ⟨Nat.succ_ne_zero _, ?_⟩
            simp only [performCheckpoint, prepared, if_neg hhead.1]
            exact hok
          · exact htail d hd
      · rw [List.find?_cons_of_neg (by simpa using hc)] at hallow
        obtain ⟨hmap, hall⟩ := ih htail hallow
        rw [if_neg hc, if_neg (show (v.batch c).round ≠ iter from hc)]
        refine ⟨by rw [List.map_cons, hmap], fun d hd => ?_⟩
        rcases List.mem_cons.1 hd with rfl | hd
        · exact hhead
        · exact hall d hd

theorem combineAt_cases {k : ℕ} {cs cs' : List (ReduxChkpt F)}
    (h : combineAt r lowest n k cs = some cs') :
    ∃ as a b bs, cs = as ++ a :: b :: bs ∧ as.length = k ∧ a.numWorkers = n ∧ b.numWorkers = n ∧
      cs' = as ++ combineRedux r lowest a b :: bs := by
  induction k generalizing cs cs' with
  | zero =>
      match cs, h with
      | a :: b :: cs, h =>
          rw [combineAt] at h
          by_cases hab : a.numWorkers = n ∧ b.numWorkers = n
          · rw [if_pos hab] at h
            exact ⟨[], a, b, cs, rfl, rfl, hab.1, hab.2, (Option.some.inj h).symm⟩
          · rw [if_neg hab] at h
            cases h
  | succ k ih =>
      match cs, h with
      | c :: cs, h =>
          rw [combineAt] at h
          obtain ⟨cs₁, hcs₁, rfl⟩ := Option.map_eq_some_iff.1 h
          obtain ⟨as, a, b, bs, rfl, hlen, ha, hb, rfl⟩ := ih hcs₁
          exact ⟨c :: as, a, b, bs, rfl, by rw [List.length_cons, hlen], ha, hb, rfl⟩

namespace Sees

theorem run (hlaws : v.Laws r lowest loop) (h : Sees v s t) {i : ℕ}
    (hnext : (s.workers (loop.owner i)).next ≤ i) :
    Sees v { s.setWorker (loop.owner i) { r.iterate loop i (s.workers (loop.owner i)) with
        next := i + 1 } with done := insert i s.done } (t.run (v.plan loop) i) := by
  obtain ⟨hval, hok⟩ := hlaws.run i _ (h.worker_ok (loop.owner i)) hnext
  refine ⟨fun w => ?_, fun w => ?_, fun hreg w => ?_, fun w => ?_, fun w => ?_, h.used, h.used_ok,
    ?_⟩
  · by_cases hw : w = loop.owner i
    · subst w
      simpa only [setWorker, Function.update_self] using hok
    · simpa only [setWorker, Function.update_of_ne hw] using h.worker_ok w
  · rw [Collect.Team.run_acc, View.plan_owner]
    by_cases hw : w = loop.owner i
    · subst w
      rw [if_pos rfl, h.acc]
      simp only [setWorker, Function.update_self]
      exact hval.symm
    · rw [if_neg hw, h.acc]
      simp only [setWorker, Function.update_of_ne hw]
  · rw [Collect.Team.run_carried, h.carried hreg]
    by_cases hw : w = loop.owner i
    · subst w
      simp only [setWorker, Function.update_self, iterate_carried]
      exact hlaws.lastUp hreg _ _ _
    · simp only [setWorker, Function.update_of_ne hw]
  · rw [Collect.Team.run_merges, h.merges]
    by_cases hw : w = loop.owner i
    · subst w
      simp only [setWorker, Function.update_self, iterate_merges]
    · simp only [setWorker, Function.update_of_ne hw]
  · rw [Collect.Team.run_next, View.plan_owner]
    by_cases hw : w = loop.owner i
    · subst w
      rw [if_pos rfl]
      simp only [setWorker, Function.update_self]
    · rw [if_neg hw, h.next]
      simp only [setWorker, Function.update_of_ne hw]
  · rw [Collect.Team.run_done, h.done]

theorem merge (hlaws : v.Laws r lowest loop) (h : Sees v s t) (w : Fin n) (object : ReduxSide F)
    (hallow : v.Allowed (source r (s.workers w))
      (prepared r lowest (target (s.workers w).merges object s.used))) :
    Sees v
      { s.setWorker w { s.workers w with
          mem := (ReduxTeam.mergeInto r lowest (s.workers w).merges object
            (source r (s.workers w)) s.used).1
          merges := (s.workers w).merges + 1
          carried := (ReduxTeam.mergeInto r lowest (s.workers w).merges object
            (source r (s.workers w)) s.used).1 } with
        used := (ReduxTeam.mergeInto r lowest (s.workers w).merges object
          (source r (s.workers w)) s.used).2 }
      (t.merge w (if v.reg then (t.workers w).acc else v.value
        ⟨(ReduxTeam.mergeInto r lowest (s.workers w).merges object
          (source r (s.workers w)) s.used).1, (s.workers w).lastUp⟩)) := by
  obtain ⟨hval, hok⟩ := hlaws.source _ (h.worker_ok w)
  obtain ⟨hmap, hall⟩ := hlaws.mergeInto hok h.used_ok hallow
  have hworker := hlaws.rest _ (prepared r lowest (target (s.workers w).merges object s.used))
    (h.worker_ok w)
  rw [← mergeInto_fst] at hworker
  refine ⟨fun x => ?_, fun x => ?_, fun hreg x => ?_, fun x => ?_, fun x => ?_, ?_, hall, h.done⟩
  · by_cases hx : x = w
    · subst x
      simpa only [setWorker, Function.update_self] using hworker
    · simpa only [setWorker, Function.update_of_ne hx] using h.worker_ok x
  · rw [Collect.Team.merge_acc]
    by_cases hx : x = w
    · subst x
      rw [if_pos rfl]
      simp only [setWorker, Function.update_self, updated]
      by_cases hreg : v.reg = true
      · simp only [if_pos hreg]
        rw [h.acc, updated, if_pos hreg]
      · simp only [if_neg hreg]
    · rw [if_neg hx, h.acc]
      simp only [setWorker, Function.update_of_ne hx]
  · rw [Collect.Team.merge_carried]
    by_cases hx : x = w
    · subst x
      rw [if_pos rfl, hreg, if_neg Bool.false_ne_true]
      simp only [setWorker, Function.update_self]
    · rw [if_neg hx, h.carried hreg]
      simp only [setWorker, Function.update_of_ne hx]
  · rw [Collect.Team.merge_merges, h.merges, h.merges]
    by_cases hx : x = w
    · subst x
      simp only [setWorker, Function.update_self, if_true]
    · simp only [setWorker, Function.update_of_ne hx, if_neg hx]
  · rw [Collect.Team.merge_next, h.next]
    by_cases hx : x = w
    · subst x
      simp only [setWorker, Function.update_self]
    · simp only [setWorker, Function.update_of_ne hx]
  · change Collect.mergeInto (t.workers w).merges (t.workers w).acc t.used = _
    rw [h.merges, h.acc, h.used, ← hval]
    exact hmap.symm

theorem combine (hlaws : v.Laws r lowest loop) (h : Sees v s t) {as bs : List (ReduxChkpt F)}
    {a b : ReduxChkpt F} (hused : s.used = as ++ a :: b :: bs) (ha : a.numWorkers = n)
    (hb : b.numWorkers = n) (hallow : v.Allowed (committed r lowest a) b.side) :
    ∃ used, Collect.combineAt v.reg n as.length t.used = some used ∧
      Sees v { s with used := as ++ combineRedux r lowest a b :: bs } { t with used := used } := by
  have hmem : ∀ c ∈ as ++ a :: b :: bs, c.numWorkers ≠ 0 ∧ v.Ok c.side := hused ▸ h.used_ok
  have hamem := hmem a (List.mem_append_right _ List.mem_cons_self)
  have hbmem := hmem b (List.mem_append_right _ (List.mem_cons_of_mem _ List.mem_cons_self))
  obtain ⟨hval, hok⟩ := hlaws.combine a b hamem.2 hbmem.2 hallow
  have hlen : as.length = (as.map v.batch).length := (List.length_map _).symm
  refine ⟨(as ++ combineRedux r lowest a b :: bs).map v.batch, ?_, h.worker_ok, h.acc, h.carried,
    h.merges, h.next, rfl, fun c hc => ?_, h.done⟩
  · rw [h.used, hused, List.map_append, List.map_cons, List.map_cons, hlen,
      Collect.combineAt_append ha hb, List.map_append, List.map_cons]
    have hbatch : v.batch (combineRedux r lowest a b) =
        { v.batch b with acc := if v.reg then (v.batch b).acc else
          (v.batch b).acc + (v.batch a).acc } :=
      congrArg (Collect.Batch.mk b.iteration b.numWorkers) hval
    rw [hbatch]
  · rcases List.mem_append.1 hc with hc | hc
    · exact hmem c (List.mem_append_left _ hc)
    · rcases List.mem_cons.1 hc with rfl | hc
      · exact ⟨hbmem.1, hok⟩
      · exact hmem c (List.mem_append_right _ (List.mem_cons_of_mem _ (List.mem_cons_of_mem _ hc)))

/-- One step of the runtime is one of the collection; the main accumulator is only changed by an
adoption. -/
theorem step (hlaws : v.Laws r lowest loop) (h : Sees v s t) {a : ReduxAction F n}
    (hallow : a ≠ .adopt → ∀ d, distills r lowest s a = some d → v.Allowed d.1 d.2)
    (hstep : s.step r lowest loop a = some s') :
    ∃ a' t', t.step (v.plan loop) v.reg a' = some t' ∧ Sees v s' t' ∧
      (t'.recounted = t.recounted ∨ ∃ w object, a = .merge w object ∧
        t'.recounted = t.recounted + (t.workers w).carried) ∧
      (s'.main = s.main ∧ t'.main = t.main ∨
        ∃ c ∈ s.used, c.numWorkers = n ∧ v.batch c ∈ t.used ∧ a = .adopt ∧
          distills r lowest s a = some (c.side, s.main) ∧
          s'.main = { s.main with mem := (r.distill c.side s.main).2.mem } ∧
          t'.main = t.main + v.value c.side ∧ t'.adopted = c.iteration + 1) := by
  cases a with
  | run i =>
      simp only [ReduxTeam.step] at hstep
      split_ifs at hstep with hi
      cases hstep
      refine ⟨.run i, t.run (v.plan loop) i, ?_, h.run hlaws hi.1, .inl rfl, .inl ⟨rfl, rfl⟩⟩
      simp only [Collect.Team.step]
      rw [if_pos]
      rw [View.plan_owner, View.plan_round, h.next, h.merges]
      exact hi
  | merge w object =>
      cases hstep
      exact ⟨.merge w (v.value ⟨(ReduxTeam.mergeInto r lowest (s.workers w).merges object
        (source r (s.workers w)) s.used).1, (s.workers w).lastUp⟩), _, rfl,
        h.merge hlaws w object (hallow (by simp) _ rfl), .inr ⟨w, object, rfl, rfl⟩, .inl ⟨rfl, rfl⟩⟩
  | combine k =>
      obtain ⟨used, hused, rfl⟩ := Option.map_eq_some_iff.1 hstep
      obtain ⟨as, a, b, bs, hcs, rfl, ha, hb, rfl⟩ := combineAt_cases hused
      have hdist : distills r lowest s (.combine as.length) =
          some (committed r lowest a, b.side) := by
        simp only [distills, hcs]
        simp
      obtain ⟨used', hused', hsees⟩ := h.combine hlaws hcs ha hb (hallow (by simp) _ hdist)
      refine ⟨.combine as.length, _, ?_, hsees, .inl rfl, .inl ⟨rfl, rfl⟩⟩
      simp only [Collect.Team.step, hused', Option.map_some]
  | adopt =>
      simp only [ReduxTeam.step] at hstep
      cases hused : s.used with
      | nil =>
          rw [hused] at hstep
          cases hstep
      | cons c cs =>
          rw [hused] at hstep
          dsimp only at hstep
          split_ifs at hstep with hc
          cases hstep
          have hmem : c ∈ s.used := by
            rw [hused]
            exact List.mem_cons_self
          have htused : t.used = v.batch c :: cs.map v.batch := by
            rw [h.used, hused, List.map_cons]
          refine ⟨.adopt, { t with
            main := t.main + v.value c.side
            used := cs.map v.batch
            adopted := c.iteration + 1 }, ?_, ?_, .inl rfl, .inr ⟨c, List.mem_cons_self, hc, ?_,
            rfl, ?_, rfl, rfl, rfl⟩⟩
          · simp only [Collect.Team.step, htused]
            rw [if_pos (show (v.batch c).members = n from hc)]
            rfl
          · exact ⟨h.worker_ok, h.acc, h.carried, h.merges, h.next, rfl,
              fun d hd => h.used_ok d (hused ▸ List.mem_cons_of_mem _ hd), h.done⟩
          · rw [htused]
            exact List.mem_cons_self
          · simp only [distills, hused, List.head?_cons, Option.map_some]

end Sees

end ReduxTeam
end Cpf.Executive
