import Cpf.Executive.Manager

/-!
# The lists of the checkpoint manager

`ListsOk m us fs`: the used list consists of the objects `us`, the free list of the objects `fs`,
and no object is in two places. Every critical section keeps this.
-/

namespace Cpf.Executive.Manager

variable {m m' : Manager} {us fs : List ℕ} {o iter : ℕ} {z : Sizes}

structure ListsOk (m : Manager) (us fs : List ℕ) : Prop where
  used : m.links.Holds m.used us
  free : m.links.Holds m.free fs
  nodup : (m.mainCheckpoint :: (us ++ fs)).Nodup
  lt : ∀ o ∈ m.mainCheckpoint :: (us ++ fs), o < m.totalCheckpointObjects

structure SameLists (m m' : Manager) : Prop where
  total : m'.totalCheckpointObjects = m.totalCheckpointObjects
  main : m'.mainCheckpoint = m.mainCheckpoint
  used : m'.used = m.used
  free : m'.free = m.free
  links : m'.links = m.links

theorem sameLists_refl (m : Manager) : SameLists m m := ⟨rfl, rfl, rfl, rfl, rfl⟩

theorem sameLists_setChkpt (m : Manager) (o : ℕ) (c : Checkpoint) : SameLists m (m.setChkpt o c) :=
  ⟨rfl, rfl, rfl, rfl, rfl⟩

theorem sameLists_setLock (m : Manager) (o : ℕ) (b : Bool) : SameLists m (m.setLock o b) :=
  ⟨rfl, rfl, rfl, rfl, rfl⟩

theorem SameLists.trans {m'' : Manager} (h : SameLists m m') (h' : SameLists m' m'') :
    SameLists m m'' :=
  ⟨h'.total.trans h.total, h'.main.trans h.main, h'.used.trans h.used, h'.free.trans h.free,
    h'.links.trans h.links⟩

/-- The lookup finds the first object with the iteration, behind smaller ones. -/
theorem lookup_found {l : List ℕ} (h : m.lookup iter l = .found o) :
    o ∈ l ∧ (m.chkpt o).iteration = iter := by
  induction l with
  | nil => cases h
  | cons p l ih =>
      rw [lookup] at h
      split_ifs at h with heq hlt
      · cases h
        exact ⟨List.mem_cons_self, heq⟩
      · exact ⟨List.mem_cons_of_mem p (ih h).1, (ih h).2⟩

theorem lookup_absent {l : List ℕ} (h : m.lookup iter l = .absent) :
    ∀ o ∈ l, (m.chkpt o).iteration < iter := by
  induction l with
  | nil => exact fun o ho => absurd ho List.not_mem_nil
  | cons p l ih =>
      rw [lookup] at h
      split_ifs at h with heq hlt
      intro o ho
      rcases List.mem_cons.1 ho with rfl | ho
      · exact hlt
      · exact ih h o ho

theorem listsOk_init (chkpt : ℕ → Checkpoint) (reduxUsed : ℕ → ℕ) :
    ListsOk (initCheckpointManager chkpt reduxUsed) [] [] where
  used := ⟨rfl, rfl, trivial⟩
  free := ⟨rfl, rfl, trivial⟩
  nodup := List.nodup_singleton 0
  lt o ho := by
    rw [List.mem_singleton.1 ho]
    exact Nat.zero_lt_one

namespace ListsOk

theorem congr (h : ListsOk m us fs) (hs : SameLists m m') : ListsOk m' us fs where
  used := by
    rw [hs.links, hs.used]
    exact h.used
  free := by
    rw [hs.links, hs.free]
    exact h.free
  nodup := by
    rw [hs.main]
    exact h.nodup
  lt := by
    rw [hs.main, hs.total]
    exact h.lt

theorem nodup_used (h : ListsOk m us fs) : us.Nodup :=
  (List.nodup_append.1 (List.nodup_cons.1 h.nodup).2).1

theorem nodup_free (h : ListsOk m us fs) : fs.Nodup :=
  (List.nodup_append.1 (List.nodup_cons.1 h.nodup).2).2.1

theorem disjoint (h : ListsOk m us fs) (hu : o ∈ us) : o ∉ fs :=
  fun hf => (List.nodup_append.1 (List.nodup_cons.1 h.nodup).2).2.2 o hu o hf rfl

theorem length_used_le (h : ListsOk m us fs) : us.length ≤ m.totalCheckpointObjects := by
  have hsub : us ⊆ List.range m.totalCheckpointObjects := fun o ho =>
    List.mem_range.2 (h.lt o (List.mem_cons_of_mem _ (List.mem_append_left fs ho)))
  have hle := (h.nodup_used.subperm hsub).length_le
  rwa [List.length_range] at hle

/-- The loops over the used list see all of it. -/
theorem usedObjects_eq (h : ListsOk m us fs) : m.usedObjects = us :=
  h.used.walk h.length_used_le

theorem first_eq (h : ListsOk m us fs) : m.used.first = us.head? := h.used.first

theorem free_first_eq (h : ListsOk m us fs) : m.free.first = fs.head? := h.free.first

theorem popFree_pushUsed (h : ListsOk m us (o :: fs)) :
    ListsOk ((m.popFree o).pushUsed o) (us ++ [o]) fs := by
  have hou : o ∉ us := fun hu => h.disjoint hu List.mem_cons_self
  have hof : o ∉ fs := (List.nodup_cons.1 h.nodup_free).1
  have hused : (m.links.popFront m.free o).1.Holds m.used us :=
    h.used.frame (fun b hb => h.free.popFront_frame (h.disjoint hb))
  have hfree := h.free.popFront h.nodup_free
  have hperm : (m.mainCheckpoint :: (us ++ [o] ++ fs)).Perm (m.mainCheckpoint :: (us ++ o :: fs)) := by
    rw [List.append_assoc, List.singleton_append]
  refine ⟨hused.pushBack h.nodup_used hou, hfree.frame (fun b hb => ?_), hperm.nodup_iff.2 h.nodup,
    fun p hp => h.lt p (hperm.mem_iff.1 hp)⟩
  exact hused.pushBack_frame (fun hu => h.disjoint hu (List.mem_cons_of_mem o hb))
    (fun he => hof (he ▸ hb))

theorem newObject_pushUsed (h : ListsOk m us fs) :
    ListsOk (m.newObject.pushUsed m.totalCheckpointObjects)
      (us ++ [m.totalCheckpointObjects]) fs := by
  have hne : ∀ p ∈ us ++ fs, p ≠ m.totalCheckpointObjects := fun p hp =>
    (h.lt p (List.mem_cons_of_mem _ hp)).ne
  have hsame : ∀ p ∈ us ++ fs, m.links.SameAt m.newObject.links p := fun p hp => by
    simp [Links.SameAt, newObject, Links.setNext, Links.setPrev, hne p hp]
  have hused : m.newObject.links.Holds m.used us :=
    h.used.frame (fun p hp => hsame p (List.mem_append_left fs hp))
  have hfree : m.newObject.links.Holds m.free fs :=
    h.free.frame (fun p hp => hsame p (List.mem_append_right us hp))
  have hou : m.totalCheckpointObjects ∉ us := fun hu => hne _ (List.mem_append_left fs hu) rfl
  have hperm : (m.mainCheckpoint :: (us ++ [m.totalCheckpointObjects] ++ fs)).Perm
      (m.totalCheckpointObjects :: m.mainCheckpoint :: (us ++ fs)) := by
    refine List.Perm.trans (List.Perm.cons _ ?_) (List.Perm.swap _ _ _)
    rw [List.append_assoc, List.singleton_append]
    exact List.perm_middle
  refine ⟨hused.pushBack h.nodup_used hou, hfree.frame (fun b hb => ?_), hperm.nodup_iff.2 ?_,
    fun p hp => ?_⟩
  · exact hused.pushBack_frame (fun hu => h.disjoint hu hb) (hne b (List.mem_append_right us hb))
  · exact List.nodup_cons.2 ⟨fun hm => lt_irrefl _ (h.lt _ hm), h.nodup⟩
  · change p < m.totalCheckpointObjects + 1
    rcases List.mem_cons.1 (hperm.mem_iff.1 hp) with rfl | hp
    · exact Nat.lt_succ_self _
    · exact Nat.lt_succ_of_lt (h.lt p hp)

theorem retire (h : ListsOk m (o :: us) fs) : ListsOk (m.retire o) us (fs ++ [o]) := by
  have hof : o ∉ fs := h.disjoint List.mem_cons_self
  have hou : o ∉ us := (List.nodup_cons.1 h.nodup_used).1
  have hused := h.used.popFront h.nodup_used
  have hfree : (m.links.popFront m.used o).1.Holds m.free fs :=
    h.free.frame (fun b hb => h.used.popFront_frame (fun hu => h.disjoint hu hb))
  have hperm : (m.mainCheckpoint :: (us ++ (fs ++ [o]))).Perm
      (m.mainCheckpoint :: (o :: us ++ fs)) := by
    refine List.Perm.cons _ ?_
    rw [← List.append_assoc]
    exact List.perm_append_singleton o (us ++ fs)
  refine ⟨hused.frame (fun b hb => ?_), hfree.pushBack h.nodup_free hof, hperm.nodup_iff.2 h.nodup,
    fun p hp => h.lt p (hperm.mem_iff.1 hp)⟩
  exact hfree.pushBack_frame (h.disjoint (List.mem_cons_of_mem o hb)) (fun he => hou (he ▸ hb))

end ListsOk

/-- What the creation of a checkpoint object `o` does; `fs'` is what is left of the free list. -/
structure Created (m : Manager) (us fs : List ℕ) (iter o : ℕ) (m' : Manager) (fs' : List ℕ) :
    Prop where
  lists : ListsOk m' (us ++ [o]) fs'
  fresh : o ∉ us
  rest : fs = o :: fs' ∨ fs = fs'
  type : (m'.chkpt o).type = .clPartial
  iteration : (m'.chkpt o).iteration = iter
  numWorkers : (m'.chkpt o).numWorkers = 0
  others : ∀ p, p ≠ o → m'.chkpt p = m.chkpt p

theorem Created.of_new (h : ListsOk m us fs) (hc : m.createCheckpoint z iter = .new o m') :
    ∃ fs', Created m us fs iter o m' fs' := by
  rw [createCheckpoint] at hc
  cases ha : m.allocCheckpoint z with
  | none =>
      rw [ha] at hc
      cases hc
  | some r =>
      obtain ⟨p, n⟩ := r
      rw [ha] at hc
      dsimp only at hc
      obtain ⟨rfl, rfl⟩ := Request.new.inj hc
      rw [allocCheckpoint, h.free_first_eq] at ha
      cases fs with
      | cons q fs =>
          obtain ⟨rfl, rfl⟩ := Prod.mk.inj (Option.some.inj ha)
          have hlists := h.popFree_pushUsed
          refine ⟨fs, hlists.congr ⟨rfl, rfl, rfl, rfl, rfl⟩,
            fun hu => h.disjoint hu List.mem_cons_self, Or.inl rfl, ?_, ?_, ?_, fun p hp => ?_⟩
          all_goals simp [pushUsed, setChkpt, setType, popFree, *]
      | nil =>
          simp only [List.head?_nil] at ha
          split_ifs at ha
          obtain ⟨rfl, rfl⟩ := Prod.mk.inj (Option.some.inj ha)
          have hlists := h.newObject_pushUsed
          refine ⟨[], hlists.congr ⟨rfl, rfl, rfl, rfl, rfl⟩, fun hu => ?_, Or.inr rfl, ?_, ?_, ?_,
            fun p hp => ?_⟩
          · exact lt_irrefl _ (h.lt _ (List.mem_cons_of_mem _ (List.mem_append_left [] hu)))
          all_goals simp [pushUsed, setChkpt, newObject, *]

/-- The three outcomes of a request that does not fail. -/
theorem getCheckpointForIter_cases (h : ListsOk m us fs) (z : Sizes) (iter : ℕ) :
    (∃ o, m.getCheckpointForIter z iter = .old o ∧ o ∈ us ∧ (m.chkpt o).iteration = iter) ∨
      ((∀ o ∈ us, (m.chkpt o).iteration < iter) ∧
        m.getCheckpointForIter z iter = m.createCheckpoint z iter) ∨
      m.getCheckpointForIter z iter = .abort := by
  rw [getCheckpointForIter, h.usedObjects_eq]
  cases hl : m.lookup iter us with
  | found o => exact Or.inl ⟨o, rfl, lookup_found hl⟩
  | absent => exact Or.inr (Or.inl ⟨lookup_absent hl, rfl⟩)
  | fails => exact Or.inr (Or.inr rfl)

end Cpf.Executive.Manager
