import Cpf.Executive.Merge

/-!
# The order of the workers' merges

The heaps of the workers of one checkpoint group are merged into one fresh partial checkpoint. A
byte that one worker has read and another has written makes every order report a conflict. The
merge also reports one when a worker looks at a byte that it has left `liveIn`, in a word where it
has marked another byte, after some worker that has read the byte; this depends on the order.
-/

namespace Cpf.Executive
open Heap

/-- The private heaps of the `n` workers of one checkpoint group. -/
structure GroupHeaps (n : ℕ) (size : ℕ) where
  heap : Fin n → Image
  codes : Fin n → Finset UInt8
  reserved : ∀ w, ∀ c ∈ codes w, numReservedShadowValues ≤ c.toNat
  disjoint : ∀ w v, w ≠ v → Disjoint (codes w) (codes v)
  mark : ∀ w k, (heap w).shadow k = liveIn ∨ (heap w).shadow k = readLiveIn ∨
    (heap w).shadow k ∈ codes w
  covered : ∀ w k, (heap w).shadow k ≠ liveIn → (heap w).range.CoversWord k
  within : ∀ w, (heap w).range.Within size

namespace GroupHeaps

variable {n : ℕ} {size : HeapLen} (G : GroupHeaps n size.val)

def mergeInOrder (chkpt : Image) (o : List (Fin n)) : Except Image Image :=
  Image.mergeAll size.val (chkpt.initializePartial size.val) (o.map G.heap)

def Succeeds (chkpt : Image) (o : List (Fin n)) : Prop := ∃ p, G.mergeInOrder chkpt o = .ok p

/-- Some byte was read by one worker and written by another. -/
def FlowConflict : Prop :=
  ∃ k w v, (G.heap w).shadow k = readLiveIn ∧ wasWrittenEver ((G.heap v).shadow k) = true

/-- Some byte that one worker has read is left `liveIn` by another, which has marked a byte of the
same word. -/
def NeighbourConflict : Prop :=
  ∃ k w v, (G.heap w).shadow k = readLiveIn ∧ (G.heap v).shadow k = liveIn ∧ (G.heap v).Scanned k

/-- Two orders give the same verdict and, where it is good, the same checkpoint; a bad verdict
comes from a byte read by one worker and written by another. -/
structure Agree (chkpt : Image) (o o' : List (Fin n)) : Prop where
  verdict : G.Succeeds chkpt o ↔ G.Succeeds chkpt o'
  priv : ∀ p p', G.mergeInOrder chkpt o = .ok p → G.mergeInOrder chkpt o' = .ok p' →
    ∀ k, wasWrittenEver (p.shadow k) = true → p.priv k = p'.priv k
  shadow : ∀ p p', G.mergeInOrder chkpt o = .ok p → G.mergeInOrder chkpt o' = .ok p' →
    p.shadow = p'.shadow
  range : ∀ p p', G.mergeInOrder chkpt o = .ok p → G.mergeInOrder chkpt o' = .ok p' →
    p.range = p'.range
  conflict : ¬ G.Succeeds chkpt o → G.FlowConflict

variable {G} {chkpt p p' : Image} {o o' : List (Fin n)} {k : ℕ} {w v : Fin n}

theorem scanMark_eq (w : Fin n) (k : ℕ) : (G.heap w).scanMark k = (G.heap w).shadow k := by
  by_cases hm : (G.heap w).shadow k = liveIn
  · unfold Image.scanMark
    split_ifs
    · rfl
    · exact hm.symm
  · exact Image.scanMark_of_scanned (Image.scanned_of_mark_ne (G.covered w k hm) hm)

theorem lt_size (hm : (G.heap w).shadow k ≠ liveIn) : k < size.val :=
  (G.covered w k hm).lt_size (G.within w) size.aligned

theorem fresh_mark (chkpt : Image) (hm : (G.heap w).shadow k ≠ liveIn) :
    (chkpt.initializePartial size.val).shadow k = liveIn :=
  Image.initializePartial_mark chkpt (lt_size hm)

theorem joined (h : G.mergeInOrder chkpt o = .ok p) :
    Image.Joined (chkpt.initializePartial size.val) (o.map G.heap) p := by
  refine Image.joined_of_mergeAll (fun v hv => ?_) h
  obtain ⟨w, _, rfl⟩ := List.mem_map.1 hv
  exact G.within w

theorem not_flowConflict_of_merge (h : G.mergeInOrder chkpt o = .ok p) (hw : w ∈ o) (hv : v ∈ o)
    (hread : (G.heap w).shadow k = readLiveIn) :
    wasWrittenEver ((G.heap v).shadow k) = false := by
  have hapart := (joined h).apart k (fresh_mark chkpt (w := w) (by rw [hread]; decide))
    (G.heap w) (List.mem_map_of_mem hw) (G.heap v) (List.mem_map_of_mem hv)
  rw [scanMark_eq, scanMark_eq] at hapart
  exact hapart hread

theorem not_succeeds_of_flowConflict (chkpt : Image) (ho : ∀ w, w ∈ o) (hc : G.FlowConflict) :
    ¬ G.Succeeds chkpt o := by
  rintro ⟨p, hp⟩
  obtain ⟨k, w, v, hread, hwritten⟩ := hc
  rw [not_flowConflict_of_merge hp (ho w) (ho v) hread] at hwritten
  cases hwritten

/-- One more merge goes through when it meets neither kind of conflict. -/
theorem exists_step (hflow : ¬ G.FlowConflict) (hnb : ¬ G.NeighbourConflict)
    (h : G.mergeInOrder chkpt o = .ok p) (w : Fin n) :
    ∃ q, Image.distillWorkerPrivateIntoPartial size.val (G.heap w) p = .ok q := by
  refine (Image.exists_distillWorkerPrivateIntoPartial (G.within w)).2 (fun k hs hnone => ?_)
  have hinit := Image.initializePartial_mark chkpt (hs.lt_size (G.within w))
  rcases Image.mergeCell_eq_none.1 hnone with ⟨hread, hne, hnr⟩ | ⟨hnr, hread⟩
  · rcases (joined h).source k with he | ⟨img, himg, _, hmark, _, _⟩
    · exact hne ((congrArg Prod.snd he).trans hinit)
    · obtain ⟨v, _, rfl⟩ := List.mem_map.1 himg
      exact hflow ⟨k, w, v, hread, hmark ▸ Image.wasWrittenEver_iff.2 ⟨hne, hnr⟩⟩
  · rcases (joined h).source k with he | ⟨img, himg, _, hmark, _, _⟩
    · have hzero : p.shadow k = liveIn := (congrArg Prod.snd he).trans hinit
      exact absurd (hzero.symm.trans hread) (by decide)
    · obtain ⟨v, _, rfl⟩ := List.mem_map.1 himg
      by_cases hl : (G.heap w).shadow k = liveIn
      · exact hnb ⟨k, v, w, hmark.trans hread, hl, hs⟩
      · exact hflow ⟨k, v, w, hmark.trans hread, Image.wasWrittenEver_iff.2 ⟨hl, hnr⟩⟩

theorem succeeds_of_no_conflict (hflow : ¬ G.FlowConflict) (hnb : ¬ G.NeighbourConflict)
    (chkpt : Image) (o : List (Fin n)) : G.Succeeds chkpt o := by
  induction o using List.reverseRecOn with
  | nil => exact ⟨_, rfl⟩
  | append_singleton o w ih =>
      obtain ⟨p, hp⟩ := ih
      obtain ⟨q, hq⟩ := exists_step hflow hnb hp w
      refine ⟨q, ?_⟩
      rw [mergeInOrder, Image.mergeAll, List.map_append]
      exact foldlM_append_eq_ok.2 ⟨p, hp, foldlM_cons_eq_ok.2 ⟨q, hq, rfl⟩⟩

/-- The reader of a neighbour conflict going first makes the other worker's merge fail. -/
theorem not_succeeds_of_neighbour (hread : (G.heap w).shadow k = readLiveIn)
    (hl : (G.heap v).shadow k = liveIn) (hs : (G.heap v).Scanned k) (hv : v ∈ o) :
    ¬ G.Succeeds chkpt (w :: o) := by
  rintro ⟨q, hq⟩
  obtain ⟨o₁, o₂, rfl⟩ := List.append_of_mem hv
  rw [mergeInOrder, Image.mergeAll, ← List.cons_append, List.map_append] at hq
  obtain ⟨p, hp, hrest⟩ := foldlM_append_eq_ok.1 hq
  obtain ⟨r, hr, _⟩ := foldlM_cons_eq_ok.1 hrest
  have hp : G.mergeInOrder chkpt (w :: o₁) = .ok p := hp
  have hinit := fresh_mark chkpt (w := w) (k := k) (by rw [hread]; decide)
  have hmark : p.shadow k = readLiveIn :=
    Image.Joined.mark_eq_readLiveIn (joined hp) hinit List.mem_cons_self
      (by rw [scanMark_eq, hread])
  refine (Image.exists_distillWorkerPrivateIntoPartial (G.within v)).1 ⟨r, hr⟩ k hs ?_
  exact Image.mergeCell_eq_none.2 (Or.inr ⟨by rw [hl]; decide, hmark⟩)

theorem shadow_le_of_perm (hperm : o.Perm o') (h : G.mergeInOrder chkpt o = .ok p)
    (h' : G.mergeInOrder chkpt o' = .ok p') (k : ℕ) : p.shadow k ≤ p'.shadow k := by
  rcases (joined h).source k with he | ⟨img, himg, hs, hmark, _, _⟩
  · have hi : p.shadow k = _ := congrArg Prod.snd he
    rw [hi]
    exact (joined h').init_le k
  · have hmem : img ∈ o'.map G.heap := (hperm.map G.heap).mem_iff.1 himg
    have hle := (joined h').mark_le img hmem k
    rwa [Image.scanMark_of_scanned hs, hmark] at hle

theorem shadow_eq_of_perm (hperm : o.Perm o') (h : G.mergeInOrder chkpt o = .ok p)
    (h' : G.mergeInOrder chkpt o' = .ok p') : p.shadow = p'.shadow := by
  funext k
  exact UInt8.le_antisymm (shadow_le_of_perm hperm h h' k) (shadow_le_of_perm hperm.symm h' h k)

theorem eq_of_same_code (hm : (G.heap w).shadow k = (G.heap v).shadow k)
    (hne : (G.heap w).shadow k ≠ liveIn) (hnr : (G.heap w).shadow k ≠ readLiveIn) : w = v := by
  by_contra hwv
  have hmem : ∀ u, (G.heap u).shadow k = (G.heap w).shadow k →
      (G.heap w).shadow k ∈ G.codes u := by
    intro u hu
    rcases G.mark u k with hl | hr | hcode
    · exact absurd (hu ▸ hl) hne
    · exact absurd (hu ▸ hr) hnr
    · exact hu ▸ hcode
  exact Finset.disjoint_left.1 (G.disjoint w v hwv) (hmem w rfl) (hmem v hm.symm)

theorem priv_eq_of_perm (hperm : o.Perm o') (h : G.mergeInOrder chkpt o = .ok p)
    (h' : G.mergeInOrder chkpt o' = .ok p') (k : ℕ) (hwritten : wasWrittenEver (p.shadow k) = true) :
    p.priv k = p'.priv k := by
  have hsame : p.shadow k = p'.shadow k := congrFun (shadow_eq_of_perm hperm h h') k
  obtain ⟨hne, hnr⟩ := Image.wasWrittenEver_iff.1 hwritten
  have hinit : ∀ u, (G.heap u).shadow k = p.shadow k → (chkpt.initializePartial size.val).shadow k ≠
      p.shadow k := by
    intro u hu hi
    rw [fresh_mark chkpt (hu ▸ hne)] at hi
    exact hne hi.symm
  rcases (joined h).source k with he | ⟨img, himg, hs, hmark, _, hval⟩
  · rcases (joined h').source k with he' | ⟨img', himg', hs', hmark', _, hval'⟩
    · exact (congrArg Prod.fst he).trans (congrArg Prod.fst he').symm
    · obtain ⟨u, _, rfl⟩ := List.mem_map.1 himg'
      exact absurd (congrArg Prod.snd he).symm (hinit u (hmark'.trans hsame.symm))
  · obtain ⟨u, _, rfl⟩ := List.mem_map.1 himg
    rcases (joined h').source k with he' | ⟨img', himg', hs', hmark', _, hval'⟩
    · exact absurd ((congrArg Prod.snd he').symm.trans hsame.symm) (hinit u hmark)
    · obtain ⟨u', _, rfl⟩ := List.mem_map.1 himg'
      have huu : u = u' := eq_of_same_code (hmark.trans (hsame.trans hmark'.symm))
        (hmark ▸ hne) (hmark ▸ hnr)
      rw [hval.resolve_left hnr, hval'.resolve_left (hsame ▸ hnr), huu]

theorem widen_right_comm (r a b : ShadowRange) :
    (r.widen a).widen b = (r.widen b).widen a := by
  simp only [ShadowRange.widen, ShadowRange.mk.injEq]
  constructor
  · split_ifs <;> omega
  · split_ifs <;> omega

theorem range_eq_of_perm (hperm : o.Perm o') (h : G.mergeInOrder chkpt o = .ok p)
    (h' : G.mergeInOrder chkpt o' = .ok p') : p.range = p'.range := by
  rw [(joined h).range, (joined h').range]
  have : RightCommutative ShadowRange.widen := ⟨widen_right_comm⟩
  exact ((hperm.map G.heap).map Image.range).foldl_eq _

/-- Worker 0 has read byte 0 and worker 1 has written byte 1. -/
def readerAndWriter : GroupHeaps 2 sixteen.val where
  heap w := if w = 0 then ⟨fun _ => 0, Function.update (fun _ => liveIn) 0 readLiveIn, ⟨0, 1⟩⟩
    else ⟨fun _ => 0, Function.update (fun _ => liveIn) 1 4, ⟨1, 2⟩⟩
  codes w := if w = 0 then ∅ else {4}
  reserved := by
    intro w c hc
    fin_cases w
    · simp at hc
    · simp only [Fin.mk_one, one_ne_zero, if_false, Finset.mem_singleton] at hc
      subst hc
      decide
  disjoint := by decide
  mark w k := by
    fin_cases w
    · by_cases hk : k = 0 <;> simp [hk]
    · by_cases hk : k = 1 <;> simp [hk]
  covered w k := by
    fin_cases w
    · by_cases hk : k = 0
      · subst k
        intro _
        decide
      · simp [hk]
    · by_cases hk : k = 1
      · subst k
        intro _
        decide
      · simp [hk]
  within := by
    intro w
    fin_cases w
    · exact Or.inr ⟨by decide, by decide⟩
    · exact Or.inr ⟨by decide, by decide⟩

end GroupHeaps
end Cpf.Executive
