import Mathlib.Data.Prod.Lex
import Mathlib.Order.WithBot
import Cpf.Executive.AddSum

/-!
# The payload of the greatest float

A 64-bit maximum that depends on a float takes the payload of the source when the float of the
source is greater, or equal and last updated earlier. The iteration of the last update belongs to
the whole heap: every single maximum that takes a value from the source sets it. As long as none
does so without the float, and the pair is kept in registers, the heap with the greater float of
the earlier iteration wins every distill.
-/

namespace Cpf.Executive

variable {F : Type*} [LinearOrder F]

/-- How a float that was last updated at `l` ranks; it has not been updated at all when it is
`first`. -/
def rank (first x : F) (l : ℕ) : WithBot (F ×ₗ ℕᵒᵈ) :=
  if first < x then ((toLex (x, OrderDual.toDual l) : F ×ₗ ℕᵒᵈ) : WithBot (F ×ₗ ℕᵒᵈ)) else ⊥

section Rank

variable {first x y : F} {l m : ℕ}

theorem rank_of_lt (h : first < x) :
    rank first x l = ((toLex (x, OrderDual.toDual l) : F ×ₗ ℕᵒᵈ) : WithBot (F ×ₗ ℕᵒᵈ)) := if_pos h

theorem rank_of_not_lt (h : ¬ first < x) : rank first x l = ⊥ := if_neg h

theorem rank_eq_coe_iff {p : F ×ₗ ℕᵒᵈ} : rank first x l = (p : WithBot (F ×ₗ ℕᵒᵈ)) ↔
    first < x ∧ p = toLex (x, OrderDual.toDual l) := by
  by_cases h : first < x
  · rw [rank_of_lt h, WithBot.coe_inj, eq_comm]
    exact (and_iff_right h).symm
  · rw [rank_of_not_lt h]
    exact ⟨fun he => absurd he WithBot.bot_ne_coe, fun he => absurd he.1 h⟩

theorem rank_le_rank (hx : first < x) (hy : first < y) :
    rank first y m ≤ rank first x l ↔ y < x ∨ y = x ∧ l ≤ m := by
  rw [rank_of_lt hx, rank_of_lt hy, WithBot.coe_le_coe, Prod.Lex.toLex_le_toLex]
  exact Iff.rfl

theorem rank_le_of_beats (h : Beats x y l m) : rank first y m ≤ rank first x l := by
  by_cases hy : first < y
  · rcases h with hlt | ⟨rfl, hlt⟩
    · exact (rank_le_rank (hy.trans hlt) hy).2 (.inl hlt)
    · exact (rank_le_rank hy hy).2 (.inr ⟨rfl, hlt.le⟩)
  · rw [rank_of_not_lt hy]
    exact bot_le

theorem rank_le_of_not_beats (h : ¬ Beats x y l m) : rank first x l ≤ rank first y m := by
  by_cases hx : first < x
  · obtain ⟨hle, htie⟩ := not_or.1 h
    rcases lt_or_eq_of_le (not_lt.1 hle) with hlt | rfl
    · exact (rank_le_rank (hx.trans hlt) hx).2 (.inl hlt)
    · exact (rank_le_rank hx hx).2 (.inr ⟨rfl, not_lt.1 (fun hlt => htie ⟨rfl, hlt⟩)⟩)
  · rw [rank_of_not_lt hx]
    exact bot_le

end Rank

namespace ReduxTeam

variable {n : ℕ} {r : ReduxList} {lowest : F} {loop : ReduxLoop F n} {info key : ReduxInfo}

/-- A single maximum sets the last update of the destination to that of the source. -/
def Touches (o : ReduxInfo) (src dst : ReduxSide F) : Prop :=
  o.elems = 1 ∧ src.lastUp ≠ dst.lastUp ∧
    match o.type with
    | .addI32 => False
    | .maxU64 => o.dep = none ∧ src.mem.u64 o.au 0 > dst.mem.u64 o.au 0
    | .maxF32 => Beats (src.mem.f32 o.au 0) (dst.mem.f32 o.au 0) src.lastUp dst.lastUp

/-- No other maximum sets the last update in a distill in which the float stays that of the
destination, and none before the payload is taken unless the float is greater anyway. -/
def Undisturbed (r : ReduxList) (info : ReduxInfo) (k : ℕ) (src dst : ReduxSide F) : Prop :=
  (∀ o ∈ r.infos.takeWhile (fun o => o.au ≠ info.au), Touches o src dst →
    src.mem.f32 k 0 > dst.mem.f32 k 0) ∧
  ∀ o ∈ r.infos, o.au ≠ k → Touches o src dst →
    Beats (src.mem.f32 k 0) (dst.mem.f32 k 0) src.lastUp dst.lastUp

/-- The payload and its float in the list: the float comes behind, and all others are other
objects. -/
structure Split (r : ReduxList) (info key : ReduxInfo) (as cs ds : List ReduxInfo) : Prop where
  infos : r.infos = as ++ info :: (cs ++ key :: ds)
  type : info.type = .maxU64
  dep : info.dep = some key.au
  keyType : key.type = .maxF32
  keyElems : key.elems = 1
  keyReg : key.reg = info.reg
  ne : info.au ≠ key.au
  before : ∀ o ∈ as, info.au ≠ o.au ∧ key.au ≠ o.au
  between : ∀ o ∈ cs, info.au ≠ o.au ∧ key.au ≠ o.au
  behind : ∀ o ∈ ds, info.au ≠ o.au ∧ key.au ≠ o.au

theorem exists_split {k : ℕ} (hi : info ∈ r.infos) (hdep : info.dep = some k) :
    ∃ key as cs ds, key.au = k ∧ Split r info key as cs ds := by
  obtain ⟨as, bs, hsplit⟩ := List.append_of_mem hi
  obtain ⟨key, hkey, hau, htype, helems, hreg⟩ := r.deps as info bs hsplit k hdep
  obtain ⟨cs, ds, rfl⟩ := List.append_of_mem hkey
  have hd := r.distinct
  rw [hsplit] at hd
  have hpair := List.pairwise_map.1 hd
  obtain ⟨_, hrest, hcross⟩ := List.pairwise_append.1 hpair
  obtain ⟨hinfo, hrest⟩ := List.pairwise_cons.1 hrest
  obtain ⟨_, hkds, hcskds⟩ := List.pairwise_append.1 hrest
  have hmem : ∀ {o : ReduxInfo} {l : List ReduxInfo}, o ∈ l → o ∈ cs ++ key :: l :=
    fun h => List.mem_append_right _ (List.mem_cons_of_mem _ h)
  have hkmem : key ∈ cs ++ key :: ds := List.mem_append_right _ List.mem_cons_self
  exact ⟨key, as, cs, ds, hau, hsplit, (info.dep_ok k hdep).1, by rw [hdep, hau], htype, helems,
    hreg, hinfo key hkmem,
    fun o ho => ⟨(hcross o ho info List.mem_cons_self).symm,
      (hcross o ho key (List.mem_cons_of_mem _ hkmem)).symm⟩,
    fun o ho => ⟨hinfo o (List.mem_append_left _ ho), (hcskds o ho key List.mem_cons_self).symm⟩,
    fun o ho => ⟨hinfo o (hmem ho), (List.pairwise_cons.1 hkds).1 o ho⟩⟩

theorem lastUp_doReduction (o : ReduxInfo) (src dst : ReduxSide F) :
    (o.doReduction src dst).2.lastUp = dst.lastUp ∨
      (o.doReduction src dst).2.lastUp = src.lastUp ∧ Touches o src dst := by
  by_cases heq : src.lastUp = dst.lastUp
  · left
    unfold ReduxInfo.doReduction
    cases o.type with
    | addI32 => rfl
    | maxU64 =>
        cases o.dep with
        | none =>
            dsimp only
            rw [heq, ite_self]
        | some k => rfl
    | maxF32 =>
        dsimp only
        unfold reduceF32Max
        rw [heq]
        split_ifs <;> rfl
  · unfold ReduxInfo.doReduction Touches
    cases htype : o.type with
    | addI32 => exact .inl rfl
    | maxU64 =>
        cases hdep : o.dep with
        | none =>
            dsimp only
            split_ifs with hup
            · exact .inr ⟨rfl, hup.1, heq, rfl, hup.2⟩
            · exact .inl rfl
        | some k => exact .inl rfl
    | maxF32 =>
        dsimp only
        unfold reduceF32Max
        split_ifs with h1 hgt htie
        · exact .inr ⟨rfl, h1, heq, .inl hgt⟩
        · exact .inr ⟨rfl, h1, heq, .inr htie⟩
        · exact .inl rfl
        · exact .inl rfl

theorem touches_congr {o : ReduxInfo} {src src' dst dst' : ReduxSide F}
    (hs : src'.mem.SameAt src.mem o.au) (hd : dst'.mem.SameAt dst.mem o.au)
    (hsl : src'.lastUp = src.lastUp) (hdl : dst'.lastUp = dst.lastUp) (h : Touches o src' dst') :
    Touches o src dst := by
  unfold Touches at h ⊢
  rwa [hs.2.1, hs.2.2, hd.2.1, hd.2.2, hsl, hdl] at h

/-- Some reductions in a row either leave the last update, or one of them sets it to that of the
source. -/
theorem lastUp_foldl {is : List ReduxInfo} (hd : (is.map ReduxInfo.au).Nodup) (lastUp : ℕ)
    (p : ReduxMem F × ReduxSide F) :
    (is.foldl (fun p i => i.doReduction ⟨p.1, lastUp⟩ p.2) p).2.lastUp = p.2.lastUp ∨
      (is.foldl (fun p i => i.doReduction ⟨p.1, lastUp⟩ p.2) p).2.lastUp = lastUp ∧
        ∃ o ∈ is, Touches o ⟨p.1, lastUp⟩ p.2 := by
  induction is generalizing p with
  | nil => exact .inl rfl
  | cons i is ih =>
      obtain ⟨hi, hd'⟩ := List.nodup_cons.1 hd
      have hstep := lastUp_doReduction i ⟨p.1, lastUp⟩ p.2
      rw [List.foldl_cons]
      rcases hstep with hsame | ⟨hset, htouch⟩
      · rcases ih hd' (i.doReduction ⟨p.1, lastUp⟩ p.2) with hrest | ⟨hrest, o, ho, htouch⟩
        · exact .inl (hrest.trans hsame)
        · have hne : o.au ≠ i.au := fun he => hi (he ▸ List.mem_map_of_mem ho)
          have hframe := i.doReduction_sameAt hne ⟨p.1, lastUp⟩ p.2
          refine .inr ⟨hrest, o, List.mem_cons_of_mem _ ho, ?_⟩
          refine touches_congr ?_ ?_ ?_ hsame htouch
          · exact hframe.1
          · exact hframe.2
          · rfl
      · refine .inr ⟨?_, i, List.mem_cons_self, htouch⟩
        rcases ih hd' (i.doReduction ⟨p.1, lastUp⟩ p.2) with hrest | ⟨hrest, _⟩
        · exact hrest.trans hset
        · exact hrest

def payload (info : ReduxInfo) (q : ReduxSide F) : UInt64 := q.mem.u64 info.au 0

def float (key : ReduxInfo) (q : ReduxSide F) : F := q.mem.f32 key.au 0

section Distill

variable {as cs ds : List ReduxInfo} (h : Split r info key as cs ds) (src dst : ReduxSide F)

def reduceAll (is : List ReduxInfo) (lastUp : ℕ) (p : ReduxMem F × ReduxSide F) :
    ReduxMem F × ReduxSide F :=
  is.foldl (fun p i => i.doReduction ⟨p.1, lastUp⟩ p.2) p

include h

theorem distill_split : r.distill src dst = reduceAll ds src.lastUp (key.doReduction
    ⟨(reduceAll (as ++ info :: cs) src.lastUp (src.mem, dst)).1, src.lastUp⟩
    (reduceAll (as ++ info :: cs) src.lastUp (src.mem, dst)).2) := by
  have hsplit : r.infos = (as ++ info :: cs) ++ key :: ds := by
    rw [h.infos, List.append_assoc, List.cons_append]
  rw [ReduxList.distill, hsplit, List.foldl_append, List.foldl_cons]
  rfl

theorem notTouches_info : ¬ Touches info src dst := by
  intro ht
  have hcase := ht.2.2
  rw [h.type] at hcase
  have hnone := hcase.1
  rw [h.dep] at hnone
  cases hnone

/-- The float before its own reduction, in both heaps. -/
theorem before_key : (reduceAll (as ++ info :: cs) src.lastUp (src.mem, dst)).1.SameAt src.mem
      key.au ∧
    (reduceAll (as ++ info :: cs) src.lastUp (src.mem, dst)).2.mem.SameAt dst.mem key.au := by
  refine ReduxList.foldl_doReduction_sameAt src.lastUp (fun o ho => ?_) (src.mem, dst)
  rcases List.mem_append.1 ho with ho | ho
  · exact (h.before o ho).2
  · rcases List.mem_cons.1 ho with rfl | ho
    · exact h.ne.symm
    · exact (h.between o ho).2

theorem distill_float : float key (r.distill src dst).2 =
    max (float key dst) (float key src) := by
  obtain ⟨hs, hd⟩ := before_key h src dst
  have hafter := (ReduxList.foldl_doReduction_sameAt src.lastUp
    (fun o ho => (h.behind o ho).2) (key.doReduction
      ⟨(reduceAll (as ++ info :: cs) src.lastUp (src.mem, dst)).1, src.lastUp⟩
      (reduceAll (as ++ info :: cs) src.lastUp (src.mem, dst)).2)).2
  rw [distill_split h, float, reduceAll, hafter.2.2]
  simp only [ReduxInfo.doReduction, h.keyType, ReduxMem.setF32, Function.update_self, h.keyElems,
    reduceF32Max, if_true, hs.2.2, hd.2.2]
  unfold float
  by_cases hgt : src.mem.f32 key.au 0 > dst.mem.f32 key.au 0
  · rw [if_pos hgt]
    simp only [Function.update_self]
    exact (max_eq_right (le_of_lt hgt)).symm
  · rw [if_neg hgt]
    exact (max_eq_left (not_lt.1 hgt)).symm

theorem distill_payload : ∃ l, (l = dst.lastUp ∨ l = src.lastUp ∧ ∃ o ∈ as, Touches o src dst) ∧
    payload info (r.distill src dst).2 =
      if Beats (float key src) (float key dst) src.lastUp l then payload info src
      else payload info dst := by
  have hnodup : (as.map ReduxInfo.au).Nodup := by
    have hd := r.distinct
    rw [h.infos, List.map_append] at hd
    exact (List.nodup_append.1 hd).1
  refine ⟨(reduceAll as src.lastUp (src.mem, dst)).2.lastUp, lastUp_foldl hnodup _ _, ?_⟩
  have hinfo := ReduxList.foldl_doReduction_sameAt src.lastUp
    (fun o ho => (h.before o ho).1) (src.mem, dst)
  have hkey := ReduxList.foldl_doReduction_sameAt src.lastUp
    (fun o ho => (h.before o ho).2) (src.mem, dst)
  have hrest : ∀ o ∈ cs ++ key :: ds, info.au ≠ o.au := by
    intro o ho
    rcases List.mem_append.1 ho with ho | ho
    · exact (h.between o ho).1
    · rcases List.mem_cons.1 ho with rfl | ho
      · exact h.ne
      · exact (h.behind o ho).1
  have hafter := (ReduxList.foldl_doReduction_sameAt src.lastUp hrest
    (info.doReduction ⟨(reduceAll as src.lastUp (src.mem, dst)).1, src.lastUp⟩
      (reduceAll as src.lastUp (src.mem, dst)).2)).2
  rw [payload, ReduxList.distill, h.infos, List.foldl_append, List.foldl_cons]
  refine (congrFun hafter.2.1 0).trans ?_
  simp only [ReduxInfo.doReduction, h.type, h.dep, reduceU64MaxDep, ReduxMem.setU64,
    Function.update_self]
  rw [reduceAll, hinfo.1.2.1, hinfo.2.2.1, hkey.1.2.2, hkey.2.2.2]
  unfold payload float
  split_ifs
  · rw [Function.update_self]
  · rfl

/-- When the float of the source wins, the last update is that of the source. -/
theorem distill_lastUp (hbeats : Beats (float key src) (float key dst) src.lastUp dst.lastUp) :
    (r.distill src dst).2.lastUp = src.lastUp := by
  have hd := r.distinct
  have hsplit : r.infos = (as ++ info :: cs) ++ key :: ds := by
    rw [h.infos, List.append_assoc, List.cons_append]
  rw [hsplit, List.map_append, List.map_cons] at hd
  obtain ⟨hd₁, hd₂, _⟩ := List.nodup_append.1 hd
  obtain ⟨hs, hdst⟩ := before_key h src dst
  have hfront := lastUp_foldl hd₁ src.lastUp (src.mem, dst)
  have hkey : (key.doReduction ⟨(reduceAll (as ++ info :: cs) src.lastUp (src.mem, dst)).1,
      src.lastUp⟩ (reduceAll (as ++ info :: cs) src.lastUp (src.mem, dst)).2).2.lastUp =
      src.lastUp := by
    simp only [ReduxInfo.doReduction, h.keyType, h.keyElems, reduceF32Max, if_true, hs.2.2,
      hdst.2.2]
    change src.mem.f32 key.au 0 > dst.mem.f32 key.au 0 ∨
      src.mem.f32 key.au 0 = dst.mem.f32 key.au 0 ∧ src.lastUp < dst.lastUp at hbeats
    by_cases hgt : src.mem.f32 key.au 0 > dst.mem.f32 key.au 0
    · rw [if_pos hgt]
    · rw [if_neg hgt]
      obtain ⟨heq, hlt⟩ := hbeats.resolve_left hgt
      rcases hfront with hl | ⟨hl, _⟩
      · exact if_pos ⟨heq, by rw [reduceAll, hl]; exact hlt⟩
      · dsimp only
        rw [reduceAll, hl, ite_self]
  rw [distill_split h]
  rcases lastUp_foldl (F := F) (List.nodup_cons.1 hd₂).2 src.lastUp _ with hl | ⟨hl, _⟩
  · exact hl.trans hkey
  · exact hl

/-- An undisturbed distill takes the pair of the source with its last update, or leaves that of the
destination. -/
theorem distill_pair (hun : Undisturbed r info key.au src dst) :
    payload info (r.distill src dst).2 =
        (if Beats (float key src) (float key dst) src.lastUp dst.lastUp then payload info src
          else payload info dst) ∧
      (r.distill src dst).2.lastUp =
        if Beats (float key src) (float key dst) src.lastUp dst.lastUp then src.lastUp
          else dst.lastUp := by
  have has : r.infos.takeWhile (fun o => o.au ≠ info.au) = as := by
    rw [h.infos, List.takeWhile_append_of_pos (fun o ho => by simpa using (h.before o ho).1.symm),
      List.takeWhile_cons_of_neg (by simp), List.append_nil]
  obtain ⟨hbefore, hall⟩ := hun
  rw [has] at hbefore
  constructor
  · obtain ⟨l, hl, hpay⟩ := distill_payload h src dst
    rw [hpay]
    rcases hl with rfl | ⟨rfl, o, ho, htouch⟩
    · rfl
    · have hgt := hbefore o ho htouch
      rw [if_pos (.inl hgt), if_pos (.inl hgt)]
  · split_ifs with hbeats
    · exact distill_lastUp h src dst hbeats
    · rcases lastUp_foldl r.distinct src.lastUp (src.mem, dst) with hl | ⟨_, o, ho, htouch⟩
      · exact hl
      · refine absurd ?_ hbeats
        by_cases hok : o.au = key.au
        · have hkey : o = key := by
            refine List.inj_on_of_nodup_map r.distinct ho ?_ hok
            rw [h.infos]
            exact List.mem_append_right _ (List.mem_cons_of_mem _
              (List.mem_append_right _ List.mem_cons_self))
          subst hkey
          have hcase := htouch.2.2
          rw [h.keyType] at hcase
          exact hcase
        · exact hall o ho hok htouch

end Distill

/-- A pair without other objects is never disturbed. -/
theorem undisturbed_of_alone (h : Split r info key [] [] []) (src dst : ReduxSide F) :
    Undisturbed r info key.au src dst := by
  have hmem : ∀ o ∈ r.infos, o = info ∨ o = key := by
    intro o ho
    rw [h.infos] at ho
    simpa using ho
  refine ⟨fun o ho => ?_, fun o ho hne htouch => ?_⟩
  · rw [h.infos, List.nil_append, List.takeWhile_cons_of_neg (by simp)] at ho
    exact absurd ho List.not_mem_nil
  · rcases hmem o ho with rfl | rfl
    · exact absurd htouch (notTouches_info h src dst)
    · exact absurd rfl hne

end ReduxTeam
end Cpf.Executive
