import Cpf.Executive.CheckpointSpec

/-!
# Eager and lazy commits

At the join the main process combines the two oldest complete checkpoints and adopts the rest one
after another. Combining all of them first can differ from this in two ways: a conflict with the
third or a later checkpoint is no longer looked for, and a register reduction, whose newest value
stands for all of the older ones, is folded into the main process once for each checkpoint.
-/

namespace Cpf.Executive

namespace ReductionType

theorem join_right_comm (t : ReductionType) (m a v : ℕ) :
    t.join (t.join m a) v = t.join m (t.join v a) := by
  cases t with
  | addI32 =>
      simp only [join, Nat.mod_add_mod, Nat.add_mod_mod]
      congr 1
      ring
  | maxU64 =>
      simp only [join]
      omega

theorem join_zero {t : ReductionType} {a : ℕ} (ha : t = .addI32 → a < 2 ^ 32) : t.join a 0 = a := by
  cases t with
  | addI32 => exact Nat.mod_eq_of_lt (ha rfl)
  | maxU64 => exact max_eq_left (Nat.zero_le a)

theorem foldl_join_join (t : ReductionType) (vs : List ℕ) (m a : ℕ) :
    vs.foldl t.join (t.join m a) = t.join m (vs.foldl (fun acc v => t.join v acc) a) := by
  induction vs generalizing a with
  | nil => rfl
  | cons v vs ih => rw [List.foldl_cons, join_right_comm, ih, List.foldl_cons]

/-- The values `vs` leave the result of the reduction as it is without them. -/
def Neutral : ReductionType → ℕ → List ℕ → ℕ → Prop
  | .addI32, _, vs, _ => vs.sum % 2 ^ 32 = 0
  | .maxU64, m, vs, last => ∀ v ∈ vs, v ≤ max m last

theorem foldl_join_add (vs : List ℕ) (m : ℕ) (hm : m < 2 ^ 32) :
    vs.foldl (ReductionType.join .addI32) m = (m + vs.sum) % 2 ^ 32 := by
  induction vs generalizing m with
  | nil => simpa using (Nat.mod_eq_of_lt hm).symm
  | cons v vs ih =>
      rw [List.foldl_cons, ih (join .addI32 m v) (Nat.mod_lt _ (by norm_num)), List.sum_cons]
      simp only [join, Nat.mod_add_mod]
      congr 1
      ring

theorem foldl_join_max_le (vs : List ℕ) (m b : ℕ) :
    vs.foldl (ReductionType.join .maxU64) m ≤ b ↔ m ≤ b ∧ ∀ v ∈ vs, v ≤ b := by
  induction vs generalizing m with
  | nil => simp
  | cons v vs ih =>
      rw [List.foldl_cons, ih]
      simp only [join, List.mem_cons, forall_eq_or_imp, max_le_iff]
      tauto

theorem le_foldl_join_max (vs : List ℕ) (m : ℕ) : m ≤ vs.foldl (ReductionType.join .maxU64) m :=
  ((foldl_join_max_le vs m _).1 le_rfl).1

/-- Folding in some values before the last one changes nothing exactly when they are neutral. -/
theorem join_foldl_eq_iff (t : ReductionType) (m last : ℕ) (vs : List ℕ)
    (hm : t = .addI32 → m < 2 ^ 32) :
    t.join (vs.foldl t.join m) last = t.join m last ↔ t.Neutral m vs last := by
  cases t with
  | addI32 =>
      rw [foldl_join_add vs m (hm rfl)]
      simp only [join, Neutral, Nat.mod_add_mod]
      omega
  | maxU64 =>
      have hle := foldl_join_max_le vs m (max m last)
      have hge := le_foldl_join_max vs m
      simp only [join, Neutral]
      constructor
      · intro he
        have hb : vs.foldl (ReductionType.join .maxU64) m ≤ max m last := by
          rw [← he]
          exact le_max_left _ _
        exact (hle.1 hb).2
      · intro hall
        have hb := hle.2 ⟨le_max_left _ _, hall⟩
        omega

end ReductionType
namespace Config

variable {cfg : Config}

variable (cfg) in
/-- The checkpoint is complete, and its range covers the marks of its private heap. -/
structure Ready (c : Checkpoint) : Prop where
  complete : c.type = .clComplete
  tight : Image.Tight cfg.sizeofPrivate c.priv

variable (cfg) in
def combineAll (older : Checkpoint) : List Checkpoint → Except ℕ Checkpoint
  | [] => .ok older
  | newer :: rest =>
      match cfg.combineCheckpoints older newer with
      | .error _ => .error newer.iteration
      | .ok r => combineAll r.1 rest

variable (cfg) in
/-- The main process adopts the one checkpoint that is left after combining all. -/
def eagerLiveout (m : Main) : List Checkpoint → Except ℕ Liveout
  | [] => cfg.distillCheckpointsIntoLiveout false m []
  | c :: cs =>
      match cfg.combineAll c cs with
      | .error i => .error i
      | .ok c => cfg.distillCheckpointsIntoLiveout false m [c]

variable (cfg) in
/-- Two ways to adopt checkpoints give the same verdict, and without a misspeculation the same
private heap and the same reduction values. -/
structure SameLiveout (x y : Except ℕ Liveout) : Prop where
  verdict : (∃ r, x = .ok r) ↔ ∃ r, y = .ok r
  priv : ∀ r r', x = .ok r → y = .ok r' → r.main.priv = r'.main.priv
  redux : ∀ r r', x = .ok r → y = .ok r' → ∀ info ∈ cfg.reductions.infos, ∀ e < info.elems,
    info.value r.main.redux e = info.value r'.main.redux e

theorem exists_combineAll_iff {older : Checkpoint} {cs : List Checkpoint} :
    (∃ c, cfg.combineAll older cs = .ok c) ↔
      ∃ p, Image.foldCommitted cfg.sizeofPrivate.val older.priv (cs.map Checkpoint.priv) = .ok p := by
  induction cs generalizing older with
  | nil => exact ⟨fun _ => ⟨_, rfl⟩, fun _ => ⟨_, rfl⟩⟩
  | cons c cs ih =>
      rw [List.map_cons, combineAll]
      cases hc : cfg.combineCheckpoints older c with
      | error newer =>
          constructor
          · rintro ⟨_, hbad⟩
            cases hbad
          · rintro ⟨p, hp⟩
            obtain ⟨d, hd, _⟩ := foldlM_cons_eq_ok.1 hp
            obtain ⟨r, hr⟩ := combineCheckpoints_isOk_iff.2 ⟨d, hd⟩
            rw [hc] at hr
            cases hr
      | ok r =>
          obtain ⟨img, himg, hr, _⟩ := combineCheckpoints_ok hc
          have hpriv : r.1.priv = img := congrArg Checkpoint.priv hr
          change (∃ c, cfg.combineAll r.1 cs = .ok c) ↔ _
          rw [ih, hpriv]
          constructor
          · rintro ⟨p, hp⟩
            exact ⟨p, foldlM_cons_eq_ok.2 ⟨img, himg, hp⟩⟩
          · rintro ⟨p, hp⟩
            obtain ⟨d, hd, hrest⟩ := foldlM_cons_eq_ok.1 hp
            rw [himg] at hd
            cases hd
            exact ⟨p, hrest⟩

/-- The value of a reduction in the combination of two checkpoints: a register reduction has the
newer value, any other reduction both. -/
theorem value_combine {older newer newer' : Checkpoint} {out : List IOEvt}
    (h : cfg.combineCheckpoints older newer = .ok (newer', out)) {info : ReductionInfo}
    (hi : info ∈ cfg.reductions.infos) {e : ℕ} (he : e < info.elems) :
    info.value newer'.redux e =
      if info.reg then info.value newer.redux e
      else info.type.join (info.value newer.redux e) (info.value older.redux e) := by
  obtain ⟨img, _, rfl, _⟩ := combineCheckpoints_ok h
  change info.value (cfg.reductions.distill _ newer.redux).2 e = _
  rw [Reductions.value_distill hi he, Reductions.value_initializeCheckpointRedux hi he]
  cases info.reg with
  | false => simp
  | true => simpa using ReductionType.join_zero (fun hadd => ReductionInfo.value_lt hadd _ e)

theorem combineAll_ok {older c : Checkpoint} {cs : List Checkpoint}
    (h : cfg.combineAll older cs = .ok c) :
    Image.foldCommitted cfg.sizeofPrivate.val older.priv (cs.map Checkpoint.priv) = .ok c.priv ∧
    (older.type = .clComplete → (∀ d ∈ cs, d.type = .clComplete) → c.type = .clComplete) ∧
    ∀ info ∈ cfg.reductions.infos, ∀ e < info.elems, info.value c.redux e =
      if info.reg then info.value ((older :: cs).getLast (List.cons_ne_nil older cs)).redux e
      else (cs.map (fun d => info.value d.redux e)).foldl (fun acc v => info.type.join v acc)
        (info.value older.redux e) := by
  induction cs generalizing older with
  | nil =>
      cases h
      refine ⟨rfl, fun ht _ => ht, fun info _ e _ => ?_⟩
      cases info.reg <;> rfl
  | cons d ds ih =>
      rw [combineAll] at h
      cases hc : cfg.combineCheckpoints older d with
      | error newer =>
          rw [hc] at h
          cases h
      | ok r =>
          rw [hc] at h
          obtain ⟨newer, out⟩ := r
          obtain ⟨hfold, htype, hval⟩ := ih h
          obtain ⟨img, himg, hr, _⟩ := combineCheckpoints_ok hc
          have hpriv : newer.priv = img := congrArg Checkpoint.priv hr
          have hnt : newer.type = d.type := by rw [hr]
          refine ⟨?_, fun _ hds => ?_, fun info hi e he => ?_⟩
          · rw [List.map_cons]
            exact foldlM_cons_eq_ok.2 ⟨img, himg, hpriv ▸ hfold⟩
          · exact htype (hnt.trans (hds d List.mem_cons_self))
              (fun x hx => hds x (List.mem_cons_of_mem d hx))
          · rw [hval info hi e he]
            have hv := value_combine hc hi he
            cases hreg : info.reg with
            | false =>
                rw [hreg] at hv
                simp only [Bool.false_eq_true, if_false] at hv ⊢
                rw [List.map_cons, List.foldl_cons, hv]
            | true =>
                rw [hreg] at hv
                simp only [if_true] at hv ⊢
                cases ds with
                | nil => exact hv
                | cons x xs => rfl

theorem adoptComplete_main (m : Main) {cs : List Checkpoint} (hcs : ∀ c ∈ cs, c.type = .clComplete) :
    (cfg.adoptComplete false m cs).main = cs.foldl (cfg.adopt false) m := by
  induction cs generalizing m with
  | nil => rfl
  | cons c cs ih =>
      rw [adoptComplete, if_pos (hcs c List.mem_cons_self), List.foldl_cons]
      exact ih _ (fun d hd => hcs d (List.mem_cons_of_mem c hd))

theorem foldl_adopt_priv (m : Main) (cs : List Checkpoint) :
    (cs.foldl (cfg.adopt false) m).priv = (cs.map Checkpoint.priv).foldl
      (fun p c => Image.distillCommittedPrivateIntoMain cfg.sizeofPrivate.val c p) m.priv := by
  induction cs generalizing m with
  | nil => rfl
  | cons c cs ih => exact ih _

theorem foldl_adopt_value (m : Main) (cs : List Checkpoint) {info : ReductionInfo}
    (hi : info ∈ cfg.reductions.infos) {e : ℕ} (he : e < info.elems) :
    info.value (cs.foldl (cfg.adopt false) m).redux e =
      (cs.map (fun c => info.value c.redux e)).foldl info.type.join (info.value m.redux e) := by
  induction cs generalizing m with
  | nil => rfl
  | cons c cs ih =>
      have hv : info.value (cfg.adopt false m c).redux e =
          info.type.join (info.value m.redux e) (info.value c.redux e) :=
        Reductions.value_distill hi he _ _
      rw [List.foldl_cons, ih, List.map_cons, List.foldl_cons, hv]

theorem liveout_cons_cons (m : Main) {c d : Checkpoint} {cs : List Checkpoint}
    (hc : c.type = .clComplete) (hd : d.type = .clComplete) :
    cfg.distillCheckpointsIntoLiveout false m (c :: d :: cs) =
      match cfg.combineCheckpoints c d with
      | .error _ => .error d.iteration
      | .ok r => .ok { cfg.adoptComplete false m (r.1 :: cs) with
          output := r.2 ++ (cfg.adoptComplete false m (r.1 :: cs)).output } := by
  have hsame : cfg.combineCheckpoints { c with type := .clFree } d = cfg.combineCheckpoints c d := rfl
  rw [distillCheckpointsIntoLiveout, commitZeroOrMoreCheckpoints, if_pos ⟨hc, hd⟩, hsame]
  cases cfg.combineCheckpoints c d with
  | error newer => rfl
  | ok r => rfl

variable (cfg) in
/-- The two oldest checkpoints conflict, or no two do and, for every register reduction, the values
of the checkpoints between the first and the last change nothing. -/
def AdoptionAgrees (m : Main) (cs : List Checkpoint) : Prop :=
  (∃ c d rest, cs = c :: d :: rest ∧ Image.FlowsInto c.priv d.priv) ∨
  (cs.Pairwise (fun a b => ¬ Image.FlowsInto a.priv b.priv) ∧
    ∀ last ∈ cs.getLast?, ∀ info ∈ cfg.reductions.infos, info.reg = true → ∀ e < info.elems,
      info.type.Neutral (info.value m.redux e)
        (cs.tail.dropLast.map (fun c => info.value c.redux e)) (info.value last.redux e))

theorem sameLiveout_refl (x : Except ℕ Liveout) : cfg.SameLiveout x x := by
  refine ⟨Iff.rfl, fun r r' h h' => ?_, fun r r' h h' _ _ _ _ => ?_⟩
  · rw [h] at h'
    cases h'
    rfl
  · rw [h] at h'
    cases h'
    rfl

theorem sameLiveout_ok_iff {r r' : Liveout} :
    cfg.SameLiveout (.ok r) (.ok r') ↔ r.main.priv = r'.main.priv ∧
      ∀ info ∈ cfg.reductions.infos, ∀ e < info.elems,
        info.value r.main.redux e = info.value r'.main.redux e := by
  constructor
  · intro h
    exact ⟨h.priv r r' rfl rfl, h.redux r r' rfl rfl⟩
  · rintro ⟨hpriv, hredux⟩
    refine ⟨⟨fun _ => ⟨r', rfl⟩, fun _ => ⟨r, rfl⟩⟩, fun x y hx hy => ?_, fun x y hx hy => ?_⟩
    · cases hx
      cases hy
      exact hpriv
    · cases hx
      cases hy
      exact hredux

theorem not_sameLiveout_error {r : Liveout} {i : ℕ} : ¬ cfg.SameLiveout (.ok r) (.error i) := by
  intro h
  obtain ⟨_, hbad⟩ := h.verdict.1 ⟨r, rfl⟩
  cases hbad

/-- The values that the two ways leave in the main process, when no two checkpoints conflict. -/
theorem values_of_no_conflict {m : Main} {c d c' d' : Checkpoint} {cs : List Checkpoint}
    {out : List IOEvt} (hcomb : cfg.combineCheckpoints c d = .ok (d', out))
    (hall : cfg.combineAll c (d :: cs) = .ok c') {info : ReductionInfo}
    (hi : info ∈ cfg.reductions.infos) {e : ℕ} (he : e < info.elems) :
    info.value ((d' :: cs).foldl (cfg.adopt false) m).redux e =
        info.value (cfg.adopt false m c').redux e ↔
      (info.reg = true → info.type.Neutral (info.value m.redux e)
        ((d :: cs).dropLast.map (fun c => info.value c.redux e))
        (info.value ((d :: cs).getLast (List.cons_ne_nil d cs)).redux e)) := by
  have hlazy := foldl_adopt_value m (d' :: cs) hi he
  have heager : info.value (cfg.adopt false m c').redux e =
      info.type.join (info.value m.redux e) (info.value c'.redux e) :=
    Reductions.value_distill hi he _ _
  have hc' := (combineAll_ok hall).2.2 info hi e he
  have hd' := value_combine hcomb hi he
  rw [hlazy, heager, hc', List.map_cons, hd']
  cases hreg : info.reg with
  | false =>
      simp only [Bool.false_eq_true, if_false, false_imp_iff, iff_true, List.map_cons,
        List.foldl_cons]
      exact ReductionType.foldl_join_join _ _ _ _
  | true =>
      simp only [if_true, true_imp_iff]
      have hsplit : info.value d.redux e :: cs.map (fun c => info.value c.redux e) =
          (d :: cs).dropLast.map (fun c => info.value c.redux e) ++
            [info.value ((d :: cs).getLast (List.cons_ne_nil d cs)).redux e] := by
        rw [← List.map_cons (f := fun c : Checkpoint => info.value c.redux e),
          ← List.map_singleton (f := fun c : Checkpoint => info.value c.redux e), ← List.map_append,
          List.dropLast_append_getLast]
      rw [hsplit, List.foldl_append, List.getLast_cons (List.cons_ne_nil d cs)]
      exact ReductionType.join_foldl_eq_iff _ _ _ _ (fun hadd => ReductionInfo.value_lt hadd _ e)

theorem priv_of_no_conflict {m : Main} {c d c' d' : Checkpoint} {cs : List Checkpoint}
    {out : List IOEvt} (hc : cfg.Ready c) (hd : cfg.Ready d) (hcs : ∀ x ∈ cs, cfg.Ready x)
    (hcomb : cfg.combineCheckpoints c d = .ok (d', out))
    (hall : cfg.combineAll c (d :: cs) = .ok c') :
    ((d' :: cs).foldl (cfg.adopt false) m).priv = (cfg.adopt false m c').priv := by
  obtain ⟨img, himg, rfl, _⟩ := combineCheckpoints_ok hcomb
  have hcom := Image.distillCommittedPrivateIntoPartial_committed hc.tight.within himg
  have hadopt := (Image.foldCommitted_adopt hc.tight (fun x hx => by
    obtain ⟨y, hy, rfl⟩ := List.mem_map.1 hx
    rcases List.mem_cons.1 hy with rfl | hy
    · exact hd.tight
    · exact (hcs y hy).tight) (combineAll_ok hall).1).2 m.priv
  rw [foldl_adopt_priv, List.map_cons, List.foldl_cons, hcom.adopt hc.tight hd.tight]
  exact hadopt.symm

/-- Three or more checkpoints whose first two have been combined. -/
theorem sameLiveout_combined_iff {m : Main} {c d d' : Checkpoint} {cs : List Checkpoint}
    {out : List IOEvt} {r : Liveout} (hready : ∀ x ∈ c :: d :: cs, cfg.Ready x)
    (hcomb : cfg.combineCheckpoints c d = .ok (d', out))
    (hr : r.main = (cfg.adoptComplete false m (d' :: cs)).main) :
    cfg.SameLiveout (.ok r) (cfg.eagerLiveout m (c :: d :: cs)) ↔
      cfg.AdoptionAgrees m (c :: d :: cs) := by
  have hc := hready c (by simp)
  have hd := hready d (by simp)
  have hcs : ∀ x ∈ cs, cfg.Ready x := fun x hx => hready x (by simp [hx])
  have hno : ¬ Image.FlowsInto c.priv d.priv :=
    (Image.exists_committed_iff hc.tight).1 (combineCheckpoints_isOk_iff.1 ⟨_, hcomb⟩)
  have hagrees : cfg.AdoptionAgrees m (c :: d :: cs) ↔ _ := or_iff_right (by
    rintro ⟨c₀, d₀, rest, he, hflow⟩
    cases he
    exact hno hflow)
  have hpair : (∃ x, cfg.combineAll c (d :: cs) = .ok x) ↔
      (c :: d :: cs).Pairwise (fun a b => ¬ Image.FlowsInto a.priv b.priv) := by
    rw [exists_combineAll_iff, Image.exists_foldCommitted_iff hc.tight (fun x hx => by
      obtain ⟨y, hy, rfl⟩ := List.mem_map.1 hx
      exact (hready y (List.mem_cons_of_mem c hy)).tight), ← List.map_cons, List.pairwise_map]
  have hlast : (c :: d :: cs).getLast? =
      some ((d :: cs).getLast (List.cons_ne_nil d cs)) := by
    rw [List.getLast?_cons_cons, List.getLast?_eq_some_getLast (List.cons_ne_nil d cs)]
  rw [hagrees, eagerLiveout]
  cases hall : cfg.combineAll c (d :: cs) with
  | error i =>
      refine iff_of_false not_sameLiveout_error (fun hcond => ?_)
      obtain ⟨x, hx⟩ := hpair.2 hcond.1
      rw [hall] at hx
      cases hx
  | ok c' =>
      have hlazy : r.main = (d' :: cs).foldl (cfg.adopt false) m := by
        obtain ⟨_, _, rfl, _⟩ := combineCheckpoints_ok hcomb
        refine hr.trans (adoptComplete_main m (fun x hx => ?_))
        rcases List.mem_cons.1 hx with rfl | hx
        · exact hd.complete
        · exact (hcs x hx).complete
      have hone : (cfg.adoptComplete false m [c']).main = cfg.adopt false m c' := by
        refine adoptComplete_main m (fun x hx => ?_)
        rw [List.mem_singleton.1 hx]
        exact (combineAll_ok hall).2.1 hc.complete
          (fun y hy => (hready y (List.mem_cons_of_mem c hy)).complete)
      change cfg.SameLiveout (.ok r) (.ok (cfg.adoptComplete false m [c'])) ↔ _
      rw [sameLiveout_ok_iff, hlazy, hone]
      constructor
      · rintro ⟨_, hredux⟩
        refine ⟨hpair.1 ⟨c', hall⟩, fun last hl info hi hreg e he => ?_⟩
        rw [hlast] at hl
        cases hl
        exact (values_of_no_conflict hcomb hall hi he).1 (hredux info hi e he) hreg
      · rintro ⟨_, hneutral⟩
        refine ⟨priv_of_no_conflict hc hd hcs hcomb hall, fun info hi e he => ?_⟩
        exact (values_of_no_conflict hcomb hall hi he).2
          (fun hreg => hneutral _ hlast info hi hreg e he)

def plain : Config := ofWorkers 1 le_rfl (by decide)

/-- A complete checkpoint whose only mark, on byte 0, is `mark`. -/
def marked (iteration : ℕ) (mark : UInt8) : { c // plain.Ready c } where
  val :=
    { type := .clComplete
      iteration := iteration
      numWorkers := 1
      priv := ⟨fun _ => mark, Function.update (fun _ => liveIn) 0 mark, ⟨0, 1⟩⟩
      killpriv := fun _ => 0
      share := ⟨fun _ => 0, fun _ => 0, ShadowRange.reset⟩
      redux := ⟨fun _ _ => 0, fun _ _ => 0⟩
      ioEvents := IOEvtSet.empty }
  property := by
    refine ⟨rfl, fun k hk => ?_, Or.inr ⟨Nat.zero_le _, ?_⟩⟩
    · by_cases h0 : k = 0
      · subst k
        exact ⟨le_rfl, Nat.one_pos⟩
      · exact absurd (Function.update_of_ne h0 mark (fun _ => liveIn)) hk
    · change 1 ≤ 16
      omega

variable (cfg) in
/-- The main process adopts the checkpoint `alpha` from `used` and squashes the others, and is left
as if `alpha` alone had been complete. -/
def KeepsOldest (misspec : Bool) (m : Main) (alpha : Checkpoint) (used : List Checkpoint) : Prop :=
  ∃ r, cfg.distillCheckpointsIntoLiveout misspec m used = .ok r ∧
    r.adopted.map Checkpoint.iteration = [alpha.iteration] ∧ r.squashed = used.tail ∧
    r.main = cfg.adopt misspec m alpha

/-- After a conflict the older checkpoint is never adopted: not when a worker has found the
conflict, whatever the workers do to the later checkpoints before the join, and not when the main
process finds it. -/
theorem failed_combine_loses_oldest (cfg : Config) (m : Main) (alpha beta : Checkpoint)
    (rest used : List Checkpoint) (i : ℕ)
    (h : cfg.commitZeroOrMoreCheckpoints (alpha :: beta :: rest) = .conflict used i)
    (misspec : Bool) :
    (∀ later, ¬ cfg.KeepsOldest misspec m alpha (used.take 2 ++ later)) ∧
      ¬ cfg.KeepsOldest misspec m alpha (alpha :: beta :: rest) := by
  constructor
  · obtain ⟨a, b, cs, img, he, rfl, _, _, _⟩ := commit_conflict h
    cases he
    rintro later ⟨r, hr, hadopted, _⟩
    rw [List.take_succ_cons, List.take_succ_cons, List.take_zero, List.cons_append,
      liveout_of_not_complete CheckpointLife.noConfusion] at hr
    cases hr
    cases hadopted
  · rintro ⟨r, hr, _⟩
    rw [liveout_of_conflict h] at hr
    cases hr

/-- The first checkpoint writes a byte that the second has read. -/
theorem commit_marked_conflict : ∃ used, plain.commitZeroOrMoreCheckpoints
    [(marked 253 5).val, (marked 506 readLiveIn).val] = .conflict used 506 :=
  ⟨_, rfl⟩

theorem failed_combine_loses_oldest_marked : ∃ used, plain.commitZeroOrMoreCheckpoints
    [(marked 253 5).val, (marked 506 readLiveIn).val] = .conflict used 506 ∧
      ∀ later, ¬ plain.KeepsOldest true zeroMain (marked 253 5).val (used.take 2 ++ later) := by
  obtain ⟨used, h⟩ := commit_marked_conflict
  exact ⟨used, h, (failed_combine_loses_oldest plain zeroMain _ _ [] used 506 h true).1⟩

/-- The first of two checkpoints is lost although it could have been adopted alone. -/
theorem failed_combine_keeps_nothing :
    ¬ ∀ (cfg : Config) (m : Main) (alpha beta : Checkpoint) (rest used : List Checkpoint) (i : ℕ),
      cfg.commitZeroOrMoreCheckpoints (alpha :: beta :: rest) = .conflict used i →
        cfg.KeepsOldest true m alpha used := by
  intro hall
  obtain ⟨used, h⟩ := commit_marked_conflict
  obtain ⟨r, hr, hadopted, _⟩ := hall plain zeroMain _ _ [] used 506 h
  obtain ⟨a, b, cs, img, _, rfl, _, _, _⟩ := commit_conflict h
  rw [liveout_of_not_complete CheckpointLife.noConfusion] at hr
  cases hr
  cases hadopted

end Config
end Cpf.Executive
