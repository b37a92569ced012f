import Cpf.Slamp.Hooks
import Mathlib.Data.List.TakeWhile

/-!
# Distance histograms

`slamp_logger.cpp` has two logs. With `ONLY_SET`, which the file defines, the log is the set of the
keys, and a key is printed with the count one. Without it, the log keeps a record for every key. This
starts with the distance of its first occurrence. When a different distance is seen, it becomes a
histogram, into which the first distance is carried over with the count one. Distances and counts of a
record have 32 bits.
-/

namespace Cpf.Slamp

def onlySet : Bool := true

/-- A dependence that is logged: the timestamp of the store, the load and its iteration. -/
structure Occurrence where
  ts : UInt64
  dstInst : UInt32
  bareInst : UInt32
  iteration : UInt64

namespace Occurrence

variable (o : Occurrence)

def key : Key := ⟨getInstr o.ts, o.dstInst, o.bareInst, decide (getIter o.ts ≠ o.iteration)⟩

def distance : UInt64 := o.iteration - getIter o.ts

end Occurrence

/-- `std::unordered_map<uint32_t, uint32_t>`, in the order of insertion. -/
abbrev Distribution := List (UInt32 × UInt32)

def bump : Distribution → UInt32 → Distribution
  | [], k => [(k, 1)]
  | e :: l, k => if e.1 = k then (k, e.2 + 1) :: l else e :: bump l k

def assign : Distribution → UInt32 → UInt32 → Distribution
  | [], k, c => [(k, c)]
  | e :: l, k, c => if e.1 = k then (k, c) :: l else e :: assign l k c

structure DistanceDistribution where
  isConstant : Bool
  distance : UInt32
  distribution : Distribution
  deriving DecidableEq

structure DepRecord where
  count : UInt64
  d : DistanceDistribution
  deriving DecidableEq

/-- The record of a dependence that is logged for the first time. -/
def DepRecord.create (distance : UInt64) : DepRecord where
  count := 1
  d := ⟨true, distance.toUInt32, []⟩

/-- Stops the record from being constant if the distance is another one. -/
def DistanceDistribution.switch (d : DistanceDistribution) (distance : UInt64) :
    DistanceDistribution :=
  if d.isConstant ∧ distance ≠ d.distance.toUInt64 then
    { d with isConstant := false, distribution := assign d.distribution d.distance 1 }
  else d

def DistanceDistribution.add (d : DistanceDistribution) (distance : UInt64) :
    DistanceDistribution :=
  if d.isConstant then d else { d with distribution := bump d.distribution distance.toUInt32 }

def DepRecord.log (v : DepRecord) (distance : UInt64) : DepRecord where
  count := v.count + 1
  d := (v.d.switch distance).add distance

inductive Entry
  | member
  | value (v : DepRecord)
  deriving DecidableEq

namespace Entry

def create (onlySet : Bool) (distance : UInt64) : Entry :=
  if onlySet then .member else .value (.create distance)

def log : Entry → UInt64 → Entry
  | .member, _ => .member
  | .value v, distance => .value (v.log distance)

end Entry

abbrev Deplog := List (Key × Entry)

/-- `slamp::log`, behind its checks, with `DISTANCE_MODULE` on. -/
def Deplog.log (onlySet : Bool) : Deplog → Occurrence → Deplog
  | [], o => [(o.key, .create onlySet o.distance)]
  | e :: l, o =>
      if e.1 = o.key then (e.1, e.2.log o.distance) :: l else e :: Deplog.log onlySet l o

def logAll (onlySet : Bool) (occurrences : List Occurrence) : Deplog :=
  occurrences.foldl (Deplog.log onlySet) []

/-- What is printed of the distances of a key. -/
inductive Distances
  | nothing
  | constant (distance : UInt32)
  | histogram (distribution : Distribution)
  deriving DecidableEq

structure Line where
  key : Key
  count : UInt64
  distances : Distances
  deriving DecidableEq

def printLine : Key × Entry → Line
  | (key, .member) => ⟨key, 1, .nothing⟩
  | (key, .value v) => ⟨key, v.count,
      if v.d.isConstant then .constant v.d.distance else .histogram v.d.distribution⟩

/-- `slamp::print_log`; the file has the lines in the order of their keys. -/
def printLog (l : Deplog) : List Line := l.map printLine

def distancesOf (occurrences : List Occurrence) (key : Key) : List UInt64 :=
  (occurrences.filter (·.key = key)).map Occurrence.distance

def countOf : Distribution → UInt32 → ℕ
  | [], _ => 0
  | e :: l, k => if e.1 = k then e.2.toNat else countOf l k

/-- The count of a distance in the histogram that is printed. A distance with more than 32 bits has
none. -/
def printedCount (l : Distribution) (distance : UInt64) : ℕ :=
  if distance.toNat < 2 ^ 32 then countOf l distance.toUInt32 else 0

def totalCount (l : Distribution) : ℕ := (l.map fun e => e.2.toNat).sum

/-- What is printed of a key is right: one distance that all occurrences had, or the number of
occurrences for each distance, which add up to the number that is printed before them. -/
def Line.Exact (line : Line) (distances : List UInt64) : Prop :=
  (∃ d, line.distances = .constant d ∧ ∀ x ∈ distances, x = d.toUInt64) ∨
  ∃ l, line.distances = .histogram l ∧ (∀ x, printedCount l x = distances.count x) ∧
    totalCount l = line.count.toNat

def DepRecord.Exact (v : DepRecord) (distances : List UInt64) : Prop :=
  if v.d.isConstant then ∀ x ∈ distances, x = v.d.distance.toUInt64
  else (∀ x, printedCount v.d.distribution x = distances.count x) ∧
    totalCount v.d.distribution = v.count.toNat

/-- All distances fit in 32 bits, and all are the same, or the second differs from the first and none
is seen `2 ^ 32` times. -/
def DistancesFit (first : UInt64) (rest : List UInt64) : Prop :=
  (∀ x ∈ first :: rest, x.toNat < 2 ^ 32) ∧
    ((∀ x ∈ rest, x = first) ∨
      (∀ x ∈ rest.head?, x ≠ first) ∧ ∀ x, (first :: rest).count x < 2 ^ 32)

/-! ### Histograms -/

theorem countOf_bump (l : Distribution) (j k : UInt32) :
    countOf (bump l k) j = if j = k then (countOf l k + 1) % 2 ^ 32 else countOf l j := by
  induction l with
  | nil =>
      by_cases hj : j = k
      · subst hj
        simp [bump, countOf]
      · simp [bump, countOf, hj, Ne.symm hj]
  | cons e l ih =>
      rw [bump]
      by_cases he : e.1 = k
      · rw [if_pos he, countOf, countOf, countOf, if_pos he]
        by_cases hj : j = k
        · subst hj
          rw [if_pos rfl, if_pos rfl, UInt32.toNat_add, UInt32.toNat_one]
        · rw [if_neg (Ne.symm hj), if_neg hj, he, if_neg (Ne.symm hj)]
      · rw [if_neg he, countOf, countOf, countOf, ih, if_neg he]
        by_cases hj : j = k
        · subst hj
          rw [if_neg he, if_pos rfl, if_pos rfl]
        · rw [if_neg hj, if_neg hj]

theorem totalCount_bump (l : Distribution) (k : UInt32) (hsmall : countOf l k + 1 < 2 ^ 32) :
    totalCount (bump l k) = totalCount l + 1 := by
  induction l with
  | nil => rfl
  | cons e l ih =>
      rw [countOf] at hsmall
      rw [bump]
      split_ifs at hsmall ⊢ with he
      · rw [totalCount, totalCount, List.map_cons, List.map_cons, List.sum_cons, List.sum_cons,
          UInt32.toNat_add, UInt32.toNat_one, Nat.mod_eq_of_lt hsmall]
        omega
      · have h := ih hsmall
        rw [totalCount] at h ⊢
        rw [List.map_cons, List.sum_cons, h, totalCount, totalCount, List.map_cons, List.sum_cons,
          Nat.add_assoc]

/-- Counting keeps below the number of occurrences. -/
theorem countOf_foldl_bump_le (l : Distribution) (ks : List UInt32) (j : UInt32) :
    countOf (ks.foldl bump l) j ≤ countOf l j + ks.count j := by
  induction ks generalizing l with
  | nil => exact Nat.le_refl _
  | cons k ks ih =>
      refine (ih (bump l k)).trans ?_
      rw [countOf_bump, List.count_cons]
      by_cases hj : j = k
      · subst hj
        have hmod := Nat.mod_le (countOf l j + 1) (2 ^ 32)
        simp only [if_pos, beq_self_eq_true]
        omega
      · rw [if_neg hj, if_neg (by simpa using Ne.symm hj)]
        omega

/-- It is exact as long as the counts fit in 32 bits. -/
theorem foldl_bump_exact (l : Distribution) (ks : List UInt32)
    (hsmall : ∀ j, countOf l j + ks.count j < 2 ^ 32) :
    (∀ j, countOf (ks.foldl bump l) j = countOf l j + ks.count j) ∧
      totalCount (ks.foldl bump l) = totalCount l + ks.length := by
  induction ks generalizing l with
  | nil => exact ⟨fun j => rfl, rfl⟩
  | cons k ks ih =>
      have hstep : ∀ j, countOf (bump l k) j + ks.count j = countOf l j + (k :: ks).count j := by
        intro j
        have hj := hsmall j
        rw [countOf_bump, List.count_cons]
        rw [List.count_cons] at hj
        by_cases hjk : j = k
        · subst hjk
          simp only [if_pos, beq_self_eq_true] at hj ⊢
          rw [Nat.mod_eq_of_lt (by omega)]
          omega
        · rw [if_neg hjk, if_neg (by simpa using Ne.symm hjk)]
          omega
      obtain ⟨hcount, htotal⟩ := ih (bump l k) fun j => by
        rw [hstep]
        exact hsmall j
      have hk := hsmall k
      rw [List.count_cons_self] at hk
      refine ⟨fun j => (hcount j).trans (hstep j), ?_⟩
      rw [List.foldl_cons, htotal, totalCount_bump l k (by omega), List.length_cons]
      omega

/-! ### The record of a run -/

theorem foldl_log_histogram (v : DepRecord) (hv : v.d.isConstant = false) (ds : List UInt64) :
    ds.foldl DepRecord.log v = ⟨v.count + UInt64.ofNat ds.length,
      ⟨false, v.d.distance, (ds.map UInt64.toUInt32).foldl bump v.d.distribution⟩⟩ := by
  induction ds generalizing v with
  | nil =>
      obtain ⟨count, isConstant, distance, distribution⟩ := v
      obtain rfl : isConstant = false := hv
      simp
  | cons x ds ih =>
      have hstep : v.log x =
          ⟨v.count + 1, ⟨false, v.d.distance, bump v.d.distribution x.toUInt32⟩⟩ := by
        rw [DepRecord.log, DistanceDistribution.switch, hv, if_neg (fun h => by cases h.1),
          DistanceDistribution.add, hv]
        rfl
      have hrest := ih ⟨v.count + 1, ⟨false, v.d.distance, bump v.d.distribution x.toUInt32⟩⟩ rfl
      rw [List.foldl_cons, hstep, hrest, List.length_cons, Nat.add_comm ds.length 1,
        UInt64.ofNat_add, ← UInt64.add_assoc]
      rfl

/-- A record stays constant up to the first other distance. -/
theorem foldl_log_create (v : DepRecord) (hv : v.d.isConstant = true)
    (hempty : v.d.distribution = []) (ds : List UInt64) :
    ds.foldl DepRecord.log v = ⟨v.count + UInt64.ofNat ds.length,
      match ds.dropWhile (· = v.d.distance.toUInt64) with
      | [] => v.d
      | x :: after => ⟨false, v.d.distance,
          ((x :: after).map UInt64.toUInt32).foldl bump [(v.d.distance, 1)]⟩⟩ := by
  induction ds generalizing v with
  | nil => simp
  | cons x ds ih =>
      have hlength : v.count + 1 + UInt64.ofNat ds.length =
          v.count + UInt64.ofNat (x :: ds).length := by
        rw [List.length_cons, Nat.add_comm ds.length 1, UInt64.ofNat_add, UInt64.add_assoc]
        rfl
      by_cases hx : x = v.d.distance.toUInt64
      · have hstep : v.log x = ⟨v.count + 1, v.d⟩ := by
          rw [DepRecord.log, DistanceDistribution.switch, if_neg fun h => h.2 hx,
            DistanceDistribution.add, if_pos hv]
        have hrest := ih ⟨v.count + 1, v.d⟩ hv hempty
        rw [List.foldl_cons, hstep, hrest, hlength, List.dropWhile_cons_of_pos (by simpa using hx)]
      · have hstep : v.log x = ⟨v.count + 1,
            ⟨false, v.d.distance, bump [(v.d.distance, 1)] x.toUInt32⟩⟩ := by
          rw [DepRecord.log, DistanceDistribution.switch, if_pos ⟨hv, hx⟩, DistanceDistribution.add,
            hempty]
          rfl
        have hrest := foldl_log_histogram ⟨v.count + 1,
          ⟨false, v.d.distance, bump [(v.d.distance, 1)] x.toUInt32⟩⟩ rfl ds
        rw [List.foldl_cons, hstep, hrest, hlength, List.dropWhile_cons_of_neg (by simpa using hx)]
        rfl

/-! ### When the record is exact -/

theorem toUInt32_toUInt64 {x : UInt64} (hx : x.toNat < 2 ^ 32) : x.toUInt32.toUInt64 = x := by
  apply UInt64.toNat_inj.1
  rw [UInt32.toNat_toUInt64, UInt64.toNat_toUInt32, Nat.mod_eq_of_lt hx]

theorem toUInt32_inj {x y : UInt64} (hx : x.toNat < 2 ^ 32) (hy : y.toNat < 2 ^ 32) :
    x.toUInt32 = y.toUInt32 ↔ x = y := by
  refine ⟨fun h => ?_, fun h => by rw [h]⟩
  rw [← toUInt32_toUInt64 hx, h, toUInt32_toUInt64 hy]

/-- Distances that fit in 32 bits are not confused. -/
theorem count_map_toUInt32 {l : List UInt64} (hl : ∀ x ∈ l, x.toNat < 2 ^ 32) {x : UInt64}
    (hx : x.toNat < 2 ^ 32) : (l.map UInt64.toUInt32).count x.toUInt32 = l.count x := by
  induction l with
  | nil => rfl
  | cons y l ih =>
      have hy := hl y List.mem_cons_self
      have hiff := toUInt32_inj hy hx
      rw [List.map_cons, List.count_cons, List.count_cons,
        ih fun z hz => hl z (List.mem_cons_of_mem _ hz)]
      by_cases hyx : y = x
      · rw [hyx, beq_self_eq_true, beq_self_eq_true]
      · rw [beq_eq_false_iff_ne.2 hyx, beq_eq_false_iff_ne.2 (mt hiff.1 hyx)]

theorem countOf_lt (l : Distribution) (k : UInt32) : countOf l k < 2 ^ 32 := by
  induction l with
  | nil => exact Nat.two_pow_pos 32
  | cons e l ih =>
      rw [countOf]
      split_ifs
      · exact e.2.toNat_lt
      · exact ih

/-- As many different distances, each as often seen, as there can be fit in 64 bits. -/
theorem length_lt_of_count_lt {l : List UInt64} (hl : ∀ x ∈ l, x.toNat < 2 ^ 32)
    (hcount : ∀ x, l.count x < 2 ^ 32) : l.length < 2 ^ 64 := by
  have hcard : l.toFinset.card ≤ 2 ^ 32 := by
    have hinj : Set.InjOn UInt64.toNat (l.toFinset : Set UInt64) :=
      fun x _ y _ h => UInt64.toNat_inj.1 h
    have hmaps : ∀ x ∈ l.toFinset, x.toNat ∈ Finset.range (2 ^ 32) :=
      fun x hx => Finset.mem_range.2 (hl x (List.mem_toFinset.1 hx))
    have hle := Finset.card_le_card_of_injOn UInt64.toNat hmaps hinj
    rwa [Finset.card_range] at hle
  have hsum : l.length = ∑ x ∈ l.toFinset, l.count x := by
    simp
  have hbound : ∑ x ∈ l.toFinset, l.count x ≤ l.toFinset.card * (2 ^ 32 - 1) := by
    rw [← smul_eq_mul]
    exact Finset.sum_le_card_nsmul _ _ _ fun x _ => Nat.le_sub_one_of_lt (hcount x)
  calc l.length ≤ l.toFinset.card * (2 ^ 32 - 1) := hsum.trans_le hbound
    _ ≤ 2 ^ 32 * (2 ^ 32 - 1) := Nat.mul_le_mul_right _ hcard
    _ < 2 ^ 64 := by norm_num

theorem exact_constant_iff {d : UInt64} {ds : List UInt64} {count : UInt64}
    (hall : ∀ x ∈ ds, x = d.toUInt32.toUInt64) :
    DepRecord.Exact ⟨count, ⟨true, d.toUInt32, []⟩⟩ (d :: ds) ↔ DistancesFit d ds := by
  have hsmall : d.toUInt32.toUInt64.toNat < 2 ^ 32 := by
    rw [UInt32.toNat_toUInt64]
    exact d.toUInt32.toNat_lt
  rw [DepRecord.Exact, if_pos rfl]
  constructor
  · intro hexact
    have hd : d = d.toUInt32.toUInt64 := hexact d List.mem_cons_self
    refine ⟨fun x hx => ?_, Or.inl fun x hx => (hall x hx).trans hd.symm⟩
    rw [hexact x hx]
    exact hsmall
  · rintro ⟨hfit, -⟩ x hx
    rcases List.mem_cons.1 hx with rfl | hx
    · exact (toUInt32_toUInt64 (hfit x List.mem_cons_self)).symm
    · exact hall x hx

theorem exact_histogram_iff {d a : UInt64} {same : List UInt64} (after : List UInt64)
    (hsame : ∀ x ∈ same, x = d.toUInt32.toUInt64) (ha : a ≠ d.toUInt32.toUInt64) :
    DepRecord.Exact ⟨1 + UInt64.ofNat (same ++ a :: after).length,
      ⟨false, d.toUInt32, ((a :: after).map UInt64.toUInt32).foldl bump [(d.toUInt32, 1)]⟩⟩
      (d :: (same ++ a :: after)) ↔ DistancesFit d (same ++ a :: after) := by
  have hmem : ∀ x ∈ a :: after, x ∈ d :: (same ++ a :: after) := fun x hx =>
    List.mem_cons_of_mem _ (List.mem_append_right _ hx)
  have hone : ∀ j, countOf [(d.toUInt32, 1)] j = if d.toUInt32 = j then 1 else 0 := fun j => rfl
  rw [DepRecord.Exact, if_neg Bool.false_ne_true]
  dsimp only
  constructor
  · rintro ⟨hcounts, -⟩
    have hfit : ∀ x ∈ d :: (same ++ a :: after), x.toNat < 2 ^ 32 := by
      intro x hx
      by_contra hbig
      have h := hcounts x
      rw [printedCount, if_neg hbig] at h
      exact absurd hx (List.count_eq_zero.1 h.symm)
    have hd := hfit d List.mem_cons_self
    refine ⟨hfit, Or.inr ⟨fun x hx hxd => ?_, fun x => ?_⟩⟩
    · -- the second distance is the first one again
      subst hxd
      cases same with
      | nil =>
          obtain rfl : a = x := Option.some.inj hx
          exact ha (toUInt32_toUInt64 hd).symm
      | cons y same =>
          obtain rfl : y = x := Option.some.inj hx
          have h := hcounts y
          have hle := countOf_foldl_bump_le [(y.toUInt32, 1)] ((a :: after).map UInt64.toUInt32)
            y.toUInt32
          rw [printedCount, if_pos hd] at h
          rw [h, hone, if_pos rfl, count_map_toUInt32 (fun x hx => hfit x (hmem x hx)) hd,
            List.count_cons_self, List.cons_append, List.count_cons_self, List.count_append] at hle
          omega
    · rw [← hcounts x, printedCount]
      split_ifs
      · exact countOf_lt _ _
      · exact Nat.two_pow_pos 32
  · rintro ⟨hfit, hor⟩
    have hd := hfit d List.mem_cons_self
    rw [toUInt32_toUInt64 hd] at hsame ha
    rcases hor with hall | ⟨hsecond, hcount⟩
    · exact absurd (hall a (List.mem_append_right _ List.mem_cons_self)) ha
    · obtain rfl : same = [] := by
        cases same with
        | nil => rfl
        | cons y same => exact absurd (hsame y List.mem_cons_self) (hsecond y rfl)
      rw [List.nil_append] at hfit hcount ⊢
      have hafter : ∀ x ∈ a :: after, x.toNat < 2 ^ 32 := fun x hx =>
        hfit x (List.mem_cons_of_mem _ hx)
      have hsum : ∀ {x : UInt64}, x.toNat < 2 ^ 32 → countOf [(d.toUInt32, 1)] x.toUInt32 +
          ((a :: after).map UInt64.toUInt32).count x.toUInt32 = (d :: a :: after).count x := by
        intro x hx
        have hiff := toUInt32_inj hd hx
        rw [hone, count_map_toUInt32 hafter hx, List.count_cons (a := x) (b := d)]
        by_cases hdx : d = x
        · rw [if_pos (hiff.2 hdx), hdx, beq_self_eq_true, if_pos rfl, Nat.add_comm]
        · rw [if_neg (mt hiff.1 hdx), beq_eq_false_iff_ne.2 hdx, Nat.add_comm]
          rfl
      obtain ⟨hexact, htotal⟩ := foldl_bump_exact [(d.toUInt32, 1)]
        ((a :: after).map UInt64.toUInt32) (fun j => by
          have hj : j.toUInt64.toUInt32 = j := UInt32.toUInt32_toUInt64 j
          have hlt : j.toUInt64.toNat < 2 ^ 32 := by
            rw [UInt32.toNat_toUInt64]
            exact j.toNat_lt
          rw [← hj, hsum hlt]
          exact hcount _)
      refine ⟨fun x => ?_, ?_⟩
      · rw [printedCount]
        split_ifs with hx
        · rw [hexact, hsum hx]
        · exact (List.count_eq_zero.2 fun hmem => hx (hfit x hmem)).symm
      · have hlength := length_lt_of_count_lt hfit hcount
        rw [List.length_cons] at hlength
        rw [htotal, List.length_map, UInt64.toNat_add, UInt64.toNat_ofNat', UInt64.toNat_one,
          Nat.mod_eq_of_lt (show (a :: after).length < 2 ^ 64 by omega),
          Nat.mod_eq_of_lt (by omega)]
        rfl

/-- The record of a key is exact exactly when its distances fit. -/
theorem record_exact_iff (d : UInt64) (ds : List UInt64) :
    (ds.foldl DepRecord.log (.create d)).Exact (d :: ds) ↔ DistancesFit d ds := by
  rw [foldl_log_create _ rfl rfl ds]
  have hsplit := List.takeWhile_append_dropWhile (p := (· = d.toUInt32.toUInt64)) (l := ds)
  have hsame : ∀ x ∈ ds.takeWhile (· = d.toUInt32.toUInt64), x = d.toUInt32.toUInt64 := by
    intro x hx
    have hmem := List.mem_takeWhile_imp (p := fun y => decide (y = d.toUInt32.toUInt64)) hx
    exact of_decide_eq_true hmem
  change DepRecord.Exact ⟨1 + _, match ds.dropWhile (· = d.toUInt32.toUInt64) with
    | [] => ⟨true, d.toUInt32, []⟩
    | x :: after => _⟩ _ ↔ _
  cases hdrop : ds.dropWhile (· = d.toUInt32.toUInt64) with
  | nil =>
      rw [hdrop, List.append_nil] at hsplit
      rw [hsplit] at hsame
      exact exact_constant_iff hsame
  | cons a after =>
      have ha : a ≠ d.toUInt32.toUInt64 := by
        have hhead := List.head?_dropWhile_not (· = d.toUInt32.toUInt64) ds
        rw [hdrop] at hhead
        simpa using hhead
      rw [hdrop] at hsplit
      have h := exact_histogram_iff after hsame ha
      rw [hsplit] at h
      exact h

/-! ### The whole log -/

theorem exact_printLine_value (key : Key) (v : DepRecord) (ds : List UInt64) :
    (printLine (key, .value v)).Exact ds ↔ v.Exact ds := by
  rw [DepRecord.Exact, Line.Exact, printLine]
  split_ifs with hconstant
  · simp
  · simp

theorem lookup_log (onlySet : Bool) (l : Deplog) (o : Occurrence) (key : Key) :
    (l.log onlySet o).lookup key =
      if o.key = key then
        some ((l.lookup key).elim (Entry.create onlySet o.distance) (·.log o.distance))
      else l.lookup key := by
  induction l with
  | nil =>
      rw [Deplog.log, List.lookup_cons]
      by_cases hkey : o.key = key
      · subst hkey
        simp
      · rw [if_neg hkey, beq_eq_false_iff_ne.2 (Ne.symm hkey)]
  | cons e l ih =>
      obtain ⟨k, e⟩ := e
      rw [Deplog.log]
      by_cases hk : k = o.key
      · subst hk
        rw [if_pos rfl, List.lookup_cons, List.lookup_cons]
        by_cases hkey : o.key = key
        · subst hkey
          simp
        · rw [if_neg hkey, beq_eq_false_iff_ne.2 (Ne.symm hkey)]
      · rw [if_neg hk, List.lookup_cons, List.lookup_cons, ih]
        by_cases hkey : key = k
        · subst hkey
          rw [beq_self_eq_true, if_neg (Ne.symm hk), if_neg (Ne.symm hk)]
        · rw [beq_eq_false_iff_ne.2 hkey]

/-- The log keeps of a key what its own occurrences make of it. -/
theorem lookup_logAll (onlySet : Bool) (occurrences : List Occurrence) (key : Key) :
    (logAll onlySet occurrences).lookup key =
      match distancesOf occurrences key with
      | [] => none
      | d :: ds => some (ds.foldl Entry.log (.create onlySet d)) := by
  induction occurrences using List.reverseRecOn with
  | nil => rfl
  | append_singleton occurrences o ih =>
      have hlog : logAll onlySet (occurrences ++ [o]) = (logAll onlySet occurrences).log onlySet o := by
        rw [logAll, List.foldl_append]
        rfl
      rw [hlog, lookup_log, ih, distancesOf, distancesOf, List.filter_append, List.map_append]
      by_cases hkey : o.key = key
      · rw [if_pos hkey, List.filter_cons_of_pos (by simpa using hkey)]
        cases (occurrences.filter (·.key = key)).map Occurrence.distance with
        | nil => rfl
        | cons d ds => simp
      · rw [if_neg hkey, List.filter_cons_of_neg (by simpa using hkey)]
        simp

theorem keys_log (onlySet : Bool) (l : Deplog) (o : Occurrence) :
    (l.log onlySet o).map Prod.fst =
      if o.key ∈ l.map Prod.fst then l.map Prod.fst else l.map Prod.fst ++ [o.key] := by
  induction l with
  | nil => rfl
  | cons e l ih =>
      rw [Deplog.log]
      by_cases he : e.1 = o.key
      · rw [if_pos he, if_pos (by simp [he])]
        rfl
      · rw [if_neg he, List.map_cons, ih, List.map_cons, List.cons_append, ← apply_ite]
        simp only [List.mem_cons, Ne.symm he, false_or]

theorem nodup_logAll (onlySet : Bool) (occurrences : List Occurrence) :
    ((logAll onlySet occurrences).map Prod.fst).Nodup := by
  refine List.foldlRecOn (motive := fun l : Deplog => (l.map Prod.fst).Nodup) occurrences
    (Deplog.log onlySet) List.nodup_nil fun l hl o _ => ?_
  rw [keys_log]
  split_ifs with hmem
  · exact hl
  · rw [← List.concat_eq_append]
    exact hl.concat hmem

theorem filter_printLog {l : Deplog} (hl : (l.map Prod.fst).Nodup) (key : Key) :
    (printLog l).filter (·.key = key) =
      ((l.lookup key).map fun e => printLine (key, e)).toList := by
  induction l with
  | nil => rfl
  | cons e l ih =>
      obtain ⟨k, e⟩ := e
      obtain ⟨hk, hnodup⟩ := List.nodup_cons.1 hl
      have hline : (printLine (k, e)).key = k := by
        cases e <;> rfl
      rw [List.lookup_cons, printLog, List.map_cons]
      by_cases hkey : key = k
      · subst hkey
        have hnone : l.lookup key = none := by
          refine List.lookup_eq_none_iff.2 fun p hp => bne_iff_ne.2 fun heq => hk ?_
          exact List.mem_map.2 ⟨p, hp, heq.symm⟩
        have hrest := ih hnodup
        rw [hnone] at hrest
        rw [List.filter_cons_of_pos (by simpa using hline), ← printLog, hrest, beq_self_eq_true]
        rfl
      · rw [List.filter_cons_of_neg (by simpa [hline] using Ne.symm hkey), ← printLog, ih hnodup,
          beq_eq_false_iff_ne.2 hkey]

theorem foldl_log_member (ds : List UInt64) : ds.foldl Entry.log .member = .member := by
  induction ds with
  | nil => rfl
  | cons d ds ih => exact ih

theorem foldl_log_value (v : DepRecord) (ds : List UInt64) :
    ds.foldl Entry.log (.value v) = .value (ds.foldl DepRecord.log v) := by
  induction ds generalizing v with
  | nil => rfl
  | cons d ds ih => exact ih (v.log d)

/-- In either build, one line is printed of a key that was logged, and it is exact exactly when the
records are kept and the distances fit. -/
theorem printed_exact_iff (onlySet : Bool) (occurrences : List Occurrence) {key : Key} {d : UInt64}
    {ds : List UInt64} (hlogged : distancesOf occurrences key = d :: ds) :
    ∃ line, (printLog (logAll onlySet occurrences)).filter (·.key = key) = [line] ∧
      (line.Exact (d :: ds) ↔ onlySet = false ∧ DistancesFit d ds) := by
  have hlookup := lookup_logAll onlySet occurrences key
  rw [hlogged] at hlookup
  refine ⟨_, by rw [filter_printLog (nodup_logAll onlySet occurrences), hlookup]; rfl, ?_⟩
  cases onlySet with
  | true =>
      rw [Entry.create, if_pos rfl, foldl_log_member]
      simp [Line.Exact, printLine]
  | false =>
      rw [Entry.create, if_neg Bool.false_ne_true, foldl_log_value, exact_printLine_value,
        record_exact_iff, and_iff_right rfl]

/-- With `ONLY_SET`, one line is printed of every key that was logged, and no such line is exact. -/
theorem printLog_never_exact (occurrences : List Occurrence) (o : Occurrence)
    (hlogged : o ∈ occurrences) :
    ∃ line, (printLog (logAll onlySet occurrences)).filter (·.key = o.key) = [line] ∧
      ¬ line.Exact (distancesOf occurrences o.key) := by
  have hmem : o.distance ∈ distancesOf occurrences o.key :=
    List.mem_map_of_mem (List.mem_filter.2 ⟨hlogged, decide_eq_true rfl⟩)
  obtain ⟨d, ds, hds⟩ := List.exists_cons_of_ne_nil (List.ne_nil_of_mem hmem)
  obtain ⟨line, hline, hexact⟩ := printed_exact_iff onlySet occurrences hds
  refine ⟨line, hline, fun h => ?_⟩
  rw [hds] at h
  exact Bool.noConfusion (hexact.1 h).1

/-- A store in iteration 3 and loads of what it wrote in iterations 4, 4 and 5. -/
def repeatedLoads : List Occurrence :=
  [⟨createTS 7 3 1, 9, 9, 4⟩, ⟨createTS 7 3 1, 9, 9, 4⟩, ⟨createTS 7 3 1, 9, 9, 5⟩]

theorem printLog_never_exact_repeated :
    ∃ line, (printLog (logAll onlySet repeatedLoads)).filter (·.key = ⟨7, 9, 9, true⟩) = [line] ∧
      ¬ line.Exact (distancesOf repeatedLoads ⟨7, 9, 9, true⟩) :=
  printLog_never_exact repeatedLoads ⟨createTS 7 3 1, 9, 9, 4⟩ List.mem_cons_self

theorem distances_not_printed :
    distancesOf repeatedLoads ⟨7, 9, 9, true⟩ = [1, 1, 2] ∧
      ∃ line, printLog (logAll onlySet repeatedLoads) = [line] ∧ ¬ line.Exact [1, 1, 2] := by
  refine ⟨by decide, ⟨⟨7, 9, 9, true⟩, 1, .nothing⟩, by decide, ?_⟩
  simp [Line.Exact]

end Cpf.Slamp
