import Mathlib.Data.List.TakeWhile
import Mathlib.Tactic

/-!
# Linear predictors

A predictor fits a line through two samples and then compares every sample with it. It does not look at
the first sample again, and it does not compare the one through which the line is fitted: when the
division has a remainder, that sample is not on the line. Sums and products of signed integers are
taken to wrap; a quotient that does not fit stops the process, as a division by zero would.
-/

namespace Cpf.Slamp

/-- The arithmetic on doubles that a predictor uses; nothing is assumed of it. -/
structure DoubleOps (D : Type) where
  ofBits : Int64 → D
  ofInt : Int64 → D
  add : D → D → D
  sub : D → D → D
  mul : D → D → D
  div : D → D → D
  ne : D → D → Bool

/-- An iteration and what was seen in it, a value or an address. -/
structure Sample where
  iter : Int64
  value : Int64
  deriving DecidableEq

/-- Why a division of signed integers raises `SIGFPE`. -/
inductive DivideError
  | byZero
  | overflow
  deriving DecidableEq

/-- The division of `int64_t`: the machine has no quotient of `INT64_MIN` and `-1`. -/
def idiv (a b : Int64) : Except DivideError Int64 :=
  if b = 0 then .error .byZero
  else if a = Int64.minValue ∧ b = -1 then .error .overflow
  else .ok (a / b)

/-- `LinearPredictor`. The union `y` is kept as an integer. -/
structure LinearPredictor (D : Type) where
  addr : UInt64
  ia : Int64
  ib : Int64
  da : D
  db : D
  x : Int64
  y : Int64
  init : Bool
  ready : Bool
  stable : Bool
  validAsInt : Bool
  validAsDouble : Bool

namespace LinearPredictor

variable {D : Type} (ops : DoubleOps D)

def create (s : Sample) (addr : UInt64) : LinearPredictor D where
  addr := addr
  ia := 0
  ib := 0
  da := ops.ofInt 0
  db := ops.ofInt 0
  x := s.iter
  y := s.value
  init := false
  ready := false
  stable := false
  validAsInt := true
  validAsDouble := true

/-- The line with a slope through the point that is kept; the doubles have a slope of their own. -/
def withSlope (p : LinearPredictor D) (s : Sample) (ia : Int64) : LinearPredictor D :=
  let da := ops.div (ops.sub (ops.ofBits s.value) (ops.ofBits p.y))
    (ops.sub (ops.ofInt s.iter) (ops.ofInt p.x))
  { p with
    ia := ia
    ib := p.y - ia * p.x
    da := da
    db := ops.sub (ops.ofBits p.y) (ops.mul da (ops.ofInt p.x))
    ready := true }

/-- The line through the point that is kept and another sample. -/
def fit (p : LinearPredictor D) (s : Sample) : Except DivideError (LinearPredictor D) :=
  (idiv (s.value - p.y) (s.iter - p.x)).map (withSlope ops p s)

def check (p : LinearPredictor D) (s : Sample) : LinearPredictor D :=
  { p with
    validAsInt := p.validAsInt && decide (p.ia * s.iter + p.ib = s.value)
    validAsDouble := p.validAsDouble &&
      !ops.ne (ops.add (ops.mul p.da (ops.ofInt s.iter)) p.db) (ops.ofBits s.value)
    stable := true }

/-- `add_sample`, without the address, which it does not look at. -/
def addSample (p : LinearPredictor D) (s : Sample) : Except DivideError (LinearPredictor D) :=
  if !p.validAsInt && !p.validAsDouble then .ok p
  else if !p.init then .ok { p with x := s.iter, y := s.value, init := true }
  else if !p.ready then
    if (p.x = s.iter ∧ p.y ≠ s.value) ∨ (p.x ≠ s.iter ∧ p.y = s.value) then
      .ok { p with validAsInt := false, validAsDouble := false }
    else if p.x = s.iter ∧ p.y = s.value then .ok p
    else p.fit ops s
  else .ok (p.check ops s)

/-- The samples of one instruction. The predictors of addresses start without the doubles. -/
def profile (asDouble : Bool) (addr : UInt64) (first : Sample) (rest : List Sample) :
    Except DivideError (LinearPredictor D) :=
  rest.foldlM (addSample ops) { create ops first addr with validAsDouble := asDouble }

def Predicts (p : LinearPredictor D) (s : Sample) : Prop := s.value = p.ia * s.iter + p.ib

end LinearPredictor

/-! ### Lines -/

/-- The slope through two samples, rounded towards zero. -/
def slope (p q : Sample) : Int64 := (q.value - p.value) / (q.iter - p.iter)

/-- The slope does not fit in `int64_t`. -/
def Steep (p q : Sample) : Prop := q.value - p.value = Int64.minValue ∧ q.iter - p.iter = -1

instance (p q : Sample) : Decidable (Steep p q) := inferInstanceAs (Decidable (_ ∧ _))

def OnLine (p q s : Sample) : Prop := slope p q * s.iter + (p.value - slope p q * p.iter) = s.value

instance (p q s : Sample) : Decidable (OnLine p q s) := inferInstanceAs (Decidable (_ = _))

theorem div_mul_add_mod (a b : Int64) : a / b * b + a % b = a := by
  apply Int64.toInt_inj.1
  rw [Int64.toInt_add, Int64.toInt_mul, Int64.toInt_div, Int64.toInt_mod, Int.bmod_mul_bmod,
    Int.bmod_add_bmod, Int.tdiv_mul_add_tmod, Int64.toInt_bmod_size]

theorem div_mul_eq_iff (a b : Int64) : a / b * b = a ↔ a % b = 0 := by
  have h := div_mul_add_mod a b
  constructor
  · intro heq
    rw [heq] at h
    grind
  · intro hzero
    rw [hzero] at h
    grind

theorem onLine_self (p q : Sample) : OnLine p q p := by
  unfold OnLine
  grind

/-- The second sample of a line is on it exactly when the division has no remainder. -/
theorem onLine_right_iff (p q : Sample) :
    OnLine p q q ↔ (q.value - p.value) % (q.iter - p.iter) = 0 := by
  rw [← div_mul_eq_iff, OnLine, slope]
  generalize (q.value - p.value) / (q.iter - p.iter) = k
  constructor <;> intro h <;> grind

/-- No line is fitted; or one is, its slope fits, and either a later sample is not on the line, or the
first sample is and so is the one to which it is fitted. -/
def FitsLine (first : Sample) : List Sample → Prop
  | [] => True
  | p :: later =>
      match later.dropWhile (· = p) with
      | [] => True
      | q :: after =>
          p.iter = q.iter ∨ p.value = q.value ∨ ¬ Steep p q ∧ ((∃ s ∈ after, ¬ OnLine p q s) ∨
            (q.value - p.value) % (q.iter - p.iter) = 0 ∧ OnLine p q first)

namespace LinearPredictor

variable {D : Type} (ops : DoubleOps D) {p : LinearPredictor D}

/-! ### The states of a predictor -/

theorem foldlM_invalid (hint : p.validAsInt = false) (hdouble : p.validAsDouble = false)
    (rest : List Sample) : rest.foldlM (addSample ops) p = .ok p := by
  induction rest with
  | nil => rfl
  | cons s rest ih =>
      have hs : addSample ops p s = .ok p := by
        rw [addSample, hint, hdouble]
        rfl
      rw [List.foldlM_cons, hs]
      exact ih

/-- A predictor with one point waits for another one. -/
theorem foldlM_waiting (hvalid : p.validAsInt = true) (hinit : p.init = true)
    (hready : p.ready = false) (rest : List Sample) :
    rest.foldlM (addSample ops) p =
      (rest.dropWhile (· = ⟨p.x, p.y⟩)).foldlM (addSample ops) p := by
  induction rest with
  | nil => rfl
  | cons s rest ih =>
      rw [List.dropWhile_cons]
      split_ifs with hs
      · have hsp : s = ⟨p.x, p.y⟩ := of_decide_eq_true hs
        have hstep : addSample ops p s = .ok p := by
          rw [addSample, hvalid, hinit, hready, hsp]
          simp
        rw [List.foldlM_cons, hstep]
        exact ih
      · rfl

/-- A predictor with a line compares the samples with it. -/
theorem foldlM_ready (hinit : p.init = true) (hready : p.ready = true) (rest : List Sample) :
    ∃ p', rest.foldlM (addSample ops) p = .ok p' ∧ p'.ready = true ∧ p'.ia = p.ia ∧
      p'.ib = p.ib ∧ (p'.validAsInt = true ↔
        p.validAsInt = true ∧ ∀ s ∈ rest, p.ia * s.iter + p.ib = s.value) := by
  induction rest generalizing p with
  | nil => exact ⟨p, rfl, hready, rfl, rfl, by simp⟩
  | cons s rest ih =>
      by_cases hinvalid : p.validAsInt = false ∧ p.validAsDouble = false
      · refine ⟨p, foldlM_invalid ops hinvalid.1 hinvalid.2 _, hready, rfl, rfl, ?_⟩
        simp [hinvalid.1]
      · have hstep : addSample ops p s = .ok (p.check ops s) := by
          have hvalid : (!p.validAsInt && !p.validAsDouble) = false := by
            rw [Bool.eq_false_iff]
            intro h
            rw [Bool.and_eq_true, Bool.not_eq_true', Bool.not_eq_true'] at h
            exact hinvalid h
          rw [addSample, hvalid, hinit, hready]
          rfl
        rw [List.foldlM_cons, hstep]
        obtain ⟨p', hrun, hready', hia, hib, hiff⟩ := ih (p := p.check ops s) hinit hready
        refine ⟨p', hrun, hready', hia, hib, hiff.trans ?_⟩
        change (p.validAsInt && decide (p.ia * s.iter + p.ib = s.value)) = true ∧ _ ↔ _
        rw [Bool.and_eq_true, decide_eq_true_eq, List.forall_mem_cons, and_assoc]
        rfl

theorem idiv_diff {p q : Sample} (hiter : p.iter ≠ q.iter) :
    (Steep p q → idiv (q.value - p.value) (q.iter - p.iter) = .error .overflow) ∧
    (¬ Steep p q → idiv (q.value - p.value) (q.iter - p.iter) = .ok (slope p q)) := by
  have hdiff : ¬ q.iter - p.iter = 0 := by grind
  constructor
  · intro hsteep
    exact (if_neg hdiff).trans (if_pos hsteep)
  · intro hsteep
    exact (if_neg hdiff).trans (if_neg hsteep)

theorem addSample_fit (hvalid : p.validAsInt = true) (hinit : p.init = true)
    (hready : p.ready = false) {q : Sample} (hx : p.x ≠ q.iter) (hy : p.y ≠ q.value) :
    addSample ops p q = p.fit ops q := by
  rw [addSample, hvalid, hinit, hready]
  simp only [Bool.not_true, Bool.false_and, Bool.false_eq_true, if_false, Bool.not_false, if_true,
    hx, hy, false_and, ne_eq, not_false_eq_true, and_false, or_self]

/-- A sample with the same iteration or the same value as the only point makes the predictor invalid. -/
theorem addSample_reject (hvalid : p.validAsInt = true) (hinit : p.init = true)
    (hready : p.ready = false) {q : Sample} (hne : q ≠ ⟨p.x, p.y⟩)
    (hsame : p.x = q.iter ∨ p.y = q.value) :
    addSample ops p q = .ok { p with validAsInt := false, validAsDouble := false } := by
  have hcond : (p.x = q.iter ∧ p.y ≠ q.value) ∨ (p.x ≠ q.iter ∧ p.y = q.value) := by
    by_cases hx : p.x = q.iter
    · refine Or.inl ⟨hx, fun hy => hne ?_⟩
      rw [hx, hy]
    · exact Or.inr ⟨hx, hsame.resolve_left hx⟩
  rw [addSample, hvalid, hinit, hready]
  simp only [Bool.not_true, Bool.false_and, Bool.false_eq_true, if_false, Bool.not_false, if_true,
    hcond]

/-- What the samples behind the first one make of the predictor. -/
theorem foldlM_point (hvalid : p.validAsInt = true) (hinit : p.init = true)
    (hready : p.ready = false) (later : List Sample) :
    match later.dropWhile (· = ⟨p.x, p.y⟩) with
    | [] => later.foldlM (addSample ops) p = .ok p
    | q :: after =>
        if p.x = q.iter ∨ p.y = q.value then
          ∃ p', later.foldlM (addSample ops) p = .ok p' ∧ p'.validAsInt = false
        else if Steep ⟨p.x, p.y⟩ q then later.foldlM (addSample ops) p = .error .overflow
        else
          ∃ p', later.foldlM (addSample ops) p = .ok p' ∧ p'.ready = true ∧
            p'.ia = slope ⟨p.x, p.y⟩ q ∧ p'.ib = p.y - slope ⟨p.x, p.y⟩ q * p.x ∧
            (p'.validAsInt = true ↔ ∀ s ∈ after, OnLine ⟨p.x, p.y⟩ q s) := by
  rw [foldlM_waiting ops hvalid hinit hready]
  cases hdrop : later.dropWhile (· = ⟨p.x, p.y⟩) with
  | nil => rfl
  | cons q after =>
      have hne : q ≠ ⟨p.x, p.y⟩ := by
        have hhead := List.head?_dropWhile_not (· = (⟨p.x, p.y⟩ : Sample)) later
        rw [hdrop] at hhead
        simpa using hhead
      dsimp only
      rw [List.foldlM_cons]
      split_ifs with hsame hsteep
      · refine ⟨{ p with validAsInt := false, validAsDouble := false }, ?_, rfl⟩
        rw [addSample_reject ops hvalid hinit hready hne hsame]
        exact foldlM_invalid ops rfl rfl after
      · obtain ⟨hx, hy⟩ := not_or.1 hsame
        have hdiv := (idiv_diff (p := ⟨p.x, p.y⟩) hx).1 hsteep
        dsimp only at hdiv
        rw [addSample_fit ops hvalid hinit hready hx hy, fit, hdiv]
        rfl
      · obtain ⟨hx, hy⟩ := not_or.1 hsame
        have hdiv := (idiv_diff (p := ⟨p.x, p.y⟩) hx).2 hsteep
        dsimp only at hdiv
        obtain ⟨p', hrun, hready', hia, hib, hiff⟩ :=
          foldlM_ready ops (p := withSlope ops p q (slope ⟨p.x, p.y⟩ q)) hinit rfl after
        refine ⟨p', ?_, hready', hia, hib, hiff.trans (and_iff_right hvalid)⟩
        rw [addSample_fit ops hvalid hinit hready hx hy, fit, hdiv]
        exact hrun

/-- The process gets to the end, and a valid predictor predicts the samples. -/
def Sound (run : Except DivideError (LinearPredictor D)) (samples : List Sample) : Prop :=
  ∃ p, run = .ok p ∧ (p.ready = true → p.validAsInt = true → ∀ s ∈ samples, p.Predicts s)

theorem ok_ne_error {e : DivideError} : (.ok p : Except DivideError (LinearPredictor D)) ≠ .error e :=
  fun h => by cases h

/-- A predictor that fits no line is sound. -/
theorem sound_of_not_ready (hready : p.ready = false) (samples : List Sample) :
    Sound (.ok p) samples :=
  ⟨p, rfl, fun h => absurd (hready.symm.trans h) Bool.false_ne_true⟩

/-- A predictor with the line through `s` and `q` is sound exactly when a later sample is off the line
or the first sample and `q` are on it. -/
theorem sound_line_iff {first s q : Sample} {later after : List Sample}
    (hdrop : later.dropWhile (· = s) = q :: after) (hready : p.ready = true)
    (hia : p.ia = slope s q) (hib : p.ib = s.value - slope s q * s.iter)
    (hvalid : p.validAsInt = true ↔ ∀ t ∈ after, OnLine s q t) :
    Sound (.ok p) (first :: s :: later) ↔ (∃ t ∈ after, ¬ OnLine s q t) ∨
      (q.value - s.value) % (q.iter - s.iter) = 0 ∧ OnLine s q first := by
  have hline : ∀ t, p.Predicts t ↔ OnLine s q t := by
    intro t
    rw [Predicts, hia, hib]
    exact eq_comm
  rw [← onLine_right_iff]
  constructor
  · rintro ⟨p', hp', hall⟩
    obtain rfl : p = p' := Except.ok.inj hp'
    by_cases hoff : ∃ t ∈ after, ¬ OnLine s q t
    · exact Or.inl hoff
    · have hmem := hall hready (hvalid.2 fun t ht => not_not.1 fun hnot => hoff ⟨t, ht, hnot⟩)
      have hq : q ∈ later := (List.dropWhile_sublist _).subset (hdrop ▸ List.mem_cons_self)
      refine Or.inr ⟨(hline q).1 (hmem q ?_), (hline first).1 (hmem first List.mem_cons_self)⟩
      exact List.mem_cons_of_mem _ (List.mem_cons_of_mem _ hq)
  · rintro (⟨t, ht, hoff⟩ | ⟨hq, hfirst⟩)
    · exact ⟨p, rfl, fun _ hp => absurd (hvalid.1 hp t ht) hoff⟩
    · refine ⟨p, rfl, fun _ hp t ht => (hline t).2 ?_⟩
      rcases List.mem_cons.1 ht with rfl | ht
      · exact hfirst
      · rcases List.mem_cons.1 ht with rfl | ht
        · exact onLine_self t q
        · rw [← List.takeWhile_append_dropWhile (p := fun u => decide (u = s)) (l := later), hdrop,
            List.mem_append, List.mem_cons] at ht
          rcases ht with ht | rfl | ht
          · have hsame := List.mem_takeWhile_imp (p := fun u => decide (u = s)) ht
            rw [of_decide_eq_true hsame]
            exact onLine_self s q
          · exact hq
          · exact hvalid.1 hp t ht

/-- A predictor never divides by zero, and it comes to a sound end exactly when the samples fit the
line. -/
theorem profile_sound_iff (asDouble : Bool) (addr : UInt64) (first : Sample) (rest : List Sample) :
    profile ops asDouble addr first rest ≠ .error .byZero ∧
      (Sound (profile ops asDouble addr first rest) (first :: rest) ↔ FitsLine first rest) := by
  cases rest with
  | nil => exact ⟨ok_ne_error, fun _ => trivial, fun _ => sound_of_not_ready rfl _⟩
  | cons s later =>
      let p : LinearPredictor D :=
        { create ops first addr with
          validAsDouble := asDouble, x := s.iter, y := s.value, init := true }
      have hrun : profile ops asDouble addr first (s :: later) = later.foldlM (addSample ops) p := rfl
      have hpoint := foldlM_point ops (p := p) rfl rfl rfl later
      rw [← hrun] at hpoint
      change match later.dropWhile (· = s) with
        | [] => _
        | q :: after => _ at hpoint
      rw [FitsLine]
      cases hdrop : later.dropWhile (· = s) with
      | nil =>
          rw [hdrop] at hpoint
          rw [hpoint]
          exact ⟨ok_ne_error, fun _ => trivial, fun _ => sound_of_not_ready rfl _⟩
      | cons q after =>
          rw [hdrop] at hpoint
          dsimp only at hpoint ⊢
          split_ifs at hpoint with hsame hsteep
          · obtain ⟨p', hp', hinvalid⟩ := hpoint
            rw [hp']
            refine ⟨ok_ne_error, fun _ => ?_, fun _ => ⟨p', rfl, fun _ hvalid => ?_⟩⟩
            · rcases hsame with hx | hy
              · exact Or.inl hx
              · exact Or.inr (Or.inl hy)
            · rw [hinvalid] at hvalid
              cases hvalid
          · rw [hpoint]
            refine ⟨fun h => (by cases h), fun ⟨p', hp', _⟩ => absurd hp'.symm ok_ne_error, ?_⟩
            rintro (hx | hy | ⟨hnot, -⟩)
            · exact absurd (Or.inl hx) hsame
            · exact absurd (Or.inr hy) hsame
            · exact absurd hsteep hnot
          · obtain ⟨p', hp', hready, hia, hib, hvalid⟩ := hpoint
            obtain ⟨hx, hy⟩ := not_or.1 hsame
            rw [hp', sound_line_iff hdrop hready hia hib hvalid]
            refine ⟨ok_ne_error, fun h => Or.inr (Or.inr ⟨hsteep, h⟩), ?_⟩
            rintro (hx' | hy' | ⟨-, h⟩)
            · exact absurd hx' hx
            · exact absurd hy' hy
            · exact h

def machineDoubles : DoubleOps Float where
  ofBits i := Float.ofBits i.toUInt64
  ofInt i := i.toFloat
  add := (· + ·)
  sub := (· - ·)
  mul := (· * ·)
  div := (· / ·)
  ne a b := a != b

/-- The first sample is not on the line of a predictor that is ready and valid. -/
theorem first_sample_off_line : ∃ p,
    profile machineDoubles true 0 ⟨0, 100⟩ [⟨1, 1⟩, ⟨2, 2⟩, ⟨3, 3⟩] = .ok p ∧
      p.ready = true ∧ p.validAsInt = true ∧ ¬ p.Predicts ⟨0, 100⟩ :=
  ⟨_, rfl, rfl, rfl, by unfold Predicts; decide⟩

end LinearPredictor

end Cpf.Slamp
