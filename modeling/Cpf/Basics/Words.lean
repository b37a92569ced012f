import Mathlib.Data.List.TakeWhile
import Mathlib.Tactic

/-!
# Lines, words and numbers of a text

A text is cut into lines with their ends, a line into the words between its blanks, and a word is read as a
number with a sign. A printed number is one word, and is read again as itself.
-/

namespace Cpf.Text

def isBlank (c : Char) : Bool := c == ' ' || c == '\t' || c == '\r' || c == '\n'

def wordsFrom (w : List Char) : List Char → List String
  | [] => if w = [] then [] else [String.ofList w]
  | c :: cs =>
      if isBlank c then if w = [] then wordsFrom [] cs else String.ofList w :: wordsFrom [] cs
      else wordsFrom (w ++ [c]) cs

def words (cs : List Char) : List String := wordsFrom [] cs

/-- The lines of a text that goes on from the line `w`; a line has its newline at the end. -/
def linesFrom (w : List Char) : List Char → List (List Char)
  | [] => if w = [] then [] else [w]
  | c :: cs => if c = '\n' then (w ++ [c]) :: linesFrom [] cs else linesFrom (w ++ [c]) cs

def lines (cs : List Char) : List (List Char) := linesFrom [] cs

/-- The digits at the beginning as a number modulo `2 ^ bits`; what does not fit into 64 bits saturates. -/
def scanDigits (bits : ℕ) (negative : Bool) (cs : List Char) : Option ℕ :=
  let digits := cs.takeWhile Char.isDigit
  if digits = [] then none
  else
    let n := Nat.ofDigitChars 10 digits 0
    let long := if 2 ^ 64 ≤ n then 2 ^ 64 - 1 else if negative then (2 ^ 64 - n) % 2 ^ 64 else n
    some (long % 2 ^ bits)

def scanUnsigned (bits : ℕ) (cs : List Char) : Option ℕ :=
  match cs.dropWhile isBlank with
  | '-' :: cs => scanDigits bits true cs
  | '+' :: cs => scanDigits bits false cs
  | cs => scanDigits bits false cs

variable {a b cs w : List Char} {c : Char} {n : ℕ}

/-! ### Words -/

def startsBlank (cs : List Char) : Bool := cs.head?.any isBlank

def endsBlank (cs : List Char) : Bool := cs.getLast?.any isBlank

theorem startsBlank_append (h : startsBlank a = true) : startsBlank (a ++ b) = true := by
  cases a with
  | nil => cases h
  | cons c tail => exact h

theorem endsBlank_append (h : endsBlank b = true) : endsBlank (a ++ b) = true := by
  cases b with
  | nil => cases h
  | cons c tail => rwa [endsBlank, List.getLast?_append_of_ne_nil _ (List.cons_ne_nil c tail)]

theorem wordsFrom_blank (hc : isBlank c = true) (w cs : List Char) :
    wordsFrom w (c :: cs) = wordsFrom w [] ++ wordsFrom [] cs := by
  have hstep : wordsFrom w (c :: cs) =
      if w = [] then wordsFrom [] cs else String.ofList w :: wordsFrom [] cs := by rw [wordsFrom, if_pos hc]
  rw [hstep, wordsFrom]
  split_ifs <;> rfl

/-- A blank between two parts of a line keeps their words apart. -/
theorem wordsFrom_append_blank (hc : isBlank c = true) (w a b : List Char) :
    wordsFrom w (a ++ c :: b) = wordsFrom w a ++ words b := by
  induction a generalizing w with
  | nil => exact wordsFrom_blank hc w b
  | cons d a ih =>
      rw [List.cons_append]
      by_cases hd : isBlank d = true
      · rw [wordsFrom_blank hd, wordsFrom_blank hd, ih, List.append_assoc]
      · rw [wordsFrom, if_neg hd, wordsFrom, if_neg hd, ih]

theorem words_append_of_startsBlank (h : startsBlank b = true) : words (a ++ b) = words a ++ words b := by
  cases b with
  | nil => cases h
  | cons c tail =>
      have hc : isBlank c = true := h
      have hb : words (c :: tail) = words tail := by rw [words, wordsFrom, if_pos hc, if_pos rfl, words]
      rw [hb]
      exact wordsFrom_append_blank hc [] a tail

theorem words_append_of_endsBlank (h : endsBlank a = true) : words (a ++ b) = words a ++ words b := by
  induction a using List.reverseRecOn with
  | nil => cases h
  | append_singleton init c _ =>
      have hc : isBlank c = true := by simpa [endsBlank] using h
      have ha : words (init ++ [c]) = words init := by
        rw [words, wordsFrom_append_blank hc]
        exact List.append_nil _
      rw [ha, List.append_assoc]
      exact wordsFrom_append_blank hc [] init b

theorem wordsFrom_word (h : ∀ c ∈ cs, isBlank c = false) (w : List Char) :
    wordsFrom w cs = if w ++ cs = [] then [] else [String.ofList (w ++ cs)] := by
  induction cs generalizing w with
  | nil => rw [wordsFrom, List.append_nil]
  | cons c cs ih =>
      obtain ⟨hc, hcs⟩ := List.forall_mem_cons.1 h
      rw [wordsFrom, hc, if_neg Bool.false_ne_true, ih hcs, List.append_assoc, List.singleton_append]

def IsWord (s : String) : Prop := s ≠ "" ∧ ∀ c ∈ s.toList, isBlank c = false

instance (s : String) : Decidable (IsWord s) :=
  haveI : Decidable (∀ c ∈ s.toList, isBlank c = false) := List.decidableBAll _ _
  inferInstanceAs (Decidable (s ≠ "" ∧ ∀ c ∈ s.toList, isBlank c = false))

theorem words_word {s : String} (h : IsWord s) : words s.toList = [s] := by
  have hne : s.toList ≠ [] := fun hnil => h.1 (String.toList_eq_nil_iff.1 hnil)
  rw [words, wordsFrom_word h.2, List.nil_append, if_neg hne, String.ofList_toList]

/-- The text is part of a line and has these words; a `#` would begin a comment. -/
structure Prints (s : String) (ts : List String) : Prop where
  plain : ∀ c ∈ s.toList, c ≠ '\n' ∧ c ≠ '#'
  words_eq : words s.toList = ts

namespace Prints

variable {s t : String} {ts us : List String}

theorem iff : Prints s ts ↔ (∀ c ∈ s.toList, c ≠ '\n' ∧ c ≠ '#') ∧ words s.toList = ts :=
  ⟨fun h => ⟨h.plain, h.words_eq⟩, fun h => ⟨h.1, h.2⟩⟩

instance : Decidable (Prints s ts) :=
  haveI : Decidable (∀ c ∈ s.toList, c ≠ '\n' ∧ c ≠ '#') := List.decidableBAll _ _
  decidable_of_iff' _ iff

theorem word (h : IsWord s) (hs : '#' ∉ s.toList) : Prints s [s] where
  plain c hc := by
    refine ⟨?_, fun heq => hs (heq ▸ hc)⟩
    rintro rfl
    cases h.2 _ hc
  words_eq := words_word h

theorem after (h : Prints s ts) (hs : endsBlank s.toList = true) (ht : Prints t us) : Prints (s ++ t)
    (ts ++ us) where
  plain c hc := by
    rw [String.toList_append] at hc
    exact (List.mem_append.1 hc).elim (h.plain c) (ht.plain c)
  words_eq := by rw [String.toList_append, words_append_of_endsBlank hs, h.words_eq, ht.words_eq]

theorem before (h : Prints s ts) (ht : Prints t us) (hs : startsBlank t.toList = true) : Prints (s ++ t)
    (ts ++ us) where
  plain c hc := by
    rw [String.toList_append] at hc
    exact (List.mem_append.1 hc).elim (h.plain c) (ht.plain c)
  words_eq := by rw [String.toList_append, words_append_of_startsBlank hs, h.words_eq, ht.words_eq]

/-- Two parts with blanks and words between them. -/
theorem between {l : String} {ls : List String} (h : Prints s ts) (hl : Prints l ls)
    (hstart : startsBlank l.toList = true)
    (hend : endsBlank l.toList = true) (ht : Prints t us) : Prints (s ++ l ++ t) (ts ++ (ls ++ us)) := by
  have hsl := h.before hl hstart
  rw [← List.append_assoc]
  refine hsl.after ?_ ht
  rw [String.toList_append]
  exact endsBlank_append hend

end Prints

/-! ### Lines -/

theorem linesFrom_append (hw : '\n' ∉ a) (w b : List Char) :
    linesFrom w (a ++ '\n' :: b) = (w ++ a ++ ['\n']) :: lines b := by
  induction a generalizing w with
  | nil => rw [List.nil_append, linesFrom, if_pos rfl, List.append_nil, lines]
  | cons c a ih =>
      have hc : c ≠ '\n' := fun heq => hw (heq ▸ List.mem_cons_self)
      rw [List.cons_append, linesFrom, if_neg hc, ih fun hmem => hw (List.mem_cons_of_mem _ hmem)]
      simp

theorem lines_append (ha : '\n' ∉ a) (b : List Char) : lines (a ++ '\n' :: b) = (a ++ ['\n']) :: lines b := by
  rw [lines, linesFrom_append ha, List.nil_append]

/-! ### Numbers -/

theorem isDigit_of_mem_repr (hc : c ∈ n.repr.toList) : c.isDigit = true := by
  rw [Nat.toList_repr] at hc
  exact Nat.isDigit_of_mem_toDigits (by decide) (by decide) hc

theorem isBlank_of_isDigit (hc : c.isDigit = true) : isBlank c = false := by
  by_contra hblank
  have hcases : c = ' ' ∨ c = '\t' ∨ c = '\r' ∨ c = '\n' := by
    rw [Bool.not_eq_false, isBlank] at hblank
    simpa only [Bool.or_eq_true, beq_iff_eq, or_assoc] using hblank
  rcases hcases with rfl | rfl | rfl | rfl <;> exact absurd hc (by decide)

theorem repr_ne_nil (n : ℕ) : n.repr.toList ≠ [] := by
  rw [Nat.toList_repr]
  exact Nat.toDigits_ne_nil

theorem isWord_repr (n : ℕ) : IsWord n.repr :=
  ⟨fun hnil => repr_ne_nil n (by rw [hnil]; rfl), fun _ hc => isBlank_of_isDigit (isDigit_of_mem_repr hc)⟩

theorem prints_repr (n : ℕ) : Prints n.repr [n.repr] :=
  .word (isWord_repr n) fun hmem => absurd (isDigit_of_mem_repr hmem) (by decide)

theorem scanDigits_repr {bits : ℕ} (hbits : n < 2 ^ 64) :
    scanDigits bits false n.repr.toList = some (n % 2 ^ bits) := by
  have hdigits : n.repr.toList.takeWhile Char.isDigit = n.repr.toList :=
    List.takeWhile_eq_self_iff.2 fun _ hc => isDigit_of_mem_repr hc
  have hvalue : Nat.ofDigitChars 10 n.repr.toList 0 = n := by rw [Nat.toList_repr,
      Nat.ofDigitChars_ten_toDigits]
  rw [scanDigits, hdigits]
  dsimp only
  rw [if_neg (repr_ne_nil n), hvalue, if_neg (by omega)]
  rfl

/-- A printed number is read again. -/
theorem scanUnsigned_repr {bits : ℕ} (hn : n < 2 ^ 64) :
    scanUnsigned bits n.repr.toList = some (n % 2 ^ bits) := by
  have hdigit : ∀ c ∈ n.repr.toList, c.isDigit = true := fun _ hc => isDigit_of_mem_repr hc
  rw [scanUnsigned]
  obtain ⟨c, tail, hcons⟩ := List.exists_cons_of_ne_nil (repr_ne_nil n)
  have hc : c.isDigit = true := hdigit c (hcons ▸ List.mem_cons_self)
  have hdrop : n.repr.toList.dropWhile isBlank = n.repr.toList := by
    rw [hcons, List.dropWhile_cons, isBlank_of_isDigit hc, if_neg Bool.false_ne_true]
  rw [hdrop, hcons]
  split
  · rename_i heq
    cases heq
    exact absurd hc (by decide)
  · rename_i heq
    cases heq
    exact absurd hc (by decide)
  · rw [← hcons, scanDigits_repr hn]

end Cpf.Text
