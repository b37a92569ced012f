import Cpf.Basics.SwapRemove

/-!
# Compressed pointer vectors

`distill` sorts a collection of even pointers and stores each as the difference to the one before it, in
one byte, or as a whole pointer whose first byte is odd. The iterator decodes the bytes again; as it is
always one entry ahead, one more byte follows the last entry. The size is kept in 32 bits.
-/

namespace Cpf.Utilities

abbrev Byte := BitVec 8

abbrev Pointer := BitVec 64

inductive CompressionFailure
  | alignment
  | size
  deriving DecidableEq

/-! ### The vector -/

structure CompressedPointerVector where
  sz : BitVec 32
  bytes : List Byte

namespace CompressedPointerVector

def empty : CompressedPointerVector := ⟨0, []⟩

def size (v : CompressedPointerVector) : BitVec 32 := v.sz - 1

def pushDiff (v : CompressedPointerVector) (delta : Byte) :
    Except CompressionFailure CompressedPointerVector :=
  if delta &&& 1 = 0 then .ok ⟨v.sz + 1, v.bytes ++ [delta]⟩ else .error .alignment

/-- The bytes of an integer, least significant first. -/
def littleEndian : ℕ → Pointer → List Byte
  | 0, _ => []
  | n + 1, full => (full &&& 0xff).setWidth 8 :: littleEndian n (full >>> 8)

def pushSync (v : CompressedPointerVector) (full : Pointer) :
    Except CompressionFailure CompressedPointerVector :=
  if full &&& 1 = 0 then .ok ⟨v.sz + 1, v.bytes ++ littleEndian 8 (full ||| 1)⟩ else .error .alignment

end CompressedPointerVector

open CompressedPointerVector

/-! ### The iterator -/

/-- `CompressedPointerVectorIterator`; `iter` is what lies between it and the end. -/
structure PointerIterator where
  iter : List Byte
  accumulator : Pointer

/-- The loop over the other bytes of a whole pointer. It does not look for the end. -/
def readFull : ℕ → ℕ → List Byte → Pointer → Option (Pointer × List Byte)
  | 0, _, iter, full => some (full, iter)
  | _ + 1, _, [], _ => none
  | n + 1, shift, byte :: iter, full =>
      readFull n (shift + 8) iter (full ||| byte.setWidth 64 <<< shift)

/-- `operator++`, unless it reads beyond the end. -/
def PointerIterator.advance (it : PointerIterator) : Option PointerIterator :=
  match it.iter with
  | [] => some it
  | byte :: iter =>
      if byte &&& 1 = 1 then
        (readFull 7 8 iter ((byte &&& ~~~1).setWidth 64)).map fun r => ⟨r.2, r.1⟩
      else some ⟨iter, it.accumulator + byte.setWidth 64⟩

/-- The loop `for (i = begin; i != end; ++i)`, which collects what `operator*` gives. -/
def collectPointers : ℕ → PointerIterator → Option (List Pointer)
  | 0, _ => none
  | fuel + 1, it =>
      if it.iter = [] then some []
      else it.advance.bind fun next => (collectPointers fuel next).map (it.accumulator :: ·)

def CompressedPointerVector.begin (v : CompressedPointerVector) : Option PointerIterator :=
  PointerIterator.advance ⟨v.bytes, 0⟩

def CompressedPointerVector.elements (v : CompressedPointerVector) : Option (List Pointer) :=
  v.begin.bind (collectPointers (v.bytes.length + 1))

/-! ### The builder -/

structure PointerBuilder where
  pointers : List Pointer

namespace PointerBuilder

def push (b : PointerBuilder) (t : Pointer) : PointerBuilder := ⟨b.pointers ++ [t]⟩

def remove (b : PointerBuilder) (t : Pointer) : PointerBuilder :=
  match b.pointers.findIdx? (· = t) with
  | none => b
  | some i => ⟨swapRemove b.pointers i⟩

def distillLoop : Pointer → List Pointer → CompressedPointerVector →
    Except CompressionFailure CompressedPointerVector
  | _, [], output => .ok output
  | prev, next :: rest, output =>
      let diff64 := next - prev
      let diff8 : Byte := (diff64 &&& 0xff).setWidth 8
      (if diff64 = diff8.setWidth 64 then output.pushDiff diff8 else output.pushSync next) >>=
        distillLoop next rest

def encode (b : PointerBuilder) (output : CompressedPointerVector) :
    Except CompressionFailure CompressedPointerVector := do
  let output ← distillLoop 0 (b.pointers.mergeSort fun p q => decide (p ≤ q)) output
  output.pushDiff 0

def distill (b : PointerBuilder) (output : CompressedPointerVector) :
    Except CompressionFailure CompressedPointerVector := do
  let output ← b.encode output
  if output.size.toNat = b.pointers.length then .ok output else .error .size

end PointerBuilder

/-- A pointer whose low bit is clear. -/
structure EvenPointer where
  ptr : Pointer
  even : ptr &&& 1 = 0

inductive BuilderCall
  | push (t : EvenPointer)
  | remove (t : EvenPointer)

def PointerBuilder.call (b : PointerBuilder) : BuilderCall → PointerBuilder
  | .push t => b.push t.ptr
  | .remove t => b.remove t.ptr

def built (calls : List BuilderCall) : PointerBuilder := calls.foldl PointerBuilder.call ⟨[]⟩

/-! ### Whole pointers -/

theorem setWidth_and_mask (y : Pointer) : (y &&& 0xff).setWidth 8 = y.setWidth 8 := by
  have hmask : (0xff : Pointer).setWidth 8 = BitVec.allOnes 8 := by decide
  rw [BitVec.setWidth_and, hmask, BitVec.and_allOnes]

theorem low_or_high (y : Pointer) (shift : ℕ) :
    ((y &&& 0xff).setWidth 8).setWidth 64 <<< shift ||| (y >>> 8) <<< (shift + 8) = y <<< shift := by
  rw [setWidth_and_mask]
  ext i hi
  simp only [BitVec.getElem_or, BitVec.getElem_shiftLeft, BitVec.getElem_setWidth, BitVec.getLsbD_setWidth,
    BitVec.getElem_ushiftRight]
  by_cases hshift : i < shift
  · have hbyte : i < shift + 8 := by omega
    simp [hshift, hbyte]
  · by_cases hbyte : i - shift < 8
    · have hless : i < shift + 8 := by omega
      simp [hshift, hless, hbyte, BitVec.getLsbD_eq_getElem (show i - shift < 64 by omega)]
    · have hmore : ¬ i < shift + 8 := by omega
      have hindex : 8 + (i - (shift + 8)) = i - shift := by omega
      simp [hshift, hmore, hbyte, hindex, BitVec.getLsbD_eq_getElem (show i - shift < 64 by omega)]

theorem readFull_littleEndian {n shift : ℕ} (y full : Pointer) (rest : List Byte)
    (h : shift + 8 * n = 64) :
    readFull n shift (littleEndian n y ++ rest) full = some (full ||| y <<< shift, rest) := by
  induction n generalizing shift y full with
  | zero =>
      have hzero : y <<< shift = 0#64 := BitVec.shiftLeft_eq_zero (by omega)
      rw [hzero, BitVec.or_zero]
      rfl
  | succ n ih =>
      rw [littleEndian, List.cons_append, readFull, ih _ _ (by omega), BitVec.or_assoc, low_or_high]

theorem mark_first_byte (next : Pointer) : ((next ||| 1) &&& 0xff).setWidth 8 &&& (1 : Byte) = 1 := by
  rw [setWidth_and_mask]
  ext i hi
  simp only [BitVec.getElem_and, BitVec.getElem_setWidth, BitVec.getLsbD_or]
  by_cases hz : i = 0
  · simp [hz]
  · simp [hz]

theorem unmark_first_byte {next : Pointer} (h : next &&& 1 = 0) :
    ((next ||| 1) &&& 0xff).setWidth 8 &&& ~~~(1 : Byte) = (next &&& 0xff).setWidth 8 := by
  rw [setWidth_and_mask, setWidth_and_mask]
  ext i hi
  simp only [BitVec.getElem_and, BitVec.getElem_not, BitVec.getElem_setWidth, BitVec.getLsbD_or]
  by_cases hz : i = 0
  · have hbit : next[0] = false := by simpa using congrArg (fun x : Pointer => x[0]) h
    simp [hz, hbit]
  · simp [hz]

theorem advance_sync {next : Pointer} (h : next &&& 1 = 0) (prev : Pointer) (rest : List Byte) :
    PointerIterator.advance ⟨littleEndian 8 (next ||| 1) ++ rest, prev⟩ = some ⟨rest, next⟩ := by
  have hhigh : (next ||| 1) >>> 8 = next >>> 8 := by
    ext i hi
    simp
  have hwhole : ((next &&& 0xff).setWidth 8).setWidth 64 ||| (next >>> 8) <<< 8 = next := by
    simpa using low_or_high next 0
  rw [littleEndian, List.cons_append]
  unfold PointerIterator.advance
  dsimp only
  rw [if_pos (mark_first_byte next), readFull_littleEndian _ _ _ (by norm_num), unmark_first_byte h, hhigh,
    hwhole]
  rfl

/-! ### One entry -/

theorem and_one_eq_zero_iff {w : ℕ} {x : BitVec (w + 1)} : x &&& 1 = 0 ↔ x.toNat % 2 = 0 := by
  rw [← BitVec.toNat_inj, BitVec.toNat_and]
  simp

def entry (prev next : Pointer) : List Byte :=
  if next - prev = (((next - prev) &&& 0xff).setWidth 8).setWidth 64 then
    [((next - prev) &&& 0xff).setWidth 8]
  else littleEndian 8 (next ||| 1)

theorem even_delta {prev next : Pointer} (hprev : prev &&& 1 = 0) (hnext : next &&& 1 = 0) :
    ((next - prev) &&& 0xff).setWidth 8 &&& (1 : Byte) = 0 := by
  rw [and_one_eq_zero_iff] at *
  rw [setWidth_and_mask, BitVec.toNat_setWidth, BitVec.toNat_sub]
  omega

/-- The assertions on the alignment hold, and the entry is written. -/
theorem push_entry {prev next : Pointer} (hprev : prev &&& 1 = 0) (hnext : next &&& 1 = 0)
    (output : CompressedPointerVector) :
    (if next - prev = (((next - prev) &&& 0xff).setWidth 8).setWidth 64 then
        output.pushDiff (((next - prev) &&& 0xff).setWidth 8)
      else output.pushSync next) = .ok ⟨output.sz + 1, output.bytes ++ entry prev next⟩ := by
  unfold entry
  split_ifs
  · rw [pushDiff, if_pos (even_delta hprev hnext)]
  · rw [pushSync, if_pos hnext]

theorem advance_entry {prev next : Pointer} (hprev : prev &&& 1 = 0) (hnext : next &&& 1 = 0)
    (rest : List Byte) : PointerIterator.advance ⟨entry prev next ++ rest, prev⟩ = some ⟨rest, next⟩ := by
  unfold entry
  split_ifs with hdiff
  · have hodd : ¬ ((next - prev) &&& 0xff).setWidth 8 &&& (1 : Byte) = 1 := by
      rw [even_delta hprev hnext]
      decide
    have hsum : prev + (((next - prev) &&& 0xff).setWidth 8).setWidth 64 = next := by
      rw [← hdiff, BitVec.add_comm, BitVec.sub_add_cancel]
    unfold PointerIterator.advance
    rw [List.singleton_append]
    dsimp only
    rw [if_neg hodd, hsum]
  · exact advance_sync hnext prev rest

theorem entry_ne_nil (prev next : Pointer) : entry prev next ≠ [] := by
  unfold entry
  split_ifs
  · exact List.cons_ne_nil _ _
  · exact List.cons_ne_nil _ _

/-! ### All entries -/

def entries : Pointer → List Pointer → List Byte
  | _, [] => []
  | prev, next :: rest => entry prev next ++ entries next rest

theorem length_le_entries (prev : Pointer) (ps : List Pointer) : ps.length ≤ (entries prev ps).length := by
  induction ps generalizing prev with
  | nil => exact Nat.zero_le _
  | cons next rest ih =>
      have hpos := List.length_pos_iff.2 (entry_ne_nil prev next)
      have hrest := ih next
      rw [entries, List.length_append, List.length_cons]
      omega

theorem distillLoop_eq {prev : Pointer} {ps : List Pointer} (hprev : prev &&& 1 = 0)
    (hps : ∀ p ∈ ps, p &&& 1 = 0) (output : CompressedPointerVector) :
    PointerBuilder.distillLoop prev ps output =
      .ok ⟨output.sz + BitVec.ofNat 32 ps.length, output.bytes ++ entries prev ps⟩ := by
  induction ps generalizing prev output with
  | nil => simp [PointerBuilder.distillLoop, entries]
  | cons next rest ih =>
      have hnext := hps next List.mem_cons_self
      rw [PointerBuilder.distillLoop, push_entry hprev hnext]
      refine (ih hnext (fun p hp => hps p (List.mem_cons_of_mem _ hp)) _).trans ?_
      rw [entries, List.append_assoc, List.length_cons, BitVec.add_assoc]
      congr 3
      rw [Nat.add_comm, BitVec.ofNat_add]
      rfl

/-- The iterator is one entry ahead, up to the byte behind the last one. -/
theorem collectPointers_entries {prev : Pointer} {ps : List Pointer} {fuel : ℕ} (hprev : prev &&& 1 = 0)
    (hps : ∀ p ∈ ps, p &&& 1 = 0) (hfuel : ps.length < fuel) :
    (PointerIterator.advance ⟨entries prev ps ++ [0], prev⟩).bind (collectPointers fuel) = some ps := by
  induction ps generalizing prev fuel with
  | nil =>
      obtain ⟨fuel, rfl⟩ := Nat.exists_eq_succ_of_ne_zero hfuel.ne'
      rfl
  | cons next rest ih =>
      have hnext := hps next List.mem_cons_self
      obtain ⟨fuel, rfl⟩ := Nat.exists_eq_succ_of_ne_zero (Nat.ne_of_gt (Nat.zero_lt_of_lt hfuel))
      have hrest := ih hnext (fun p hp => hps p (List.mem_cons_of_mem _ hp)) (Nat.lt_of_succ_lt_succ hfuel)
      rw [entries, List.append_assoc, advance_entry hprev hnext, Option.bind_some, collectPointers,
        if_neg (by simp)]
      rw [Option.bind_eq_some_iff] at hrest
      obtain ⟨it, hit, hcollect⟩ := hrest
      rw [hit, Option.bind_some, hcollect]
      rfl

/-! ### The collection -/

def remaining (calls : List BuilderCall) : Multiset Pointer :=
  calls.foldl (fun s call => match call with | .push t => t.ptr ::ₘ s | .remove t => s.erase t.ptr) 0

theorem coe_remove (b : PointerBuilder) (t : Pointer) :
    ((b.remove t).pointers : Multiset Pointer) = (b.pointers : Multiset Pointer).erase t := by
  unfold PointerBuilder.remove
  cases hfind : b.pointers.findIdx? (· = t) with
  | none =>
      have hnot : t ∉ (b.pointers : Multiset Pointer) := by
        intro hmem
        have hall := List.findIdx?_eq_none_iff.1 hfind t (Multiset.mem_coe.1 hmem)
        simp at hall
      exact (Multiset.erase_of_notMem hnot).symm
  | some i =>
      obtain ⟨hi, hget, -⟩ := List.findIdx?_eq_some_iff_getElem.1 hfind
      have hperm := swapRemove_perm (List.getElem?_eq_getElem hi)
      rw [of_decide_eq_true hget] at hperm
      rw [← Multiset.coe_eq_coe.2 hperm, ← Multiset.cons_coe, Multiset.erase_cons_head]

theorem built_spec (calls : List BuilderCall) :
    ((built calls).pointers : Multiset Pointer) = remaining calls ∧
      ∀ p ∈ (built calls).pointers, p &&& 1 = 0 := by
  induction calls using List.reverseRecOn with
  | nil => exact ⟨rfl, fun p hp => absurd hp List.not_mem_nil⟩
  | append_singleton calls call ih =>
      obtain ⟨hremaining, heven⟩ := ih
      unfold built remaining at *
      rw [List.foldl_concat, List.foldl_concat, ← hremaining]
      cases call with
      | push t =>
          refine ⟨?_, fun p hp => ?_⟩
          · exact Multiset.coe_eq_coe.2 (List.perm_append_singleton _ _)
          · rcases List.mem_append.1 hp with hp | hp
            · exact heven p hp
            · rw [List.mem_singleton.1 hp]
              exact t.even
      | remove t =>
          have herase := coe_remove (calls.foldl PointerBuilder.call ⟨[]⟩) t.ptr
          refine ⟨herase, fun p hp => heven p ?_⟩
          have hmem : p ∈ ((calls.foldl PointerBuilder.call ⟨[]⟩).pointers : Multiset Pointer).erase t.ptr := by
            rw [← herase]
            exact hp
          exact Multiset.mem_of_mem_erase hmem

/-! ### The round trip -/

/-- `distill` succeeds, and its result has the remaining pointers in order and knows their number. -/
def RoundTrips (calls : List BuilderCall) : Prop :=
  ∃ v l, (built calls).distill .empty = .ok v ∧ v.elements = some l ∧ l.Pairwise (· ≤ ·) ∧
    (l : Multiset Pointer) = remaining calls ∧ v.size.toNat = Multiset.card (remaining calls)

theorem encode_spec (calls : List BuilderCall) :
    ∃ v l, (built calls).encode .empty = .ok v ∧ v.elements = some l ∧ l.Pairwise (· ≤ ·) ∧
      (l : Multiset Pointer) = remaining calls ∧
      v.size.toNat = Multiset.card (remaining calls) % 2 ^ 32 := by
  obtain ⟨hremaining, heven⟩ := built_spec calls
  let l := (built calls).pointers.mergeSort fun p q => decide (p ≤ q)
  have hperm : l.Perm (built calls).pointers := List.mergeSort_perm _ _
  have hl : ∀ p ∈ l, p &&& 1 = 0 := fun p hp => heven p (hperm.mem_iff.1 hp)
  have hzero : (0 : Pointer) &&& 1 = 0 := by decide
  have hsorted : l.Pairwise (· ≤ ·) := by
    have hmerge := @List.pairwise_mergeSort Pointer (fun p q => decide (p ≤ q))
      (fun a b c hab hbc => by
        rw [decide_eq_true_iff] at *
        exact BitVec.le_trans hab hbc)
      (fun a b => by simpa using BitVec.le_total a b) (built calls).pointers
    exact hmerge.imp fun h => of_decide_eq_true h
  refine ⟨⟨BitVec.ofNat 32 l.length + 1, entries 0 l ++ [0]⟩, l, ?_, ?_, hsorted, ?_, ?_⟩
  · have hloop := distillLoop_eq hzero hl .empty
    have hadd : CompressedPointerVector.empty.sz + BitVec.ofNat 32 l.length = BitVec.ofNat 32 l.length :=
      BitVec.zero_add _
    rw [hadd] at hloop
    unfold PointerBuilder.encode
    rw [hloop]
    rfl
  · apply collectPointers_entries hzero hl
    have hlen := length_le_entries 0 l
    rw [List.length_append]
    omega
  · exact (Multiset.coe_eq_coe.2 hperm).trans hremaining
  · have hcard : Multiset.card (remaining calls) = l.length := by
      rw [← hremaining, Multiset.coe_card, hperm.length_eq]
    unfold CompressedPointerVector.size
    dsimp only
    rw [BitVec.add_sub_cancel, BitVec.toNat_ofNat, hcard]

theorem roundTrips_iff (calls : List BuilderCall) :
    RoundTrips calls ↔ Multiset.card (remaining calls) < 2 ^ 32 := by
  obtain ⟨v, l, hencode, helements, hsorted, hl, hsize⟩ := encode_spec calls
  have hlength : (built calls).pointers.length = Multiset.card (remaining calls) := by
    rw [← (built_spec calls).1, Multiset.coe_card]
  have hdistill : (built calls).distill .empty =
      if v.size.toNat = (built calls).pointers.length then .ok v else .error .size := by
    unfold PointerBuilder.distill
    rw [hencode]
    rfl
  constructor
  · rintro ⟨v', l', hv', -, -, -, hsize'⟩
    rw [hdistill] at hv'
    split_ifs at hv'
    cases hv'
    rw [← hsize', hsize]
    exact Nat.mod_lt _ (by norm_num)
  · intro hlt
    rw [Nat.mod_eq_of_lt hlt] at hsize
    refine ⟨v, l, ?_, helements, hsorted, hl, hsize⟩
    rw [hdistill, if_pos (hsize.trans hlength.symm)]

/-- The alignment assertions hold, and the iteration gives the remaining pointers. The size is right, with
the assertion on it, if and only if there are fewer than `2 ^ 32` of them. -/
theorem distill_roundTrips (calls : List BuilderCall) :
    (∃ v l, (built calls).encode .empty = .ok v ∧ v.elements = some l ∧ l.Pairwise (· ≤ ·) ∧
      (l : Multiset Pointer) = remaining calls) ∧
    (RoundTrips calls ↔ Multiset.card (remaining calls) < 2 ^ 32) := by
  obtain ⟨v, l, hencode, helements, hsorted, hl, -⟩ := encode_spec calls
  exact ⟨⟨v, l, hencode, helements, hsorted, hl⟩, roundTrips_iff calls⟩

theorem card_remaining_replicate (t : EvenPointer) (n : ℕ) :
    Multiset.card (remaining (List.replicate n (.push t))) = n := by
  induction n with
  | zero => rfl
  | succ n ih =>
      unfold remaining at *
      rw [List.replicate_succ', List.foldl_concat, Multiset.card_cons, ih]

/-- The size of `2 ^ 32` pointers wraps around. -/
theorem size_wraps : ¬ RoundTrips (List.replicate (2 ^ 32) (.push ⟨2, by decide⟩)) := by
  rw [roundTrips_iff, card_remaining_replicate]
  exact lt_irrefl _

end Cpf.Utilities
