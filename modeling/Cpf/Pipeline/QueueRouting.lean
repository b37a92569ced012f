import Cpf.Pipeline.Queue

/-!
# Routing of values through a queue

Each ring has one producing and one consuming replica, if either the producing stage has one replica
or no call is replicated. What is stored to a ring is then what is loaded from it, call by call.
-/

namespace Cpf.Pipeline

def Take.entry {K : Type} (t : Take K) : K × UInt64 := (t.ring, t.value)

namespace Link

variable {l : Link}

def prodOf (l : Link) (k : Fin l.numQueues) : Fin l.n := ⟨k % l.n, Nat.mod_lt _ l.n_pos⟩

def consOf (l : Link) (k : Fin l.numQueues) : Fin l.m := ⟨k % l.m, Nat.mod_lt _ l.m_pos⟩

/-- Calls are replicated only by a stage with one replica. -/
def ReplicatesFromOne (l : Link) : Prop :=
  l.n = 1 ∨ ∀ i ∈ l.iterations, ∀ c ∈ l.calls i, c.replicated = false

theorem numQueues_of_n (h : l.n = 1) : l.numQueues = l.m := by rw [numQueues, h, Nat.one_mul]

theorem numQueues_of_m (h : l.m = 1) : l.numQueues = l.n := by rw [numQueues, h, Nat.mul_one]

theorem consOf_val (h : l.n = 1) (k : Fin l.numQueues) : (l.consOf k : ℕ) = k :=
  Nat.mod_eq_of_lt (numQueues_of_n h ▸ k.isLt)

theorem prodOf_val (h : l.m = 1) (k : Fin l.numQueues) : (l.prodOf k : ℕ) = k :=
  Nat.mod_eq_of_lt (numQueues_of_m h ▸ k.isLt)

theorem injective_of_one (l : Link) :
    Function.Injective l.consOf ∨ Function.Injective l.prodOf := by
  rcases l.one with h | h
  · refine Or.inl (fun k k' he => Fin.ext ?_)
    rw [← consOf_val h k, ← consOf_val h k', he]
  · refine Or.inr (fun k k' he => Fin.ext ?_)
    rw [← prodOf_val h k, ← prodOf_val h k', he]

theorem eq_of_n (h : l.n = 1) (p p' : Fin l.n) : p = p' := by
  apply Fin.ext
  have hp := p.isLt
  have hp' := p'.isLt
  omega

theorem eq_of_m (h : l.m = 1) (c c' : Fin l.m) : c = c' := by
  apply Fin.ext
  have hc := c.isLt
  have hc' := c'.isLt
  omega

/-- A replica stores to its own rings. -/
theorem prodOf_of_mem (h : l.ReplicatesFromOne) {p : Fin l.n} {e : Fin l.numQueues × UInt64}
    (he : e ∈ l.produces p) : l.prodOf e.1 = p := by
  by_cases hn : l.n = 1
  · exact eq_of_n hn _ _
  · have hm := l.one.resolve_left hn
    have hplain := h.resolve_left hn
    obtain ⟨i, hi, he⟩ := List.mem_flatMap.1 he
    split_ifs at he with hon
    · obtain ⟨c, hc, he⟩ := List.mem_flatMap.1 he
      rw [produce, hplain i hi c hc] at he
      obtain rfl := List.mem_singleton.1 he
      apply Fin.ext
      rw [prodOf_val hm, ← hon]
      change i % l.numQueues = i % l.n
      rw [numQueues_of_m hm]
    · cases he

theorem consume_val_of_on (h : l.n = 1) {c : Fin l.m} {i : ℕ} (hon : i % l.m = c) (call : Call) :
    (l.consume i c call : ℕ) = c := by
  unfold consume
  split_ifs
  · rfl
  · change i % l.numQueues = c
    rw [numQueues_of_n h, hon]

theorem consume_val_of_replicated (i : ℕ) (c : Fin l.m) {call : Call}
    (h : call.replicated = true) : (l.consume i c call : ℕ) = c := by
  rw [consume, if_pos h]

theorem consOf_of_mem {c : Fin l.m} {t : Take (Fin l.numQueues)} (ht : t ∈ l.takes c) :
    l.consOf t.ring = c := by
  rcases l.one with hn | hm
  · obtain ⟨i, _, ht⟩ := List.mem_flatMap.1 ht
    obtain ⟨call, hcall, rfl⟩ := List.mem_map.1 ht
    apply Fin.ext
    rw [consOf_val hn]
    unfold matching at hcall
    split_ifs at hcall with hon
    · exact consume_val_of_on hn hon call
    · exact consume_val_of_replicated i c (List.mem_filter.1 hcall).2
  · exact eq_of_m hm _ _

theorem onChannel_map_of_forall {K α : Type} [DecidableEq K] {k : K} {f : α → K × UInt64}
    {as : List α} (h : ∀ a ∈ as, (f a).1 = k) : onChannel k (as.map f) = as.map (fun a => (f a).2) := by
  induction as with
  | nil => rfl
  | cons a as ih =>
      have ha := h a List.mem_cons_self
      rw [List.map_cons, List.map_cons, ← Prod.eta (f a), ha, onChannel_cons_self,
        ih (fun b hb => h b (List.mem_cons_of_mem a hb))]

theorem onChannel_finRange {n : ℕ} (k : Fin n) (v : UInt64) :
    onChannel k ((List.finRange n).map (fun i => (i, v))) = [v] := by
  have hone : (List.finRange n).filter (fun i => decide (i = k)) = [k] := by
    rw [List.filter_eq, List.count_eq_one_of_mem (List.nodup_finRange n) (List.mem_finRange k)]
    rfl
  rw [onChannel, List.filter_map]
  change List.map _ (List.map _ ((List.finRange n).filter (fun i => decide (i = k)))) = [v]
  rw [hone]
  rfl

/-- A call stores its value to ring `k`, or does not use that ring. -/
theorem onChannel_produce (h : l.n = 1) (i : ℕ) (k : Fin l.numQueues) (c : Call) :
    onChannel k (l.produce i c) =
      if c.replicated = true ∨ i % l.m = l.consOf k then [c.value] else [] := by
  unfold produce
  by_cases hrep : c.replicated = true
  · rw [if_pos hrep, if_pos (Or.inl hrep), onChannel_finRange]
  · rw [if_neg hrep]
    have hval : (l.getQueue i : ℕ) = i % l.m := by
      change i % l.numQueues = i % l.m
      rw [numQueues_of_n h]
    by_cases hon : i % l.m = l.consOf k
    · have hk : l.getQueue i = k := Fin.ext (by rw [hval, hon, consOf_val h])
      rw [if_pos (Or.inr hon), hk, onChannel_cons_self, onChannel_nil]
    · have hk : l.getQueue i ≠ k := fun he => hon (by rw [← hval, he, consOf_val h])
      rw [if_neg (not_or.2 ⟨hrep, hon⟩), onChannel_cons_of_ne hk, onChannel_nil]

/-- One iteration of a producing stage with one replica. -/
theorem onChannel_of_n (h : l.n = 1) (i : ℕ) (k : Fin l.numQueues) :
    onChannel k ((l.calls i).flatMap (l.produce i)) =
      onChannel k ((l.matching (l.consOf k) i).map
        (fun c => (l.consume i (l.consOf k) c, c.value))) := by
  have hring : ∀ c ∈ l.matching (l.consOf k) i, l.consume i (l.consOf k) c = k := fun c hc => by
    apply Fin.ext
    rw [← consOf_val h k]
    unfold matching at hc
    split_ifs at hc with hon
    · exact consume_val_of_on h hon c
    · exact consume_val_of_replicated i _ (List.mem_filter.1 hc).2
  rw [onChannel_map_of_forall hring, onChannel_flatMap]
  simp only [onChannel_produce h]
  unfold matching
  by_cases hon : i % l.m = l.consOf k
  · simp only [hon, or_true, if_true]
    exact List.flatMap_pure_eq_map _ _
  · simp only [hon, or_false, if_false]
    induction l.calls i with
    | nil => rfl
    | cons c cs ih =>
        rw [List.flatMap_cons, ih]
        by_cases hrep : c.replicated = true
        · rw [if_pos hrep, List.filter_cons_of_pos hrep, List.map_cons, List.singleton_append]
        · rw [if_neg hrep, List.filter_cons_of_neg hrep, List.nil_append]

/-- One iteration of a consuming stage with one replica, without a replicated call. -/
theorem onChannel_of_m (h : l.m = 1) {i : ℕ} (hplain : ∀ c ∈ l.calls i, c.replicated = false)
    (k : Fin l.numQueues) :
    onChannel k (if i % l.n = l.prodOf k then (l.calls i).flatMap (l.produce i) else []) =
      onChannel k ((l.matching (l.consOf k) i).map
        (fun c => (l.consume i (l.consOf k) c, c.value))) := by
  have hon : i % l.m = l.consOf k := by
    have hmod := Nat.mod_lt i l.m_pos
    have hlt := (l.consOf k).isLt
    omega
  have hval : (l.getQueue i : ℕ) = i % l.n := by
    change i % l.numQueues = i % l.n
    rw [numQueues_of_m h]
  have hproduce : (l.calls i).flatMap (l.produce i) =
      (l.calls i).map (fun c => (l.getQueue i, c.value)) := by
    rw [← List.flatMap_pure_eq_map]
    refine List.flatMap_congr (fun c hc => ?_)
    rw [produce, hplain c hc]
    rfl
  have hconsume : (l.calls i).map (fun c => (l.consume i (l.consOf k) c, c.value)) =
      (l.calls i).map (fun c => (l.getQueue i, c.value)) := by
    refine List.map_congr_left (fun c hc => ?_)
    rw [consume, hplain c hc]
    rfl
  rw [matching, if_pos hon, hconsume]
  split_ifs with hp
  · rw [hproduce]
  · rw [onChannel_nil, onChannel_eq_nil]
    intro e he hk
    obtain ⟨c, _, rfl⟩ := List.mem_map.1 he
    apply hp
    rw [← hval, prodOf_val h, ← hk]

theorem matched (h : l.ReplicatesFromOne) : Matched l.prodOf l.consOf (fun _ => []) l.produces
    (fun c => (l.takes c).map Take.entry) := by
  refine ⟨fun p e he => prodOf_of_mem h he, fun c e he => ?_, fun k => ?_⟩
  · obtain ⟨t, ht, rfl⟩ := List.mem_map.1 he
    exact consOf_of_mem ht
  · have htakes : (l.takes (l.consOf k)).map Take.entry = l.iterations.flatMap (fun i =>
        (l.matching (l.consOf k) i).map (fun c => (l.consume i (l.consOf k) c, c.value))) := by
      rw [takes, List.map_flatMap]
      simp only [List.map_map]
      rfl
    rw [List.nil_append, htakes, produces, onChannel_flatMap, onChannel_flatMap]
    refine List.flatMap_congr (fun i hi => ?_)
    by_cases hn : l.n = 1
    · have hon : i % l.n = l.prodOf k := by
        have hmod := Nat.mod_lt i l.n_pos
        have hlt := (l.prodOf k).isLt
        omega
      rw [if_pos hon]
      exact onChannel_of_n hn i k
    · exact onChannel_of_m (l.one.resolve_left hn) (h.resolve_left hn i hi) k

end Link
end Cpf.Pipeline
