import Mathlib.Tactic

/-!
# Matched use of first-in first-out channels

Producers send to channels and consumers take from them, each according to a list of what it has
still to do. Every channel has one producer and one consumer. `Matched` says that the contents of a
channel and what is still to be sent to it are what is still to be taken from it.
-/

namespace Cpf

variable {K V P C : Type*} [DecidableEq K]

def onChannel (k : K) (l : List (K × V)) : List V := (l.filter (fun e => e.1 = k)).map Prod.snd

@[simp] theorem onChannel_nil (k : K) : onChannel k ([] : List (K × V)) = [] := rfl

@[simp] theorem onChannel_cons_self (k : K) (v : V) (l : List (K × V)) :
    onChannel k ((k, v) :: l) = v :: onChannel k l := by
  rw [onChannel, List.filter_cons_of_pos (by simp)]
  rfl

theorem onChannel_cons_of_ne {k k' : K} (h : k' ≠ k) (v : V) (l : List (K × V)) :
    onChannel k ((k', v) :: l) = onChannel k l := by
  rw [onChannel, List.filter_cons_of_neg (by simpa using h)]
  rfl

theorem onChannel_append (k : K) (l l' : List (K × V)) :
    onChannel k (l ++ l') = onChannel k l ++ onChannel k l' := by
  rw [onChannel, List.filter_append, List.map_append]
  rfl

theorem onChannel_flatMap {α : Type*} (k : K) (f : α → List (K × V)) (l : List α) :
    onChannel k (l.flatMap f) = l.flatMap (fun a => onChannel k (f a)) := by
  induction l with
  | nil => rfl
  | cons a l ih => rw [List.flatMap_cons, List.flatMap_cons, onChannel_append, ih]

theorem onChannel_eq_nil {k : K} {l : List (K × V)} (h : ∀ e ∈ l, e.1 ≠ k) :
    onChannel k l = [] := by
  rw [onChannel, List.filter_eq_nil_iff.2 (fun e he => by simpa using h e he)]
  rfl

/-- Two lists are the same but for the order if they are the same on every channel. -/
theorem perm_of_onChannel {l m : List (K × V)} (h : ∀ k, onChannel k l = onChannel k m) : l.Perm m := by
  classical
  have hcount : ∀ (k : K) (v : V) (l : List (K × V)), l.count (k, v) = (onChannel k l).count v := by
    intro k v l
    induction l with
    | nil => rfl
    | cons e l ih =>
      obtain ⟨k', v'⟩ := e
      by_cases hk : k' = k
      · subst hk
        simp only [onChannel_cons_self, List.count_cons, ih, Prod.mk.injEq, true_and, beq_iff_eq]
      · rw [onChannel_cons_of_ne hk, ← ih, List.count_cons_of_ne]
        exact fun heq => hk (Prod.mk.inj heq).1
  refine List.perm_iff_count.2 fun e => ?_
  rw [hcount, hcount, h]

structure Matched (prodOf : K → P) (consOf : K → C) (contents : K → List V)
    (rest : P → List (K × V)) (todo : C → List (K × V)) : Prop where
  sends : ∀ p, ∀ e ∈ rest p, prodOf e.1 = p
  takes : ∀ c, ∀ e ∈ todo c, consOf e.1 = c
  same : ∀ k, contents k ++ onChannel k (rest (prodOf k)) = onChannel k (todo (consOf k))

namespace Matched

variable {prodOf : K → P} {consOf : K → C} {contents : K → List V} {rest : P → List (K × V)}
  {todo : C → List (K × V)} {p : P} {c : C} {k : K} {v v' : V} {r : List (K × V)} {q : List V}

theorem send [DecidableEq P] (h : Matched prodOf consOf contents rest todo) (hr : rest p = (k, v) :: r) :
    Matched prodOf consOf (Function.update contents k (contents k ++ [v]))
      (Function.update rest p r) todo := by
  have hp : prodOf k = p := h.sends p (k, v) (by rw [hr]; exact List.mem_cons_self)
  refine ⟨fun p' e he => ?_, h.takes, fun k' => ?_⟩
  · by_cases hpp : p' = p
    · rw [hpp, Function.update_self] at he
      rw [hpp]
      exact h.sends p e (by rw [hr]; exact List.mem_cons_of_mem _ he)
    · rw [Function.update_of_ne hpp] at he
      exact h.sends p' e he
  · have hsame := h.same k'
    by_cases hk : k' = k
    · subst k'
      rw [hp, hr, onChannel_cons_self] at hsame
      rw [Function.update_self, hp, Function.update_self, List.append_assoc]
      exact hsame
    · rw [Function.update_of_ne hk]
      by_cases hpp : prodOf k' = p
      · rw [hpp, hr, onChannel_cons_of_ne (Ne.symm hk)] at hsame
        rw [hpp, Function.update_self]
        exact hsame
      · rw [Function.update_of_ne hpp]
        exact hsame

/-- The oldest value of a channel is the one that its consumer takes next. -/
theorem head_eq (h : Matched prodOf consOf contents rest todo) (ht : todo c = (k, v) :: r)
    (hq : contents k = v' :: q) : v' = v := by
  have hc : consOf k = c := h.takes c (k, v) (by rw [ht]; exact List.mem_cons_self)
  have hsame := h.same k
  rw [hq, hc, ht, onChannel_cons_self, List.cons_append] at hsame
  exact (List.cons.inj hsame).1

theorem take [DecidableEq C] (h : Matched prodOf consOf contents rest todo) (ht : todo c = (k, v) :: r)
    (hq : contents k = v' :: q) :
    Matched prodOf consOf (Function.update contents k q) rest (Function.update todo c r) := by
  have hc : consOf k = c := h.takes c (k, v) (by rw [ht]; exact List.mem_cons_self)
  refine ⟨h.sends, fun c' e he => ?_, fun k' => ?_⟩
  · by_cases hcc : c' = c
    · rw [hcc, Function.update_self] at he
      rw [hcc]
      exact h.takes c e (by rw [ht]; exact List.mem_cons_of_mem _ he)
    · rw [Function.update_of_ne hcc] at he
      exact h.takes c' e he
  · have hsame := h.same k'
    by_cases hk : k' = k
    · subst k'
      rw [hq, hc, ht, onChannel_cons_self, List.cons_append] at hsame
      rw [Function.update_self, hc, Function.update_self]
      exact (List.cons.inj hsame).2
    · rw [Function.update_of_ne hk]
      by_cases hcc : consOf k' = c
      · rw [hcc, ht, onChannel_cons_of_ne (Ne.symm hk)] at hsame
        rw [hcc, Function.update_self]
        exact hsame
      · rw [Function.update_of_ne hcc]
        exact hsame

theorem contents_eq_nil (h : Matched prodOf consOf contents rest todo) (hd : ∀ c, todo c = [])
    (k : K) : contents k = [] := by
  have hsame := h.same k
  rw [hd, onChannel_nil] at hsame
  exact (List.append_eq_nil_iff.1 hsame).1

/-- If every consumer, or every producer, has one channel, somebody can go on until all is done. -/
theorem progress (h : Matched prodOf consOf contents rest todo) (cap : ℕ) (hcap : 0 < cap)
    (hone : Function.Injective consOf ∨ Function.Injective prodOf)
    (hmore : (∃ p, rest p ≠ []) ∨ ∃ c, todo c ≠ []) :
    (∃ p k v r, rest p = (k, v) :: r ∧ (contents k).length < cap) ∨
      ∃ c k v r, todo c = (k, v) :: r ∧ contents k ≠ [] := by
  by_contra hstuck
  rw [not_or] at hstuck
  obtain ⟨hfull, hempty⟩ := hstuck
  push Not at hfull hempty
  -- a waiting consumer has a producer that is stuck at a full channel
  have hprod : ∀ c k v r, todo c = (k, v) :: r → ∃ k' v' r', rest (prodOf k) = (k', v') :: r' := by
    intro c k v r ht
    have hc : consOf k = c := h.takes c (k, v) (by rw [ht]; exact List.mem_cons_self)
    have hsame := h.same k
    rw [hempty c k v r ht, hc, ht, onChannel_cons_self, List.nil_append] at hsame
    cases hr : rest (prodOf k) with
    | nil =>
        rw [hr] at hsame
        cases hsame
    | cons e r' => exact ⟨e.1, e.2, r', rfl⟩
  have hcons : ∀ p k v r, rest p = (k, v) :: r → ∃ k' v' r', todo (consOf k) = (k', v') :: r' := by
    intro p k v r hr
    have hlen := hfull p k v r hr
    have hsame := h.same k
    cases ht : todo (consOf k) with
    | nil =>
        rw [ht, onChannel_nil] at hsame
        rw [(List.append_eq_nil_iff.1 hsame).1, List.length_nil] at hlen
        omega
    | cons e r' => exact ⟨e.1, e.2, r', rfl⟩
  have hboth : ∀ p k v r, rest p = (k, v) :: r → False := by
    intro p k v r hr
    obtain ⟨k', v', r', ht⟩ := hcons p k v r hr
    have hc : consOf k' = consOf k :=
      h.takes (consOf k) (k', v') (by rw [ht]; exact List.mem_cons_self)
    have hlen := hfull p k v r hr
    rcases hone with hinj | hinj
    · obtain rfl := hinj hc
      rw [hempty _ _ _ _ ht, List.length_nil] at hlen
      omega
    · obtain ⟨k'', v'', r'', hr'⟩ := hprod _ _ _ _ ht
      have hp : prodOf k'' = prodOf k' :=
        h.sends (prodOf k') (k'', v'') (by rw [hr']; exact List.mem_cons_self)
      obtain rfl := hinj hp
      have hlen' := hfull _ _ _ _ hr'
      rw [hempty _ _ _ _ ht, List.length_nil] at hlen'
      omega
  rcases hmore with ⟨p, hp⟩ | ⟨c, hc⟩
  · obtain ⟨e, r, hr⟩ := List.exists_cons_of_ne_nil hp
    exact hboth p e.1 e.2 r hr
  · obtain ⟨e, r, ht⟩ := List.exists_cons_of_ne_nil hc
    obtain ⟨k', v', r', hr⟩ := hprod c e.1 e.2 r ht
    exact hboth _ _ _ _ hr

end Matched
end Cpf
