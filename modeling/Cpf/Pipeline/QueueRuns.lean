import Cpf.Basics.RingIndex
import Cpf.Pipeline.QueueRouting

/-!
# Runs of the replicas at a queue

`TrafficOk` relates a state to the values that its rings hold and to the calls that have not taken
effect yet. Every step keeps it, and a step is possible until all calls have returned.
-/

namespace Cpf.Pipeline

section Replicas

variable {K : Type} {k k' : K} {v : UInt64} {i : ℕ}

/-- What a producing replica has still to send: at `advance` the ring holds the value already. -/
def Producer.sends (P : Producer K) : List (K × UInt64) :=
  if P.pc = .advance then P.rest.tail else P.rest

/-- The calls of a consuming replica that have not taken effect: at `advance` the ring does not hold
the value any more. -/
def Consumer.left (C : Consumer K) : List (ℕ × K) :=
  match C.pc with
  | .advance _ => C.rest.tail
  | _ => C.rest

/-- The results of the calls that have taken effect. -/
def Consumer.results (C : Consumer K) : List (ℕ × UInt64) :=
  match C.pc, C.rest with
  | .advance v, (i, _) :: _ => C.returned ++ [(i, v)]
  | _, _ => C.returned

theorem Consumer.left_of_ne {pc : ConsumePc} (h : ∀ v, pc ≠ .advance v) (r : List (ℕ × K))
    (returned : List (ℕ × UInt64)) : (Consumer.mk r pc returned).left = r := by
  cases pc with
  | advance v => exact absurd rfl (h v)
  | _ => rfl

theorem Consumer.results_of_ne {pc : ConsumePc} (h : ∀ v, pc ≠ .advance v) (r : List (ℕ × K))
    (returned : List (ℕ × UInt64)) : (Consumer.mk r pc returned).results = returned := by
  cases pc with
  | advance v => exact absurd rfl (h v)
  | _ => rfl

variable [DecidableEq K]

/-- Where a producing replica is in its use of ring `k`, and with which value. -/
def Producer.at (P : Producer K) (k : K) : ProducePc × UInt64 :=
  match P.rest with
  | [] => (.wait, 0)
  | (k', v) :: _ => if k' = k then (P.pc, v) else (.wait, 0)

/-- Where a consuming replica is in its use of ring `k`. -/
def Consumer.at (C : Consumer K) (k : K) : ConsumePc :=
  match C.rest with
  | [] => .wait
  | (_, k') :: _ => if k' = k then C.pc else .wait

theorem Producer.at_self (r : List (K × UInt64)) (pc : ProducePc) :
    (Producer.mk ((k, v) :: r) pc).at k = (pc, v) := if_pos rfl

theorem Producer.at_of_ne (h : k' ≠ k) (r : List (K × UInt64)) (pc : ProducePc) :
    (Producer.mk ((k', v) :: r) pc).at k = (.wait, 0) := if_neg h

theorem Producer.at_wait (r : List (K × UInt64)) (k : K) :
    ((Producer.mk r .wait).at k).1 = .wait := by
  cases r with
  | nil => rfl
  | cons e r =>
      unfold Producer.at
      dsimp only
      split_ifs <;> rfl

theorem Consumer.at_self (r : List (ℕ × K)) (pc : ConsumePc) (returned : List (ℕ × UInt64)) :
    (Consumer.mk ((i, k) :: r) pc returned).at k = pc := if_pos rfl

theorem Consumer.at_of_ne (h : k' ≠ k) (r : List (ℕ × K)) (pc : ConsumePc)
    (returned : List (ℕ × UInt64)) : (Consumer.mk ((i, k') :: r) pc returned).at k = .wait :=
  if_neg h

theorem Consumer.at_wait (r : List (ℕ × K)) (returned : List (ℕ × UInt64)) (k : K) :
    (Consumer.mk r .wait returned).at k = .wait := by
  cases r with
  | nil => rfl
  | cons e r =>
      unfold Consumer.at
      dsimp only
      split_ifs <;> rfl

end Replicas

variable {l : Link} {s s' : Traffic l} {a : Side l}

/-- The rings hold `contents`, and the calls `todo` have not taken effect yet. -/
structure TrafficOk (l : Link) (s : Traffic l) (contents : Fin l.numQueues → List UInt64)
    (todo : Fin l.m → List (Take (Fin l.numQueues))) : Prop where
  matched : Matched l.prodOf l.consOf contents (fun p => (s.producers p).sends)
    (fun c => (todo c).map Take.entry)
  rings : ∀ k, ∃ t, RingOk (s.rings k) ((s.producers (l.prodOf k)).at k).1
    ((s.producers (l.prodOf k)).at k).2 ((s.consumers (l.consOf k)).at k) t (contents k)
  producing : ∀ p, (s.producers p).rest = [] → (s.producers p).pc = .wait
  consuming : ∀ c, (s.consumers c).rest = [] → (s.consumers c).pc = .wait
  stores : ∀ p, ∀ e ∈ (s.producers p).rest, l.prodOf e.1 = p
  loads : ∀ c, ∀ e ∈ (s.consumers c).rest, l.consOf e.2 = c
  left : ∀ c, (s.consumers c).left = (todo c).map (fun t => (t.iter, t.ring))
  results : ∀ c, (s.consumers c).results ++ (todo c).map (fun t => (t.iter, t.value)) =
    (l.takes c).map (fun t => (t.iter, t.value))

namespace TrafficOk

variable {contents : Fin l.numQueues → List UInt64}
  {todo : Fin l.m → List (Take (Fin l.numQueues))} {p : Fin l.n} {c : Fin l.m}
  {k : Fin l.numQueues} {v : UInt64}

theorem initial (h : l.ReplicatesFromOne) :
    TrafficOk l (Traffic.initial l) (fun _ => []) l.takes where
  matched := Link.matched h
  rings k := by
    refine ⟨0, ?_⟩
    change RingOk Ring.reset ((Producer.mk _ .wait).at k).1 _ ((Consumer.mk _ .wait []).at k) 0 []
    rw [Producer.at_wait, Consumer.at_wait]
    exact RingOk.reset _
  producing _ _ := rfl
  consuming _ _ := rfl
  stores _ _ he := Link.prodOf_of_mem h he
  loads _ _ he := by
    obtain ⟨t, ht, rfl⟩ := List.mem_map.1 he
    exact Link.consOf_of_mem ht
  left _ := rfl
  results _ := rfl

theorem setProducer (h : TrafficOk l s contents todo) {ring : Ring} {q : List UInt64}
    {P : Producer (Fin l.numQueues)} {t : ℕ}
    (hm : Matched l.prodOf l.consOf (Function.update contents k q)
      (Function.update (fun p => (s.producers p).sends) p P.sends)
      (fun c => (todo c).map Take.entry))
    (hp : l.prodOf k = p)
    (hring : RingOk ring (P.at k).1 (P.at k).2 ((s.consumers (l.consOf k)).at k) t q)
    (hother : ∀ k' ≠ k, ((s.producers p).at k').1 = .wait ∧ (P.at k').1 = .wait)
    (hidle : P.rest = [] → P.pc = .wait) (hrest : ∀ e ∈ P.rest, e ∈ (s.producers p).rest) :
    TrafficOk l (s.setProducer p k ring P) (Function.update contents k q) todo := by
  have hsends : (fun p' => ((s.setProducer p k ring P).producers p').sends) =
      Function.update (fun p => (s.producers p).sends) p P.sends := by
    funext p'
    exact Function.apply_update (fun _ P => Producer.sends P) s.producers p P p'
  refine ⟨?_, fun k' => ?_, fun p' => ?_, h.consuming, fun p' e he => ?_, h.loads, h.left,
    h.results⟩
  · rw [hsends]
    exact hm
  · change ∃ t, RingOk (Function.update s.rings k ring k')
      ((Function.update s.producers p P (l.prodOf k')).at k').1
      ((Function.update s.producers p P (l.prodOf k')).at k').2 _ t (Function.update contents k q k')
    by_cases hk : k' = k
    · subst k'
      rw [hp, Function.update_self, Function.update_self, Function.update_self]
      exact ⟨t, hring⟩
    · rw [Function.update_of_ne hk, Function.update_of_ne hk]
      by_cases hpp : l.prodOf k' = p
      · obtain ⟨t', hok⟩ := h.rings k'
        rw [hpp, (hother k' hk).1] at hok
        rw [hpp, Function.update_self, (hother k' hk).2]
        exact ⟨t', hok.begins _⟩
      · rw [Function.update_of_ne hpp]
        exact h.rings k'
  · change (Function.update s.producers p P p').rest = [] →
      (Function.update s.producers p P p').pc = .wait
    by_cases hpp : p' = p
    · rw [hpp, Function.update_self]
      exact hidle
    · rw [Function.update_of_ne hpp]
      exact h.producing p'
  · change e ∈ (Function.update s.producers p P p').rest at he
    by_cases hpp : p' = p
    · rw [hpp, Function.update_self] at he
      rw [hpp]
      exact h.stores p e (hrest e he)
    · rw [Function.update_of_ne hpp] at he
      exact h.stores p' e he

theorem setConsumer (h : TrafficOk l s contents todo) {ring : Ring} {q : List UInt64}
    {C : Consumer (Fin l.numQueues)} {todo' : List (Take (Fin l.numQueues))} {t : ℕ}
    (hm : Matched l.prodOf l.consOf (Function.update contents k q)
      (fun p => (s.producers p).sends)
      (Function.update (fun c => (todo c).map Take.entry) c (todo'.map Take.entry)))
    (hc : l.consOf k = c)
    (hring : RingOk ring ((s.producers (l.prodOf k)).at k).1 ((s.producers (l.prodOf k)).at k).2
      (C.at k) t q)
    (hother : ∀ k' ≠ k, (s.consumers c).at k' = .wait ∧ C.at k' = .wait)
    (hidle : C.rest = [] → C.pc = .wait) (hrest : ∀ e ∈ C.rest, e ∈ (s.consumers c).rest)
    (hleft : C.left = todo'.map (fun t => (t.iter, t.ring)))
    (hresults : C.results ++ todo'.map (fun t => (t.iter, t.value)) =
      (l.takes c).map (fun t => (t.iter, t.value))) :
    TrafficOk l (s.setConsumer c k ring C) (Function.update contents k q)
      (Function.update todo c todo') := by
  have htodo : (fun c' => (Function.update todo c todo' c').map Take.entry) =
      Function.update (fun c => (todo c).map Take.entry) c (todo'.map Take.entry) := by
    funext c'
    exact Function.apply_update (fun _ ts => ts.map Take.entry) todo c todo' c'
  refine ⟨?_, fun k' => ?_, h.producing, fun c' => ?_, h.stores, fun c' e he => ?_, fun c' => ?_,
    fun c' => ?_⟩
  · rw [htodo]
    exact hm
  · change ∃ t, RingOk (Function.update s.rings k ring k') _ _
      ((Function.update s.consumers c C (l.consOf k')).at k') t (Function.update contents k q k')
    by_cases hk : k' = k
    · subst k'
      rw [hc, Function.update_self, Function.update_self, Function.update_self]
      exact ⟨t, hring⟩
    · rw [Function.update_of_ne hk, Function.update_of_ne hk]
      by_cases hcc : l.consOf k' = c
      · obtain ⟨t', hok⟩ := h.rings k'
        rw [hcc, (hother k' hk).1] at hok
        rw [hcc, Function.update_self, (hother k' hk).2]
        exact ⟨t', hok⟩
      · rw [Function.update_of_ne hcc]
        exact h.rings k'
  · change (Function.update s.consumers c C c').rest = [] →
      (Function.update s.consumers c C c').pc = .wait
    by_cases hcc : c' = c
    · rw [hcc, Function.update_self]
      exact hidle
    · rw [Function.update_of_ne hcc]
      exact h.consuming c'
  · change e ∈ (Function.update s.consumers c C c').rest at he
    by_cases hcc : c' = c
    · rw [hcc, Function.update_self] at he
      rw [hcc]
      exact h.loads c e (hrest e he)
    · rw [Function.update_of_ne hcc] at he
      exact h.loads c' e he
  · change (Function.update s.consumers c C c').left = _
    by_cases hcc : c' = c
    · rw [hcc, Function.update_self, Function.update_self]
      exact hleft
    · rw [Function.update_of_ne hcc, Function.update_of_ne hcc]
      exact h.left c'
  · change (Function.update s.consumers c C c').results ++ _ = _
    by_cases hcc : c' = c
    · rw [hcc, Function.update_self, Function.update_self]
      exact hresults
    · rw [Function.update_of_ne hcc, Function.update_of_ne hcc]
      exact h.results c'

section Producer

variable {r : List (Fin l.numQueues × UInt64)} {pc pc' : ProducePc} {ring : Ring} {q : List UInt64}
  {t : ℕ}

theorem producer_at (h : TrafficOk l s contents todo) (hP : s.producers p = ⟨(k, v) :: r, pc⟩) :
    l.prodOf k = p ∧ ∃ t, RingOk (s.rings k) pc v ((s.consumers (l.consOf k)).at k) t
      (contents k) := by
  have hp : l.prodOf k = p := h.stores p (k, v) (by rw [hP]; exact List.mem_cons_self)
  obtain ⟨t, hring⟩ := h.rings k
  rw [hp, hP, Producer.at_self] at hring
  exact ⟨hp, t, hring⟩

theorem producer_goes (h : TrafficOk l s contents todo) (hP : s.producers p = ⟨(k, v) :: r, pc⟩)
    (hm : Matched l.prodOf l.consOf (Function.update contents k q)
      (Function.update (fun p => (s.producers p).sends) p (Producer.mk ((k, v) :: r) pc').sends)
      (fun c => (todo c).map Take.entry))
    (hring : RingOk ring pc' v ((s.consumers (l.consOf k)).at k) t q) :
    TrafficOk l (s.setProducer p k ring ⟨(k, v) :: r, pc'⟩) (Function.update contents k q) todo := by
  refine h.setProducer hm (h.producer_at hP).1 (t := t) ?_ (fun k' hk => ?_) (fun he => (by cases he))
    (fun e he => by rw [hP]; exact he)
  · rw [Producer.at_self]
    exact hring
  · rw [hP, Producer.at_of_ne (Ne.symm hk), Producer.at_of_ne (Ne.symm hk)]
    exact ⟨rfl, rfl⟩

/-- The replica goes on and its value does not take effect yet. -/
theorem producer_keeps (h : TrafficOk l s contents todo) (hP : s.producers p = ⟨(k, v) :: r, pc⟩)
    (hpc : pc ≠ .advance) (hpc' : pc' ≠ .advance)
    (hring : RingOk ring pc' v ((s.consumers (l.consOf k)).at k) t (contents k)) :
    TrafficOk l (s.setProducer p k ring ⟨(k, v) :: r, pc'⟩) contents todo := by
  have hsends : (Producer.mk ((k, v) :: r) pc').sends = (s.producers p).sends := by
    rw [hP, Producer.sends, Producer.sends, if_neg hpc, if_neg hpc']
  have hgoes := h.producer_goes (q := contents k) hP (by
    rw [hsends, Function.update_eq_self, Function.update_eq_self]
    exact h.matched) hring
  rwa [Function.update_eq_self] at hgoes

theorem producer_returns (h : TrafficOk l s contents todo)
    (hP : s.producers p = ⟨(k, v) :: r, .advance⟩)
    (hring : RingOk ring .wait v ((s.consumers (l.consOf k)).at k) t (contents k)) :
    TrafficOk l (s.setProducer p k ring ⟨r, .wait⟩) contents todo := by
  have hsends : (Producer.mk r .wait).sends = (s.producers p).sends := by
    rw [hP]
    rfl
  have hset := h.setProducer (q := contents k) (P := ⟨r, .wait⟩) (by
    rw [hsends, Function.update_eq_self, Function.update_eq_self]
    exact h.matched) (h.producer_at hP).1 (t := t) (by
    rw [Producer.at_wait]
    exact hring.begins _) (fun k' hk => by
    rw [hP, Producer.at_of_ne (Ne.symm hk), Producer.at_wait]
    exact ⟨rfl, rfl⟩) (fun _ => rfl) (fun e he => by
    rw [hP]
    exact List.mem_cons_of_mem _ he)
  rwa [Function.update_eq_self] at hset

theorem producer_step (h : TrafficOk l s contents todo)
    (hs : s.step (.producer p) = some s') : ∃ contents', TrafficOk l s' contents' todo := by
  simp only [Traffic.step] at hs
  obtain ⟨rest, pc, hP⟩ : ∃ rest pc, s.producers p = ⟨rest, pc⟩ := ⟨_, _, rfl⟩
  rw [hP] at hs
  cases rest with
  | nil => cases hs
  | cons e r =>
      obtain ⟨k, v⟩ := e
      obtain ⟨_, t, hring⟩ := h.producer_at hP
      cases pc with
      | wait =>
          simp only [Ring.produce] at hs
          split_ifs at hs with hnull
          cases hs
          exact ⟨contents, h.producer_keeps hP (by decide) (by decide)
            (hring.produce_room (hring.produce_wait.1 hnull))⟩
      | value =>
          simp only [Ring.produce] at hs
          cases hs
          exact ⟨contents, h.producer_keeps hP (by decide) (by decide) hring.produce_value⟩
      | flag =>
          simp only [Ring.produce] at hs
          cases hs
          have hsends : (s.producers p).sends = (k, v) :: r := by
            rw [hP]
            rfl
          exact ⟨_, h.producer_goes hP (h.matched.send hsends) hring.produce_flag⟩
      | advance =>
          simp only [Ring.produce] at hs
          cases hs
          exact ⟨contents, h.producer_returns hP hring.produce_advance⟩

end Producer

section Consumer

variable {r : List (ℕ × Fin l.numQueues)} {pc pc' : ConsumePc} {i : ℕ}
  {returned : List (ℕ × UInt64)} {ring : Ring} {q : List UInt64} {t : ℕ}

theorem consumer_at (h : TrafficOk l s contents todo)
    (hC : s.consumers c = ⟨(i, k) :: r, pc, returned⟩) :
    l.consOf k = c ∧ ∃ t, RingOk (s.rings k) ((s.producers (l.prodOf k)).at k).1
      ((s.producers (l.prodOf k)).at k).2 pc t (contents k) := by
  have hc : l.consOf k = c := h.loads c (i, k) (by rw [hC]; exact List.mem_cons_self)
  obtain ⟨t, hring⟩ := h.rings k
  rw [hc, hC, Consumer.at_self] at hring
  exact ⟨hc, t, hring⟩

theorem consumer_goes (h : TrafficOk l s contents todo)
    (hC : s.consumers c = ⟨(i, k) :: r, pc, returned⟩)
    {todo' : List (Take (Fin l.numQueues))}
    (hm : Matched l.prodOf l.consOf (Function.update contents k q)
      (fun p => (s.producers p).sends)
      (Function.update (fun c => (todo c).map Take.entry) c (todo'.map Take.entry)))
    (hring : RingOk ring ((s.producers (l.prodOf k)).at k).1 ((s.producers (l.prodOf k)).at k).2
      pc' t q)
    (hleft : (Consumer.mk ((i, k) :: r) pc' returned).left = todo'.map (fun t => (t.iter, t.ring)))
    (hresults : (Consumer.mk ((i, k) :: r) pc' returned).results ++
      todo'.map (fun t => (t.iter, t.value)) = (l.takes c).map (fun t => (t.iter, t.value))) :
    TrafficOk l (s.setConsumer c k ring ⟨(i, k) :: r, pc', returned⟩) (Function.update contents k q)
      (Function.update todo c todo') := by
  refine h.setConsumer hm (h.consumer_at hC).1 (t := t) ?_ (fun k' hk => ?_) (fun he => (by cases he))
    (fun e he => by rw [hC]; exact he) hleft hresults
  · rw [Consumer.at_self]
    exact hring
  · rw [hC, Consumer.at_of_ne (Ne.symm hk), Consumer.at_of_ne (Ne.symm hk)]
    exact ⟨rfl, rfl⟩

/-- The replica goes on and its call does not take effect yet. -/
theorem consumer_keeps (h : TrafficOk l s contents todo)
    (hC : s.consumers c = ⟨(i, k) :: r, pc, returned⟩) (hpc : ∀ v, pc ≠ .advance v)
    (hpc' : ∀ v, pc' ≠ .advance v)
    (hring : RingOk ring ((s.producers (l.prodOf k)).at k).1 ((s.producers (l.prodOf k)).at k).2
      pc' t (contents k)) :
    TrafficOk l (s.setConsumer c k ring ⟨(i, k) :: r, pc', returned⟩) contents todo := by
  have hleft := h.left c
  have hresults := h.results c
  rw [hC, Consumer.left_of_ne hpc, ← Consumer.left_of_ne hpc' ((i, k) :: r) returned] at hleft
  rw [hC, Consumer.results_of_ne hpc,
    ← Consumer.results_of_ne hpc' ((i, k) :: r) returned] at hresults
  have hgoes := h.consumer_goes (q := contents k) hC (by
    rw [Function.update_eq_self, Function.update_eq_self]
    exact h.matched) hring hleft hresults
  rwa [Function.update_eq_self, Function.update_eq_self] at hgoes

/-- The ring gives up the value, which is the one of the matching call. -/
theorem consumer_releases (h : TrafficOk l s contents todo) {x : UInt64}
    (hC : s.consumers c = ⟨(i, k) :: r, .release x, returned⟩)
    (hq : contents k = x :: q)
    (hring : RingOk ring ((s.producers (l.prodOf k)).at k).1 ((s.producers (l.prodOf k)).at k).2
      (.advance x) t q) :
    ∃ todo', TrafficOk l (s.setConsumer c k ring ⟨(i, k) :: r, .advance x, returned⟩)
      (Function.update contents k q) (Function.update todo c todo') := by
  have hleft : (i, k) :: r = (todo c).map (fun t => (t.iter, t.ring)) := by
    rw [← h.left c, hC]
    rfl
  have hresults : returned ++ (todo c).map (fun t => (t.iter, t.value)) =
      (l.takes c).map (fun t => (t.iter, t.value)) := by
    rw [← h.results c, hC]
    rfl
  cases hτ : todo c with
  | nil =>
      rw [hτ] at hleft
      cases hleft
  | cons τ ts =>
      rw [hτ, List.map_cons] at hleft hresults
      obtain ⟨hhead, hr⟩ := List.cons.inj hleft
      obtain ⟨rfl, rfl⟩ := Prod.mk.inj hhead
      have hentry : (todo c).map Take.entry = (τ.ring, τ.value) :: ts.map Take.entry := by
        rw [hτ]
        rfl
      have hx : x = τ.value := h.matched.head_eq hentry hq
      refine ⟨ts, h.consumer_goes hC (h.matched.take hentry hq) hring hr ?_⟩
      rw [← hresults, ← hx]
      change (returned ++ [(τ.iter, x)]) ++ _ = _
      rw [List.append_assoc]
      rfl

theorem consumer_returns (h : TrafficOk l s contents todo) {x : UInt64}
    (hC : s.consumers c = ⟨(i, k) :: r, .advance x, returned⟩)
    (hring : RingOk ring ((s.producers (l.prodOf k)).at k).1 ((s.producers (l.prodOf k)).at k).2
      .wait t (contents k)) :
    TrafficOk l (s.setConsumer c k ring ⟨r, .wait, returned ++ [(i, x)]⟩) contents todo := by
  have hleft : r = (todo c).map (fun t => (t.iter, t.ring)) := by
    rw [← h.left c, hC]
    rfl
  have hresults : returned ++ [(i, x)] ++ (todo c).map (fun t => (t.iter, t.value)) =
      (l.takes c).map (fun t => (t.iter, t.value)) := by
    rw [← h.results c, hC]
    rfl
  have hset := h.setConsumer (q := contents k) (C := ⟨r, .wait, returned ++ [(i, x)]⟩) (by
    rw [Function.update_eq_self, Function.update_eq_self]
    exact h.matched) (h.consumer_at hC).1 (t := t) (by
    rw [Consumer.at_wait]
    exact hring) (fun k' hk => by
    rw [hC, Consumer.at_of_ne (Ne.symm hk), Consumer.at_wait]
    exact ⟨rfl, rfl⟩) (fun _ => rfl) (fun e he => by
    rw [hC]
    exact List.mem_cons_of_mem _ he) hleft hresults
  rwa [Function.update_eq_self, Function.update_eq_self] at hset

theorem consumer_step (h : TrafficOk l s contents todo)
    (hs : s.step (.consumer c) = some s') : ∃ contents' todo', TrafficOk l s' contents' todo' := by
  simp only [Traffic.step] at hs
  obtain ⟨rest, pc, returned, hC⟩ : ∃ rest pc returned, s.consumers c = ⟨rest, pc, returned⟩ :=
    ⟨_, _, _, rfl⟩
  rw [hC] at hs
  cases rest with
  | nil => cases hs
  | cons e r =>
      obtain ⟨i, k⟩ := e
      obtain ⟨_, t, hring⟩ := h.consumer_at hC
      cases pc with
      | wait =>
          simp only [Ring.consume] at hs
          split_ifs at hs with hnull
          cases hs
          exact ⟨contents, todo, h.consumer_keeps hC (by simp) (by simp)
            (hring.consume_some (fun hq => hnull (hring.consume_wait.2 hq)))⟩
      | load =>
          simp only [Ring.consume] at hs
          cases hs
          exact ⟨contents, todo, h.consumer_keeps hC (by simp) (by simp) hring.consume_load.1⟩
      | clear x =>
          simp only [Ring.consume] at hs
          cases hs
          exact ⟨contents, todo, h.consumer_keeps hC (by simp) (by simp) hring.consume_clear⟩
      | release x =>
          simp only [Ring.consume] at hs
          cases hs
          have hhead := (hring.releases x rfl).1
          have hq : contents k = x :: (contents k).tail := List.eq_cons_of_mem_head? hhead
          obtain ⟨todo', hok⟩ := h.consumer_releases hC hq hring.consume_release
          exact ⟨_, _, hok⟩
      | advance x =>
          simp only [Ring.consume] at hs
          cases hs
          exact ⟨contents, todo, h.consumer_returns hC hring.consume_advance⟩

end Consumer

theorem step (h : TrafficOk l s contents todo) (hs : s.step a = some s') :
    ∃ contents' todo', TrafficOk l s' contents' todo' := by
  cases a with
  | producer p =>
      obtain ⟨contents', hok⟩ := h.producer_step hs
      exact ⟨contents', todo, hok⟩
  | consumer c => exact h.consumer_step hs

theorem step_producer {k : Fin l.numQueues} {v : UInt64} {r : List (Fin l.numQueues × UInt64)}
    {pc : ProducePc} (hP : s.producers p = ⟨(k, v) :: r, pc⟩)
    (hsome : ((s.rings k).produce v pc).isSome) : ∃ a s', s.step a = some s' := by
  obtain ⟨⟨ring, o⟩, ho⟩ := Option.isSome_iff_exists.1 hsome
  cases o with
  | none => exact ⟨.producer p, s.setProducer p k ring ⟨r, .wait⟩, by simp only [Traffic.step, hP, ho]⟩
  | some pc' =>
      exact ⟨.producer p, s.setProducer p k ring ⟨(k, v) :: r, pc'⟩,
        by simp only [Traffic.step, hP, ho]⟩

theorem step_consumer {i : ℕ} {k : Fin l.numQueues} {r : List (ℕ × Fin l.numQueues)}
    {pc : ConsumePc} {returned : List (ℕ × UInt64)}
    (hC : s.consumers c = ⟨(i, k) :: r, pc, returned⟩)
    (hsome : ((s.rings k).consume pc).isSome) : ∃ a s', s.step a = some s' := by
  obtain ⟨⟨ring, o⟩, ho⟩ := Option.isSome_iff_exists.1 hsome
  cases o with
  | inl pc' =>
      exact ⟨.consumer c, s.setConsumer c k ring ⟨(i, k) :: r, pc', returned⟩,
        by simp only [Traffic.step, hC, ho]⟩
  | inr x =>
      exact ⟨.consumer c, s.setConsumer c k ring ⟨r, .wait, returned ++ [(i, x)]⟩,
        by simp only [Traffic.step, hC, ho]⟩

theorem goes (h : TrafficOk l s contents todo) (hmore : ¬ s.Finished) :
    ∃ a s', s.step a = some s' := by
  by_contra hstuck
  -- a replica in the middle of a call does not wait
  have hproducing : ∀ p, (s.producers p).pc = .wait := fun p => by
    obtain ⟨rest, pc, hP⟩ : ∃ rest pc, s.producers p = ⟨rest, pc⟩ := ⟨_, _, rfl⟩
    cases rest with
    | nil => exact h.producing p (by rw [hP])
    | cons e r =>
        obtain ⟨k, v⟩ := e
        rw [hP]
        cases pc with
        | wait => rfl
        | _ => exact absurd (step_producer hP rfl) hstuck
  have hconsuming : ∀ c, (s.consumers c).pc = .wait := fun c => by
    obtain ⟨rest, pc, returned, hC⟩ : ∃ rest pc returned, s.consumers c = ⟨rest, pc, returned⟩ :=
      ⟨_, _, _, rfl⟩
    cases rest with
    | nil => exact h.consuming c (by rw [hC])
    | cons e r =>
        obtain ⟨i, k⟩ := e
        rw [hC]
        cases pc with
        | wait => rfl
        | _ => exact absurd (step_consumer hC rfl) hstuck
  have hsends : ∀ p, (s.producers p).sends = (s.producers p).rest := fun p => by
    rw [Producer.sends, hproducing p, if_neg (by decide)]
  have hleft : ∀ c, (s.consumers c).rest = (todo c).map (fun t => (t.iter, t.ring)) := fun c => by
    rw [← h.left c, Consumer.left, hconsuming c]
  have hsome : (∃ p, (s.producers p).sends ≠ []) ∨ ∃ c, (todo c).map Take.entry ≠ [] := by
    by_contra hnone
    rw [not_or] at hnone
    obtain ⟨hnp, hnc⟩ := hnone
    push Not at hnp hnc
    refine hmore ⟨fun p => ?_, fun c => ?_⟩
    · rw [← hsends p]
      exact hnp p
    · rw [hleft c, List.map_eq_nil_iff.1 (hnc c)]
      rfl
  rcases h.matched.progress 8192 (by decide) l.injective_of_one hsome with
    ⟨p, k, v, r, hr, hroom⟩ | ⟨c, k, v, r, ht, hne⟩
  · have hP : s.producers p = ⟨(k, v) :: r, .wait⟩ := by
      rw [← hr, ← hproducing p, hsends p]
    obtain ⟨_, t, hring⟩ := h.producer_at hP
    refine hstuck (step_producer hP ?_)
    rw [Ring.produce, if_pos (hring.produce_wait.2 hroom)]
    rfl
  · obtain ⟨τ, ts, hτ, hentry, -⟩ := List.map_eq_cons_iff.1 ht
    obtain ⟨rfl, rfl⟩ := Prod.mk.inj hentry
    have hC : s.consumers c = ⟨(τ.iter, τ.ring) :: ts.map (fun t => (t.iter, t.ring)), .wait,
        (s.consumers c).returned⟩ := by
      have hrest := hleft c
      rw [hτ, List.map_cons] at hrest
      rw [← hrest, ← hconsuming c]
    obtain ⟨_, t, hring⟩ := h.consumer_at hC
    refine hstuck (step_consumer hC ?_)
    rw [Ring.consume, if_neg (fun hnull => hne (hring.consume_wait.1 hnull))]
    rfl

theorem returned (h : TrafficOk l s contents todo) (c : Fin l.m) :
    (s.consumers c).returned <+: Traffic.expected l c := by
  have hresults : (s.consumers c).returned <+: (s.consumers c).results := by
    unfold Consumer.results
    split
    · exact List.prefix_append _ _
    · exact List.prefix_rfl
  refine hresults.trans ⟨_, h.results c⟩

theorem finished (h : TrafficOk l s contents todo) (hf : s.Finished) :
    (∀ c, (s.consumers c).returned = Traffic.expected l c) ∧ ∀ k, (s.rings k).HoldsNothing := by
  have htodo : ∀ c, todo c = [] := fun c => by
    have hleft := h.left c
    rw [Consumer.left, h.consuming c (hf.2 c), hf.2 c] at hleft
    exact List.map_eq_nil_iff.1 hleft.symm
  refine ⟨fun c => ?_, fun k => ?_⟩
  · have hresults := h.results c
    rw [Consumer.results, h.consuming c (hf.2 c), htodo c, List.map_nil, List.append_nil] at hresults
    exact hresults
  · obtain ⟨t, hring⟩ := h.rings k
    have hnil := h.matched.contents_eq_nil (fun c => by rw [htodo c]; rfl) k
    have hp : (s.producers (l.prodOf k)).at k = (.wait, 0) := by rw [Producer.at, hf.1]
    have hc : (s.consumers (l.consOf k)).at k = .wait := by rw [Consumer.at, hf.2]
    rw [hp, hc, hnil] at hring
    exact hring.holdsNothing

end TrafficOk

theorem work_setProducer {p : Fin l.n} {k : Fin l.numQueues} {ring : Ring}
    {P : Producer (Fin l.numQueues)} (h : P.work < (s.producers p).work) :
    (s.setProducer p k ring P).work < s.work := by
  refine Nat.add_lt_add_right (Finset.sum_lt_sum (fun p' _ => ?_) ⟨p, Finset.mem_univ p, ?_⟩) _
  · change (Function.update s.producers p P p').work ≤ _
    by_cases hp : p' = p
    · rw [hp, Function.update_self]
      exact h.le
    · rw [Function.update_of_ne hp]
  · change (Function.update s.producers p P p).work < _
    rw [Function.update_self]
    exact h

theorem work_setConsumer {c : Fin l.m} {k : Fin l.numQueues} {ring : Ring}
    {C : Consumer (Fin l.numQueues)} (h : C.work < (s.consumers c).work) :
    (s.setConsumer c k ring C).work < s.work := by
  refine Nat.add_lt_add_left (Finset.sum_lt_sum (fun c' _ => ?_) ⟨c, Finset.mem_univ c, ?_⟩) _
  · change (Function.update s.consumers c C c').work ≤ _
    by_cases hc : c' = c
    · rw [hc, Function.update_self]
      exact h.le
    · rw [Function.update_of_ne hc]
  · change (Function.update s.consumers c C c).work < _
    rw [Function.update_self]
    exact h

/-- Every step leaves fewer accesses. -/
theorem work_step (hs : s.step a = some s') : s'.work < s.work := by
  cases a with
  | producer p =>
      simp only [Traffic.step] at hs
      obtain ⟨rest, pc, hP⟩ : ∃ rest pc, s.producers p = ⟨rest, pc⟩ := ⟨_, _, rfl⟩
      rw [hP] at hs
      cases rest with
      | nil => cases hs
      | cons e r =>
          cases pc <;> simp only [Ring.produce] at hs
          · split_ifs at hs
            cases hs
            exact work_setProducer (by rw [hP]; simp only [Producer.work, List.length_cons]; omega)
          all_goals
            cases hs
            exact work_setProducer (by rw [hP]; simp only [Producer.work, List.length_cons]; omega)
  | consumer c =>
      simp only [Traffic.step] at hs
      obtain ⟨rest, pc, returned, hC⟩ : ∃ rest pc returned, s.consumers c = ⟨rest, pc, returned⟩ :=
        ⟨_, _, _, rfl⟩
      rw [hC] at hs
      cases rest with
      | nil => cases hs
      | cons e r =>
          cases pc <;> simp only [Ring.consume] at hs
          · split_ifs at hs
            cases hs
            exact work_setConsumer (by rw [hC]; simp only [Consumer.work, List.length_cons]; omega)
          all_goals
            cases hs
            exact work_setConsumer (by rw [hC]; simp only [Consumer.work, List.length_cons]; omega)

/-- In every run, if calls are replicated only by a stage with one replica, every consume returns the
value of the matching produce. -/
theorem queue_routes (h : l.ReplicatesFromOne)
    (hrun : Run Traffic.step (fun _ _ => True) (Traffic.initial l) s) : s.Routed := by
  obtain ⟨contents, todo, hok⟩ := hrun.invariant (fun s => ∃ contents todo, TrafficOk l s contents todo)
    ⟨_, _, TrafficOk.initial h⟩ (fun _ _ _ ⟨_, _, hok⟩ _ hs => hok.step hs)
  exact ⟨hok.returned, hok.goes, fun _ _ hs => work_step hs, hok.finished⟩

/-- One producing and two consuming replicas, for two iterations with a replicated and another call
each. -/
def oneToTwo : Link where
  n := 1
  m := 2
  n_pos := by decide
  m_pos := by decide
  one := Or.inl rfl
  first := 0
  trip := 2
  calls i := [⟨true, 5⟩, ⟨false, UInt64.ofNat i⟩]

theorem queue_routes_oneToTwo : ∃ s : Traffic oneToTwo,
    Run Traffic.step (fun _ _ => True) (Traffic.initial oneToTwo) s ∧
      (s.consumers (0 : Fin 2)).returned = [(0, 5), (0, 0), (1, 5)] ∧
      (s.consumers (1 : Fin 2)).returned = [(0, 5), (1, 5), (1, 1)] ∧ s.Routed := by
  have hreplay : (Run.replay Traffic.step (fun _ _ => True) (Traffic.initial oneToTwo)
      (List.replicate 24 (.producer (0 : Fin 1)) ++ List.replicate 15 (.consumer (0 : Fin 2)) ++
        List.replicate 15 (.consumer (1 : Fin 2)))).any
      (fun s => decide ((s.consumers (0 : Fin 2)).returned = [(0, 5), (0, 0), (1, 5)] ∧
        (s.consumers (1 : Fin 2)).returned = [(0, 5), (1, 5), (1, 1)])) = true := by
    decide +kernel
  obtain ⟨s, hrun, hs⟩ := Run.exists_of_any hreplay
  obtain ⟨hzero, hone⟩ := of_decide_eq_true hs
  exact ⟨s, hrun, hzero, hone, queue_routes (Or.inl rfl) hrun⟩

/-- Two producing replicas, the first of which makes a replicated call. -/
def twoToOne : Link where
  n := 2
  m := 1
  n_pos := by decide
  m_pos := by decide
  one := Or.inr rfl
  first := 0
  trip := 2
  calls i := if i = 0 then [⟨true, 5⟩] else [⟨false, 7⟩]

/-- The consume of iteration 1 returns the value of iteration 0. -/
theorem replicated_from_two : ¬ ∀ (l : Link) (s : Traffic l),
    Run Traffic.step (fun _ _ => True) (Traffic.initial l) s → s.Routed := by
  intro hall
  have hreplay : (Run.replay Traffic.step (fun _ _ => True) (Traffic.initial twoToOne)
      (List.replicate 8 (.producer (0 : Fin 2)) ++ List.replicate 10 (.consumer (0 : Fin 1)))).any
      (fun s => decide ((s.consumers (0 : Fin 1)).returned = [(0, 5), (1, 5)])) = true := by
    decide +kernel
  obtain ⟨s, hrun, hs⟩ := Run.exists_of_any hreplay
  have hreturned := of_decide_eq_true hs
  have hprefix := (hall twoToOne s hrun).returned (0 : Fin 1)
  rw [hreturned] at hprefix
  exact absurd hprefix (by decide)

end Cpf.Pipeline
