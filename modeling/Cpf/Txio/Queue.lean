import Cpf.Basics.BoundedBuffer
import Cpf.Basics.RingIndex
import Mathlib.Data.UInt

/-!
# The event queue of a root transaction

The threads that issue events push them into one of several queuelets, which are bounded buffers, and the commit
thread polls the queuelets in turn. No event is lost or returned twice, those of a queuelet come out in order,
and the commit thread finds every event that is there.
-/

namespace Cpf.Txio.Queue
open BoundedBuffer

def nSlots : ℕ := 32

def qletsPerQ : ℕ := 9

abbrev Event := UInt64

def hash (evt : Event) : UInt64 := (evt >>> 4) ^^^ (evt <<< (64 - 4))

/-- The queuelet that `gg_queue_push` takes. -/
def qletOf (evt : Event) : ℕ := (hash evt).toNat % qletsPerQ

/-- Where the commit thread is: outside of `gg_queue_pop`, before the next round of its loop, or in
`gg_queuelet_trypop`. -/
inductive Popper
  | outside
  | polling
  | trying
  deriving DecidableEq

/-- `i` is the static variable of `gg_queue_pop`, and `inCall` the queuelet that a thread pushes to. -/
structure State (T : Type) where
  qlets : ℕ → BoundedBuffer.State T Event
  i : ℕ
  popper : Popper
  inCall : T → Option ℕ
  returned : List Event

def State.init {T : Type} : State T :=
  ⟨fun _ => .init nSlots fun _ => 0, 0, .outside, fun _ => none, []⟩

/-- A thread calls `gg_queue_push`, the commit thread calls `gg_queue_pop`, or a thread takes a step. -/
inductive Action (T : Type)
  | push (t : T) (evt : Event)
  | pop
  | step (t : T)

namespace State

variable {T : Type} [DecidableEq T] (committer : T) (s : State T)

def qletStep (j : ℕ) (a : BoundedBuffer.Action T Event) : Option (State T) :=
  ((s.qlets j).step nSlots a).map fun b => { s with qlets := Function.update s.qlets j b }

/-- What the loop of `gg_queue_pop` does with the result. -/
def popResult (r : Option Event) : State T :=
  match r with
  | some evt => if evt ≠ 0 then { s with popper := .outside, returned := s.returned ++ [evt] }
      else { s with popper := .polling }
  | none => { s with popper := .polling }

def popStep : Option (State T) :=
  match s.popper with
  | .outside => none
  | .polling =>
      let i := (s.i + 1) % qletsPerQ
      { s with i := i, popper := .trying }.qletStep i (.tryPop committer)
  | .trying =>
      match (s.qlets s.i).pc committer with
      | .done r => ((s.popResult r).qletStep s.i (.finish committer))
      | _ => s.qletStep s.i (.step committer)

/-- A step of another thread. It leaves `gg_queue_push` when its queuelet is done with it. -/
def pushStep (t : T) : Option (State T) :=
  match s.inCall t with
  | none => none
  | some j => (s.qletStep j (.step t)).map fun s =>
      match (s.qlets j).pc t with
      | .idle => { s with inCall := Function.update s.inCall t none }
      | _ => s

def step : Action T → Option (State T)
  | .push t evt =>
      if t ≠ committer ∧ s.inCall t = none then
        { s with inCall := Function.update s.inCall t (some (qletOf evt)) }.qletStep (qletOf evt) (.push t evt)
      else none
  | .pop => if s.popper = .outside then some { s with popper := .polling } else none
  | .step t => if t = committer then s.popStep committer else s.pushStep t

end State

/-! ### The invariant -/

variable {T : Type} [Fintype T] [DecidableEq T]

/-- Queuelet `j`, where `trying` says that the commit thread is in it. -/
structure QletOk (committer : T) (j : ℕ) (inCall : T → Option ℕ) (trying : Prop) (returned : List Event)
    (b : BoundedBuffer.State T Event) : Prop where
  ok : BoundedBuffer.Ok nSlots b
  mine : ∀ evt ∈ b.values, qletOf evt = j ∧ evt ≠ 0
  pendings : ∀ t, ∀ evt ∈ (b.pc t).pending, qletOf evt = j ∧ evt ≠ 0
  outCall : ∀ t, t ≠ committer → inCall t ≠ some j → b.pc t = .idle
  inCall : ∀ t, t ≠ committer → inCall t = some j → (b.pc t).Pushing
  idle : ¬ trying → b.pc committer = .idle
  trying : trying → (b.pc committer).Trying
  returned_eq : (returned.filter fun evt => qletOf evt = j) ++ (b.pc committer).result = b.popped.map Prod.snd

def Ok (committer : T) (s : State T) : Prop :=
  ∀ j, QletOk committer j s.inCall (s.popper = .trying ∧ j = s.i) s.returned (s.qlets j)

namespace QletOk

variable {committer : T} {j : ℕ} {inCall inCall' : T → Option ℕ} {trying trying' : Prop}
  {returned returned' : List Event} {b b' : BoundedBuffer.State T Event}

/-- Nothing has changed for this queuelet. -/
theorem congr (h : QletOk committer j inCall trying returned b)
    (hcall : ∀ t, t ≠ committer → (inCall' t = some j ↔ inCall t = some j)) (htrying : trying' ↔ trying)
    (hreturned : (returned'.filter fun evt => qletOf evt = j) = returned.filter fun evt => qletOf evt = j) :
    QletOk committer j inCall' trying' returned' b where
  ok := h.ok
  mine := h.mine
  pendings := h.pendings
  outCall t ht hne := h.outCall t ht fun hcallt => hne ((hcall t ht).2 hcallt)
  inCall t ht hcallt := h.inCall t ht ((hcall t ht).1 hcallt)
  idle hnot := h.idle fun htry => hnot (htrying.2 htry)
  trying htry := h.trying (htrying.1 htry)
  returned_eq := by rw [hreturned, h.returned_eq]

/-- A thread enters the queuelet with an event of it. -/
theorem push (h : QletOk committer j inCall trying returned b) {t : T} (ht : t ≠ committer) {evt : Event}
    (hevt : qletOf evt = j) (hne : evt ≠ 0) (hb : b.step nSlots (.push t evt) = some b') :
    QletOk committer j (Function.update inCall t (some j)) trying returned b' := by
  have hok := h.ok.step hb
  simp only [BoundedBuffer.State.step] at hb
  split at hb
  · cases hb
    refine ⟨hok, h.mine, fun u e he => ?_, fun u hu hcall => ?_, fun u hu hcall => ?_, fun hnot => ?_,
      fun htry => ?_, ?_⟩
    · by_cases hut : u = t
      · subst hut
        simp [BoundedBuffer.State.goto, Pc.pending] at he
        subst he
        exact ⟨hevt, hne⟩
      · simp only [BoundedBuffer.State.goto, Function.update_of_ne hut] at he
        exact h.pendings u e he
    · by_cases hut : u = t
      · subst hut
        rw [Function.update_self] at hcall
        exact absurd rfl hcall
      · rw [Function.update_of_ne hut] at hcall
        exact (Function.update_of_ne hut _ _).trans (h.outCall u hu hcall)
    · by_cases hut : u = t
      · subst hut
        simp [BoundedBuffer.State.goto, Pc.Pushing]
      · rw [Function.update_of_ne hut] at hcall
        simpa [BoundedBuffer.State.goto, hut] using h.inCall u hu hcall
    · exact (Function.update_of_ne ht.symm _ _).trans (h.idle hnot)
    · simpa [BoundedBuffer.State.goto, ht.symm] using h.trying htry
    · simpa [BoundedBuffer.State.goto, ht.symm] using h.returned_eq
  · cases hb

/-- A thread takes a step of its push, and leaves the queuelet after the last one. -/
theorem pushStep (h : QletOk committer j inCall trying returned b) {t : T} (ht : t ≠ committer)
    (hcall : inCall t = some j) (hb : b.step nSlots (.step t) = some b') :
    (b'.pc t = .idle → QletOk committer j (Function.update inCall t none) trying returned b') ∧
      (b'.pc t ≠ .idle → QletOk committer j inCall trying returned b') := by
  obtain ⟨hpopped, hnext, new, hpushed, hpending⟩ :=
    BoundedBuffer.State.advance_pushing hb (h.inCall t ht hcall)
  have hother : ∀ u, u ≠ t → b'.pc u = b.pc u := fun u hu => BoundedBuffer.State.advance_pc_of_ne hb hu
  have hcommitter := hother committer ht.symm
  have hmine : ∀ evt ∈ b'.values, qletOf evt = j ∧ evt ≠ 0 := by
    intro evt hevt
    rw [BoundedBuffer.State.values, hpushed, List.map_append, List.map_map, List.mem_append] at hevt
    rcases hevt with hevt | hevt
    · exact h.mine evt hevt
    · refine h.pendings t evt ?_
      rw [hpending]
      simp only [Function.comp_def, List.map_id'] at hevt
      exact List.mem_append_left _ hevt
  have hpendings : ∀ u, ∀ evt ∈ (b'.pc u).pending, qletOf evt = j ∧ evt ≠ 0 := by
    intro u evt hevt
    by_cases hut : u = t
    · subst hut
      refine h.pendings u evt ?_
      rw [hpending]
      exact List.mem_append_right _ hevt
    · rw [hother u hut] at hevt
      exact h.pendings u evt hevt
  have hreturned : (returned.filter fun evt => qletOf evt = j) ++ (b'.pc committer).result =
      b'.popped.map Prod.snd := by rw [hcommitter, hpopped, h.returned_eq]
  refine ⟨fun hidle => ⟨h.ok.step hb, hmine, hpendings, fun u hu hne => ?_, fun u hu hsome => ?_,
    fun hnot => ?_,
    fun htry => ?_, hreturned⟩, fun hnot => ⟨h.ok.step hb, hmine, hpendings, fun u hu hne => ?_,
      fun u hu hsome => ?_,
    fun hnot => ?_, fun htry => ?_, hreturned⟩⟩
  · by_cases hut : u = t
    · rw [hut, hidle]
    · rw [Function.update_of_ne hut] at hne
      rw [hother u hut, h.outCall u hu hne]
  · by_cases hut : u = t
    · rw [hut, Function.update_self] at hsome
      cases hsome
    · rw [Function.update_of_ne hut] at hsome
      rw [hother u hut]
      exact h.inCall u hu hsome
  · rw [hcommitter, h.idle hnot]
  · rw [hcommitter]
    exact h.trying htry
  · by_cases hut : u = t
    · rw [hut] at hne
      exact absurd hcall hne
    · rw [hother u hut, h.outCall u hu hne]
  · by_cases hut : u = t
    · rw [hut]
      exact hnext.resolve_right hnot
    · rw [hother u hut]
      exact h.inCall u hu hsome
  · rw [hcommitter, h.idle hnot]
  · rw [hcommitter]
    exact h.trying htry

/-- The commit thread enters the queuelet. -/
theorem tryPop (h : QletOk committer j inCall trying returned b) (hnot : ¬ trying) (htrying : trying')
    (hb : b.step nSlots (.tryPop committer) = some b') : QletOk committer j inCall trying' returned b' := by
  have hok := h.ok.step hb
  have hreturned := h.returned_eq
  simp only [BoundedBuffer.State.step, h.idle hnot] at hb hreturned
  cases hb
  have hother : ∀ u, u ≠ committer → (b.goto committer .tryFull).pc u = b.pc u := fun u hu =>
    BoundedBuffer.State.goto_pc_of_ne hu
  refine ⟨hok, h.mine, fun u e he => ?_, fun u hu hcall => ?_, fun u hu hcall => ?_, fun hnot => ?_,
    fun _ => ?_, ?_⟩
  · by_cases hu : u = committer
    · simp [BoundedBuffer.State.goto, hu, Pc.pending] at he
    · rw [hother u hu] at he
      exact h.pendings u e he
  · exact (hother u hu).trans (h.outCall u hu hcall)
  · rw [hother u hu]
    exact h.inCall u hu hcall
  · exact absurd htrying hnot
  · simp [BoundedBuffer.State.goto, Pc.Trying]
  · simpa [BoundedBuffer.State.goto, Pc.result] using hreturned

/-- The commit thread takes a step in the queuelet. -/
theorem popStep (h : QletOk committer j inCall trying returned b) (htry : trying)
    (hb : b.step nSlots (.step committer) = some b') : QletOk committer j inCall trying returned b' := by
  obtain ⟨hpushed, -, hpending, new, hpopped, hresult⟩ :=
    BoundedBuffer.State.advance_popping hb (h.trying htry).popping
  have hother : ∀ u, u ≠ committer → b'.pc u = b.pc u := fun u hu => BoundedBuffer.State.advance_pc_of_ne hb hu
  refine ⟨h.ok.step hb, fun evt hevt => ?_, fun u e he => ?_, fun u hu hcall => ?_, fun u hu hcall => ?_,
    fun hnot => absurd htry hnot, fun _ => BoundedBuffer.State.advance_trying hb (h.trying htry), ?_⟩
  · rw [BoundedBuffer.State.values, hpushed] at hevt
    exact h.mine evt hevt
  · by_cases hu : u = committer
    · rw [hu, hpending] at he
      cases he
    · rw [hother u hu] at he
      exact h.pendings u e he
  · rw [hother u hu, h.outCall u hu hcall]
  · rw [hother u hu]
    exact h.inCall u hu hcall
  · rw [hresult, hpopped, ← List.append_assoc, h.returned_eq, List.map_append, List.map_map]
    simp [Function.comp_def]

/-- The commit thread leaves the queuelet with its result. -/
theorem finish (h : QletOk committer j inCall trying returned b) {r : Option Event} (hnot : ¬ trying')
    (hpc : b.pc committer = .done r) (hb : b.step nSlots (.finish committer) = some b') :
    QletOk committer j inCall trying' (returned ++ r.toList) b' := by
  have hok := h.ok.step hb
  have hreturned := h.returned_eq
  simp only [BoundedBuffer.State.step, hpc] at hb hreturned
  cases hb
  have hother : ∀ u, u ≠ committer → (b.goto committer .idle).pc u = b.pc u := fun u hu =>
    BoundedBuffer.State.goto_pc_of_ne hu
  refine ⟨hok, h.mine, fun u e he => ?_, fun u hu hcall => ?_, fun u hu hcall => ?_, fun _ => ?_,
    fun htry => absurd htry hnot, ?_⟩
  · by_cases hu : u = committer
    · simp [BoundedBuffer.State.goto, hu, Pc.pending] at he
    · rw [hother u hu] at he
      exact h.pendings u e he
  · exact (hother u hu).trans (h.outCall u hu hcall)
  · rw [hother u hu]
    exact h.inCall u hu hcall
  · simp [BoundedBuffer.State.goto]
  · cases r with
    | none => simpa [BoundedBuffer.State.goto, Pc.result] using hreturned
    | some evt =>
      have hmem : evt ∈ b.values := by
        have hpopped : evt ∈ b.popped.map Prod.snd := by
          rw [← hreturned]
          exact List.mem_append_right _ (List.mem_singleton.2 rfl)
        rw [h.ok.ring.fifo] at hpopped
        exact List.mem_of_mem_take hpopped
      simpa [BoundedBuffer.State.goto, Pc.result, (h.mine evt hmem).1] using hreturned

end QletOk

/-! ### Runs -/

variable {committer : T} {s s' : State T}

omit [Fintype T] in
theorem qletStep_eq {j : ℕ} {a : BoundedBuffer.Action T Event} (h : s.qletStep j a = some s') :
    ∃ b, (s.qlets j).step nSlots a = some b ∧ s' = { s with qlets := Function.update s.qlets j b } := by
  obtain ⟨b, hb, rfl⟩ := Option.map_eq_some_iff.1 h
  exact ⟨b, hb, rfl⟩

namespace Ok

theorem init : Ok committer (State.init : State T) := fun j =>
  { ok := ok_init nSlots _
    mine := nofun
    pendings := nofun
    outCall := fun _ _ _ => rfl
    inCall := fun _ _ hcall => by cases hcall
    idle := fun _ => rfl
    trying := fun htry => by cases htry.1
    returned_eq := rfl }

theorem of_qlet (h : Ok committer s) {j i : ℕ} {popper : Popper} {inCall : T → Option ℕ} {returned : List Event}
    {b : BoundedBuffer.State T Event}
    (hj : QletOk committer j inCall (popper = .trying ∧ j = i) returned b)
    (hcall : ∀ k, k ≠ j → ∀ t, t ≠ committer → (inCall t = some k ↔ s.inCall t = some k))
    (htrying : ∀ k, k ≠ j → (popper = .trying ∧ k = i ↔ s.popper = .trying ∧ k = s.i))
    (hreturned : ∀ k, k ≠ j → (returned.filter fun evt => qletOf evt = k) =
      s.returned.filter fun evt => qletOf evt = k) :
    Ok committer ⟨Function.update s.qlets j b, i, popper, inCall, returned⟩ := by
  intro k
  by_cases hk : k = j
  · subst hk
    simpa using hj
  · simp only [Function.update_of_ne hk]
    exact (h k).congr (hcall k hk) (htrying k hk) (hreturned k hk)

theorem push (h : Ok committer s) {t : T} {evt : Event} (hne : evt ≠ 0)
    (hs : s.step committer (.push t evt) = some s') : Ok committer s' := by
  simp only [State.step] at hs
  split_ifs at hs with ht
  obtain ⟨b, hb, rfl⟩ := qletStep_eq hs
  refine h.of_qlet ((h _).push ht.1 rfl hne hb) (fun k hk u _ => ?_) (fun _ _ => Iff.rfl) fun _ _ => rfl
  by_cases hu : u = t
  · subst hu
    simp [ht.2, Ne.symm hk]
  · simp [hu]

theorem pushStep (h : Ok committer s) {t : T} (ht : t ≠ committer) (hs : s.pushStep t = some s') :
    Ok committer s' := by
  simp only [State.pushStep] at hs
  cases hcall : s.inCall t with
  | none =>
    rw [hcall] at hs
    cases hs
  | some j =>
    rw [hcall] at hs
    obtain ⟨s₁, hs₁, hs'⟩ := Option.map_eq_some_iff.1 hs
    obtain ⟨b, hb, rfl⟩ := qletStep_eq hs₁
    obtain ⟨hleaves, hstays⟩ := (h j).pushStep ht hcall hb
    simp only [Function.update_self] at hs'
    cases hpc : b.pc t with
    | idle =>
      rw [hpc] at hs'
      subst hs'
      refine h.of_qlet (hleaves hpc) (fun k hk u _ => ?_) (fun _ _ => Iff.rfl) fun _ _ => rfl
      by_cases hu : u = t
      · subst hu
        simp [hcall, Ne.symm hk]
      · simp only [Function.update_of_ne hu]
    | _ =>
      rw [hpc] at hs'
      subst hs'
      exact h.of_qlet (hstays (by rw [hpc]; exact nofun)) (fun _ _ _ _ => Iff.rfl)
        (fun _ _ => Iff.rfl) fun _ _ => rfl

theorem popStep (h : Ok committer s) (hs : s.popStep committer = some s') : Ok committer s' := by
  cases hpopper : s.popper with
  | outside =>
    simp only [State.popStep, hpopper] at hs
    cases hs
  | polling =>
    simp only [State.popStep, hpopper] at hs
    obtain ⟨b, hb, rfl⟩ := qletStep_eq hs
    have hnot : ∀ k, ¬ (s.popper = .trying ∧ k = s.i) := fun k htry => by simp [hpopper] at htry
    refine h.of_qlet ((h _).tryPop (hnot _) ⟨rfl, rfl⟩ hb) (fun _ _ _ _ => Iff.rfl)
      (fun k hk => ?_) fun _ _ => rfl
    exact iff_of_false (fun hboth => hk hboth.2) (hnot k)
  | trying =>
    simp only [State.popStep, hpopper] at hs
    have hothers : ∀ popper : Popper, ∀ k, k ≠ s.i →
        (popper = .trying ∧ k = s.i ↔ s.popper = .trying ∧ k = s.i) := fun popper k hk =>
      iff_of_false (fun hboth => hk hboth.2) fun hboth => hk hboth.2
    cases hpc : (s.qlets s.i).pc committer with
    | done r =>
      rw [hpc] at hs
      have hmine : ∀ evt, r = some evt → evt ∈ (s.qlets s.i).values := by
        rintro evt rfl
        have hpopped : evt ∈ (s.qlets s.i).popped.map Prod.snd := by
          rw [← (h s.i).returned_eq, hpc]
          exact List.mem_append_right _ (List.mem_singleton.2 rfl)
        rw [(h s.i).ok.ring.fifo] at hpopped
        exact List.mem_of_mem_take hpopped
      cases r with
      | none =>
        obtain ⟨b, hb, rfl⟩ := qletStep_eq hs
        have hstep := (h s.i).finish (show ¬ (Popper.polling = .trying ∧ s.i = s.i) by simp) hpc hb
        rw [Option.toList_none, List.append_nil] at hstep
        exact h.of_qlet hstep (fun _ _ _ _ => Iff.rfl) (hothers .polling) fun _ _ => rfl
      | some evt =>
        obtain ⟨hqlet, hne⟩ := (h s.i).mine evt (hmine evt rfl)
        simp only [State.popResult, if_pos hne] at hs
        obtain ⟨b, hb, rfl⟩ := qletStep_eq hs
        refine h.of_qlet ((h s.i).finish (show ¬ (Popper.outside = .trying ∧ s.i = s.i) by simp) hpc hb)
          (fun _ _ _ _ => Iff.rfl) (hothers .outside) fun k hk => ?_
        simp [hqlet, Ne.symm hk]
    | _ =>
      rw [hpc] at hs
      obtain ⟨b, hb, rfl⟩ := qletStep_eq hs
      exact h.of_qlet (by simpa [hpopper] using (h s.i).popStep ⟨hpopper, rfl⟩ hb) (fun _ _ _ _ => Iff.rfl)
        (fun _ _ => by rw [hpopper]) fun _ _ => rfl

theorem step (h : Ok committer s) {a : Action T} (hne : ∀ t evt, a = .push t evt → evt ≠ 0)
    (hs : s.step committer a = some s') : Ok committer s' := by
  cases a with
  | push t evt => exact h.push (hne t evt rfl) hs
  | pop =>
    simp only [State.step] at hs
    split_ifs at hs with hout
    cases hs
    exact fun j => (h j).congr (fun _ _ => Iff.rfl) (by simp [hout]) rfl
  | step t =>
    simp only [State.step] at hs
    split_ifs at hs with ht
    · exact h.popStep hs
    · exact h.pushStep ht hs

end Ok

/-! ### What the queue promises -/

def NotNull (_ : State T) : Action T → Prop
  | .push _ evt => evt ≠ 0
  | _ => True

omit [Fintype T] [DecidableEq T] in
instance (s : State T) : (a : Action T) → Decidable (NotNull s a)
  | .push _ evt => inferInstanceAs (Decidable (evt ≠ 0))
  | .pop => inferInstanceAs (Decidable True)
  | .step _ => inferInstanceAs (Decidable True)

theorem ok_of_run (h : Run (State.step committer) NotNull State.init s) : Ok committer s :=
  h.invariant (Ok committer) Ok.init fun _ _ _ ht hne ha => ht.step (by rintro t evt rfl; exact hne) ha

def unreturned (s : State T) (j : ℕ) : List Event :=
  (s.qlets j).values.drop (s.returned.filter fun evt => qletOf evt = j).length

/-- Every event is returned at most once and in the order of its queuelet, a queuelet never holds more events
than it has slots, and it takes the events of a thread in the order of the thread's calls. -/
theorem queue_delivers (h : Run (State.step committer) NotNull State.init s) (j : ℕ) :
    (s.returned.filter fun evt => qletOf evt = j) ++ unreturned s j = (s.qlets j).values ∧
      (s.qlets j).pushed.length ≤ nSlots + (s.qlets j).popped.length ∧
      (∀ evt ∈ (s.qlets j).values, qletOf evt = j) ∧
      ∀ t, ((s.qlets j).pushed.filter fun e => e.1 = t).map Prod.snd <+: (s.qlets j).calls t := by
  have hok := ok_of_run h
  have hqlet := hok j
  have hprefix : (s.returned.filter fun evt => qletOf evt = j) <+: (s.qlets j).values := by
    have hpopped : (s.returned.filter fun evt => qletOf evt = j) <+: (s.qlets j).popped.map Prod.snd :=
      ⟨_, hqlet.returned_eq⟩
    rw [hqlet.ok.ring.fifo] at hpopped
    exact hpopped.trans (List.take_prefix _ _)
  refine ⟨?_, hqlet.ok.pushed_le, fun evt hevt => (hqlet.mine evt hevt).1, fun t => ⟨_, hqlet.ok.calls_eq t⟩⟩
  obtain ⟨rest, hrest⟩ := hprefix
  rw [unreturned, ← hrest, List.drop_left]

/-- Thread 0 pushes an event, and the commit thread 1 returns it. -/
theorem queue_delivers_one : ∃ s : State (Fin 2), Run (State.step 1) NotNull State.init s ∧ s.returned = [16] ∧
    (s.returned.filter fun evt => qletOf evt = 1) ++ unreturned s 1 = (s.qlets 1).values := by
  have hreplay : (Run.replay (State.step (1 : Fin 2)) NotNull State.init
      (.push 0 16 :: List.replicate 6 (.step 0) ++ .pop :: List.replicate 8 (.step 1))).any
      (fun s => decide (s.returned = [16])) = true := by decide
  obtain ⟨s, hrun, hreturned⟩ := Run.exists_of_any hreplay
  exact ⟨s, hrun, by simpa using hreturned, (queue_delivers hrun 1).1⟩

/-! ### The commit thread finds every event -/

/-- The commit thread runs alone. -/
def Polls (committer : T) : State T → State T → Prop :=
  Relation.ReflTransGen fun s s' => s.popStep committer = some s'

theorem Ok.polls (h : Ok committer s) (hrun : Polls committer s s') : Ok committer s' := by
  induction hrun with
  | refl => exact h
  | tail _ hs ih => exact ih.popStep hs

omit [Fintype T] in
theorem polls_of_alone {b b' : BoundedBuffer.State T Event} (hrun : Alone nSlots committer b b')
    (htrying : s.popper = .trying) (hb : s.qlets s.i = b) :
    Polls committer s { s with qlets := Function.update s.qlets s.i b' } := by
  induction hrun with
  | refl =>
    subst hb
    rw [Function.update_eq_self]
    exact .refl
  | @tail b₁ b₂ _ hb₂ ih =>
    refine ih.tail ?_
    have hstep : State.qletStep { s with qlets := Function.update s.qlets s.i b₁ } s.i (.step committer) =
        some { s with qlets := Function.update s.qlets s.i b₂ } := by
      simp only [State.qletStep, BoundedBuffer.State.step, Function.update_self, hb₂, Option.map_some,
        Function.update_idem]
    simp only [htrying] at hstep
    simp only [State.popStep, htrying, Function.update_self]
    cases hpc : b₁.pc committer with
    | done r =>
      rw [BoundedBuffer.State.advance, hpc] at hb₂
      cases hb₂
    | _ => exact hstep

/-- All threads but the commit thread are outside of their calls or wait for a free slot. -/
def Quiet (committer : T) (s : State T) : Prop := ∀ j t, t ≠ committer → ((s.qlets j).pc t).Waits

/-- The state after the commit thread has entered its next queuelet. -/
def entered (committer : T) (s : State T) : State T :=
  let i := (s.i + 1) % qletsPerQ
  { s with i := i, popper := .trying, qlets := Function.update s.qlets i ((s.qlets i).goto committer .tryFull) }

theorem polls_entered (h : Ok committer s) (hpolling : s.popper = .polling) :
    s.popStep committer = some (entered committer s) := by
  have hidle := (h ((s.i + 1) % qletsPerQ)).idle (by rw [hpolling]; exact fun htry => by cases htry.1)
  simp only [State.popStep, hpolling, State.qletStep, BoundedBuffer.State.step, hidle, Option.map_some, entered]

/-- The commit thread, in a queuelet that it leaves with a value, returns this. -/
theorem polls_done (h : Ok committer s) (htrying : s.popper = .trying) {b : BoundedBuffer.State T Event}
    {evt : Event} (hrun : Alone nSlots committer (s.qlets s.i) b) (hdone : b.pc committer = .done (some evt)) :
    ∃ s' evt, Polls committer s s' ∧ s'.popper = .outside ∧ s'.returned = s.returned ++ [evt] := by
  have hpolls := polls_of_alone hrun htrying rfl
  have hne : evt ≠ 0 := by
    have hqlet := h.polls hpolls s.i
    simp only [Function.update_self] at hqlet
    refine (hqlet.mine evt ?_).2
    have hpopped : evt ∈ b.popped.map Prod.snd := by
      rw [← hqlet.returned_eq, hdone]
      exact List.mem_append_right _ (List.mem_singleton.2 rfl)
    rw [hqlet.ok.ring.fifo] at hpopped
    exact List.mem_of_mem_take hpopped
  have hlast : State.popStep committer { s with qlets := Function.update s.qlets s.i b } =
      some ⟨Function.update s.qlets s.i (b.goto committer .idle), s.i, .outside, s.inCall, s.returned ++
        [evt]⟩ := by
    simp only [State.popStep, htrying, Function.update_self, hdone, State.popResult, if_pos hne, State.qletStep,
      BoundedBuffer.State.step, Option.map_some, Function.update_idem]
  exact ⟨_, evt, hpolls.tail hlast, rfl, rfl⟩

omit [Fintype T] in
/-- In a queuelet that it leaves without a value, it goes on. -/
theorem polls_none (htrying : s.popper = .trying) (hquiet : Quiet committer s)
    (hrun : Alone nSlots committer (s.qlets s.i) ((s.qlets s.i).goto committer (.done none))) :
    ∃ s', Polls committer s s' ∧ s'.popper = .polling ∧ s'.i = s.i ∧ s'.returned = s.returned ∧
      Quiet committer s' ∧ ∀ j, (s'.qlets j).popped = (s.qlets j).popped ∧
      (s'.qlets j).pushed = (s.qlets j).pushed := by
  have hpolls := polls_of_alone hrun htrying rfl
  set tried := (s.qlets s.i).goto committer (.done none) with htried
  have hleave : State.popStep committer { s with qlets := Function.update s.qlets s.i tried } =
      some ⟨Function.update s.qlets s.i (tried.goto committer .idle), s.i, .polling, s.inCall, s.returned⟩ := by
    simp [State.popStep, State.qletStep, BoundedBuffer.State.step, BoundedBuffer.State.goto,
      State.popResult, htried,
      htrying]
  refine ⟨_, hpolls.tail hleave, rfl, rfl, rfl, fun j t ht => ?_, fun j => ?_⟩
  · by_cases hj : j = s.i
    · subst hj
      simpa [htried, BoundedBuffer.State.goto, ht] using hquiet s.i t ht
    · simpa [hj] using hquiet j t ht
  · by_cases hj : j = s.i
    · subst hj
      simp [htried, BoundedBuffer.State.goto]
    · simp [hj]

/-- In a queuelet, the commit thread returns an event, or it goes on with the next one. -/
theorem polls_trying (h : Ok committer s) (htrying : s.popper = .trying) (hquiet : Quiet committer s) :
    (∃ s' evt, Polls committer s s' ∧ s'.popper = .outside ∧ s'.returned = s.returned ++ [evt]) ∨
      (((s.qlets s.i).pc committer = .tryFull → (s.qlets s.i).full = 0) ∧
      ∃ s', Polls committer s s' ∧ s'.popper = .polling ∧ s'.i = s.i ∧ s'.returned = s.returned ∧
        Quiet committer s' ∧
        ∀ j, (s'.qlets j).popped = (s.qlets j).popped ∧ (s'.qlets j).pushed = (s.qlets j).pushed) := by
  have hlock : ((s.qlets s.i).pc committer).inside = false → (s.qlets s.i).lock = none := by
    refine fun hmine => (h s.i).ok.lock_free fun t => ?_
    by_cases ht : t = committer
    · rw [ht]
      exact hmine
    · exact BoundedBuffer.Ok.not_inside_of_waits (hquiet s.i t ht)
  rcases tries_alone (n := nSlots)
      ((h s.i).trying ⟨htrying, rfl⟩) hlock with ⟨b, evt, hrun, hdone⟩ | ⟨hfull, hrun⟩
  · exact .inl (polls_done h htrying hrun hdone)
  · exact .inr ⟨hfull, polls_none htrying hquiet hrun⟩

/-- A round of the loop: the next queuelet is popped if it holds an event, and otherwise left. -/
theorem polls_next (h : Ok committer s) (hpolling : s.popper = .polling) (hquiet : Quiet committer s) :
    (∃ s' evt, Polls committer s s' ∧ s'.popper = .outside ∧ s'.returned = s.returned ++ [evt]) ∨
      (¬ (s.qlets ((s.i + 1) % qletsPerQ)).popped.length < (s.qlets ((s.i + 1) % qletsPerQ)).pushed.length) ∧
      ∃ s', Polls committer s s' ∧ s'.popper = .polling ∧ s'.i = (s.i + 1) % qletsPerQ ∧
      s'.returned = s.returned ∧
        Quiet committer s' ∧
        ∀ j, (s'.qlets j).popped = (s.qlets j).popped ∧ (s'.qlets j).pushed = (s.qlets j).pushed := by
  have henter : Polls committer s (entered committer s) := .single (polls_entered h hpolling)
  set i := (s.i + 1) % qletsPerQ with hi
  have hidle : (s.qlets i).pc committer = .idle := (h i).idle fun htry => by
    rw [hpolling] at htry
    cases htry.1
  have hsame : ∀ j, ((entered committer s).qlets j).popped = (s.qlets j).popped ∧
      ((entered committer s).qlets j).pushed = (s.qlets j).pushed ∧
      ((entered committer s).qlets j).full = (s.qlets j).full := by
    intro j
    by_cases hj : j = i
    · subst hj
      simp [entered, ← hi, BoundedBuffer.State.goto]
    · simp [entered, ← hi, hj]
  have hquiet' : Quiet committer (entered committer s) := by
    intro j t ht
    by_cases hj : j = i
    · subst hj
      simpa [entered, ← hi, BoundedBuffer.State.goto, ht] using hquiet i t ht
    · simpa [entered, ← hi, hj] using hquiet j t ht
  rcases polls_trying (h.polls henter) rfl hquiet' with
    ⟨s', evt, hrun, hout, hreturned⟩ | ⟨hfull, s', hrun, hpolling', hi', hreturned, hquiet'', hsame'⟩
  · exact .inl ⟨s', evt, henter.trans hrun, hout, hreturned⟩
  · have hempty : (s.qlets i).full = 0 := by
      rw [← (hsame i).2.2]
      exact hfull (by simp [entered, ← hi, BoundedBuffer.State.goto])
    have hwaits : ∀ t, ((s.qlets i).pc t).Waits := by
      intro t
      by_cases ht : t = committer
      · rw [ht, hidle]
        trivial
      · exact hquiet i t ht
    have hcount := ((h i).ok.full_of_waits hwaits).1
    refine .inr ⟨by omega, s', henter.trans hrun, hpolling', hi', hreturned, hquiet'', fun j => ?_⟩
    exact ⟨(hsame' j).1.trans (hsame j).1, (hsame' j).2.trans (hsame j).2.1⟩

/-- The commit thread, before a round of the loop while no thread is in the middle of a push, returns an event
if any queuelet holds one. -/
theorem polls_finds (h : Ok committer s) (hpolling : s.popper = .polling) (hquiet : Quiet committer s) {j : ℕ}
    (hj : j < qletsPerQ) (hevt : (s.qlets j).popped.length < (s.qlets j).pushed.length) :
    ∃ s' evt, Polls committer s s' ∧ s'.popper = .outside ∧ s'.returned = s.returned ++ [evt] := by
  -- induction on the number of rounds until the queuelet's turn
  have hrounds : ∀ d, ∀ s : State T, Ok committer s → s.popper = .polling → Quiet committer s →
      (s.qlets ((s.i + 1 + d) % qletsPerQ)).popped.length <
        (s.qlets ((s.i + 1 + d) % qletsPerQ)).pushed.length →
      ∃ s' evt, Polls committer s s' ∧ s'.popper = .outside ∧ s'.returned = s.returned ++ [evt] := by
    intro d
    induction d with
    | zero =>
      intro s h hpolling hquiet hevt
      exact (polls_next h hpolling hquiet).resolve_right fun hnot => hnot.1 hevt
    | succ d ih =>
      intro s h hpolling hquiet hevt
      refine (polls_next h hpolling hquiet).elim id ?_
      rintro ⟨-, s₁, hrun, hpolling₁, hi₁, hreturned, hquiet₁, hsame⟩
      have hnext : (s₁.i + 1 + d) % qletsPerQ = (s.i + 1 + (d + 1)) % qletsPerQ := by
        rw [hi₁, Nat.add_assoc, Nat.mod_add_mod]
        congr 1
        omega
      obtain ⟨s₂, evt, hrun₂, hout, hreturned₂⟩ := ih s₁ (h.polls hrun) hpolling₁ hquiet₁ (by
        rw [hnext, (hsame _).1, (hsame _).2]
        exact hevt)
      exact ⟨s₂, evt, hrun.trans hrun₂, hout, by rw [hreturned₂, hreturned]⟩
  refine hrounds (j + 8 * (s.i + 1)) s h hpolling hquiet ?_
  have hmod : (s.i + 1 + (j + 8 * (s.i + 1))) % qletsPerQ = j := by
    simp only [qletsPerQ] at hj ⊢
    omega
  rwa [hmod]

/-- The commit thread, anywhere in `gg_queue_pop` while no thread is in the middle of a push, returns an event
if any queuelet holds one. -/
theorem pop_finds {j : ℕ} (h : Run (State.step committer) NotNull State.init s) (hpop : s.popper ≠ .outside)
    (hquiet : Quiet committer s) (hj : j < qletsPerQ)
    (hevt : (s.qlets j).popped.length < (s.qlets j).pushed.length) :
    ∃ s' evt, Polls committer s s' ∧ s'.popper = .outside ∧ s'.returned = s.returned ++ [evt] := by
  have hok := ok_of_run h
  cases hpopper : s.popper with
  | outside => exact absurd hpopper hpop
  | polling => exact polls_finds hok hpopper hquiet hj hevt
  | trying =>
    refine (polls_trying hok hpopper hquiet).elim id ?_
    rintro ⟨-, s₁, hrun, hpolling, -, hreturned, hquiet₁, hsame⟩
    rw [← (hsame j).1, ← (hsame j).2] at hevt
    obtain ⟨s₂, evt, hrun₂, hout, hreturned₂⟩ := polls_finds (hok.polls hrun) hpolling hquiet₁ hj hevt
    exact ⟨s₂, evt, hrun.trans hrun₂, hout, by rw [hreturned₂, hreturned]⟩

theorem pop_finds_one : ∃ s s' : State (Fin 2), ∃ evt, Run (State.step 1) NotNull State.init s ∧ Polls 1 s s' ∧
    s'.popper = .outside ∧ s'.returned = s.returned ++ [evt] := by
  have hreplay : (Run.replay (State.step (1 : Fin 2)) NotNull State.init
      (.push 0 16 :: List.replicate 6 (.step 0) ++ [.pop])).any (fun s => decide (s.popper = .polling ∧
        s.inCall 0 = none ∧ (s.qlets 1).popped.length < (s.qlets 1).pushed.length)) = true := by decide
  obtain ⟨s, hrun, hs⟩ := Run.exists_of_any hreplay
  obtain ⟨hpolling, hcall, hevt⟩ := of_decide_eq_true hs
  have hquiet : Quiet 1 s := by
    intro j t ht
    obtain rfl : t = 0 := by omega
    rw [(ok_of_run hrun j).outCall 0 ht (by rw [hcall]; exact nofun)]
    trivial
  obtain ⟨s', evt, hpolls, hout, hreturned⟩ :=
    pop_finds hrun (by rw [hpolling]; decide) hquiet (j := 1) (by decide) hevt
  exact ⟨s, s', evt, hrun, hpolls, hout, hreturned⟩

end Cpf.Txio.Queue
