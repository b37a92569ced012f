import Mathlib.Tactic

/-!
# Runs of a transition system

A system is a function that takes a state and an action to the next state, if the action is
enabled. `Run step P` holds of two states when the second is reached from the first by actions
that each meet `P` in the state they are taken in. `GoesOn step` holds of an infinite sequence of
states in which some action is taken as long as one is enabled.
-/

namespace Cpf

variable {σ α : Type*} {step : σ → α → Option σ} {P : σ → α → Prop} {s t u : σ}

inductive Run (step : σ → α → Option σ) (P : σ → α → Prop) (s : σ) : σ → Prop
  | refl : Run step P s s
  | tail {t u : σ} {a : α} : Run step P s t → P t a → step t a = some u → Run step P s u

namespace Run

/-- The invariant rule: what holds at the start and is kept by every step that meets the condition
holds in every state of every such run. -/
theorem invariant (I : σ → Prop) (hs : I s)
    (hstep : ∀ t a u, I t → P t a → step t a = some u → I u) (h : Run step P s t) : I t := by
  induction h with
  | refl => exact hs
  | tail _ hp ha ih => exact hstep _ _ _ ih hp ha

theorem trans (h : Run step P s t) (h' : Run step P t u) : Run step P s u := by
  induction h' with
  | refl => exact h
  | tail _ hp ha ih => exact ih.tail hp ha

/-- The actions of a list, one after another, as long as they are enabled and meet the condition. -/
def replay (step : σ → α → Option σ) (P : σ → α → Prop) [∀ s a, Decidable (P s a)] (s : σ)
    (as : List α) : Option σ :=
  as.foldlM (fun s a => if P s a then step s a else none) s

theorem of_replay [∀ s a, Decidable (P s a)] {as : List α}
    (h : replay step P s as = some t) : Run step P s t := by
  induction as generalizing s with
  | nil =>
      cases h
      exact refl
  | cons a as ih =>
      rw [replay, List.foldlM_cons] at h
      obtain ⟨u, hu, hrest⟩ := Option.bind_eq_some_iff.1 h
      split_ifs at hu with hp
      exact (refl.tail hp hu).trans (ih hrest)

/-- A replay that ends in a state with the property `q`. -/
theorem exists_of_any [∀ s a, Decidable (P s a)] {as : List α} {q : σ → Bool}
    (h : (replay step P s as).any q = true) :
    ∃ t, Run step P s t ∧ q t = true := by
  obtain ⟨t, ht, hq⟩ := (Option.any_eq_true _ _).1 h
  exact ⟨t, of_replay ht, hq⟩

end Run

/-- An action is taken as long as one is enabled. -/
def GoesOn (step : σ → α → Option σ) (states : ℕ → σ) : Prop :=
  ∀ n, (∃ a, step (states n) a = some (states (n + 1))) ∨
    (∀ a, step (states n) a = none) ∧ states (n + 1) = states n

namespace GoesOn

variable {states : ℕ → σ}

theorem run (h : GoesOn step states) (n : ℕ) : Run step (fun _ _ => True) (states 0) (states n) := by
  induction n with
  | zero => exact .refl
  | succ n ih =>
      rcases h n with ⟨a, ha⟩ | ⟨-, hn⟩
      · exact ih.tail trivial ha
      · rw [hn]
        exact ih

theorem exists_from (step : σ → α → Option σ) (s : σ) : ∃ states, states 0 = s ∧ GoesOn step states := by
  classical
  have hnext : ∀ s, ∃ t, (∃ a, step s a = some t) ∨ (∀ a, step s a = none) ∧ t = s := by
    intro s
    by_cases hs : ∃ a t, step s a = some t
    · obtain ⟨a, t, ht⟩ := hs
      exact ⟨t, .inl ⟨a, ht⟩⟩
    · push Not at hs
      exact ⟨s, .inr ⟨fun a => Option.eq_none_iff_forall_ne_some.2 (hs a), rfl⟩⟩
  choose next hnext using hnext
  refine ⟨fun n => next^[n] s, rfl, fun n => ?_⟩
  dsimp only
  rw [Function.iterate_succ_apply']
  exact hnext _

/-- The progress rule: as long as the goal is not reached some action is enabled, and every action keeps the
invariant and lowers the rank. What the invariant and the rank say besides the state is `γ`. -/
theorem reaches {γ β : Type*} [Preorder β] [WellFoundedLT β] (I : σ → γ → Prop) (rank : σ → γ → β)
    (Goal : σ → Prop)
    (henabled : ∀ s g, I s g → ¬ Goal s → ∃ a t, step s a = some t)
    (hstep : ∀ s g a t, I s g → ¬ Goal s → step s a = some t → ¬ Goal t → ∃ g', I t g' ∧ rank t g' < rank s g)
    (h : GoesOn step states) {g : γ} (hstart : I (states 0) g) : ∃ n, Goal (states n) := by
  have hrank : ∀ b n g, rank (states n) g = b → I (states n) g → ∃ n, Goal (states n) := by
    intro b
    induction b using WellFoundedLT.induction with
    | _ b ih =>
      rintro n g rfl hn
      by_cases hgoal : Goal (states n)
      · exact ⟨n, hgoal⟩
      obtain ⟨a, ha⟩ := (h n).resolve_right fun hstuck => by
        obtain ⟨a, t, ht⟩ := henabled _ _ hn hgoal
        rw [hstuck.1 a] at ht
        cases ht
      by_cases hgoal' : Goal (states (n + 1))
      · exact ⟨n + 1, hgoal'⟩
      obtain ⟨g', hg', hlt⟩ := hstep _ _ _ _ hn hgoal ha hgoal'
      exact ih _ hlt _ _ rfl hg'
  exact hrank _ 0 g rfl hstart

end GoesOn
end Cpf
