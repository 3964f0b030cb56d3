import Mathlib.Logic.Basic

/-! Machines whose steps can fail to be there: the states they reach by steps that meet
a condition, and what every such run keeps. -/
namespace Machine

universe u v

variable {σ : Type u} {α : Type v}

/-- The states that steps lead to from one, each of which meets a condition where it is
made. -/
inductive Reach (step : σ → α → Option σ) (Cond : σ → α → Prop) (start : σ) : σ → Prop where
  | refl : Reach step Cond start start
  | step {s t : σ} (a : α) (hReach : Reach step Cond start s) (hCond : Cond s a) (hStep : step s a = some t) :
      Reach step Cond start t

variable {step : σ → α → Option σ} {Cond : σ → α → Prop} {start s t : σ}

/-- What holds at the start and is kept by each such step holds in every state reached. -/
theorem Reach.invariant (Inv : σ → Prop) (h : Reach step Cond start s) (hStart : Inv start)
    (hKeep : ∀ s a t, Inv s → Cond s a → step s a = some t → Inv t) : Inv s := by
  induction h with
  | refl => exact hStart
  | step a _ hCond hStep ih => exact hKeep _ a _ ih hCond hStep

/-- One run: the steps of some actions, as long as each meets the condition and can be
made. -/
def follow (step : σ → α → Option σ) (Cond : σ → α → Prop) [∀ s a, Decidable (Cond s a)] (start : σ)
    (actions : List α) : Option σ :=
  actions.foldlM (fun s a => if Cond s a then step s a else none) start

theorem Reach.follow [∀ s a, Decidable (Cond s a)] {actions : List α} (hReach : Reach step Cond start s)
    (h : follow step Cond s actions = some t) : Reach step Cond start t := by
  induction actions generalizing s with
  | nil =>
      obtain rfl := Option.some.inj h
      exact hReach
  | cons a actions ih =>
      rw [Machine.follow, List.foldlM_cons, Option.bind_eq_bind, Option.bind_eq_some_iff] at h
      obtain ⟨next, hFirst, hRest⟩ := h
      split at hFirst
      · rename_i hCond
        exact ih (.step a hReach hCond hFirst) hRest
      · cases hFirst

end Machine
