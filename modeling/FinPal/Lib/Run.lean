import Mathlib.Data.List.Basic

/-!
# Runs under a condition on each step

A condition on a step, which may look at the state before it, makes a condition on a run; an
invariant that every step under the condition keeps holds at the end.
-/

/-- Every step of the run meets the condition, in the state it is taken in. -/
def EachStep {σ ε : Type*} (step : σ → ε → σ) (P : σ → ε → Prop) : σ → List ε → Prop
  | _, [] => True
  | s, e :: events => P s e ∧ EachStep step P (step s e) events

namespace EachStep
variable {σ ε : Type*} {step : σ → ε → σ} {P : σ → ε → Prop} {s : σ} {events events' : List ε}

instance decidable (step : σ → ε → σ) (P : σ → ε → Prop) [∀ s e, Decidable (P s e)] :
    (s : σ) → (events : List ε) → Decidable (EachStep step P s events)
  | _, [] => .isTrue trivial
  | s, e :: events =>
    have := decidable step P (step s e) events
    inferInstanceAs (Decidable (P s e ∧ EachStep step P (step s e) events))

theorem append : EachStep step P s (events ++ events') ↔
    EachStep step P s events ∧ EachStep step P (events.foldl step s) events' := by
  induction events generalizing s with
  | nil => exact (and_iff_right trivial).symm
  | cons e events ih => exact (and_congr_right fun _ => ih).trans and_assoc.symm

theorem invariant {I : σ → Prop} (hst : ∀ s e, I s → P s e → I (step s e))
    (h : EachStep step P s events) (hs : I s) : I (events.foldl step s) := by
  induction events generalizing s with
  | nil => exact hs
  | cons e events ih => exact ih h.2 (hst s e hs h.1)

/-- Conditions that agree where an invariant holds, which the first keeps, agree on runs. -/
theorem iff_of_invariant {L Q : σ → ε → Prop} {I : σ → Prop}
    (hi : ∀ s e, I s → L s e → (P s e ↔ Q s e))
    (hst : ∀ s e, I s → L s e → P s e → I (step s e)) (hL : EachStep step L s events) (hs : I s) :
    EachStep step P s events ↔ EachStep step Q s events := by
  induction events generalizing s with
  | nil => exact Iff.rfl
  | cons e events ih =>
    refine (and_congr_right fun hP => ?_).trans (and_congr_left fun _ => hi s e hs hL.1)
    exact ih hL.2 (hst s e hs hL.1 hP)

end EachStep
