import Mathlib

/-!
# Trails

A step relates the state before and the state after; a trail is a chain of any number of steps.
-/

/-- A chain of steps. -/
def Trail {α : Type*} (step : α → α → Prop) : α → α → Prop := Relation.ReflTransGen step

namespace Trail

variable {α : Type*} {step : α → α → Prop} {a b c : α}

theorem refl (a : α) : Trail step a a := Relation.ReflTransGen.refl

theorem of_eq (same : a = b) : Trail step a b := same ▸ refl a

theorem trans (first : Trail step a b) (second : Trail step b c) : Trail step a c :=
  Relation.ReflTransGen.trans first second

theorem single (one : step a b) : Trail step a b := Relation.ReflTransGen.single one

/-- **The invariant rule.** -/
theorem invariant {P : α → Prop} (keeps : ∀ a b, step a b → P a → P b) (trail : Trail step a b)
    (holds : P a) : P b := by
  induction trail with
  | refl => exact holds
  | tail _ one ih => exact keeps _ _ one ih

/-- A fold makes steps if each of its calls does. -/
theorem foldl {β γ : Type*} (view : β → α) (f : β → γ → β)
    (each : ∀ t c, Trail step (view t) (view (f t c))) (l : List γ) (t : β) :
    Trail step (view t) (view (l.foldl f t)) := by
  induction l generalizing t with
  | nil => exact refl _
  | cons c l ih => exact (each t c).trans (ih (f t c))

end Trail

/-! ## Runs of actions -/

section Runs

variable {S A : Type*} {step : S → A → S} {legal : S → A → Prop}

/-- Every action is legal where it is taken. -/
def LegalRun (step : S → A → S) (legal : S → A → Prop) : S → List A → Prop
  | _, [] => True
  | s, action :: actions => legal s action ∧ LegalRun step legal (step s action) actions

instance LegalRun.decidable [∀ s action, Decidable (legal s action)] :
    ∀ s actions, Decidable (LegalRun step legal s actions)
  | _, [] => .isTrue trivial
  | s, action :: actions =>
      have := decidable (step s action) actions
      inferInstanceAs (Decidable (_ ∧ _))

/-- What every legal action keeps holds at the end of a legal run. -/
theorem LegalRun.keeps {P : S → Prop} (each : ∀ s action, P s → legal s action → P (step s action))
    {s : S} {actions : List A} (run : LegalRun step legal s actions) (holds : P s) :
    P (actions.foldl step s) := by
  induction actions generalizing s with
  | nil => exact holds
  | cons action actions ih => exact ih run.2 (each s action holds run.1)

end Runs
