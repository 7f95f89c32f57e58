import Mathlib

/-!
# Labelled runs

A step of a machine emits a list of labels. `Labelled` is a finite run with all the labels it
emits. A relation that every step of one machine carries over to a run of another one carries over
whole runs (`Labelled.simulate`).
-/

namespace Flow

variable {α β ε : Type*}

/-- A finite run and the labels it emits. -/
inductive Labelled (step : α → List ε → α → Prop) : α → List ε → α → Prop
  | refl (a : α) : Labelled step a [] a
  | head {a b c : α} {l l' : List ε} (hstep : step a l b) (hrest : Labelled step b l' c) :
      Labelled step a (l ++ l') c

namespace Labelled

variable {step : α → List ε → α → Prop} {step' : β → List ε → β → Prop} {a b c : α} {l l' : List ε}

theorem single (h : step a l b) : Labelled step a l b := by
  have hone := Labelled.head h (.refl b)
  rwa [List.append_nil] at hone

theorem trans (h : Labelled step a l b) (h' : Labelled step b l' c) :
    Labelled step a (l ++ l') c := by
  induction h with
  | refl a => exact h'
  | head hstep _ ih =>
    rw [List.append_assoc]
    exact .head hstep (ih h')

theorem snoc (h : Labelled step a l b) (h' : step b l' c) : Labelled step a (l ++ l') c :=
  h.trans (single h')

/-- The simulation rule: the induction is on the run of the first machine. -/
theorem simulate {R : α → β → Prop}
    (hsim : ∀ a b l a', R a b → step a l a' → ∃ b', Labelled step' b l b' ∧ R a' b')
    {a' : α} {b : β} (hR : R a b) (h : Labelled step a l a') :
    ∃ b', Labelled step' b l b' ∧ R a' b' := by
  induction h generalizing b with
  | refl a => exact ⟨b, .refl b, hR⟩
  | head hstep _ ih =>
    obtain ⟨b₁, hrun, hR₁⟩ := hsim _ _ _ _ hR hstep
    obtain ⟨b', hrun', hR'⟩ := ih hR₁
    exact ⟨b', hrun.trans hrun', hR'⟩

end Labelled

end Flow
