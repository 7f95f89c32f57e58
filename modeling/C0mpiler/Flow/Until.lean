import Mathlib

/-!
# Flow graphs — a goal reached before a barrier

`Until E keep goal a`: a path along `E` leads from `a` to a node of `goal`, and every node that it
leaves on the way satisfies `keep`. It is the smallest predicate that holds at the goals and is
carried backwards over the edges out of `keep` (`Until.here`, `Until.step`, `Until.induct`): what a
backward analysis computes.
-/

namespace Flow

variable {α : Type*} {E : α → α → Prop} {keep goal : α → Prop} {a b : α}

def Until (E : α → α → Prop) (keep goal : α → Prop) (a : α) : Prop :=
  ∃ b, Relation.ReflTransGen (fun u v => keep u ∧ E u v) a b ∧ goal b

theorem Until.here (h : goal a) : Until E keep goal a :=
  ⟨a, .refl, h⟩

theorem Until.step (hkeep : keep a) (he : E a b) (h : Until E keep goal b) :
    Until E keep goal a := by
  obtain ⟨c, hpath, hc⟩ := h
  exact ⟨c, .head ⟨hkeep, he⟩ hpath, hc⟩

/-- Whatever holds at the goals and is carried backwards holds wherever a goal is reached. -/
theorem Until.induct {P : α → Prop} (h : Until E keep goal a) (hgoal : ∀ u, goal u → P u)
    (hstep : ∀ u v, keep u → E u v → P v → P u) : P a := by
  obtain ⟨b, hpath, hb⟩ := h
  induction hpath using Relation.ReflTransGen.head_induction_on with
  | refl => exact hgoal b hb
  | head hedge _ ih => exact hstep _ _ hedge.1 hedge.2 ih

end Flow
