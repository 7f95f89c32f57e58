import Mathlib

/-!
# Deterministic runs up to hidden states

A machine is a partial step function. `visits` lists the states a run goes through; `SameSeen`
says that a second machine goes through the same states as the first one, apart from states that
are not `seen`: every finite part of one run is a finite part of the other. It follows from one
step to the next where the second machine passes at most one hidden state in between
(`sameSeen_of_detour`), and it composes (`SameSeen.trans`).
-/

namespace Flow

variable {α : Type*}

/-- The first states of the run from a state, at most this many. -/
def visits (step : α → Option α) : Nat → α → List α
  | 0, _ => []
  | n + 1, a => a :: (step a).elim [] (visits step n)

variable {step step' step'' : α → Option α} {seen seen' : α → Bool} {a : α}

@[simp] theorem visits_zero : visits step 0 a = [] := rfl

theorem visits_succ (n : Nat) :
    visits step (n + 1) a = a :: (step a).elim [] (visits step n) := rfl

theorem visits_stop (h : step a = none) (n : Nat) : visits step (n + 1) a = [a] := by
  rw [visits_succ, h, Option.elim_none]

theorem visits_step {b : α} (h : step a = some b) (n : Nat) :
    visits step (n + 1) a = a :: visits step n b := by
  rw [visits_succ, h, Option.elim_some]

/-- The seen states of the second machine's run are the states of the first one's. -/
def SameSeen (seen : α → Bool) (step step' : α → Option α) (a : α) : Prop :=
  (∀ n, ∃ m, (visits step' m a).filter seen = visits step n a) ∧
    ∀ m, ∃ n, (visits step' m a).filter seen = visits step n a

/-- The second machine makes the step of the first one, at most one hidden state apart. -/
def Detours (seen : α → Bool) (step step' : α → Option α) (a : α) : Prop :=
  match step a with
  | none => step' a = none
  | some b => seen b ∧ (step' a = some b ∨
      ∃ c, seen c = false ∧ step' a = some c ∧ step' c = some b)

theorem Detours.of_eq {seen : α → Bool} (h : step' a = step a)
    (hseen : ∀ b, step a = some b → seen b) : Detours seen step step' a := by
  rw [Detours]
  split
  · next hnone => rw [h, hnone]
  · next b hb => exact ⟨hseen b hb, Or.inl (h.trans hb)⟩

section Simulation

variable (h : ∀ a, seen a → Detours seen step step' a)
include h

theorem exists_visits_right (n : Nat) (ha : seen a) :
    ∃ m, (visits step' m a).filter seen = visits step n a := by
  induction n generalizing a with
  | zero => exact ⟨0, rfl⟩
  | succ n ih =>
    have hstep := h a ha
    rw [Detours] at hstep
    split at hstep
    · next hnone =>
      refine ⟨1, ?_⟩
      rw [visits_stop hstep, visits_stop hnone, List.filter_cons_of_pos ha, List.filter_nil]
    · next b hb =>
      obtain ⟨hseen, hdirect | ⟨c, hc, hac, hcb⟩⟩ := hstep
      · obtain ⟨m, hm⟩ := ih hseen
        refine ⟨m + 1, ?_⟩
        rw [visits_step hdirect, visits_step hb, List.filter_cons_of_pos ha, hm]
      · obtain ⟨m, hm⟩ := ih hseen
        refine ⟨m + 2, ?_⟩
        rw [visits_step hac, visits_step hcb, visits_step hb, List.filter_cons_of_pos ha,
          List.filter_cons_of_neg (by simp [hc]), hm]

theorem exists_visits_left (m : Nat) (ha : seen a) :
    ∃ n, (visits step' m a).filter seen = visits step n a := by
  induction m using Nat.strong_induction_on generalizing a with
  | _ m ih =>
    obtain _ | m := m
    · exact ⟨0, rfl⟩
    have hstep := h a ha
    rw [Detours] at hstep
    split at hstep
    · next hnone =>
      refine ⟨1, ?_⟩
      rw [visits_stop hstep, visits_stop hnone, List.filter_cons_of_pos ha, List.filter_nil]
    · next b hb =>
      obtain ⟨hseen, hdirect | ⟨c, hc, hac, hcb⟩⟩ := hstep
      · obtain ⟨n, hn⟩ := ih m (by omega) hseen
        refine ⟨n + 1, ?_⟩
        rw [visits_step hdirect, visits_step hb, List.filter_cons_of_pos ha, hn]
      · rw [visits_step hac, List.filter_cons_of_pos ha]
        obtain _ | m := m
        · exact ⟨1, by rw [visits_step hb]; rfl⟩
        · -- the hidden state is passed before the next seen one
          obtain ⟨n, hn⟩ := ih m (by omega) hseen
          refine ⟨n + 1, ?_⟩
          rw [visits_step hcb, visits_step hb, List.filter_cons_of_neg (by simp [hc]), hn]

theorem sameSeen_of_detour (ha : seen a) : SameSeen seen step step' a :=
  ⟨fun n => exists_visits_right h n ha, fun m => exists_visits_left h m ha⟩

end Simulation

theorem SameSeen.trans (hle : ∀ b, seen b → seen' b) (h : SameSeen seen step step' a)
    (h' : SameSeen seen' step' step'' a) : SameSeen seen step step'' a := by
  have hfilter : ∀ l : List α, (l.filter seen').filter seen = l.filter seen := by
    intro l
    rw [List.filter_filter]
    refine List.filter_congr fun b _ => ?_
    cases hb : seen b with
    | false => rfl
    | true => rw [hle b hb]; rfl
  constructor
  · intro n
    obtain ⟨m, hm⟩ := h.1 n
    obtain ⟨k, hk⟩ := h'.1 m
    exact ⟨k, by rw [← hfilter, hk, hm]⟩
  · intro k
    obtain ⟨m, hm⟩ := h'.2 k
    obtain ⟨n, hn⟩ := h.2 m
    exact ⟨n, by rw [← hfilter, hm, hn]⟩

end Flow
