import Mathlib

/-!
# Loops that may panic

A source loop that mutates a state and may panic is `List.foldlM` in `Option`. The rules take a
loop that returned apart: an invariant that may speak of the elements still to come, and an
invariant of the state alone. A loop that collects a result for each element is `List.mapM`.
-/

namespace OptionFold

variable {β σ : Type} {step : σ → β → Option σ}

theorem cons_eq_some {b : β} {l : List β} {s s' : σ} :
    (b :: l).foldlM step s = some s' ↔ ∃ s₁, step s b = some s₁ ∧ l.foldlM step s₁ = some s' := by
  rw [List.foldlM_cons]
  exact Option.bind_eq_some_iff

theorem append_eq_some {l₁ l₂ : List β} {s s' : σ} :
    (l₁ ++ l₂).foldlM step s = some s' ↔
      ∃ s₁, l₁.foldlM step s = some s₁ ∧ l₂.foldlM step s₁ = some s' := by
  rw [List.foldlM_append]
  exact Option.bind_eq_some_iff

/-- The invariant rule: `I` relates the elements still to come and the state. -/
theorem invariant (I : List β → σ → Prop)
    (hstep : ∀ b l s s', I (b :: l) s → step s b = some s' → I l s') {l : List β} {s s' : σ}
    (h : I l s) (hrun : l.foldlM step s = some s') : I [] s' := by
  induction l generalizing s with
  | nil => cases hrun; exact h
  | cons b l ih =>
    obtain ⟨s₁, h₁, hrest⟩ := cons_eq_some.mp hrun
    exact ih (hstep b l s s₁ h h₁) hrest

/-- An invariant of the state, for a loop over elements that satisfy `P`. -/
theorem preserves (I : σ → Prop) {l : List β} {s s' : σ}
    (hstep : ∀ b ∈ l, ∀ s s', I s → step s b = some s' → I s') (h : I s)
    (hrun : l.foldlM step s = some s') : I s' := by
  induction l generalizing s with
  | nil => cases hrun; exact h
  | cons b l ih =>
    obtain ⟨s₁, h₁, hrest⟩ := cons_eq_some.mp hrun
    exact ih (fun c hc => hstep c (List.mem_cons_of_mem _ hc)) (hstep b List.mem_cons_self s s₁ h h₁)
      hrest

/-- A reflexive and transitive relation that every step respects holds between the ends. -/
theorem relates {Q : σ → σ → Prop} (hrefl : ∀ s, Q s s) (htrans : ∀ a b c, Q a b → Q b c → Q a c)
    {l : List β} {s s' : σ} (hstep : ∀ b ∈ l, ∀ s s', step s b = some s' → Q s s')
    (hrun : l.foldlM step s = some s') : Q s s' :=
  preserves (Q s) (fun b hb t t' ht hs => htrans s t t' ht (hstep b hb t t' hs)) (hrefl s) hrun

/-- A loop whose steps change nothing changes nothing. -/
theorem fixed {l : List β} {s : σ} (h : ∀ b ∈ l, step s b = some s) : l.foldlM step s = some s := by
  induction l with
  | nil => rfl
  | cons b l ih =>
    exact cons_eq_some.mpr ⟨s, h b List.mem_cons_self, ih fun c hc => h c (List.mem_cons_of_mem _ hc)⟩

/-- A loop returns when every step does, at whatever the steps before it lead to. -/
theorem total_of_relates (step : σ → β → Option σ) {Q : σ → σ → Prop} (hrefl : ∀ s, Q s s)
    (htrans : ∀ a b c, Q a b → Q b c → Q a c) {l : List β} {s : σ}
    (hstep : ∀ b ∈ l, ∀ s₁, Q s s₁ → ∃ s', step s₁ b = some s' ∧ Q s₁ s') :
    ∃ s', l.foldlM step s = some s' ∧ Q s s' := by
  induction l generalizing s with
  | nil => exact ⟨s, rfl, hrefl s⟩
  | cons b l ih =>
    obtain ⟨s₁, h₁, hQ₁⟩ := hstep b List.mem_cons_self s (hrefl s)
    obtain ⟨s', hrest, hQ⟩ := ih fun c hc s₂ hs₂ =>
      hstep c (List.mem_cons_of_mem _ hc) s₂ (htrans s s₁ s₂ hQ₁ hs₂)
    exact ⟨s', cons_eq_some.mpr ⟨s₁, h₁, hrest⟩, htrans s s₁ s' hQ₁ hQ⟩

theorem mem_filterAuxM {p : β → Option Bool} {l acc l' : List β}
    (hrun : l.filterAuxM p acc = some l') {b : β} (hb : b ∈ l') :
    b ∈ acc ∨ b ∈ l ∧ p b = some true := by
  induction l generalizing acc with
  | nil => cases hrun; exact Or.inl hb
  | cons c l ih =>
    obtain ⟨keep, hkeep, hrest⟩ := Option.bind_eq_some_iff.mp hrun
    rcases ih hrest with hacc | ⟨hl, hp⟩
    · cases keep with
      | false => exact Or.inl hacc
      | true =>
        rcases List.mem_cons.mp hacc with rfl | hacc
        · exact Or.inr ⟨List.mem_cons_self, hkeep⟩
        · exact Or.inl hacc
    · exact Or.inr ⟨List.mem_cons_of_mem _ hl, hp⟩

/-- What `filterM` keeps is in the list and satisfies the test. -/
theorem mem_filterM {p : β → Option Bool} {l l' : List β} (hrun : l.filterM p = some l') {b : β}
    (hb : b ∈ l') : b ∈ l ∧ p b = some true := by
  obtain ⟨r, hr, heq⟩ := Option.bind_eq_some_iff.mp hrun
  cases heq
  exact (mem_filterAuxM hr (List.mem_reverse.mp hb)).resolve_left List.not_mem_nil

theorem mem_of_filterAuxM {p : β → Option Bool} {l acc l' : List β}
    (hrun : l.filterAuxM p acc = some l') {b : β} (hb : b ∈ acc ∨ b ∈ l ∧ p b ≠ some false) :
    b ∈ l' := by
  induction l generalizing acc with
  | nil =>
    cases hrun
    exact hb.resolve_right fun h => List.not_mem_nil h.1
  | cons c l ih =>
    obtain ⟨keep, hkeep, hrest⟩ := Option.bind_eq_some_iff.mp hrun
    refine ih hrest ?_
    rcases hb with hacc | ⟨hmem, hp⟩
    · cases keep
      · exact Or.inl hacc
      · exact Or.inl (List.mem_cons_of_mem _ hacc)
    · rcases List.mem_cons.mp hmem with rfl | hmem
      · cases keep
        · exact absurd hkeep hp
        · exact Or.inl List.mem_cons_self
      · exact Or.inr ⟨hmem, hp⟩

/-- `filterM` drops only what the test rejects. -/
theorem mem_of_filterM {p : β → Option Bool} {l l' : List β} (hrun : l.filterM p = some l') {b : β}
    (hb : b ∈ l) (hp : p b ≠ some false) : b ∈ l' := by
  obtain ⟨r, hr, heq⟩ := Option.bind_eq_some_iff.mp hrun
  cases heq
  exact List.mem_reverse.mpr (mem_of_filterAuxM hr (Or.inr ⟨hb, hp⟩))

variable {α : Type} {f : α → Option β} {l : List α}

/-- A `map` that panics with one of its elements: it returned, so all of them have a result. -/
theorem mapM_eq_some {l' : List β} (h : l.mapM f = some l') :
    List.Forall₂ (fun a b => f a = some b) l l' := by
  induction l generalizing l' with
  | nil =>
    cases h
    exact .nil
  | cons a l ih =>
    rw [List.mapM_cons] at h
    obtain ⟨b, hb, h⟩ := Option.bind_eq_some_iff.mp h
    obtain ⟨bs, hbs, h⟩ := Option.bind_eq_some_iff.mp h
    cases h
    exact .cons hb (ih hbs)

theorem mem_mapM {l' : List β} (h : l.mapM f = some l') {b : β} :
    b ∈ l' ↔ ∃ a ∈ l, f a = some b := by
  have hall := mapM_eq_some h
  clear h
  induction hall with
  | nil => simp
  | cons hab _ ih =>
    simp only [List.mem_cons, ih, exists_eq_or_imp, hab, Option.some.injEq]
    rw [eq_comm]

theorem exists_mapM (h : ∀ a ∈ l, ∃ b, f a = some b) : ∃ l', l.mapM f = some l' := by
  induction l with
  | nil => exact ⟨[], rfl⟩
  | cons a l ih =>
    obtain ⟨b, hb⟩ := h a List.mem_cons_self
    obtain ⟨bs, hbs⟩ := ih fun a' ha' => h a' (List.mem_cons_of_mem _ ha')
    exact ⟨b :: bs, by rw [List.mapM_cons, hb, hbs]; rfl⟩

theorem mapM_congr {g : α → Option β} (h : ∀ a ∈ l, f a = g a) : l.mapM f = l.mapM g := by
  induction l with
  | nil => rfl
  | cons a l ih =>
    rw [List.mapM_cons, List.mapM_cons, h a List.mem_cons_self,
      ih fun b hb => h b (List.mem_cons_of_mem _ hb)]

/-- One element without a result is enough to panic. -/
theorem mapM_eq_none {a : α} (ha : a ∈ l) (hf : f a = none) : l.mapM f = none := by
  induction l with
  | nil => cases ha
  | cons b l ih =>
    rw [List.mapM_cons]
    rcases List.mem_cons.mp ha with rfl | ha
    · rw [hf]
      rfl
    · rw [ih ha]
      cases f b <;> rfl

end OptionFold
