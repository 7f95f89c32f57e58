import C0mpiler.Data.OptionFold
import Mathlib

/-!
# Reverse indexes

A relation `R a k` ("record `a` refers to key `k`") and a table that holds, under every live
key, the list of the records that refer to it. `ReverseIndex uses R` says that the table is
exact: a live key lists each of its records once and nothing else, and every key that is
referred to is live. The rules say how the relation changes when one record is pushed to or
dropped from the list of one key, and when a key is created or removed.
-/

/-- `l` lists the elements of `S`, each once. -/
structure ListsExactly {α : Type} (l : List α) (S : α → Prop) : Prop where
  nodup : l.Nodup
  mem_iff : ∀ a, a ∈ l ↔ S a

namespace ListsExactly

variable {α : Type} {l : List α} {S : α → Prop}

theorem congr (h : ListsExactly l S) {T : α → Prop} (hST : ∀ a, S a ↔ T a) : ListsExactly l T :=
  ⟨h.nodup, fun a => (h.mem_iff a).trans (hST a)⟩

theorem nil (hS : ∀ a, ¬ S a) : ListsExactly [] S :=
  ⟨List.nodup_nil, fun a => ⟨fun ha => absurd ha List.not_mem_nil, fun ha => absurd ha (hS a)⟩⟩

theorem push (h : ListsExactly l S) {a : α} (ha : ¬ S a) : ListsExactly (l ++ [a]) fun x => S x ∨ x = a := by
  refine ⟨?_, fun x => by simp [h.mem_iff x]⟩
  refine List.nodup_append.mpr ⟨h.nodup, List.nodup_singleton a, ?_⟩
  intro x hx y hy hxy
  rw [List.mem_singleton] at hy
  exact ha ((h.mem_iff a).mp (hy ▸ hxy ▸ hx))

theorem filter (h : ListsExactly l S) (p : α → Bool) : ListsExactly (l.filter p) fun x => S x ∧ p x :=
  ⟨h.nodup.filter p, fun x => by simp [h.mem_iff x]⟩

theorem erase [BEq α] [LawfulBEq α] (h : ListsExactly l S) (a : α) :
    ListsExactly (l.erase a) fun x => S x ∧ x ≠ a :=
  ⟨h.nodup.erase a, fun x => by rw [h.nodup.mem_erase_iff, h.mem_iff x, and_comm]⟩

end ListsExactly

/-- The table `uses` is exact for the relation `R`. -/
structure ReverseIndex {α κ : Type} (uses : κ → Option (List α)) (R : α → κ → Prop) : Prop where
  lists : ∀ k l, uses k = some l → ListsExactly l fun a => R a k
  live : ∀ a k, R a k → (uses k).isSome

namespace ReverseIndex

variable {α κ : Type} {uses uses' : κ → Option (List α)} {R R' : α → κ → Prop}

theorem congr (h : ReverseIndex uses R) (hR : ∀ a k, R a k ↔ R' a k) : ReverseIndex uses R' :=
  ⟨fun k l hl => (h.lists k l hl).congr fun a => hR a k, fun a k ha => h.live a k ((hR a k).mpr ha)⟩

theorem mem_iff (h : ReverseIndex uses R) {k : κ} {l : List α} (hl : uses k = some l) {a : α} :
    a ∈ l ↔ R a k :=
  (h.lists k l hl).mem_iff a

/-- No record refers to a dead key. -/
theorem not_of_none (h : ReverseIndex uses R) {k : κ} (hk : uses k = none) (a : α) : ¬ R a k := by
  intro ha
  have := h.live a k ha
  rw [hk] at this
  cases this

variable [DecidableEq κ]

/-- The general rule: the list of one key changes, and the relation changes at that key. -/
theorem update (h : ReverseIndex uses R) {k : κ} {l l' : List α} (hk : uses k = some l)
    (huses : uses' = Function.update uses k (some l')) (hl : ListsExactly l' fun a => R' a k)
    (hR : ∀ a k', k' ≠ k → (R a k' ↔ R' a k')) : ReverseIndex uses' R' := by
  subst huses
  constructor
  · intro k' l'' hk'
    by_cases hkk : k' = k
    · subst hkk
      rw [Function.update_self] at hk'
      cases hk'
      exact hl
    · rw [Function.update_of_ne hkk] at hk'
      exact (h.lists k' l'' hk').congr fun a => hR a k' hkk
  · intro a k' ha
    by_cases hkk : k' = k
    · subst hkk
      rw [Function.update_self]
      rfl
    · rw [Function.update_of_ne hkk]
      exact h.live a k' ((hR a k' hkk).mpr ha)

/-- Push one record to the list of one key. -/
theorem push (h : ReverseIndex uses R) {k : κ} {l : List α} {a : α} (hk : uses k = some l)
    (ha : ¬ R a k) (huses : uses' = Function.update uses k (some (l ++ [a]))) :
    ReverseIndex uses' fun x k' => R x k' ∨ (x = a ∧ k' = k) :=
  h.update hk huses (((h.lists k l hk).push ha).congr fun x => by simp)
    fun x k' hkk => by simp [hkk]

/-- Drop from the list of one key what `p` rejects. -/
theorem filter (h : ReverseIndex uses R) {k : κ} {l : List α} (p : α → Bool) (hk : uses k = some l)
    (huses : uses' = Function.update uses k (some (l.filter p))) :
    ReverseIndex uses' fun x k' => R x k' ∧ (k' = k → p x) :=
  h.update hk huses (((h.lists k l hk).filter p).congr fun x => by simp)
    fun x k' hkk => by simp [hkk]

/-- Drop one record from the list of one key. -/
theorem erase [DecidableEq α] (h : ReverseIndex uses R) {k : κ} {l : List α} {a : α}
    (hk : uses k = some l) (huses : uses' = Function.update uses k (some (l.erase a))) :
    ReverseIndex uses' fun x k' => R x k' ∧ ¬ (x = a ∧ k' = k) :=
  h.update hk huses (((h.lists k l hk).erase a).congr fun x => by simp)
    fun x k' hkk => by simp [hkk]

/-- A key that was dead becomes live with an empty list. -/
theorem create (h : ReverseIndex uses R) {k : κ} (hk : uses k = none)
    (huses : uses' = Function.update uses k (some [])) : ReverseIndex uses' R := by
  subst huses
  constructor
  · intro k' l hk'
    by_cases hkk : k' = k
    · subst hkk
      rw [Function.update_self] at hk'
      cases hk'
      exact ListsExactly.nil (h.not_of_none hk)
    · rw [Function.update_of_ne hkk] at hk'
      exact h.lists k' l hk'
  · intro a k' ha
    by_cases hkk : k' = k
    · subst hkk
      rw [Function.update_self]
      rfl
    · rw [Function.update_of_ne hkk]
      exact h.live a k' ha

/-- A key nothing refers to is removed. -/
theorem remove (h : ReverseIndex uses R) {k : κ} (hk : ∀ a, ¬ R a k)
    (huses : uses' = Function.update uses k none) : ReverseIndex uses' R := by
  subst huses
  constructor
  · intro k' l hk'
    by_cases hkk : k' = k
    · subst hkk
      rw [Function.update_self] at hk'
      cases hk'
    · rw [Function.update_of_ne hkk] at hk'
      exact h.lists k' l hk'
  · intro a k' ha
    by_cases hkk : k' = k
    · subst hkk
      exact absurd ha (hk a)
    · rw [Function.update_of_ne hkk]
      exact h.live a k' ha

end ReverseIndex

/-! ## Loops over the references of one record

`read s` is the table of the state `s`; each step writes the list of the key `key o` and pushes
or drops the record `record o`. -/

namespace ReverseIndex

variable {α κ σ ω : Type} [DecidableEq κ] (read : σ → κ → Option (List α)) (key : ω → κ)
  (record : ω → α) {step : σ → ω → Option σ}

theorem push_all
    (hstep : ∀ s o s', step s o = some s' → ∃ l, read s (key o) = some l ∧
      read s' = Function.update (read s) (key o) (some (l ++ [record o])))
    {ops : List ω} {s s' : σ} {R : α → κ → Prop} (hnodup : (ops.map record).Nodup)
    (h : ReverseIndex (read s) R) (hnew : ∀ o ∈ ops, ∀ k, ¬ R (record o) k)
    (hrun : ops.foldlM step s = some s') :
    ReverseIndex (read s') fun a k => R a k ∨ ∃ o ∈ ops, a = record o ∧ k = key o := by
  induction ops generalizing s R with
  | nil => cases hrun; exact h.congr fun a k => by simp
  | cons o ops ih =>
    obtain ⟨s₁, h₁, hrest⟩ := OptionFold.cons_eq_some.mp hrun
    obtain ⟨l, hl, hread⟩ := hstep s o s₁ h₁
    rw [List.map_cons, List.nodup_cons] at hnodup
    have hpush := h.push hl (hnew o List.mem_cons_self _) hread
    refine (ih hnodup.2 hpush ?_ hrest).congr fun a k => ?_
    · -- the record pushed first differs from those still to come
      rintro o' ho' k (hR | ⟨heq, -⟩)
      · exact hnew o' (List.mem_cons_of_mem _ ho') k hR
      · exact hnodup.1 (heq ▸ List.mem_map_of_mem ho')
    · simp only [List.mem_cons, exists_eq_or_imp, or_assoc]

theorem erase_all [DecidableEq α]
    (hstep : ∀ s o s', step s o = some s' → ∃ l, read s (key o) = some l ∧
      read s' = Function.update (read s) (key o) (some (l.erase (record o))))
    {ops : List ω} {s s' : σ} {R : α → κ → Prop} (h : ReverseIndex (read s) R)
    (hrun : ops.foldlM step s = some s') :
    ReverseIndex (read s') fun a k => R a k ∧ ¬ ∃ o ∈ ops, a = record o ∧ k = key o := by
  induction ops generalizing s R with
  | nil => cases hrun; exact h.congr fun a k => by simp
  | cons o ops ih =>
    obtain ⟨s₁, h₁, hrest⟩ := OptionFold.cons_eq_some.mp hrun
    obtain ⟨l, hl, hread⟩ := hstep s o s₁ h₁
    refine (ih (h.erase hl hread) hrest).congr fun a k => ?_
    simp only [List.mem_cons, exists_eq_or_imp, not_or, and_assoc]

end ReverseIndex
