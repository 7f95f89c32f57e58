import Mathlib

/-!
# Unification tables

A table of keys in classes, each class with one value (`ena::unify::UnificationTable`). A key is
represented by the root of its class; which key is the root cannot be observed. Two classes are
merged with a partial operation on their values.

`Along R` says that the value of every key moves along `R`, for a relation that describes what a
merge keeps.
-/

/-- The keys below `next` are in use; the others are alone in their classes. -/
structure UnificationTable (α : Type) [Inhabited α] where
  next : Nat
  root : Nat → Nat
  value : Nat → α
  root_lt : ∀ k < next, root k < next
  fresh : ∀ k, next ≤ k → root k = k ∧ value k = default

namespace UnificationTable

variable {α : Type} [Inhabited α]

/-- The table without keys. -/
def empty : UnificationTable α where
  next := 0
  root := id
  value _ := default
  root_lt _ h := absurd h (Nat.not_lt_zero _)
  fresh _ _ := ⟨rfl, rfl⟩

/-- `probe_value`. -/
def probeValue (T : UnificationTable α) (k : Nat) : α := T.value (T.root k)

/-- The two keys are in one class. -/
def unioned (T : UnificationTable α) (a b : Nat) : Bool := T.root a == T.root b

/-- A new key, alone in its class. -/
def newKey (T : UnificationTable α) (v : α) : Nat × UnificationTable α :=
  (T.next,
    { next := T.next + 1
      root := T.root
      value := Function.update T.value T.next v
      root_lt := fun k hk => by
        rcases Nat.lt_succ_iff_lt_or_eq.mp hk with hk | rfl
        · exact Nat.lt_succ_of_lt (T.root_lt k hk)
        · rw [(T.fresh T.next le_rfl).1]
          exact Nat.lt_succ_self _
      fresh := fun k hk => by
        refine ⟨(T.fresh k (by omega)).1, ?_⟩
        rw [Function.update_of_ne (by omega)]
        exact (T.fresh k (by omega)).2 })

/-- Give the class of `a` the value `v`. -/
def setValue (T : UnificationTable α) (a : Nat) (ha : a < T.next) (v : α) : UnificationTable α :=
  { T with
    value := Function.update T.value (T.root a) v
    fresh := fun k hk => by
      refine ⟨(T.fresh k hk).1, ?_⟩
      have hlt := T.root_lt a ha
      rw [Function.update_of_ne (by omega)]
      exact (T.fresh k hk).2 }

/-- Put the class of `b` into the class of `a`, with the value `v`. -/
def union (T : UnificationTable α) (a b : Nat) (ha : a < T.next) (hb : b < T.next) (v : α) :
    UnificationTable α where
  next := T.next
  root k := if T.root k = T.root b then T.root a else T.root k
  value := Function.update T.value (T.root a) v
  root_lt k hk := by
    split
    · exact T.root_lt a ha
    · exact T.root_lt k hk
  fresh k hk := by
    have hla := T.root_lt a ha
    have hlb := T.root_lt b hb
    have hroot := (T.fresh k hk).1
    refine ⟨?_, ?_⟩
    · rw [if_neg (by omega), hroot]
    · rw [Function.update_of_ne (by omega)]
      exact (T.fresh k hk).2

section

variable (merge : α → α → Option α)

/-- `unify_var_var`. A key that is not in the table is a panic. -/
def unifyVarVar (T : UnificationTable α) (a b : Nat) : Option (UnificationTable α) :=
  if h : a < T.next ∧ b < T.next then
    if T.unioned a b then some T
    else (merge (T.probeValue a) (T.probeValue b)).map fun v => T.union a b h.1 h.2 v
  else none

/-- `unify_var_value`. -/
def unifyVarValue (T : UnificationTable α) (a : Nat) (v : α) : Option (UnificationTable α) :=
  if h : a < T.next then (merge (T.probeValue a) v).map fun w => T.setValue a h w
  else none

end

/-! ## What a table keeps -/

/-- The value of every key has moved along `R`. -/
def Along (R : α → α → Prop) (T T' : UnificationTable α) : Prop :=
  ∀ k, R (T.probeValue k) (T'.probeValue k)

variable {R : α → α → Prop} {T T' T'' : UnificationTable α} {merge : α → α → Option α}

theorem Along.refl (hR : ∀ v, R v v) (T : UnificationTable α) : T.Along R T := fun _ => hR _

theorem Along.trans (hR : ∀ u v w, R u v → R v w → R u w) (h : T.Along R T') (h' : T'.Along R T'') :
    T.Along R T'' := fun k => hR _ _ _ (h k) (h' k)

theorem probeValue_fresh {k : Nat} (hk : T.next ≤ k) : T.probeValue k = default := by
  unfold probeValue
  rw [(T.fresh k hk).1, (T.fresh k hk).2]

/-- The new key has the value given, the others keep theirs. -/
theorem probeValue_newKey (v : α) (k : Nat) :
    (T.newKey v).2.probeValue k = if k = T.next then v else T.probeValue k := by
  show Function.update T.value T.next v (T.root k) = _
  by_cases hk : k = T.next
  · subst hk
    rw [if_pos rfl, (T.fresh T.next le_rfl).1, Function.update_self]
  · rw [if_neg hk]
    refine Function.update_of_ne ?_ _ _
    rcases Nat.lt_or_ge k T.next with h | h
    · exact (T.root_lt k h).ne
    · rw [(T.fresh k h).1]
      exact hk

/-! ## What the crate documents

Keys of one class have one value. A merge that succeeds makes one class of two, with the value that
`unify_values` returns, and touches no other class; a merge that fails returns no table, so the old
one is what is left. -/

/-- To be in one class is an equivalence. -/
theorem unioned_equivalence (T : UnificationTable α) : Equivalence fun a b => T.unioned a b = true where
  refl _ := beq_self_eq_true _
  symm h := beq_iff_eq.mpr (beq_iff_eq.mp h).symm
  trans h h' := beq_iff_eq.mpr ((beq_iff_eq.mp h).trans (beq_iff_eq.mp h'))

/-- The keys of a class have one value. -/
theorem probeValue_of_unioned {a b : Nat} (h : T.unioned a b = true) :
    T.probeValue a = T.probeValue b :=
  congrArg T.value (beq_iff_eq.mp h)

/-- A new value is that of the whole class, and of no other. -/
theorem probeValue_setValue {a : Nat} (ha : a < T.next) (v : α) (k : Nat) :
    (T.setValue a ha v).probeValue k = if T.unioned k a then v else T.probeValue k := by
  show Function.update T.value (T.root a) v (T.root k) = _
  simp only [unioned, beq_iff_eq]
  by_cases hk : T.root k = T.root a
  · rw [if_pos hk, hk, Function.update_self]
  · rw [if_neg hk]
    exact Function.update_of_ne hk _ _

/-- After a union both classes have the new value, and no other has. -/
theorem probeValue_union {a b : Nat} (ha : a < T.next) (hb : b < T.next) (v : α) (k : Nat) :
    (T.union a b ha hb v).probeValue k =
      if T.unioned k a ∨ T.unioned k b then v else T.probeValue k := by
  show Function.update T.value (T.root a) v (if T.root k = T.root b then T.root a else T.root k) = _
  simp only [unioned, beq_iff_eq]
  by_cases hkb : T.root k = T.root b
  · rw [if_pos hkb, if_pos (Or.inr hkb), Function.update_self]
  · rw [if_neg hkb]
    by_cases hka : T.root k = T.root a
    · rw [if_pos (Or.inl hka), hka, Function.update_self]
    · rw [if_neg (not_or.mpr ⟨hka, hkb⟩)]
      exact Function.update_of_ne hka _ _

/-- The classes after a union: the two are one, the others are what they were. -/
theorem unioned_union_iff {a b : Nat} (ha : a < T.next) (hb : b < T.next) (v : α) {k l : Nat} :
    (T.union a b ha hb v).unioned k l ↔
      T.unioned k l ∨ (T.unioned k a ∨ T.unioned k b) ∧ (T.unioned l a ∨ T.unioned l b) := by
  simp only [unioned, union, beq_iff_eq]
  grind

/-- `unify_var_var` leaves keys of one class alone; otherwise it unites the two classes under the value
that the merge returns. -/
theorem unifyVarVar_eq_some {a b : Nat} (hrun : T.unifyVarVar merge a b = some T') :
    (T.unioned a b ∧ T' = T) ∨
      ∃ ha hb v, merge (T.probeValue a) (T.probeValue b) = some v ∧ T' = T.union a b ha hb v := by
  unfold unifyVarVar at hrun
  split at hrun
  · next h =>
    split at hrun
    · next hunion =>
      cases hrun
      exact Or.inl ⟨hunion, rfl⟩
    · obtain ⟨v, hv, rfl⟩ := Option.map_eq_some_iff.mp hrun
      exact Or.inr ⟨h.1, h.2, v, hv, rfl⟩
  · cases hrun

/-- `unify_var_value` gives the class of the key the value that the merge returns. -/
theorem unifyVarValue_eq_some {a : Nat} {v : α} (hrun : T.unifyVarValue merge a v = some T') :
    ∃ ha w, merge (T.probeValue a) v = some w ∧ T' = T.setValue a ha w := by
  unfold unifyVarValue at hrun
  split at hrun
  · next h =>
    obtain ⟨w, hw, rfl⟩ := Option.map_eq_some_iff.mp hrun
    exact ⟨h, w, hw, rfl⟩
  · cases hrun

/-! ## Relations that merging keeps -/

theorem newKey_along (hR : ∀ v, R v v) {v : α} (hv : R default v) : T.Along R (T.newKey v).2 := by
  intro k
  rw [probeValue_newKey]
  split
  · next hk =>
    rw [probeValue_fresh hk.ge]
    exact hv
  · exact hR _

/-- After a merge each of the two classes has the merged value. -/
theorem unifyVarVar_along {a b : Nat} (hR : ∀ v, R v v)
    (hmerge : ∀ v, merge (T.probeValue a) (T.probeValue b) = some v →
      R (T.probeValue a) v ∧ R (T.probeValue b) v)
    (hrun : T.unifyVarVar merge a b = some T') : T.Along R T' := by
  rcases unifyVarVar_eq_some hrun with ⟨-, rfl⟩ | ⟨ha, hb, v, hv, rfl⟩
  · exact .refl hR T'
  · obtain ⟨hleft, hright⟩ := hmerge v hv
    intro k
    rw [probeValue_union]
    split
    · next hk =>
      cases hk with
      | inl hka => rwa [probeValue_of_unioned hka]
      | inr hkb => rwa [probeValue_of_unioned hkb]
    · exact hR _

theorem unifyVarValue_along {a : Nat} {v : α} (hR : ∀ v, R v v)
    (hmerge : ∀ w, merge (T.probeValue a) v = some w → R (T.probeValue a) w)
    (hrun : T.unifyVarValue merge a v = some T') : T.Along R T' := by
  obtain ⟨ha, w, hw, rfl⟩ := unifyVarValue_eq_some hrun
  intro k
  rw [probeValue_setValue]
  split
  · next hk =>
    rw [probeValue_of_unioned hk]
    exact hmerge w hw
  · exact hR _

/-- A property of values that merging keeps holds of every key. -/
theorem unifyVarVar_forall {P : α → Prop} {a b : Nat} (hT : ∀ k, P (T.probeValue k))
    (hmerge : ∀ v w u, P v → P w → merge v w = some u → P u)
    (hrun : T.unifyVarVar merge a b = some T') (k : Nat) : P (T'.probeValue k) :=
  unifyVarVar_along (R := fun v w => P v → P w) (fun _ h => h)
    (fun v hv => ⟨fun ha => hmerge _ _ v ha (hT b) hv, fun hb => hmerge _ _ v (hT a) hb hv⟩) hrun k (hT k)

theorem unifyVarValue_forall {P : α → Prop} {a : Nat} {v : α} (hT : ∀ k, P (T.probeValue k))
    (hv : P v) (hmerge : ∀ v w u, P v → P w → merge v w = some u → P u)
    (hrun : T.unifyVarValue merge a v = some T') (k : Nat) : P (T'.probeValue k) :=
  unifyVarValue_along (R := fun v w => P v → P w) (fun _ h => h)
    (fun w hw ha => hmerge _ _ w ha hv hw) hrun k (hT k)

theorem newKey_forall {P : α → Prop} {v : α} (hT : ∀ k, P (T.probeValue k)) (hv : P v) (k : Nat) :
    P ((T.newKey v).2.probeValue k) := by
  rw [probeValue_newKey]
  split
  · exact hv
  · exact hT k

/-! ## The number of classes -/

theorem unioned_union {a b : Nat} (ha : a < T.next) (hb : b < T.next) (v : α) :
    (T.union a b ha hb v).unioned a b = true :=
  (unioned_union_iff ha hb v).mpr
    (Or.inr ⟨Or.inl (T.unioned_equivalence.refl a), Or.inr (T.unioned_equivalence.refl b)⟩)

/-- A union keeps the classes together. -/
theorem unioned_of_unioned {a b : Nat} (ha : a < T.next) (hb : b < T.next) (v : α) {k l : Nat}
    (h : T.unioned k l = true) : (T.union a b ha hb v).unioned k l = true :=
  (unioned_union_iff ha hb v).mpr (Or.inl h)

/-- The number of classes of the keys in the table. -/
def classes (T : UnificationTable α) : Nat := ((Finset.range T.next).image T.root).card

theorem classes_le (T : UnificationTable α) : T.classes ≤ T.next := by
  refine Finset.card_image_le.trans ?_
  rw [Finset.card_range]

/-- A union of two classes leaves one class fewer. -/
theorem classes_union_lt {a b : Nat} (ha : a < T.next) (hb : b < T.next) (v : α)
    (hne : T.unioned a b = false) : (T.union a b ha hb v).classes < T.classes := by
  have hroots : T.root a ≠ T.root b := beq_eq_false_iff_ne.mp hne
  have hb' : T.root b ∈ (Finset.range T.next).image T.root :=
    Finset.mem_image_of_mem _ (Finset.mem_range.mpr hb)
  have hsub : (Finset.range T.next).image (T.union a b ha hb v).root ⊆
      ((Finset.range T.next).image T.root).erase (T.root b) := by
    intro r hr
    obtain ⟨k, hk, rfl⟩ := Finset.mem_image.mp hr
    show (if T.root k = T.root b then T.root a else T.root k) ∈ _
    split
    · exact Finset.mem_erase.mpr ⟨hroots, Finset.mem_image_of_mem _ (Finset.mem_range.mpr ha)⟩
    · next hkb => exact Finset.mem_erase.mpr ⟨hkb, Finset.mem_image_of_mem _ hk⟩
  exact lt_of_le_of_lt (Finset.card_le_card hsub) (Finset.card_erase_lt_of_mem hb')

end UnificationTable
