import C0mpiler.Semantics.SolverErrors
import Mathlib

/-!
# Solving ends, and what a failed call leaves

A call that goes on to components has just made one class of two, so the number of classes bounds the
depth (`eq_ends`). A call that fails has left the table alone only if it fails before the first merge
(`unchanged_iff`).
-/

namespace Semantics

/-! ## Tables without loose ends -/

/-- The types in a type. -/
def ResolvedTyKind.interns : ResolvedTyKind → List TypeIntern
  | .ref t _ => [t]
  | .tup items => items
  | .array t _ => [t]
  | .fn r args => r :: args
  | .implicitSelf t => [t]
  | .placeholder | .builtIn _ | .enum | .trait | .any _ => []

/-- A type of a table with `n` keys. -/
def TypeIntern.Below (n : Nat) (i : TypeIntern) : Prop := ∀ k, i = .other k → k < n

/-- The one that `select` keeps was in the table already. -/
theorem TypeIntern.below_select {n : Nat} {t₁ t₂ : TypeIntern} (h₁ : t₁.Below n) (h₂ : t₂.Below n) :
    (t₁.select t₂).Below n := by
  cases t₁ with
  | never =>
    cases t₂ with
    | never => exact h₁
    | other k => exact h₂
  | other k => exact h₁

/-- The same for the components of a compound type. -/
theorem TypeIntern.below_zipWith_select {n : Nat} {l₁ l₂ : List TypeIntern}
    (h₁ : ∀ i ∈ l₁, i.Below n) (h₂ : ∀ i ∈ l₂, i.Below n) :
    ∀ i ∈ List.zipWith TypeIntern.select l₁ l₂, i.Below n := by
  intro i hi
  rw [← List.map_uncurry_zip_eq_zipWith] at hi
  obtain ⟨⟨t₁, t₂⟩, hp, rfl⟩ := List.mem_map.mp hi
  exact below_select (h₁ t₁ (List.of_mem_zip hp).1) (h₂ t₂ (List.of_mem_zip hp).2)

/-- A type whose keys are in the table; an enum and a trait have names, and `Self` is bound. -/
structure TypeOk (n : Nat) (ty : ResolvedTy) : Prop where
  below : ∀ i ∈ ty.kind.interns, i.Below n
  named : ty.kind = .enum ∨ ty.kind = .trait → ty.names ≠ none
  bound : ∀ i, ty.kind = .implicitSelf i → ∃ k, i = .other k

/-- What the typechecker keeps true of its table: no type in it mentions a key that is not there. -/
def TableOk (ut : TypeUt) : Prop := ∀ k, TypeOk ut.next (ut.probeValue k)

namespace TypeSolver

/-- A nameless compound type is in order when its parts are. -/
theorem typeOk_compound {n : Nat} {kind : ResolvedTyKind} (hbelow : ∀ i ∈ kind.interns, i.Below n)
    (h : match kind with
      | .ref _ _ | .tup _ | .array _ _ | .fn _ _ => True
      | _ => False) : TypeOk n ⟨none, kind⟩ := by
  refine ⟨hbelow, ?_, ?_⟩
  · rintro (rfl | rfl)
    · exact absurd h id
    · exact absurd h id
  · rintro i rfl
    exact absurd h id

/-- `unify` makes no type that mentions a new key, so the table stays in order. -/
theorem unifyValues_typeOk {n : Nat} {v w u : ResolvedTy} (hv : TypeOk n v) (hw : TypeOk n w)
    (h : unifyValues v w = .ok u) : TypeOk n u := by
  unfold unifyValues at h
  split at h
  · cases h
    exact hw
  · split at h
    · cases h
      exact hv
    · obtain ⟨vnames, vkind⟩ := v
      obtain ⟨wnames, wkind⟩ := w
      have hbv := hv.below
      have hbw := hw.below
      dsimp only at h hbv hbw
      -- one case for each pair of kinds that `unify_values` tells apart; a compound type is rebuilt
      -- from the selected components
      split at h
      · cases h; exact hv
      · cases h; exact hw
      · split at h <;> cases h
        exact hv
      · split at h <;> cases h
        exact typeOk_compound (List.forall_mem_singleton.mpr (TypeIntern.below_select
          (hbv _ List.mem_cons_self) (hbw _ List.mem_cons_self))) trivial
      · split at h <;> cases h
        exact typeOk_compound (TypeIntern.below_zipWith_select hbv hbw) trivial
      · cases h
      · cases h
      · split at h <;> cases h
        exact typeOk_compound (List.forall_mem_singleton.mpr (TypeIntern.below_select
          (hbv _ List.mem_cons_self) (hbw _ List.mem_cons_self))) trivial
      · cases h
        exact typeOk_compound (List.forall_mem_cons.mpr ⟨TypeIntern.below_select
          (hbv _ List.mem_cons_self) (hbw _ List.mem_cons_self), TypeIntern.below_zipWith_select
            (fun i hi => hbv i (List.mem_cons_of_mem _ hi))
            (fun i hi => hbw i (List.mem_cons_of_mem _ hi))⟩) trivial
      · split at h <;> cases h
        exact hv
      · split at h <;> cases h
        exact hw
      · cases h

/-- The only `panic!` of `unify_values` is at a nameless enum or trait, and a table holds none. -/
theorem unifyValues_not_panic {n : Nat} {v w : ResolvedTy} (hv : TypeOk n v) :
    unifyValues v w ≠ .error .panic := by
  intro h
  unfold unifyValues at h
  split at h
  · cases h
  · split at h
    · cases h
    · next hnames =>
      have hnone : v.names = none := by simpa using hnames
      have hkind : ¬(v.kind = .enum ∨ v.kind = .trait) := fun hkind => hv.named hkind hnone
      split at h
      all_goals first | cases h | (split at h <;> cases h)
      · next hl _ => exact hkind (Or.inl hl)
      · next hl _ => exact hkind (Or.inr hl)

/-! ## What a call keeps -/

/-- What stays when the solver runs: keys, classes that are one, and tables without loose ends. -/
structure Leads (ut ut' : TypeUt) : Prop where
  next : ut'.next = ut.next
  classes : ut'.classes ≤ ut.classes
  unioned : ∀ a b, ut.unioned a b = true → ut'.unioned a b = true
  tableOk : TableOk ut → TableOk ut'

theorem Leads.refl (ut : TypeUt) : Leads ut ut := ⟨rfl, le_rfl, fun _ _ h => h, fun h => h⟩

theorem Leads.trans {ut ut' ut'' : TypeUt} (h : Leads ut ut') (h' : Leads ut' ut'') :
    Leads ut ut'' where
  next := h'.next.trans h.next
  classes := h'.classes.trans h.classes
  unioned a b hab := h'.unioned a b (h.unioned a b hab)
  tableOk hut := h'.tableOk (h.tableOk hut)

/-- A merge of two classes. -/
structure Merged (ut ut' : TypeUt) (a b : TypeKey) : Prop where
  leads : Leads ut ut'
  fewer : ut'.classes < ut.classes
  unioned : ut'.unioned a b = true

/-- A merge that succeeds takes one class off the table and keeps everything else in order. -/
theorem unifyVarVar_ok {ut ut' : TypeUt} {a b : TypeKey} (hne : ut.unioned a b = false)
    (h : unifyVarVar ut a b = .ok ut') : Merged ut ut' a b ∧
      ∃ v, unifyValues (ut.probeValue a) (ut.probeValue b) = .ok v := by
  unfold unifyVarVar at h
  split at h
  · next hkeys =>
    rw [hne, if_neg Bool.false_ne_true] at h
    cases hv : unifyValues (ut.probeValue a) (ut.probeValue b) with
    | error e =>
      rw [hv] at h
      cases h
    | ok v =>
      rw [hv] at h
      cases h
      have hlt := UnificationTable.classes_union_lt hkeys.1 hkeys.2 v hne
      refine ⟨⟨⟨rfl, hlt.le, fun k l => UnificationTable.unioned_of_unioned _ _ v,
        fun hut k => ?_⟩, hlt, UnificationTable.unioned_union _ _ v⟩, v, rfl⟩
      rw [UnificationTable.probeValue_union]
      split
      · exact unifyValues_typeOk (hut a) (hut b) hv
      · exact hut k
  · cases h

/-- Overwriting the type of a class, as `unify_var_value` does at the end. -/
theorem setValue_leads {ut : TypeUt} {a : TypeKey} (ha : a < ut.next) {v : ResolvedTy}
    (hv : TableOk ut → TypeOk ut.next v) : Leads ut (ut.setValue a ha v) where
  next := rfl
  classes := le_rfl
  unioned _ _ h := h
  tableOk hut k := by
    rw [UnificationTable.probeValue_setValue]
    split
    · exact hv hut
    · exact hut k

/-- A class keeps its keys when it takes a new type. -/
theorem unifyVarValue_ok {ut ut' : TypeUt} {a : TypeKey} {v : ResolvedTy}
    (hv : TypeOk ut.next v) (h : unifyVarValue ut a v = .ok ut') : Leads ut ut' := by
  unfold unifyVarValue at h
  split at h
  · cases hw : unifyValues (ut.probeValue a) v with
    | error e =>
      rw [hw] at h
      cases h
    | ok w =>
      rw [hw] at h
      cases h
      exact setValue_leads _ fun hut => unifyValues_typeOk (hut a) hv hw
  · cases h

/-! ## Solving ends -/

/-- With more fuel than `n` the call returns, without a panic. -/
def Ends (run : Nat → Option SolverResult) (n : Nat) (ut : TypeUt) : Prop :=
  ∃ res : SolverResult, (∀ fuel, n < fuel → run fuel = some res) ∧ Leads ut res.2 ∧
    res.1 ≠ .error .panic

/-- A call that returns at once, whatever the stack. -/
theorem Ends.of_eq {run : Nat → Option SolverResult} {n : Nat} {ut : TypeUt} {res : SolverResult}
    (h : ∀ fuel, run (fuel + 1) = some res) (hleads : Leads ut res.2)
    (hpanic : res.1 ≠ .error .panic) : Ends run n ut := by
  refine ⟨res, fun fuel hfuel => ?_, hleads, hpanic⟩
  obtain ⟨fuel, rfl⟩ := Nat.exists_eq_succ_of_ne_zero (Nat.ne_of_gt (Nat.zero_lt_of_lt hfuel))
  exact h fuel

/-- A call that hands on to another one with less fuel. -/
theorem Ends.step {run run' : Nat → Option SolverResult} {n : Nat} {ut ut' : TypeUt}
    (h : ∀ fuel, run (fuel + 1) = run' fuel) (hleads : Leads ut ut') (hends : Ends run' n ut') :
    Ends run (n + 1) ut := by
  obtain ⟨res, hrun, hrest, hpanic⟩ := hends
  refine ⟨res, fun fuel hfuel => ?_, hleads.trans hrest, hpanic⟩
  obtain ⟨fuel, rfl⟩ := Nat.exists_eq_succ_of_ne_zero (Nat.ne_of_gt (Nat.zero_lt_of_lt hfuel))
  rw [h, hrun fuel (by omega)]

section

variable {n : Nat} {ut : TypeUt}

/-- The components are compared one after the other, each on the table that the last one left, so
the hypothesis is about every table that leads on from `ut`. -/
theorem eqAll_ends {ps : List (TypeIntern × TypeIntern)}
    (heq : ∀ ut' l r, Leads ut ut' → l.Below ut.next → r.Below ut.next →
      Ends (fun fuel => eq fuel false ut' l r) n ut')
    (hps : ∀ p ∈ ps, p.1.Below ut.next ∧ p.2.Below ut.next) {ut₁ : TypeUt} (hleads : Leads ut ut₁) :
    Ends (fun fuel => eqAll (eq fuel false) ps ut₁) n ut₁ := by
  induction ps generalizing ut₁ with
  | nil => exact ⟨(.ok (), ut₁), fun _ _ => rfl, .refl ut₁, nofun⟩
  | cons p ps ih =>
    obtain ⟨hl, hr⟩ := hps p List.mem_cons_self
    obtain ⟨⟨r, ut₂⟩, hrun, hfirst, hpanic⟩ := heq ut₁ p.1 p.2 hleads hl hr
    cases r with
    | error e =>
      refine ⟨(.error e, ut₂), fun fuel hfuel => ?_, hfirst, hpanic⟩
      have hhead : eq fuel false ut₁ p.1 p.2 = some (.error e, ut₂) := hrun fuel hfuel
      dsimp only [eqAll]
      rw [hhead]
    | ok u =>
      obtain ⟨res, hrest, hleads', hpanic'⟩ := ih (fun q hq => hps q (List.mem_cons_of_mem p hq))
        (hleads.trans hfirst)
      refine ⟨res, fun fuel hfuel => ?_, hfirst.trans hleads', hpanic'⟩
      have hhead : eq fuel false ut₁ p.1 p.2 = some (.ok u, ut₂) := hrun fuel hfuel
      dsimp only [eqAll]
      rw [hhead]
      exact hrest fuel hfuel

/-- The pairs that `eq_inner` compares are keys of the two types. -/
theorem components_below {m : Nat} {k₁ k₂ : ResolvedTyKind} (h₁ : ∀ i ∈ k₁.interns, i.Below m)
    (h₂ : ∀ i ∈ k₂.interns, i.Below m) : ∀ p ∈ components k₁ k₂, p.1.Below m ∧ p.2.Below m := by
  unfold components
  split
  · intro p hp
    obtain rfl := List.mem_singleton.mp hp
    exact ⟨h₁ _ List.mem_cons_self, h₂ _ List.mem_cons_self⟩
  · intro p hp
    obtain ⟨hl, hr⟩ := List.of_mem_zip hp
    exact ⟨h₁ _ hl, h₂ _ hr⟩
  · intro p hp
    obtain rfl := List.mem_singleton.mp hp
    exact ⟨h₁ _ List.mem_cons_self, h₂ _ List.mem_cons_self⟩
  · intro p hp
    rcases List.mem_cons.mp hp with rfl | hp
    · exact ⟨h₁ _ List.mem_cons_self, h₂ _ List.mem_cons_self⟩
    · obtain ⟨hl, hr⟩ := List.of_mem_zip hp
      exact ⟨h₁ _ (List.mem_cons_of_mem _ hl), h₂ _ (List.mem_cons_of_mem _ hr)⟩
  · intro p hp
    cases hp

/-- `eq_inner` ends when the calls on components do. -/
theorem eqInner_ends {leftTy rightTy : ResolvedTy} (hl : TypeOk ut.next leftTy)
    (hr : TypeOk ut.next rightTy)
    (heq : ∀ ut' l r, Leads ut ut' → l.Below ut.next → r.Below ut.next →
      Ends (fun fuel => eq fuel false ut' l r) n ut') :
    Ends (fun fuel => eqInner (eq fuel false) ut leftTy rightTy) n ut := by
  unfold eqInner
  split
  · split
    · exact ⟨(.ok (), ut), fun _ _ => rfl, .refl ut, nofun⟩
    · exact ⟨(.error (.err .nameMismatch), ut), fun _ _ => rfl, .refl ut, nofun⟩
  · exact eqAll_ends heq (components_below hl.below hr.below) (.refl ut)

end

/-- A table with a key has a class. -/
theorem classes_pos {ut : TypeUt} {k : TypeKey} (hk : k < ut.next) : 0 < ut.classes :=
  Finset.card_pos.mpr ⟨ut.root k, Finset.mem_image_of_mem _ (Finset.mem_range.mpr hk)⟩

/-- Where a `Self` type is met its key is read, which `TypeOk.bound` allows. -/
theorem implicitSelfTypes_ok {ut : TypeUt} (hut : TableOk ut) (left right : TypeKey) :
    ∃ types, implicitSelfTypes ut left right = some types ∧ ∀ l r, types = some (l, r) →
      TypeOk ut.next l ∧ TypeOk ut.next r := by
  have hprobe : ∀ (c : Bool) (k k' : TypeKey), ∃ types,
      (if c then some none else some (some (ut.probeValue k, ut.probeValue k'))) = some types ∧
        ∀ l r, types = some (l, r) → TypeOk ut.next l ∧ TypeOk ut.next r := by
    intro c k k'
    cases c with
    | true => exact ⟨none, rfl, nofun⟩
    | false =>
      refine ⟨some (ut.probeValue k, ut.probeValue k'), rfl, fun l r h => ?_⟩
      obtain ⟨rfl, rfl⟩ := Prod.mk.inj (Option.some.inj h)
      exact ⟨hut k, hut k'⟩
  unfold implicitSelfTypes
  -- the four rows of the match: both are `Self`, the left one, the right one, neither
  split
  · next l r hl hr =>
    obtain ⟨l, rfl⟩ := (hut left).bound l hl
    obtain ⟨r, rfl⟩ := (hut right).bound r hr
    exact hprobe (ut.unioned l r) l r
  · next l hl _ =>
    obtain ⟨l, rfl⟩ := (hut left).bound l hl
    exact hprobe (ut.unioned l right) l right
  · next r hr _ =>
    obtain ⟨r, rfl⟩ := (hut right).bound r hr
    exact hprobe (ut.unioned left r) left r
  · exact hprobe false left right

/-- A downgraded pair is read off the two types. -/
theorem downgrades_below {m : Nat} {l r : ResolvedTy} {p : TypeIntern × TypeIntern}
    (hl : TypeOk m l) (hr : TypeOk m r) (h : downgrades l r = some p) :
    p.1.Below m ∧ p.2.Below m := by
  unfold downgrades at h
  split at h
  · split at h
    · next inner₁ inner₂ hkl hkr =>
      obtain rfl := Option.some.inj h
      have hmem₁ : inner₁ ∈ l.kind.interns := hkl ▸ List.mem_singleton_self inner₁
      have hmem₂ : inner₂ ∈ r.kind.interns := hkr ▸ List.mem_singleton_self inner₂
      exact ⟨hl.below inner₁ hmem₁, hr.below inner₂ hmem₂⟩
    · cases h
  · cases h

/-- Keys that are not in one class are compared by the types they stand for. -/
theorem eq_compare {fuel : Nat} {downgrade : Bool} {ut : TypeUt} {left right : TypeKey}
    {leftTy rightTy : ResolvedTy} (hunion : ut.unioned left right = false)
    (htypes : implicitSelfTypes ut left right = some (some (leftTy, rightTy))) :
    eq (fuel + 1) downgrade ut (.other left) (.other right) =
      match if downgrade then downgrades leftTy rightTy else none with
      | some (inner₁, inner₂) => eq fuel false ut inner₁ inner₂
      | none =>
        match unifyVarVar ut left right with
        | .error e => some (.error e, ut)
        | .ok ut => eqInner (eq fuel false) ut leftTy rightTy := by
  rw [eq, if_neg (by rw [hunion]; exact Bool.false_ne_true)]
  generalize implicitSelfTypes ut left right = types at htypes ⊢
  cases htypes
  rfl

/-- Merging two classes of a table in order never runs into the `panic!`. -/
theorem unifyVarVar_not_panic {ut : TypeUt} {a b : TypeKey} (hut : TableOk ut) (ha : a < ut.next)
    (hb : b < ut.next) : unifyVarVar ut a b ≠ .error .panic := by
  intro h
  rw [unifyVarVar, dif_pos ⟨ha, hb⟩] at h
  split at h
  · cases h
  · cases hv : unifyValues (ut.probeValue a) (ut.probeValue b) with
    | error e =>
      rw [hv] at h
      cases h
      exact unifyValues_not_panic (hut a) hv
    | ok v =>
      rw [hv] at h
      cases h

/-- Each merge leaves one class fewer, so the depth of the recursion is bounded. -/
theorem eq_ends (n : Nat) : ∀ (downgrade : Bool) {ut : TypeUt} {left right : TypeIntern},
    TableOk ut → left.Below ut.next → right.Below ut.next → ut.classes + downgrade.toNat ≤ n →
    Ends (fun fuel => eq fuel downgrade ut left right) n ut := by
  induction n with
  -- no classes at all: one of the two is the never type
  | zero =>
    intro downgrade ut left right hut hl hr hn
    cases left with
    | never => exact .of_eq (fun _ => rfl) (.refl ut) nofun
    | other left =>
      have hpos := classes_pos (hl left rfl)
      omega
  -- the induction is on `classes`, with one more for a call that may still downgrade: that call
  -- goes on with the flag off and the same classes, and every other one only after a merge
  | succ n ih =>
    intro downgrade ut left right hut hl hr hn
    cases left with
    | never => exact .of_eq (fun _ => rfl) (.refl ut) nofun
    | other left =>
      cases right with
      | never => exact .of_eq (fun _ => rfl) (.refl ut) nofun
      | other right =>
        cases hunion : ut.unioned left right with
        -- already one class
        | true =>
          have hsame : ∀ fuel, eq (fuel + 1) downgrade ut (.other left) (.other right) =
              some (.ok (), ut) := fun _ => by rw [eq, if_pos hunion]
          exact .of_eq hsame (.refl ut) nofun
        | false =>
          obtain ⟨types, htypes, hok⟩ := implicitSelfTypes_ok hut left right
          cases types with
          | none =>
            have hself : ∀ fuel, eq (fuel + 1) downgrade ut (.other left) (.other right) =
                some (.ok (), ut) := fun _ => by
              rw [eq, if_neg (by rw [hunion]; exact Bool.false_ne_true), htypes]
            exact .of_eq hself (.refl ut) nofun
          | some types =>
            obtain ⟨leftTy, rightTy⟩ := types
            obtain ⟨hlt, hrt⟩ := hok leftTy rightTy rfl
            cases hdown : if downgrade then downgrades leftTy rightTy else none with
            | some p =>
              have hflag : downgrade = true := by
                cases downgrade
                · cases hdown
                · rfl
              rw [hflag] at hdown hn
              obtain ⟨hp₁, hp₂⟩ := downgrades_below hlt hrt hdown
              refine .step (fun fuel => ?_) (.refl ut) (ih false hut hp₁ hp₂ (by simpa using hn))
              rw [eq_compare hunion htypes, hflag, hdown]
            | none =>
              have hstep : ∀ fuel, eq (fuel + 1) downgrade ut (.other left) (.other right) =
                  match unifyVarVar ut left right with
                  | .error e => some (.error e, ut)
                  | .ok ut => eqInner (eq fuel false) ut leftTy rightTy := fun fuel => by
                rw [eq_compare hunion htypes, hdown]
              -- the merge took a class, so each component has the induction hypothesis
              cases hunify : unifyVarVar ut left right with
              | error e =>
                rw [hunify] at hstep
                refine .of_eq hstep (.refl ut) fun he => ?_
                obtain rfl := Except.error.inj he
                exact unifyVarVar_not_panic hut (hl left rfl) (hr right rfl) hunify
              | ok ut₁ =>
                rw [hunify] at hstep
                obtain ⟨hmerged, -⟩ := unifyVarVar_ok hunion hunify
                have hnext := hmerged.leads.next
                have hfewer := hmerged.fewer
                refine .step hstep hmerged.leads (eqInner_ends (hnext.symm ▸ hlt) (hnext.symm ▸ hrt)
                  fun ut₂ l r hleads hl' hr' => ih false (hleads.tableOk (hmerged.leads.tableOk hut))
                    (hleads.next.symm ▸ hl') (hleads.next.symm ▸ hr') ?_)
                have hle := hleads.classes
                simp only [Bool.toNat_false]
                omega

/-! ## What a failed call leaves -/

/-- Nothing that was known has changed. -/
def Unchanged (ut ut' : TypeUt) : Prop :=
  (∀ k, ut'.probeValue k = ut.probeValue k) ∧ ∀ a b, ut'.unioned a b = ut.unioned a b

theorem Unchanged.refl (ut : TypeUt) : Unchanged ut ut := ⟨fun _ => rfl, fun _ _ => rfl⟩

/-- Classes have become one, and none has been split. -/
structure Grown (ut ut' : TypeUt) : Prop where
  unioned : ∀ a b, ut.unioned a b = true → ut'.unioned a b = true
  merged : ∃ a b, ut.unioned a b = false ∧ ut'.unioned a b = true

/-- A call that has merged two classes did not leave the table alone. -/
theorem Grown.not_unchanged {ut ut' : TypeUt} (h : Grown ut ut') : ¬Unchanged ut ut' := by
  intro hsame
  obtain ⟨a, b, hne, heq⟩ := h.merged
  rw [hsame.2, hne] at heq
  cases heq

/-- A call leaves the table alone or merges classes. -/
def Kept (ut ut' : TypeUt) : Prop := ut' = ut ∨ Grown ut ut'

/-- A merge is not undone by what follows it. -/
theorem Grown.trans_kept {ut ut' ut'' : TypeUt} (h : Grown ut ut') (h' : Kept ut' ut'') :
    Grown ut ut'' := by
  rcases h' with rfl | h'
  · exact h
  · obtain ⟨a, b, hne, heq⟩ := h.merged
    exact ⟨fun k l hkl => h'.unioned k l (h.unioned k l hkl), a, b, hne, h'.unioned a b heq⟩

theorem Kept.trans {ut ut' ut'' : TypeUt} (h : Kept ut ut') (h' : Kept ut' ut'') : Kept ut ut'' := by
  rcases h with rfl | h
  · exact h'
  · exact Or.inr (h.trans_kept h')

/-- `unify_var_var` on two classes makes them one. -/
theorem unifyVarVar_grown {ut ut' : TypeUt} {a b : TypeKey} (hne : ut.unioned a b = false)
    (h : unifyVarVar ut a b = .ok ut') : Grown ut ut' := by
  obtain ⟨hmerged, -⟩ := unifyVarVar_ok hne h
  exact ⟨hmerged.leads.unioned, a, b, hne, hmerged.unioned⟩

/-- A list of calls leaves the table as it is or has merged in one of them. -/
theorem eqAll_kept {f : TypeUt → TypeIntern → TypeIntern → Option SolverResult}
    (hf : ∀ ut l r res, f ut l r = some res → Kept ut res.2) {ps : List (TypeIntern × TypeIntern)}
    {ut : TypeUt} {res : SolverResult} (h : eqAll f ps ut = some res) : Kept ut res.2 := by
  induction ps generalizing ut with
  | nil =>
    cases h
    exact Or.inl rfl
  | cons p ps ih =>
    rw [eqAll] at h
    split at h
    · next ut' hhead => exact (hf _ _ _ _ hhead).trans (ih h)
    · exact hf _ _ _ _ h

/-- Comparing the components leaves the table as it is or merges. -/
theorem eqInner_kept {f : TypeUt → TypeIntern → TypeIntern → Option SolverResult}
    (hf : ∀ ut l r res, f ut l r = some res → Kept ut res.2) {ut : TypeUt} {leftTy rightTy : ResolvedTy}
    {res : SolverResult} (h : eqInner f ut leftTy rightTy = some res) : Kept ut res.2 := by
  unfold eqInner at h
  split at h
  · split at h <;> (cases h; exact Or.inl rfl)
  · exact eqAll_kept hf h

/-- Either `eq` leaves the table as it is, or two classes have become one. -/
theorem eq_kept {fuel : Nat} {downgrade : Bool} {ut : TypeUt} {left right : TypeIntern}
    {res : SolverResult} (h : eq fuel downgrade ut left right = some res) : Kept ut res.2 := by
  induction fuel generalizing downgrade ut left right res with
  | zero => cases h
  | succ fuel ih =>
    cases left with
    | never =>
      cases h
      exact Or.inl rfl
    | other left =>
      cases right with
      | never =>
        cases h
        exact Or.inl rfl
      | other right =>
        rw [eq] at h
        split at h
        · cases h
          exact Or.inl rfl
        · next hunion =>
          split at h
          · cases h
            exact Or.inl rfl
          · cases h
            exact Or.inl rfl
          · split at h
            · exact ih h
            · split at h
              · cases h
                exact Or.inl rfl
              · next ut₁ hunify =>
                have hgrown := unifyVarVar_grown (Bool.eq_false_of_not_eq_true hunion) hunify
                exact Or.inr (hgrown.trans_kept (eqInner_kept (fun _ _ _ _ => ih) h))

/-- The types of two keys can be merged. -/
def Mergeable (ut : TypeUt) : TypeIntern → TypeIntern → Prop
  | .other a, .other b => ∃ ty, unifyValues (ut.probeValue a) (ut.probeValue b) = .ok ty
  | _, _ => True

/-- Nothing has to be done for two types: they are one, or one of them is the never type. -/
def settled (ut : TypeUt) : TypeIntern → TypeIntern → Bool
  | .other a, .other b => ut.unioned a b || implicitSelfTypes ut a b == some none
  | _, _ => true

/-- Where nothing has to be done, `eq` succeeds and leaves the table alone. -/
theorem eq_settled {fuel : Nat} {downgrade : Bool} {ut : TypeUt} {l r : TypeIntern}
    {res : SolverResult} (h : settled ut l r = true) (hrun : eq fuel downgrade ut l r = some res) :
    res = (.ok (), ut) := by
  cases fuel with
  | zero => cases hrun
  | succ fuel =>
    cases l with
    | never =>
      cases hrun
      rfl
    | other l =>
      cases r with
      | never =>
        cases hrun
        rfl
      | other r =>
        rw [eq] at hrun
        split at hrun
        · cases hrun
          rfl
        · next hunion =>
          have hself : implicitSelfTypes ut l r = some none := by
            rcases Bool.or_eq_true_iff.mp h with h | h
            · exact absurd h hunion
            · exact beq_iff_eq.mp h
          rw [hself] at hrun
          cases hrun
          rfl

/-- `unify_var_var` fails only on types that cannot be merged. -/
theorem unifyVarVar_error {ut : TypeUt} {a b : TypeKey} {e : SolveFailure} (ha : a < ut.next)
    (hb : b < ut.next) (h : unifyVarVar ut a b = .error e) :
    ¬Mergeable ut (.other a) (.other b) := by
  rintro ⟨ty, hty⟩
  rw [unifyVarVar, dif_pos ⟨ha, hb⟩, hty] at h
  split at h <;> cases h

/-- Two keys that are compared and not downgraded are merged at once, or the call fails and leaves
the table alone. -/
theorem eq_compared {fuel : Nat} {downgrade : Bool} {ut : TypeUt} {a b : TypeKey}
    {leftTy rightTy : ResolvedTy} {res : SolverResult} (ha : a < ut.next) (hb : b < ut.next)
    (hunion : ut.unioned a b = false)
    (htypes : implicitSelfTypes ut a b = some (some (leftTy, rightTy)))
    (hdown : (if downgrade then downgrades leftTy rightTy else none) = none)
    (hrun : eq fuel downgrade ut (.other a) (.other b) = some res) :
    (Mergeable ut (.other a) (.other b) ∧ Grown ut res.2) ∨
      (¬Mergeable ut (.other a) (.other b) ∧ ∃ e, res = (.error e, ut)) := by
  cases fuel with
  | zero => cases hrun
  | succ fuel =>
    rw [eq_compare hunion htypes, hdown] at hrun
    cases hunify : unifyVarVar ut a b with
    | error e =>
      rw [hunify] at hrun
      cases hrun
      exact Or.inr ⟨unifyVarVar_error ha hb hunify, e, rfl⟩
    | ok ut₁ =>
      rw [hunify] at hrun
      exact Or.inl ⟨(unifyVarVar_ok hunion hunify).2,
        (unifyVarVar_grown hunion hunify).trans_kept (eqInner_kept (fun _ _ _ _ => eq_kept) hrun)⟩

/-- Where something has to be done, the first thing is the merge of the two classes: it decides
whether the table changes. -/
theorem eq_unsettled {fuel : Nat} {ut : TypeUt} {l r : TypeIntern} {res : SolverResult}
    (hut : TableOk ut) (hl : l.Below ut.next) (hr : r.Below ut.next) (h : settled ut l r = false)
    (hrun : eq fuel false ut l r = some res) :
    (Mergeable ut l r ∧ Grown ut res.2) ∨ (¬Mergeable ut l r ∧ ∃ e, res = (.error e, ut)) := by
  cases l with
  | never => cases h
  | other a =>
    cases r with
    | never => cases h
    | other b =>
      obtain ⟨hunion, hself⟩ := Bool.or_eq_false_iff.mp h
      obtain ⟨types, htypes, -⟩ := implicitSelfTypes_ok hut a b
      cases types with
      | none =>
        rw [htypes] at hself
        cases hself
      | some types =>
        exact eq_compared (hl a rfl) (hr b rfl) hunion htypes rfl hrun

/-- The first pair that is not settled cannot be merged. -/
def FirstRefused (ut : TypeUt) (ps : List (TypeIntern × TypeIntern)) : Prop :=
  ∀ p, (ps.find? fun p => !settled ut p.1 p.2) = some p → ¬Mergeable ut p.1 p.2

/-- A list of components that fails leaves the table alone exactly when the first one that is not
settled is refused. -/
theorem eqAll_unchanged_iff {fuel : Nat} {ut : TypeUt} (hut : TableOk ut)
    {ps : List (TypeIntern × TypeIntern)} (hps : ∀ p ∈ ps, p.1.Below ut.next ∧ p.2.Below ut.next)
    {e : SolveFailure} {ut' : TypeUt} (hrun : eqAll (eq fuel false) ps ut = some (.error e, ut')) :
    (ut' = ut ∧ FirstRefused ut ps) ∨ (Grown ut ut' ∧ ¬FirstRefused ut ps) := by
  induction ps with
  | nil => cases hrun
  | cons p ps ih =>
    obtain ⟨hl, hr⟩ := hps p List.mem_cons_self
    unfold FirstRefused
    cases hsettled : settled ut p.1 p.2 with
    -- a settled component changes nothing, so the rest decides
    | true =>
      rw [eqAll] at hrun
      rw [List.find?_cons_of_neg (by simp [hsettled])]
      split at hrun
      · next ut₁ hhead =>
        obtain rfl : ut₁ = ut := (Prod.mk.inj (eq_settled hsettled hhead)).2
        exact ih (fun q hq => hps q (List.mem_cons_of_mem p hq)) hrun
      · have hok := eq_settled hsettled hrun
        cases hok
    -- otherwise it is the first one, and its merge decides
    | false =>
      rw [List.find?_cons_of_pos (by simp [hsettled])]
      have hfirst : (∀ q, some p = some q → ¬Mergeable ut q.1 q.2) ↔ ¬Mergeable ut p.1 p.2 := by
        simp only [Option.some.injEq, forall_eq']
      rw [hfirst, not_not]
      rw [eqAll] at hrun
      split at hrun
      · next ut₁ hhead =>
        rcases eq_unsettled hut hl hr hsettled hhead with ⟨hmerge, hgrown⟩ | ⟨-, e', he'⟩
        · exact Or.inr ⟨hgrown.trans_kept (eqAll_kept (fun _ _ _ _ => eq_kept) hrun), hmerge⟩
        · cases he'
      · rcases eq_unsettled hut hl hr hsettled hrun with ⟨hmerge, hgrown⟩ | ⟨hrefused, e', he'⟩
        · exact Or.inr ⟨hgrown, hmerge⟩
        · exact Or.inl ⟨(Prod.mk.inj he').2, hrefused⟩

/-- The two types that `eq` merges first: behind a shared and a mutable reference if it downgrades. -/
def compared (ut : TypeUt) (downgrade : Bool) (l r : TypeIntern) : TypeIntern × TypeIntern :=
  match l, r with
  | .other a, .other b =>
    match implicitSelfTypes ut a b with
    | some (some (leftTy, rightTy)) =>
      (if downgrade then downgrades leftTy rightTy else none).getD (l, r)
    | _ => (l, r)
  | _, _ => (l, r)

/-- A failed `eq` has failed at the first merge, or it has made one. -/
theorem eq_error {fuel : Nat} {downgrade : Bool} {ut ut' : TypeUt} {l r : TypeIntern}
    {e : SolveFailure} (hut : TableOk ut) (hl : l.Below ut.next) (hr : r.Below ut.next)
    (hrun : eq fuel downgrade ut l r = some (.error e, ut')) :
    (Mergeable ut (compared ut downgrade l r).1 (compared ut downgrade l r).2 ∧ Grown ut ut') ∨
      (¬Mergeable ut (compared ut downgrade l r).1 (compared ut downgrade l r).2 ∧ ut' = ut) := by
  have hunsettled : settled ut l r = false := by
    refine Bool.eq_false_iff.mpr fun h => ?_
    cases eq_settled h hrun
  cases l with
  | never => cases hunsettled
  | other a =>
    cases r with
    | never => cases hunsettled
    | other b =>
      obtain ⟨hunion, hself⟩ := Bool.or_eq_false_iff.mp hunsettled
      obtain ⟨types, htypes, hok⟩ := implicitSelfTypes_ok hut a b
      cases types with
      | none =>
        rw [htypes] at hself
        -- a `Self` type against itself succeeds
        cases hself
      | some types =>
        obtain ⟨leftTy, rightTy⟩ := types
        have hcompared : compared ut downgrade (.other a) (.other b) =
            (if downgrade then downgrades leftTy rightTy else none).getD (.other a, .other b) := by
          rw [compared, htypes]
        rw [hcompared]
        cases hdown : if downgrade then downgrades leftTy rightTy else none with
        -- no downgrade: the two keys themselves are merged
        | none =>
          rcases eq_compared (hl a rfl) (hr b rfl) hunion htypes hdown hrun with h | ⟨h, e', he'⟩
          · exact Or.inl h
          · exact Or.inr ⟨h, (Prod.mk.inj he').2⟩
        -- a downgrade: `eq` is called on the referenced types, with the flag off
        | some p =>
          have hdown' : downgrades leftTy rightTy = some p := by
            cases downgrade
            · cases hdown
            · exact hdown
          obtain ⟨hp₁, hp₂⟩ := downgrades_below (hok _ _ rfl).1 (hok _ _ rfl).2 hdown'
          cases fuel with
          | zero => cases hrun
          | succ fuel =>
            rw [eq_compare hunion htypes, hdown] at hrun
            have hinner : settled ut p.1 p.2 = false := by
              refine Bool.eq_false_iff.mpr fun h => ?_
              cases eq_settled h hrun
            rcases eq_unsettled hut hp₁ hp₂ hinner hrun with h | ⟨h, e', he'⟩
            · exact Or.inl h
            · exact Or.inr ⟨h, (Prod.mk.inj he').2⟩

/-! ## `eq_with_type` -/

/-- Writing back the type that a class has. -/
theorem setValue_probe {ut : TypeUt} {a : TypeKey} (ha : a < ut.next) :
    ut.setValue a ha (ut.probeValue a) = ut := by
  have hvalue : Function.update ut.value (ut.root a) (ut.probeValue a) = ut.value :=
    Function.update_eq_self (ut.root a) ut.value
  unfold UnificationTable.setValue
  simp only [hvalue]

/-- `eq_with_type` leaves the table alone where the type cannot be merged with that of the key, or
where it says nothing new of it and its name or its first component is refused. -/
def TypeRefused (ut : TypeUt) (a : TypeKey) (rightTy : ResolvedTy) : Prop :=
  ∀ w, unifyValues (ut.probeValue a) rightTy = .ok w → w = ut.probeValue a ∧
    ((ut.probeValue a).names = rightTy.names →
      FirstRefused ut (components (ut.probeValue a).kind rightTy.kind))

/-- `eq_with_type` writes the unified type first, so it leaves the table alone only if that type is
the one it had and no component is merged. -/
theorem eqWithType_error {fuel : Nat} {ut ut' : TypeUt} {a : TypeKey} {rightTy : ResolvedTy}
    {e : SolveFailure} (hut : TableOk ut) (ha : a < ut.next) (hty : TypeOk ut.next rightTy)
    (hrun : eqWithType fuel ut (.other a) rightTy = some (.error e, ut')) :
    Unchanged ut ut' ↔ TypeRefused ut a rightTy := by
  unfold eqWithType at hrun
  dsimp only at hrun
  rw [unifyVarValue, dif_pos ha] at hrun
  cases hunify : unifyValues (ut.probeValue a) rightTy with
  -- refused at once
  | error e' =>
    rw [hunify] at hrun
    cases hrun
    refine iff_of_true (.refl ut) fun w hw => ?_
    rw [hunify] at hw
    cases hw
  -- unified; the class takes `w` even where a component fails later
  | ok w =>
    rw [hunify] at hrun
    dsimp only at hrun
    have hrefused : TypeRefused ut a rightTy ↔ w = ut.probeValue a ∧
        ((ut.probeValue a).names = rightTy.names →
          FirstRefused ut (components (ut.probeValue a).kind rightTy.kind)) := by
      rw [TypeRefused, hunify]
      simp only [Except.ok.injEq, forall_eq']
    rw [hrefused]
    -- unchanged so far exactly when `w` is what the class had
    by_cases hw : w = ut.probeValue a
    · subst hw
      rw [setValue_probe ha] at hrun
      unfold eqInner at hrun
      split at hrun
      · next hnames =>
        split at hrun
        · cases hrun
        · cases hrun
          exact iff_of_true (.refl ut) ⟨rfl, fun h => absurd h hnames⟩
      · next hnames =>
        have hcomponents := components_below (hut a).below hty.below
        rcases eqAll_unchanged_iff hut hcomponents hrun with ⟨rfl, hfirst⟩ | ⟨hgrown, hfirst⟩
        · exact iff_of_true (.refl _) ⟨rfl, fun _ => hfirst⟩
        · exact iff_of_false hgrown.not_unchanged fun h => hfirst (h.2 (not_not.mp hnames))
    -- the class has a new type: the table differs at `a`, or two classes are one
    · refine iff_of_false (fun hsame => ?_) fun h => hw h.1
      rcases eqInner_kept (fun _ _ _ _ => eq_kept) hrun with heq | hgrown
      · have heq' : ut' = ut.setValue a ha w := heq
        have hprobe := hsame.1 a
        rw [heq', UnificationTable.probeValue_setValue, if_pos (ut.unioned_equivalence.refl a)] at hprobe
        exact hw hprobe
      · obtain ⟨k, l, hne, heq⟩ := hgrown.merged
        have hne' : ut.unioned k l = false := hne
        have heq' : ut'.unioned k l = true := heq
        rw [hsame.2, hne'] at heq'
        cases heq'

/-! ## Variables in their own types -/

/-- The components of a type. -/
def parts : ResolvedTyKind → List TypeIntern
  | .ref t _ => [t]
  | .tup items => items
  | .array t _ => [t]
  | .fn r args => r :: args
  | .placeholder | .builtIn _ | .enum | .trait | .any _ | .implicitSelf _ => []

/-- The class of `a` is met on the way down from a type. -/
inductive Inside (ut : TypeUt) (a : TypeKey) : TypeIntern → Prop
  | same {k : TypeKey} (h : ut.unioned a k = true) : Inside ut a (.other k)
  | part {k : TypeKey} {i : TypeIntern} (hi : i ∈ parts (ut.probeValue k).kind)
      (h : Inside ut a i) : Inside ut a (.other k)

/-- A type contains the class of `a`. -/
def Contains (ut : TypeUt) (a : TypeKey) (ty : ResolvedTy) : Prop :=
  ∃ i ∈ parts ty.kind, Inside ut a i

/-- A type that contains another is compound. -/
theorem Contains.parts_ne_nil {ut : TypeUt} {a : TypeKey} {ty : ResolvedTy} (h : Contains ut a ty) :
    parts ty.kind ≠ [] := by
  obtain ⟨i, hi, -⟩ := h
  exact List.ne_nil_of_mem hi

section

variable {kind : AnyTyKind} {w : ResolvedTy}

/-- A variable of no kind takes any type; one of integers refuses the types with components. -/
theorem unifyValues_var_left (hw : parts w.kind ≠ []) :
    unifyValues ⟨none, .any kind⟩ w =
      if w.names.isSome ∨ kind = .any then .ok w else .error (.err .anyTypeMismatch) := by
  obtain ⟨names, wkind⟩ := w
  cases names with
  | some names => simp [unifyValues]
  | none => cases kind <;> cases wkind <;> first | rfl | exact absurd rfl hw

/-- A compound type against a type variable. -/
theorem unifyValues_var_right (hw : parts w.kind ≠ []) :
    unifyValues w ⟨none, .any kind⟩ =
      if w.names.isSome ∨ kind = .any then .ok w else .error (.err .anyTypeMismatch) := by
  obtain ⟨names, wkind⟩ := w
  cases names with
  | some names => simp [unifyValues]
  | none => cases kind <;> cases wkind <;> first | rfl | exact absurd rfl hw

/-- A compound type is not the type `any`. -/
theorem isAnyType_of_parts (hw : parts w.kind ≠ []) : w.isAnyType = false := by
  obtain ⟨names, wkind⟩ := w
  cases wkind <;> first | rfl | exact absurd rfl hw

/-- A type variable has no components. -/
theorem components_var_left (w : ResolvedTyKind) : components (.any kind) w = [] := by
  cases w <;> rfl

/-- A type variable has no components. -/
theorem components_var_right (w : ResolvedTyKind) : components w (.any kind) = [] := by
  cases w <;> rfl

/-- Of the type variables only `any` is the type `any`. -/
theorem isAnyType_var : (⟨none, .any kind⟩ : ResolvedTy).isAnyType = true ↔ kind = .any := by
  cases kind <;> decide

/-- Behind the merge only the name of the type can be refused. -/
theorem eqInner_var {f : TypeUt → TypeIntern → TypeIntern → Option SolverResult} {ut : TypeUt}
    {v : ResolvedTy} (hv : v = ⟨none, .any kind⟩) (hw : parts w.kind ≠ [])
    (hok : w.names.isSome ∨ kind = .any) : ∃ r, eqInner f ut v w = some (r, ut) ∧
      eqInner f ut w v = some (r, ut) ∧ ((∃ e, r = .error e) ↔ kind ≠ .any) := by
  subst hv
  have hany := isAnyType_of_parts hw
  -- `any` is accepted at once; an integer variable is compared by name and fails there
  by_cases hkind : kind = .any
  · subst hkind
    have hself : (⟨none, .any .any⟩ : ResolvedTy).isAnyType = true := rfl
    refine ⟨.ok (), ?_, ?_, by simp⟩
    · unfold eqInner
      rw [hself, Bool.true_or, if_pos rfl, components_var_left]
      split <;> rfl
    · unfold eqInner
      rw [hself, Bool.or_true, if_pos rfl, components_var_right]
      split <;> rfl
  · have hself : (⟨none, .any kind⟩ : ResolvedTy).isAnyType = false :=
      Bool.eq_false_iff.mpr fun h => hkind (isAnyType_var.mp h)
    have hnames : w.names ≠ none := Option.isSome_iff_ne_none.mp (hok.resolve_right hkind)
    refine ⟨.error (.err .nameMismatch), ?_, ?_, by simp [hkind]⟩
    · unfold eqInner
      rw [if_pos (Ne.symm hnames), hself, hany]
      rfl
    · unfold eqInner
      rw [if_pos hnames, hself, hany]
      rfl

end

section

variable {ut : TypeUt} {a b : TypeKey} {kind : AnyTyKind}

/-- `unify_var_var` of two classes that are not one. -/
theorem unifyVarVar_eq (ha : a < ut.next) (hb : b < ut.next) (hne : ut.unioned a b = false) :
    unifyVarVar ut a b =
      (unifyValues (ut.probeValue a) (ut.probeValue b)).map fun v => ut.union a b ha hb v := by
  rw [unifyVarVar, dif_pos ⟨ha, hb⟩, hne, if_neg Bool.false_ne_true]
  cases unifyValues (ut.probeValue a) (ut.probeValue b) <;> rfl

/-- `eq` reads the types as they are when none of them is `Self`. -/
theorem implicitSelfTypes_plain (ha : ∀ i, (ut.probeValue a).kind ≠ .implicitSelf i)
    (hb : ∀ i, (ut.probeValue b).kind ≠ .implicitSelf i) :
    implicitSelfTypes ut a b = some (some (ut.probeValue a, ut.probeValue b)) := by
  unfold implicitSelfTypes
  split
  · next l _ hl _ => exact absurd hl (ha l)
  · next l hl _ => exact absurd hl (ha l)
  · next r hr _ => exact absurd hr (hb r)
  · rfl

/-- A compound type is not `Self`. -/
theorem not_self_of_parts {w : ResolvedTy} (hw : parts w.kind ≠ []) (i : TypeIntern) :
    w.kind ≠ .implicitSelf i := fun h => hw (by rw [h]; rfl)

/-- A variable on the left is not downgraded. -/
theorem downgrades_var_left {v w : ResolvedTy} (hv : v.kind = .any kind) : downgrades v w = none := by
  unfold downgrades
  rw [hv]
  split <;> rfl

/-- A variable on the right is not downgraded. -/
theorem downgrades_var_right {v w : ResolvedTy} (hw : w.kind = .any kind) : downgrades v w = none := by
  unfold downgrades
  rw [hw]
  split
  · split
    · contradiction
    · rfl
  · rfl

/-- A variable and a compound type are in different classes. -/
theorem not_unioned_of_var (hvar : (ut.probeValue a).kind = .any kind)
    (hw : parts (ut.probeValue b).kind ≠ []) : ut.unioned a b = false ∧ ut.unioned b a = false := by
  have hne : ut.root a ≠ ut.root b := by
    intro hroot
    have hprobe : ut.probeValue a = ut.probeValue b := congrArg ut.value hroot
    rw [← hprobe, hvar] at hw
    exact hw rfl
  exact ⟨beq_eq_false_iff_ne.mpr hne, beq_eq_false_iff_ne.mpr hne.symm⟩

/-- A variable and a type with components: the call fails for the variables of integers only. -/
theorem eq_var (ha : a < ut.next) (hb : b < ut.next) (hvar : ut.probeValue a = ⟨none, .any kind⟩)
    (hw : parts (ut.probeValue b).kind ≠ []) (fuel : Nat) (downgrade : Bool) :
    (∃ res, eq (fuel + 1) downgrade ut (.other a) (.other b) = some res ∧
        ((∃ e, res.1 = .error e) ↔ kind ≠ .any)) ∧
      ∃ res, eq (fuel + 1) downgrade ut (.other b) (.other a) = some res ∧
        ((∃ e, res.1 = .error e) ↔ kind ≠ .any) := by
  have hkind : (ut.probeValue a).kind = .any kind := congrArg ResolvedTy.kind hvar
  have hselfa : ∀ i, (ut.probeValue a).kind ≠ .implicitSelf i := fun i h => by
    rw [hkind] at h
    cases h
  have hselfb := not_self_of_parts hw
  obtain ⟨hab, hba⟩ := not_unioned_of_var hkind hw
  have hleft : (if downgrade then downgrades (ut.probeValue a) (ut.probeValue b) else none) = none := by
    rw [downgrades_var_left hkind, ite_self]
  have hright : (if downgrade then downgrades (ut.probeValue b) (ut.probeValue a) else none) = none := by
    rw [downgrades_var_right hkind, ite_self]
  rw [eq_compare hab (implicitSelfTypes_plain hselfa hselfb), hleft,
    eq_compare hba (implicitSelfTypes_plain hselfb hselfa), hright]
  dsimp only
  rw [unifyVarVar_eq ha hb hab, unifyVarVar_eq hb ha hba]
  -- the two orders succeed or fail together: `unify_values` is the same for both
  by_cases hok : (ut.probeValue b).names.isSome ∨ kind = .any
  · have hv : unifyValues (ut.probeValue a) (ut.probeValue b) = .ok (ut.probeValue b) := by
      rw [hvar, unifyValues_var_left hw, if_pos hok]
    have hv' : unifyValues (ut.probeValue b) (ut.probeValue a) = .ok (ut.probeValue b) := by
      rw [hvar, unifyValues_var_right hw, if_pos hok]
    rw [hv, hv']
    dsimp only [Except.map]
    have hinner : ∀ ut', ∃ r, eqInner (eq fuel false) ut' (ut.probeValue a) (ut.probeValue b) =
        some (r, ut') ∧ eqInner (eq fuel false) ut' (ut.probeValue b) (ut.probeValue a) = some (r, ut') ∧
          ((∃ e, r = .error e) ↔ kind ≠ .any) := fun _ => eqInner_var hvar hw hok
    constructor
    · obtain ⟨r, hrun, -, hr⟩ := hinner (ut.union a b ha hb (ut.probeValue b))
      exact ⟨_, hrun, hr⟩
    · obtain ⟨r, -, hrun, hr⟩ := hinner (ut.union b a hb ha (ut.probeValue b))
      exact ⟨_, hrun, hr⟩
  -- an integer variable and a nameless type: both orders fail at the merge
  · have hv : unifyValues (ut.probeValue a) (ut.probeValue b) = .error (.err .anyTypeMismatch) := by
      rw [hvar, unifyValues_var_left hw, if_neg hok]
    have hv' : unifyValues (ut.probeValue b) (ut.probeValue a) = .error (.err .anyTypeMismatch) := by
      rw [hvar, unifyValues_var_right hw, if_neg hok]
    have hany : kind ≠ .any := fun h => hok (Or.inr h)
    rw [hv, hv']
    exact ⟨⟨_, rfl, by simp [hany]⟩, ⟨_, rfl, by simp [hany]⟩⟩

/-- The same for a type that is given and not looked up. -/
theorem eqWithType_var (ha : a < ut.next) (hvar : ut.probeValue a = ⟨none, .any kind⟩)
    {w : ResolvedTy} (hw : parts w.kind ≠ []) (fuel : Nat) :
    ∃ res, eqWithType fuel ut (.other a) w = some res ∧ ((∃ e, res.1 = .error e) ↔ kind ≠ .any) := by
  unfold eqWithType
  dsimp only
  rw [unifyVarValue, dif_pos ha]
  by_cases hok : w.names.isSome ∨ kind = .any
  · have hv : unifyValues (ut.probeValue a) w = .ok w := by
      rw [hvar, unifyValues_var_left hw, if_pos hok]
    rw [hv]
    dsimp only
    have hinner : ∃ r, eqInner (eq fuel false) (ut.setValue a ha w) (ut.probeValue a) w =
        some (r, ut.setValue a ha w) ∧ eqInner (eq fuel false) (ut.setValue a ha w) w (ut.probeValue a) =
          some (r, ut.setValue a ha w) ∧ ((∃ e, r = .error e) ↔ kind ≠ .any) := eqInner_var hvar hw hok
    obtain ⟨r, hrun, -, hr⟩ := hinner
    exact ⟨_, hrun, hr⟩
  · have hv : unifyValues (ut.probeValue a) w = .error (.err .anyTypeMismatch) := by
      rw [hvar, unifyValues_var_left hw, if_neg hok]
    have hany : kind ≠ .any := fun h => hok (Or.inr h)
    rw [hv]
    exact ⟨_, rfl, by simp [hany]⟩

end

end TypeSolver

/-! ## Calls of the solver -/

open TypeSolver

/-- The two entrances of the solver. -/
inductive SolverCall where
  | eq (downgrade : Bool) (left right : TypeIntern)
  | eqWithType (left : TypeIntern) (right : ResolvedTy)

namespace SolverCall

/-- The run of a call with `fuel` levels of the stack. -/
def run (fuel : Nat) (ut : TypeUt) : SolverCall → Option SolverResult
  | eq downgrade left right => TypeSolver.eq fuel downgrade ut left right
  | eqWithType left right => TypeSolver.eqWithType fuel ut left right

/-- The call is about types of a table with `n` keys. -/
def Ok (n : Nat) : SolverCall → Prop
  | eq _ left right => left.Below n ∧ right.Below n
  | eqWithType left right => left.Below n ∧ TypeOk n right

/-- If the call fails, it fails at what it merges first. -/
def Refused (ut : TypeUt) : SolverCall → Prop
  | eq downgrade left right =>
    ¬Mergeable ut (compared ut downgrade left right).1 (compared ut downgrade left right).2
  | eqWithType .never _ => True
  | eqWithType (.other left) right => TypeRefused ut left right

/-- The call is about a variable of a kind and a type that contains it. -/
def Occurs (ut : TypeUt) (kind : AnyTyKind) : SolverCall → Prop
  | eq _ (.other a) (.other b) =>
    (ut.probeValue a = ⟨none, .any kind⟩ ∧ Contains ut a (ut.probeValue b)) ∨
      (ut.probeValue b = ⟨none, .any kind⟩ ∧ Contains ut b (ut.probeValue a))
  | eqWithType (.other a) right => ut.probeValue a = ⟨none, .any kind⟩ ∧ Contains ut a right
  | _ => False

/-- Both calls end, at a depth that the number of keys bounds. -/
theorem run_ends {ut : TypeUt} {c : SolverCall} (hut : TableOk ut) (hc : c.Ok ut.next) :
    Ends (fun fuel => c.run fuel ut) (ut.next + 1) ut := by
  cases c with
  | eq downgrade left right =>
    refine eq_ends (ut.next + 1) downgrade hut hc.1 hc.2 ?_
    have hle := ut.classes_le
    have hflag := downgrade.toNat_le
    omega
  | eqWithType left right =>
    cases left with
    | never => exact .of_eq (fun _ => rfl) (.refl ut) nofun
    | other a =>
      have ha := hc.1 a rfl
      have hrun : ∀ fuel, (eqWithType (.other a) right).run fuel ut =
          match unifyVarValue ut a right with
          | .error e => some (.error e, ut)
          | .ok ut' => TypeSolver.eqInner (TypeSolver.eq fuel false) ut' (ut.probeValue a) right :=
        fun _ => rfl
      cases hunify : unifyVarValue ut a right with
      -- `unify_var_value` fails: the error is the one of `unify_values`
      | error e =>
        rw [hunify] at hrun
        refine .of_eq (fun fuel => hrun (fuel + 1)) (.refl ut) fun he => ?_
        obtain rfl := Except.error.inj he
        rw [unifyVarValue, dif_pos ha] at hunify
        cases hv : TypeSolver.unifyValues (ut.probeValue a) right with
        | error e =>
          rw [hv] at hunify
          cases hunify
          exact unifyValues_not_panic (hut a) hv
        | ok w =>
          rw [hv] at hunify
          cases hunify
      -- it succeeds: the components are compared as in `eq`
      | ok ut₁ =>
        rw [hunify] at hrun
        have hleads := unifyVarValue_ok hc.2 hunify
        have hinner : Ends (fun fuel => TypeSolver.eqInner (TypeSolver.eq fuel false) ut₁
            (ut.probeValue a) right) (ut.next + 1) ut₁ := by
          refine eqInner_ends (hleads.next.symm ▸ hut a) (hleads.next.symm ▸ hc.2)
            fun ut₂ l r hleads₂ hl hr => eq_ends (ut.next + 1) false
              (hleads₂.tableOk (hleads.tableOk hut)) (hleads₂.next.symm ▸ hl)
              (hleads₂.next.symm ▸ hr) ?_
          have hle := ut.classes_le
          have hle₁ := hleads.classes
          have hle₂ := hleads₂.classes
          simp only [Bool.toNat_false]
          omega
        obtain ⟨res, hres, hrest, hpanic⟩ := hinner
        exact ⟨res, fun fuel hfuel => (hrun fuel).trans (hres fuel hfuel), hleads.trans hrest, hpanic⟩

end SolverCall

/-- The model without kinds of failure has enough stack at the number of keys: where it returns no
table, the call has failed. -/
theorem solveEq_ends {ut : TypeUt} {left right : TypeIntern} (downgrade : Bool) (hut : TableOk ut)
    (hl : left.Below ut.next) (hr : right.Below ut.next) :
    ∃ ut' : Option TypeUt, ∀ fuel, ut.next + 1 < fuel →
      solveEq fuel downgrade ut left right = ut' := by
  obtain ⟨res, hres, -, -⟩ := SolverCall.run_ends (c := .eq downgrade left right) hut ⟨hl, hr⟩
  refine ⟨okTable (some res), fun fuel hfuel => ?_⟩
  rw [← okTable_eq, ← hres fuel hfuel]
  rfl

/-- What a call returns, and the table it leaves, whatever the stack it needs. -/
def SolverCall.Returns (ut : TypeUt) (c : SolverCall) (res : SolverResult) : Prop :=
  ∃ n, ∀ fuel, n < fuel → c.run fuel ut = some res

/-- A call has one result. -/
theorem SolverCall.Returns.unique {ut : TypeUt} {c : SolverCall} {res res' : SolverResult}
    (h : c.Returns ut res) (h' : c.Returns ut res') : res = res' := by
  obtain ⟨n, hn⟩ := h
  obtain ⟨n', hn'⟩ := h'
  have hrun := hn (max n n' + 1) (by omega)
  rw [hn' (max n n' + 1) (by omega)] at hrun
  exact (Option.some.inj hrun).symm

/-- The tables that the analyzer reaches. -/
inductive SolverReachable : TypeUt → Prop
  | empty : SolverReachable .empty
  | internType {ut : TypeUt} (h : SolverReachable ut) (ty : ResolvedTy) (hty : TypeOk ut.next ty) :
    SolverReachable (ut.newKey ty).2
  | setTypeKind {ut ut' : TypeUt} (h : SolverReachable ut) (key : TypeKey) (kind : ResolvedTyKind)
    (hty : TypeOk ut.next { ut.probeValue key with kind })
    (hset : unifyVarValue ut key { ut.probeValue key with kind } = .ok ut') : SolverReachable ut'
  | call {ut : TypeUt} (h : SolverReachable ut) (c : SolverCall) (hc : c.Ok ut.next)
    {res : SolverResult} (hres : c.Returns ut res) : SolverReachable res.2

theorem TypeOk.mono {n m : Nat} {ty : ResolvedTy} (h : TypeOk n ty) (hnm : n ≤ m) : TypeOk m ty where
  below i hi k hk := (h.below i hi k hk).trans_le hnm
  named := h.named
  bound := h.bound

/-- The type of a key that was never used. -/
theorem typeOk_default (n : Nat) : TypeOk n default where
  below _ hi := nomatch hi
  named := nofun
  bound _ hi := nomatch hi

/-- The type variable of a new key. -/
theorem typeOk_variable (n : Nat) (kind : AnyTyKind) : TypeOk n ⟨none, .any kind⟩ where
  below _ hi := nomatch hi
  named := nofun
  bound _ hi := nomatch hi

/-- Every table of the typechecker is in order. -/
theorem SolverReachable.tableOk {ut : TypeUt} (h : SolverReachable ut) : TableOk ut := by
  induction h with
  | empty => exact fun _ => typeOk_default 0
  | @internType ut h ty hty ih =>
    refine UnificationTable.newKey_forall (P := TypeOk (ut.next + 1)) ?_ ?_
    · exact fun k => (ih k).mono (Nat.le_succ ut.next)
    · exact hty.mono (Nat.le_succ ut.next)
  | setTypeKind h key kind hty hset ih => exact (unifyVarValue_ok hty hset).tableOk ih
  | call h c hc hres ih =>
    obtain ⟨res', hres', hleads, -⟩ := SolverCall.run_ends ih hc
    obtain rfl := hres.unique ⟨_, hres'⟩
    exact hleads.tableOk ih

namespace SolverCall

variable {ut : TypeUt} {c : SolverCall} {res : SolverResult}

/-- The two calls with one answer: a failed call leaves the table alone exactly when it is refused.
-/
theorem unchanged_iff (hut : TableOk ut) (hc : c.Ok ut.next) (hres : c.Returns ut res)
    {e : SolveFailure} (he : res.1 = .error e) : Unchanged ut res.2 ↔ c.Refused ut := by
  obtain ⟨n, hrun⟩ := hres
  obtain ⟨r, ut'⟩ := res
  obtain rfl : r = .error e := he
  have hrun := hrun (n + 1) (Nat.lt_succ_self n)
  cases c with
  | eq downgrade left right =>
    rcases eq_error hut hc.1 hc.2 hrun with ⟨hmerge, hgrown⟩ | ⟨hmerge, rfl⟩
    · exact iff_of_false hgrown.not_unchanged (not_not.mpr hmerge)
    · exact iff_of_true (.refl _) hmerge
  | eqWithType left right =>
    cases left with
    | never => cases hrun
    | other a => exact eqWithType_error hut (hc.1 a rfl) hc.2 hrun

/-- A call about a variable and a type that contains it fails for the variables of integers only. -/
theorem occurs_iff (hc : c.Ok ut.next) (hres : c.Returns ut res) {kind : AnyTyKind}
    (hoccurs : c.Occurs ut kind) : (∃ e, res.1 = .error e) ↔ kind ≠ .any := by
  obtain ⟨n, hrun⟩ := hres
  have hrun := hrun (n + 1) (Nat.lt_succ_self n)
  cases c with
  | eq downgrade left right =>
    cases left with
    | never => exact hoccurs.elim
    | other a =>
      cases right with
      | never => exact hoccurs.elim
      | other b =>
        have ha := hc.1 a rfl
        have hb := hc.2 b rfl
        -- the variable on the left, the type that contains it on the right, and the other way round
        rcases hoccurs with ⟨hvar, hcontains⟩ | ⟨hvar, hcontains⟩
        · obtain ⟨⟨res', hres', hiff⟩, -⟩ := eq_var ha hb hvar hcontains.parts_ne_nil n downgrade
          obtain rfl := Option.some.inj (hres'.symm.trans hrun)
          exact hiff
        · obtain ⟨-, res', hres', hiff⟩ := eq_var hb ha hvar hcontains.parts_ne_nil n downgrade
          obtain rfl := Option.some.inj (hres'.symm.trans hrun)
          exact hiff
  | eqWithType left right =>
    cases left with
    | never => exact hoccurs.elim
    | other a =>
      obtain ⟨hvar, hcontains⟩ := hoccurs
      obtain ⟨res', hres', hiff⟩ := eqWithType_var (hc.1 a rfl) hvar hcontains.parts_ne_nil (n + 1)
      obtain rfl := Option.some.inj (hres'.symm.trans hrun)
      exact hiff

/-- Every call ends. One that fails leaves the table alone just where it fails at what it merges
first, and one about a variable in its own type fails just where the variable is one of integers. -/
theorem returns_iff (hut : SolverReachable ut) (hc : c.Ok ut.next) :
    ∃ res, c.Returns ut res ∧ SolverReachable res.2 ∧ res.1 ≠ .error .panic ∧
      (∀ e, res.1 = .error e → (Unchanged ut res.2 ↔ c.Refused ut)) ∧
      ∀ kind, c.Occurs ut kind → ((∃ e, res.1 = .error e) ↔ kind ≠ .any) := by
  obtain ⟨res, hrun, -, hpanic⟩ := run_ends hut.tableOk hc
  have hres : c.Returns ut res := ⟨_, hrun⟩
  exact ⟨res, hres, hut.call c hc hres, hpanic, fun e he => unchanged_iff hut.tableOk hc hres he,
    fun kind hoccurs => occurs_iff hc hres hoccurs⟩

/-- A variable, and a reference to it. -/
def selfRef : TypeUt :=
  ((UnificationTable.empty.newKey ⟨none, .any .any⟩).2.newKey ⟨none, .ref (.other 0) .not⟩).2

/-- The table of `selfRef` is made by two `new_any`s and one `eq_with_type`. -/
theorem selfRef_reachable : SolverReachable selfRef := by
  refine .internType (.internType .empty _ ?_) _ ?_
  · exact typeOk_variable 0 .any
  · refine typeOk_compound (fun i hi k hk => ?_) trivial
    obtain rfl := List.mem_singleton.mp hi
    cases hk
    exact Nat.zero_lt_one

/-- Both its keys are there. -/
theorem selfRef_ok : (eq false (.other 0) (.other 1)).Ok selfRef.next := by
  constructor
  · rintro k ⟨⟩
    exact Nat.zero_lt_two
  · rintro k ⟨⟩
    exact Nat.one_lt_two

/-- Key 1 is a reference to key 0. -/
theorem selfRef_occurs : (eq false (.other 0) (.other 1)).Occurs selfRef .any :=
  Or.inl ⟨rfl, .other 0, List.mem_singleton_self _, .same rfl⟩

/-- A variable and a reference to it become one type. -/
theorem selfRef_returns_iff :
    ∃ res, (eq false (.other 0) (.other 1)).Returns selfRef res ∧ SolverReachable res.2 ∧
      res.1 ≠ .error .panic ∧
      (∀ e, res.1 = .error e → (Unchanged selfRef res.2 ↔
        (eq false (.other 0) (.other 1)).Refused selfRef)) ∧
      ∀ kind, (eq false (.other 0) (.other 1)).Occurs selfRef kind →
        ((∃ e, res.1 = .error e) ↔ kind ≠ .any) :=
  returns_iff selfRef_reachable selfRef_ok

/-- Two structs. -/
def structs : TypeUt :=
  ((UnificationTable.empty.newKey ⟨some (["A"], none), .tup []⟩).2.newKey
    ⟨some (["B"], none), .tup []⟩).2

/-- A variable takes a reference to itself, and the two structs that a call refuses are one type
after it. -/
theorem call_wrong :
    (∃ ut', (eq false (.other 0) (.other 1)).Occurs selfRef .any ∧
      (eq false (.other 0) (.other 1)).run 9 selfRef = some (.ok (), ut')) ∧
    ∃ ut', (eq false (.other 0) (.other 1)).run 9 structs =
        some (.error (.err .nameMismatch), ut') ∧ structs.unioned 0 1 = false ∧
      ut'.unioned 0 1 = true :=
  ⟨⟨_, selfRef_occurs, rfl⟩, _, rfl, rfl, rfl⟩

end SolverCall

end Semantics
