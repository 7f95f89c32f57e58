import C0mpiler.Semantics.IntLiteral
import Mathlib

/-!
# Which integer literals are accepted

The type of a literal's place is unified with the literal's own type, a built-in one or `AnyInt`. So
the place is known to be signed at the visit if one of them was before (`solveEq_scalar`).
-/

namespace Semantics

open Lex

/-! ## Unifying with the type of a literal -/

/-- The types that a literal has on its own. -/
structure ScalarType (ty : ResolvedTy) : Prop where
  names : ty.names = none
  kind : (∃ b, ty.kind = .builtIn b) ∨ ty.kind = .any .anyInt

/-- A scalar type is not `Self`. -/
theorem ScalarType.not_self {ty : ResolvedTy} (h : ScalarType ty) (i : TypeIntern) :
    ty.kind ≠ .implicitSelf i := by
  rcases h.kind with ⟨b, hb⟩ | hany
  · rw [hb]
    nofun
  · rw [hany]
    nofun

/-- Nor is it unknown. -/
theorem ScalarType.not_any {ty : ResolvedTy} (h : ScalarType ty) : ty.isAnyType = false := by
  unfold ResolvedTy.isAnyType
  rcases h.kind with ⟨b, hb⟩ | hany
  · rw [hb]
    rfl
  · rw [hany]
    rfl

/-- What a type without a name becomes when it is unified with the type of a literal. -/
theorem unifyValues_scalar {v w u : ResolvedTy} (hw : ScalarType w) (hv : v.names = none)
    (h : unifyValues v w = some u) :
    (∀ i, v.kind ≠ .implicitSelf i) ∧ (u.isSigned = true ↔ w.isSigned = true ∨ v.isSigned = true) := by
  obtain ⟨vnames, vkind⟩ := v
  obtain ⟨wnames, wkind⟩ := w
  obtain rfl : vnames = none := hv
  obtain rfl : wnames = none := hw.names
  have hkind := hw.kind
  dsimp only at hkind
  unfold unifyValues at h
  simp only [Option.isSome_none, Bool.false_eq_true, if_false] at h
  -- the literal's own type is built in, or an integer type variable
  rcases hkind with ⟨b, rfl⟩ | rfl
  · cases vkind with
    | builtIn b' =>
      dsimp only at h
      split at h
      · next heq =>
        subst heq
        cases h
        exact ⟨nofun, (or_self_iff).symm⟩
      · cases h
    | any kind =>
      have hu : u = ⟨none, .builtIn b⟩ := by
        cases kind
        · exact (Option.some.inj h).symm
        all_goals
          dsimp only at h
          split at h
          · exact (Option.some.inj h).symm
          · cases h
      subst hu
      refine ⟨nofun, ?_⟩
      have hnot : (⟨none, .any kind⟩ : ResolvedTy).isSigned = false := rfl
      rw [hnot]
      simp
    | _ => cases h
  · have hnot : (⟨none, .any .anyInt⟩ : ResolvedTy).isSigned = false := rfl
    rw [hnot]
    cases vkind with
    | builtIn b' =>
      dsimp only at h
      split at h
      · cases h
        exact ⟨nofun, by simp⟩
      · cases h
    | any kind =>
      refine ⟨nofun, ?_⟩
      cases kind <;> cases h <;> simp [ResolvedTy.isSigned]
    | _ => cases h

/-- A named type is known. -/
theorem isAnyType_of_names {ty : ResolvedTy} (h : ty.Nominal) (hnames : ty.names ≠ none) :
    ty.isAnyType = false := by
  have hkind := h (Option.isSome_iff_ne_none.mpr hnames)
  unfold ResolvedTy.isAnyType
  split at hkind <;> simp_all

/-- The components of a type that is unified with the type of a literal are left alone. -/
theorem eqInner_scalar {eq : TypeUt → TypeIntern → TypeIntern → Option TypeUt} {ut ut' : TypeUt}
    {v w : ResolvedTy} (hw : ScalarType w) (hv : v.Nominal) (hrun : eqInner eq ut v w = some ut') :
    v.names = none ∧ ut' = ut := by
  unfold eqInner at hrun
  rw [hw.names] at hrun
  by_cases hnames : v.names = none
  · refine ⟨hnames, ?_⟩
    rw [if_neg (not_not.mpr hnames)] at hrun
    rcases hw.kind with ⟨b, hb⟩ | hany
    · rw [hb] at hrun
      split at hrun <;> first | (cases hrun; rfl) | contradiction
    · rw [hany] at hrun
      split at hrun <;> first | (cases hrun; rfl) | contradiction
  · rw [if_pos hnames, isAnyType_of_names hv hnames, hw.not_any] at hrun
    cases hrun

variable {ut ut' : TypeUt} {target restrict : TypeKey} {fuel : Nat}

/-- A trait's `Self` or the type itself is compared with the type of the literal. -/
theorem implicitSelfTypes_scalar (hw : ScalarType (ut.probeValue restrict))
    (hself : ∀ i, (ut.probeValue target).kind = .implicitSelf i →
      ∃ l, i = .other l ∧ (ut.probeValue l).kind = .trait)
    {types : Option (ResolvedTy × ResolvedTy)}
    (h : implicitSelfTypes ut target restrict = some types) :
    ∃ v, types = some (v, ut.probeValue restrict) ∧
      ((∃ i, (ut.probeValue target).kind = .implicitSelf i) ∨ v = ut.probeValue target) := by
  unfold implicitSelfTypes at h
  split at h
  · next r _ hr => exact absurd hr (hw.not_self r)
  · next i hi _ =>
    obtain ⟨l, rfl, htrait⟩ := hself i hi
    have hne : ut.unioned l restrict = false := by
      refine Bool.eq_false_iff.mpr fun hunion => ?_
      have hprobe : ut.probeValue l = ut.probeValue restrict :=
        congrArg ut.value (beq_iff_eq.mp hunion)
      rw [hprobe] at htrait
      rcases hw.kind with ⟨b, hb⟩ | hany
      · rw [hb] at htrait
        cases htrait
      · rw [hany] at htrait
        cases htrait
    simp only [TypeIntern.toKey, Option.bind_eq_bind, Option.bind_some, hne, Bool.false_eq_true,
      if_false] at h
    exact ⟨_, (Option.some.inj h).symm, Or.inl ⟨_, hi⟩⟩
  · next r hr _ => exact absurd hr (hw.not_self r)
  · exact ⟨_, (Option.some.inj h).symm, Or.inr rfl⟩

/-- Unifying a type with that of a literal: the place is signed afterwards if either was. -/
theorem solveEq_scalar (hut : NominalTable ut) (hw : ScalarType (ut.probeValue restrict))
    (hself : ∀ i, (ut.probeValue target).kind = .implicitSelf i →
      ∃ l, i = .other l ∧ (ut.probeValue l).kind = .trait)
    (hrun : solveEq fuel false ut (.other target) (.other restrict) = some ut') :
    ut'.unioned target restrict = true ∧ ((ut'.probeValue target).isSigned = true ↔
      (ut.probeValue restrict).isSigned = true ∨ (ut.probeValue target).isSigned = true) := by
  cases fuel with
  | zero => cases hrun
  | succ fuel =>
    unfold solveEq at hrun
    split at hrun
    · next hunion =>
      cases hrun
      -- the two are one type already
      have hprobe := UnificationTable.probeValue_of_unioned hunion
      exact ⟨hunion, by rw [hprobe, or_self_iff]⟩
    -- they are merged: the merged type is signed where one of them was
    · next hunion =>
      obtain ⟨types, htypes, hrun⟩ := Option.bind_eq_some_iff.mp hrun
      obtain ⟨v, rfl, hv⟩ := implicitSelfTypes_scalar hw hself htypes
      simp only [Bool.false_eq_true, if_false] at hrun
      obtain ⟨ut₁, hunify, hinner⟩ := Option.bind_eq_some_iff.mp hrun
      rcases UnificationTable.unifyVarVar_eq_some hunify with ⟨hone, -⟩ | ⟨ha, hb, u, hu, rfl⟩
      · exact absurd hone hunion
      · have hnames : (ut.probeValue target).names = none := by
          rcases hv with ⟨i, hi⟩ | rfl
          · by_contra hsome
            have hkind := hut target (Option.isSome_iff_ne_none.mpr hsome)
            rw [hi] at hkind
            exact hkind
          · exact (eqInner_scalar hw (hut target) hinner).1
        obtain ⟨hnot, hsigned⟩ := unifyValues_scalar hw hnames hu
        obtain rfl : v = ut.probeValue target := hv.resolve_left (not_exists.mpr hnot)
        obtain rfl := (eqInner_scalar hw (hut target) hinner).2
        refine ⟨UnificationTable.unioned_union ha hb u, ?_⟩
        rw [UnificationTable.probeValue_union, if_pos (Or.inl (ut.unioned_equivalence.refl target))]
        exact hsigned

namespace LitOccurrence

variable {o : LitOccurrence} {start : TypeUt} {key : TypeKey}

/-- A literal's own type is in the table, and the other types are as they were. -/
structure Restricted (o : LitOccurrence) (key restrict : TypeKey) (ut₀ : TypeUt) : Prop where
  scalar : ScalarType (ut₀.probeValue restrict)
  nominal : NominalTable ut₀
  selfTraits : ∀ i, (ut₀.probeValue key).kind = .implicitSelf i →
    ∃ l, i = .other l ∧ (ut₀.probeValue l).kind = .trait
  known : ((ut₀.probeValue restrict).isSigned = true ∨ (ut₀.probeValue key).isSigned = true) ↔
    ((∃ s b, o.suffix = some s ∧ suffixKind s = some b ∧ (b = .i32 ∨ b = .isize)) ∨
      (o.ut.probeValue key).isSigned = true)

theorem restrictTy_spec (key : TypeKey) {restrict : TypeKey} {ut₀ : TypeUt}
    (h : restrictTy o.builtIns o.ut o.suffix = some (restrict, ut₀)) :
    o.Restricted key restrict ut₀ := by
  -- with a suffix the built-in type is taken as it is
  cases hsuffix : o.suffix with
  | some s =>
    rw [hsuffix] at h
    obtain ⟨b, hb, heq⟩ := Option.map_eq_some_iff.mp h
    obtain ⟨rfl, rfl⟩ := Prod.mk.inj heq
    have hprobe := o.probe_builtIns b
    refine ⟨⟨by rw [hprobe], Or.inl ⟨b, by rw [hprobe]⟩⟩, o.nominal, o.selfTraits key, ?_⟩
    have hsigned : (o.ut.probeValue (o.builtIns b)).isSigned = true ↔
        ∃ s b, o.suffix = some s ∧ suffixKind s = some b ∧ (b = .i32 ∨ b = .isize) := by
      rw [hprobe]
      constructor
      · intro h
        refine ⟨s, b, hsuffix, hb, ?_⟩
        cases b <;> first | exact Or.inl rfl | exact Or.inr rfl | cases h
      · rintro ⟨s', b', hs', hb', hkind⟩
        obtain rfl := Option.some.inj (hsuffix.symm.trans hs')
        obtain rfl := Option.some.inj (hb.symm.trans hb')
        rcases hkind with rfl | rfl <;> rfl
    rw [hsigned]
  -- without one a new type variable, which nothing has restricted
  | none =>
    rw [hsuffix] at h
    have hpair : o.ut.newKey .anyIntType = (restrict, ut₀) := Option.some.inj h
    obtain rfl : restrict = o.ut.next := (congrArg Prod.fst hpair).symm
    obtain rfl : ut₀ = (o.ut.newKey .anyIntType).2 := (congrArg Prod.snd hpair).symm
    have hnew : ((o.ut.newKey .anyIntType).2.probeValue o.ut.next) = .anyIntType := by
      rw [UnificationTable.probeValue_newKey, if_pos rfl]
    have hfresh : o.ut.probeValue o.ut.next = default := UnificationTable.probeValue_fresh le_rfl
    refine {
      scalar := ?_
      nominal := UnificationTable.newKey_forall o.nominal (ResolvedTy.nominal_of_names rfl)
      selfTraits := fun i hi => ?_
      known := ?_ }
    · exact ⟨congrArg ResolvedTy.names hnew, Or.inr (congrArg ResolvedTy.kind hnew)⟩
    · rw [UnificationTable.probeValue_newKey] at hi
      split at hi
      · cases hi
      · obtain ⟨l, rfl, htrait⟩ := o.selfTraits key i hi
        refine ⟨l, rfl, ?_⟩
        have hne : l ≠ o.ut.next := by
          rintro rfl
          rw [hfresh] at htrait
          cases htrait
        rw [UnificationTable.probeValue_newKey, if_neg hne]
        exact htrait
    · have hkey : ((o.ut.newKey .anyIntType).2.probeValue key).isSigned =
          (o.ut.probeValue key).isSigned := by
        rw [UnificationTable.probeValue_newKey]
        split
        · next hkey =>
          rw [hkey, hfresh]
          rfl
        · rfl
      have hrestrict : ((o.ut.newKey .anyIntType).2.probeValue o.ut.next).isSigned = false :=
        congrArg ResolvedTy.isSigned hnew
      rw [hkey, hrestrict]
      simp [hsuffix]

/-- The first call of the solver makes the two types one, signed exactly where it was known to be
signed by then. -/
theorem typed_spec (htarget : o.target = .other key) (htyped : o.typed = some start) :
    ∃ restrict ut₀, restrictTy o.builtIns o.ut o.suffix = some (restrict, ut₀) ∧
      solveEq o.fuel false ut₀ (.other key) (.other restrict) = some start ∧
      start.unioned key restrict = true ∧ ((start.probeValue key).isSigned = true ↔ o.Known) := by
  unfold typed at htyped
  split at htyped
  · cases htyped
  · next restrict ut₀ hrestrict =>
    rw [htarget] at htyped
    have hspec := restrictTy_spec key hrestrict
    obtain ⟨hunion, hsigned⟩ := solveEq_scalar hspec.nominal hspec.scalar hspec.selfTraits htyped
    refine ⟨restrict, ut₀, hrestrict, htyped, hunion, hsigned.trans (hspec.known.trans ?_)⟩
    rw [Known, htarget]
    refine or_congr_right ⟨fun h => ⟨_, rfl, h⟩, ?_⟩
    rintro ⟨ty, hty, h⟩
    cases hty
    exact h

/-- Two types in one class are unified without a change. -/
theorem solveEq_unioned {fuel : Nat} {ut : TypeUt} {left right : TypeKey} (hfuel : fuel ≠ 0)
    (h : ut.unioned left right = true) :
    solveEq fuel false ut (.other left) (.other right) = some ut := by
  cases fuel with
  | zero => exact absurd rfl hfuel
  | succ fuel => rw [solveEq, if_pos h]

/-- A literal whose type fits passes the visit where its digits are read and the check lets them
pass. -/
theorem visit_iff (htarget : o.target = .other key) (htyped : o.typed = some start) (value : Nat) :
    (∃ ut, o.visit = .ok (ut, value)) ↔ parseU32 o.symbol = some value ∧
      ¬(o.Known ∧ (2 ^ 31 < value ∨ value = 2 ^ 31 ∧ o.allow = false)) := by
  obtain ⟨restrict, ut₀, hrestrict, hsolve, hunion, hknown⟩ := typed_spec htarget htyped
  have hfuel : o.fuel ≠ 0 := by
    intro hzero
    rw [hzero] at hsolve
    cases hsolve
  have hprobe : start.probeValue restrict = start.probeValue key :=
    (congrArg start.value (beq_iff_eq.mp hunion)).symm
  have hvisit : o.visit = (parseU32 o.symbol).elim (.error .overflow) fun value =>
        if (start.probeValue key).isSigned && (value > 2147483648 || (value == 2147483648 && !o.allow))
        then .error .overflow else .ok (start, value) := by
    rw [visit, visitLitExpr, hrestrict, htarget]
    dsimp only
    rw [hsolve]
    dsimp only
    cases parseU32 o.symbol with
    | none => rfl
    | some value =>
      dsimp only
      cases o.visitor with
      | analyzer => rfl
      | constEvaler =>
        dsimp only [TypeUt.probeType, TypeTable.probeType]
        rw [hprobe, solveEq_unioned hfuel hunion]
        rfl
  rw [hvisit]
  cases parseU32 o.symbol with
  -- the literal was parsed: the check is what remains
  | none => simp
  | some parsed =>
    have hcheck : ((start.probeValue key).isSigned &&
        (parsed > 2147483648 || (parsed == 2147483648 && !o.allow))) = true ↔
        o.Known ∧ (2 ^ 31 < parsed ∨ parsed = 2 ^ 31 ∧ o.allow = false) := by
      rw [Bool.and_eq_true, hknown]
      simp
    rw [Option.elim_some]
    by_cases hreject : o.Known ∧ (2 ^ 31 < parsed ∨ parsed = 2 ^ 31 ∧ o.allow = false)
    · rw [if_pos (hcheck.mpr hreject)]
      refine ⟨by rintro ⟨ut, ⟨⟩⟩, ?_⟩
      rintro ⟨hvalue, hpass⟩
      obtain rfl := Option.some.inj hvalue
      exact absurd hreject hpass
    · rw [if_neg (mt hcheck.mp hreject)]
      constructor
      · rintro ⟨ut, hok⟩
        obtain ⟨-, rfl⟩ := Prod.mk.inj (Except.ok.inj hok)
        exact ⟨rfl, hreject⟩
      · rintro ⟨hvalue, -⟩
        obtain rfl := Option.some.inj hvalue
        exact ⟨start, rfl⟩

/-- The minus in front of the literal is computed where that does not overflow. -/
theorem accepted_iff_visit :
    o.Accepted ↔ ∃ value, (∃ ut, o.visit = .ok (ut, value)) ∧ ¬(value = 2 ^ 31 ∧ o.Overflows) := by
  unfold Accepted visitNegated
  cases hvisit : o.visit with
  | error e => simp
  | ok r =>
    obtain ⟨ut, value⟩ := r
    have hvalue : (∃ v, (∃ ut', (.ok (ut, value) : Except LitError (TypeUt × Nat)) = .ok (ut', v)) ∧
        ¬(v = 2 ^ 31 ∧ o.Overflows)) ↔ ¬(value = 2 ^ 31 ∧ o.Overflows) := by
      constructor
      · rintro ⟨v, ⟨ut', hok⟩, hpass⟩
        obtain ⟨-, rfl⟩ := Prod.mk.inj (Except.ok.inj hok)
        exact hpass
      · exact fun hpass => ⟨value, ⟨ut, rfl⟩, hpass⟩
    rw [hvalue]
    dsimp only
    by_cases hneg : o.visitor = .constEvaler ∧ o.Negated
    · rw [if_pos hneg]
      by_cases hover : value = 2 ^ 31 ∧ o.checks = true
      · have hnone : constNeg o.checks value = none := by
          obtain ⟨rfl, hchecks⟩ := hover
          rw [hchecks]
          rfl
        rw [hnone]
        refine ⟨by rintro ⟨r, ⟨⟩⟩, fun hpass => ?_⟩
        exact absurd ⟨hover.1, hneg.1, hover.2, hneg.2⟩ hpass
      · have hsome : constNeg o.checks value = some ((2 ^ 32 - value) % 2 ^ 32) := by
          rw [constNeg, if_neg]
          rintro hboth
          obtain ⟨hchecks, heq⟩ := Bool.and_eq_true_iff.mp hboth
          exact hover ⟨beq_iff_eq.mp heq, hchecks⟩
        rw [hsome]
        refine ⟨fun _ hboth => hover ⟨hboth.1, hboth.2.2.1⟩, fun _ => ⟨_, rfl⟩⟩
    · rw [if_neg hneg]
      refine ⟨fun _ hboth => hneg ⟨hboth.2.1, hboth.2.2.2⟩, fun _ => ⟨_, rfl⟩⟩

/-- A literal whose type fits is accepted where its digits are read, the check lets them pass and the
minus in front of it does not overflow. -/
theorem accepted_iff (htarget : o.target = .other key) (htyped : o.typed = some start) :
    o.Accepted ↔ ∃ value, parseU32 o.symbol = some value ∧
      ¬(o.Known ∧ (2 ^ 31 < value ∨ value = 2 ^ 31 ∧ o.allow = false)) ∧
      ¬(value = 2 ^ 31 ∧ o.Overflows) := by
  rw [accepted_iff_visit]
  simp only [visit_iff htarget htyped, and_assoc]

/-- The digits that `parse_u32` reads. -/
theorem parseU32_eq_some {value : Nat} : parseU32 o.symbol = some value ↔
    literalValue o.symbol = some value ∧ value < 2 ^ 32 := by
  rw [symbol, (parseU32_symbol o.lexeme).2, Option.bind_eq_some_iff]
  constructor
  · rintro ⟨v, hv, hfits⟩
    unfold fitsU32 at hfits
    split at hfits
    · next hlt =>
      obtain rfl := Option.some.inj hfits
      exact ⟨hv, hlt⟩
    · cases hfits
  · rintro ⟨hv, hlt⟩
    exact ⟨value, hv, if_pos hlt⟩

/-- The two sides compare the value with `2 ^ 31`, so they agree below it, at it only with the right
minus, and above it never. -/
theorem accepted_iff_inRange (htarget : o.target = .other key) (htyped : o.typed = some start) :
    (o.Accepted ↔ o.InRange) ↔ o.Judged := by
  rw [accepted_iff htarget htyped]
  simp only [parseU32_eq_some]
  cases hvalue : literalValue o.symbol with
  | none => simp [InRange, Judged, hvalue]
  | some value =>
    have hrange : o.InRange ↔ value < 2 ^ 31 ∨ value = 2 ^ 31 ∧ o.Negated := by
      simp only [InRange, hvalue, Option.some.injEq, exists_eq_left']
      split_ifs with hneg
      · simp only [hneg, and_true]
        omega
      · simp only [hneg, and_false, or_false]
        omega
    have haccepted : (∃ v, (some value = some v ∧ v < 2 ^ 32) ∧
        ¬(o.Known ∧ (2 ^ 31 < v ∨ v = 2 ^ 31 ∧ o.allow = false)) ∧ ¬(v = 2 ^ 31 ∧ o.Overflows)) ↔
        value < 2 ^ 32 ∧ ¬(o.Known ∧ (2 ^ 31 < value ∨ value = 2 ^ 31 ∧ o.allow = false)) ∧
          ¬(value = 2 ^ 31 ∧ o.Overflows) := by
      simp only [Option.some.injEq, and_assoc, exists_eq_left']
    have hjudged : o.Judged ↔ (2 ^ 31 ≤ value → value < 2 ^ 32 →
        if value = 2 ^ 31 then (o.Negated ↔ (o.Known → o.allow = true) ∧ ¬o.Overflows)
        else o.Known) := by
      simp only [Judged, hvalue, Option.some.injEq, forall_eq']
    rw [haccepted, hrange, hjudged]
    -- below the bound both hold; at it the minus decides; above it the literal is out of range
    rcases lt_trichotomy value (2 ^ 31) with hlt | rfl | hgt
    · have hsmall : value < 2 ^ 32 := by omega
      have hnot : ¬2 ^ 31 < value := by omega
      have hle : ¬2 ^ 31 ≤ value := by omega
      have hne : value ≠ 2 ^ 31 := by omega
      simp only [hlt, hsmall, hnot, hle, hne, and_false, false_and, or_self, not_false_eq_true,
        and_self, true_or, false_implies]
    · have hflag : ¬(o.Known ∧ o.allow = false) ↔ (o.Known → o.allow = true) := by
        cases o.allow <;> simp
      have hlt : ¬(2 ^ 31 : Nat) < 2 ^ 31 := lt_irrefl _
      have hsmall : (2 ^ 31 : Nat) < 2 ^ 32 := by decide
      simp only [hlt, hsmall, hflag, false_or, true_and, le_refl, if_true, true_implies]
      exact iff_comm
    · have hne : value ≠ 2 ^ 31 := by omega
      have hle : 2 ^ 31 ≤ value := by omega
      have hlt : ¬value < 2 ^ 31 := by omega
      simp only [hne, hle, hlt, hgt, true_or, and_true, false_and, or_self, iff_false, not_and,
        not_not, not_false_eq_true, if_false, true_implies]

/-- The suffix of a literal is that of an integer type, or the literal is rejected. -/
theorem visit_unknownSuffix {s : List Char} (hs : o.suffix = some s) (hkind : suffixKind s = none) :
    o.visit = .error .unknownSuffix := by
  have hrestrict : restrictTy o.builtIns o.ut o.suffix = none := by
    rw [hs, restrictTy, hkind]
    rfl
  rw [visit, visitLitExpr, hrestrict]

/-- A literal is split at its suffix, its suffix is checked and its digits are read; where its type is
signed in the end, it is accepted for its value exactly where it is judged right. -/
theorem literal_iff (o : LitOccurrence) :
    o.symbol ++ o.suffix.getD [] = o.lexeme ∧
    (∀ s, o.suffix = some s → suffixKind s = none → o.visit = .error .unknownSuffix) ∧
    DigitsOf (literalBase o.symbol) (literalDigits o.symbol) ∧
    parseU32 o.symbol = (literalValue o.symbol).bind fitsU32 ∧
    ∀ _ : o.Inferred, (o.Accepted ↔ o.InRange) ↔ o.Judged := by
  refine ⟨parseNumberLiteral_append o.lexeme, fun s => visit_unknownSuffix,
    (parseU32_symbol o.lexeme).1, (parseU32_symbol o.lexeme).2, fun i => ?_⟩
  cases htarget : o.target with
  | never =>
    have hprobe := i.probe_eq
    rw [htarget] at hprobe
    cases hprobe
  | other key => exact accepted_iff_inRange htarget i.typed_eq

/-! ## A literal that is judged right and two that are not -/

/-- The built-in types and one type that is not known. -/
def literalTable : TypeUt :=
  let ut := (UnificationTable.empty.newKey ⟨none, .builtIn .bool⟩).2
  let ut := (ut.newKey ⟨none, .builtIn .char⟩).2
  let ut := (ut.newKey ⟨none, .builtIn .i32⟩).2
  let ut := (ut.newKey ⟨none, .builtIn .isize⟩).2
  let ut := (ut.newKey ⟨none, .builtIn .u32⟩).2
  let ut := (ut.newKey ⟨none, .builtIn .usize⟩).2
  let ut := (ut.newKey ⟨none, .builtIn .str⟩).2
  (ut.newKey .anyType).2

/-- The keys of the built-in types in the example. -/
def literalKeys : BuiltInTyKind → TypeKey
  | .bool => 0
  | .char => 1
  | .i32 => 2
  | .isize => 3
  | .u32 => 4
  | .usize => 5
  | .str => 6

/-- A type with no name that is no `Self`. -/
def PlainType (ty : ResolvedTy) : Prop := ty.names = none ∧ ∀ i, ty.kind ≠ .implicitSelf i

/-- No type of the example is an impl's `Self`. -/
theorem literalTable_plain (k : TypeKey) : PlainType (literalTable.probeValue k) := by
  have hempty : ∀ k, PlainType ((UnificationTable.empty : TypeUt).probeValue k) := fun _ => ⟨rfl, nofun⟩
  have hbuiltIn : ∀ {ut : TypeUt} (b : BuiltInTyKind), (∀ k, PlainType (ut.probeValue k)) →
      ∀ k, PlainType ((ut.newKey ⟨none, .builtIn b⟩).2.probeValue k) :=
    fun b hut => UnificationTable.newKey_forall hut ⟨rfl, nofun⟩
  have hany : ∀ {ut : TypeUt}, (∀ k, PlainType (ut.probeValue k)) →
      ∀ k, PlainType ((ut.newKey .anyType).2.probeValue k) :=
    fun hut => UnificationTable.newKey_forall hut ⟨rfl, nofun⟩
  exact hany (hbuiltIn .str (hbuiltIn .usize (hbuiltIn .u32 (hbuiltIn .isize (hbuiltIn .i32
    (hbuiltIn .char (hbuiltIn .bool hempty))))))) k

/-- A literal that is visited for the type `target`, by a compiler with overflow checks. -/
def visitedIn (visitor : LitVisitor) (lexeme : List Char) (path : List LitFrame) (target : TypeKey) :
    LitOccurrence where
  lexeme := lexeme
  visitor := visitor
  path := path
  builtIns := literalKeys
  fuel := 3
  checks := true
  ut := literalTable
  target := .other target
  probe_builtIns b := by cases b <;> rfl
  nominal k := ResolvedTy.nominal_of_names (literalTable_plain k).1
  selfTraits k i hi := absurd hi ((literalTable_plain k).2 i)

/-- `let x: i32 = -2147483648;` -/
def negatedLiteral : LitOccurrence := visitedIn .analyzer "2147483648".toList [.block, .neg] 2

/-- `let x = 3000000000; let y: i32 = x;` -/
def lateLiteral : LitOccurrence := visitedIn .analyzer "3000000000".toList [.block] 7

/-- `const C: i32 = -2147483648;` -/
def constLiteral : LitOccurrence := visitedIn .constEvaler "2147483648".toList [.neg] 2

/-- The literal's type is `i32` at the visit. -/
def negatedInferred : negatedLiteral.Inferred :=
  let start := negatedLiteral.typed.get rfl
  { start := start
    typed_eq := rfl
    final := start
    run := .refl start
    ty := ⟨none, .builtIn .i32⟩
    probe_eq := rfl
    signed := rfl }

/-- The literal's type becomes `i32` behind the visit. -/
def lateInferred : lateLiteral.Inferred :=
  let start := lateLiteral.typed.get rfl
  let final := (solveEq 3 false start (.other 7) (.other 2)).get rfl
  { start := start
    typed_eq := rfl
    final := final
    run := .eq 3 false (.other 7) (.other 2) rfl (.refl final)
    ty := ⟨none, .builtIn .i32⟩
    probe_eq := rfl
    signed := rfl }

/-- The literal is an `i32` as soon as the declaration has been looked at. -/
def constInferred : constLiteral.Inferred :=
  let start := constLiteral.typed.get rfl
  { start := start
    typed_eq := rfl
    final := start
    run := .refl start
    ty := ⟨none, .builtIn .i32⟩
    probe_eq := rfl
    signed := rfl }

/-- The least `i32` is accepted, for its value. -/
theorem literal_iff_negated : negatedLiteral.Accepted ∧ negatedLiteral.InRange := by
  have hiff := (literal_iff negatedLiteral).2.2.2.2 negatedInferred
  have hjudged : negatedLiteral.Judged := by
    intro value hvalue _ _
    obtain rfl : 2147483648 = value := Option.some.inj hvalue
    rw [if_pos (by decide)]
    refine iff_of_true rfl ⟨fun _ => rfl, ?_⟩
    rintro ⟨hvisitor, -⟩
    cases hvisitor
  have hrange : negatedLiteral.InRange := ⟨2147483648, rfl, by decide⟩
  exact ⟨(hiff.mpr hjudged).mpr hrange, hrange⟩

/-- A literal out of range is accepted, and one in range is not. -/
theorem literal_judged_wrong :
    (∃ _ : lateLiteral.Inferred, lateLiteral.Accepted ∧ ¬lateLiteral.InRange) ∧
      ∃ _ : constLiteral.Inferred, ¬constLiteral.Accepted ∧ constLiteral.InRange := by
  refine ⟨⟨lateInferred, ⟨_, rfl⟩, ?_⟩, constInferred, ?_, 2147483648, rfl, ?_⟩
  · rintro ⟨value, hvalue, hrange⟩
    obtain rfl : 3000000000 = value := Option.some.inj hvalue
    exact absurd hrange (by decide)
  · rintro ⟨r, hr⟩
    cases hr
  · decide

end LitOccurrence

end Semantics
