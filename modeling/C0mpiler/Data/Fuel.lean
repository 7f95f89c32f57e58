import Mathlib

/-!
# Functions with fuel

A function that may recurse for ever is given as a function of its fuel. `Returns` says that it
returns: any fuel from some amount on is enough. Where the calls follow the children of a node in a
graph, it returns just if the graph below the node is well-founded.
-/

namespace Fuel

variable {α β : Type*}

/-- With enough fuel, the function returns. -/
def Returns (f : Nat → Option β) : Prop := ∃ n, ∀ m, n ≤ m → (f m).isSome

theorem Returns.of_succ {f : Nat → Option β} (h : Returns fun fuel => f (fuel + 1)) : Returns f := by
  obtain ⟨n, hn⟩ := h
  refine ⟨n + 1, fun m hm => ?_⟩
  obtain ⟨m, rfl⟩ : ∃ k, m = k + 1 := ⟨m - 1, by omega⟩
  exact hn m (by omega)

theorem Returns.exists {f : Nat → Option β} (h : Returns f) : ∃ fuel, (f fuel).isSome := by
  obtain ⟨n, hn⟩ := h
  exact ⟨n, hn n le_rfl⟩

/-- One amount of fuel is enough for all members of a list. -/
theorem exists_forall {l : List α} {P : Nat → α → Prop}
    (h : ∀ a ∈ l, ∃ n, ∀ m, n ≤ m → P m a) : ∃ n, ∀ m, n ≤ m → ∀ a ∈ l, P m a := by
  refine Filter.eventually_atTop.mp ?_
  refine (Filter.eventually_all_finite (List.finite_toSet l)).mpr fun a ha => ?_
  exact Filter.eventually_atTop.mpr (h a ha)

section Graph

variable {f : Nat → α → Option β} {children : α → List α} {a : α}

/-- It returns where it needs nothing but the results for the children, and no path through the
children is infinite. -/
theorem Returns.of_acc
    (hstep : ∀ fuel a, (∀ b ∈ children a, (f fuel b).isSome) → (f (fuel + 1) a).isSome)
    (h : Acc (fun b a => b ∈ children a) a) : Returns (f · a) := by
  induction h with
  | intro a _ ih =>
    obtain ⟨n, hn⟩ := exists_forall ih
    exact .of_succ ⟨n, fun m hm => hstep m a (hn m hm)⟩

/-- Where it needs the results for all children, a result means that no path is infinite. -/
theorem acc_of_isSome (hzero : ∀ a, f 0 a = none)
    (hstep : ∀ fuel a, (f (fuel + 1) a).isSome → ∀ b ∈ children a, (f fuel b).isSome) {fuel : Nat}
    (h : (f fuel a).isSome) : Acc (fun b a => b ∈ children a) a := by
  induction fuel generalizing a with
  | zero =>
    rw [hzero] at h
    cases h
  | succ fuel ih => exact .intro a fun b hb => ih (hstep fuel a h b hb)

end Graph

/-! ## Cycles -/

section Cycle

variable {r : α → α → Prop} {a : α}

theorem not_transGen_of_acc (h : Acc r a) : ¬Relation.TransGen r a a := by
  replace h : Acc (Relation.TransGen r) a := h.transGen
  induction h with
  | intro a _ ih => exact fun hloop => ih a hloop hloop

/-- In a finite graph only a cycle makes a path infinite. -/
theorem wellFounded_of_acyclic [Finite α] (h : ∀ a, ¬Relation.TransGen r a a) : WellFounded r := by
  have hirrefl : Std.Irrefl (Relation.TransGen r) := ⟨h⟩
  refine ⟨fun a => ?_⟩
  have hplus := (Finite.wellFounded_of_trans_of_irrefl (Relation.TransGen r)).apply a
  exact Subrelation.accessible Relation.TransGen.single hplus

end Cycle

end Fuel
