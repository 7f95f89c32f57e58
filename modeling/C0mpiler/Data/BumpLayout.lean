import Mathlib

/-!
# Placing items one behind the other

Items with a size and an alignment are placed in a row, each at the next multiple of its alignment.
Every item is then aligned, behind where the row starts and before where it stops, and the items do
not overlap.
-/

namespace BumpLayout

/-- The least multiple of `a` from `n` on (`next_multiple_of`). -/
def nextMultiple (n a : Nat) : Nat := (n + (a - 1)) / a * a

theorem dvd_nextMultiple (n a : Nat) : a ∣ nextMultiple n a :=
  Nat.dvd_mul_left a _

theorem le_nextMultiple {a : Nat} (ha : 0 < a) (n : Nat) : n ≤ nextMultiple n a := by
  have hdiv := Nat.div_add_mod (n + (a - 1)) a
  have hmod := Nat.mod_lt (n + (a - 1)) ha
  rw [Nat.mul_comm] at hdiv
  rw [nextMultiple]
  omega

variable {α : Type} (size align : α → Nat)

/-- The items with their offsets. -/
def place : Nat → List α → List (α × Nat)
  | _, [] => []
  | start, a :: l =>
    (a, nextMultiple start (align a)) :: place (nextMultiple start (align a) + size a) l

/-- Where the row stops. -/
def stop : Nat → List α → Nat
  | start, [] => start
  | start, a :: l => stop (nextMultiple start (align a) + size a) l

variable {size align} {start : Nat} {l : List α}

@[simp] theorem map_fst_place : (place size align start l).map Prod.fst = l := by
  induction l generalizing start with
  | nil => rfl
  | cons a l ih => rw [place, List.map_cons, ih]

theorem exists_place {a : α} (ha : a ∈ l) : ∃ offset, (a, offset) ∈ place size align start l := by
  have hfst : (place size align start l).map Prod.fst = l := map_fst_place
  rw [← hfst] at ha
  obtain ⟨⟨a', offset⟩, hmem, rfl⟩ := List.mem_map.mp ha
  exact ⟨offset, hmem⟩

theorem le_stop (halign : ∀ a ∈ l, 0 < align a) : start ≤ stop size align start l := by
  induction l generalizing start with
  | nil => exact le_refl _
  | cons a l ih =>
    have hle := le_nextMultiple (halign a List.mem_cons_self) start
    have hrest : nextMultiple start (align a) + size a ≤
        stop size align (nextMultiple start (align a) + size a) l :=
      ih fun a' ha' => halign a' (List.mem_cons_of_mem _ ha')
    rw [stop]
    omega

/-- Each item is aligned and lies in the row. -/
theorem place_bounds (halign : ∀ a ∈ l, 0 < align a) {p : α × Nat}
    (hp : p ∈ place size align start l) :
    align p.1 ∣ p.2 ∧ start ≤ p.2 ∧ p.2 + size p.1 ≤ stop size align start l := by
  induction l generalizing start with
  | nil => cases hp
  | cons a l ih =>
    have hle := le_nextMultiple (halign a List.mem_cons_self) start
    have hrest : ∀ a ∈ l, 0 < align a := fun a' ha' => halign a' (List.mem_cons_of_mem _ ha')
    rcases List.mem_cons.mp hp with rfl | hp
    · exact ⟨dvd_nextMultiple _ _, hle, le_stop hrest⟩
    · obtain ⟨hdvd, hstart, hstop⟩ := ih hrest hp
      refine ⟨hdvd, ?_, hstop⟩
      omega

/-- Of two items the first one ends before the second one starts. -/
theorem place_pairwise (halign : ∀ a ∈ l, 0 < align a) :
    (place size align start l).Pairwise fun p q => p.2 + size p.1 ≤ q.2 := by
  induction l generalizing start with
  | nil => exact .nil
  | cons a l ih =>
    have hrest : ∀ a ∈ l, 0 < align a := fun a' ha' => halign a' (List.mem_cons_of_mem _ ha')
    exact .cons (fun q hq => (place_bounds hrest hq).2.1) (ih hrest)

end BumpLayout
