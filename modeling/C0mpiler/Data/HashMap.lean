import Mathlib

/-!
# Hash maps and hash sets

A `HashMap` is Mathlib's `AList`: an association list without duplicate keys. Its entry order
stands for the order in which the map happens to be iterated, so a statement about every
`HashMap` is a statement about every iteration order. A hash set is a list of its elements;
`HashSet.insert` does not add an element twice.
-/

abbrev HashMap (κ ν : Type) := AList (fun _ : κ => ν)

abbrev HashSet (κ : Type) := List κ

namespace HashMap

variable {κ ν : Type} [DecidableEq κ]

/-- `collect` of key/value pairs: a later pair replaces an earlier one of the same key. -/
def collect (l : List (κ × ν)) : HashMap κ ν :=
  l.foldl (fun m p => m.insert p.1 p.2) ∅

/-- `entry(k).or_default()` followed by an update of the set stored there. -/
def entryInsert [DecidableEq ν] (m : HashMap κ (HashSet ν)) (k : κ) (v : ν) :
    HashMap κ (HashSet ν) :=
  m.insert k (List.insert v ((m.lookup k).getD []))

/-- `entry(k).or_default()` with nothing done to the set stored there. -/
def entryDefault (m : HashMap κ (HashSet ν)) (k : κ) : HashMap κ (HashSet ν) :=
  match m.lookup k with
  | some _ => m
  | none => m.insert k []

/-- `get_mut(k)` followed by an update in place: the entry keeps its position. -/
def modify (m : HashMap κ ν) (k : κ) (g : ν → ν) : HashMap κ ν where
  entries := m.entries.map fun e => if e.1 = k then ⟨e.1, g e.2⟩ else e
  nodupKeys := by
    have hkeys : (m.entries.map fun e => if e.1 = k then (⟨e.1, g e.2⟩ : Sigma fun _ => ν) else e).keys
        = m.entries.keys := by
      simp only [List.keys, List.map_map]
      refine List.map_congr_left fun e _ => ?_
      simp only [Function.comp]
      split <;> rfl
    rw [List.NodupKeys, hkeys]
    exact m.nodupKeys

theorem lookup_insert_ite (m : HashMap κ ν) (k k' : κ) (v : ν) :
    (m.insert k v).lookup k' = if k' = k then some v else m.lookup k' := by
  split
  · next h => subst h; exact AList.lookup_insert m
  · next h => exact AList.lookup_insert_ne h

theorem lookup_foldl_insert_of_notMem (l : List (κ × ν)) (m : HashMap κ ν) {k : κ}
    (h : k ∉ l.map Prod.fst) :
    (l.foldl (fun m p => m.insert p.1 p.2) m).lookup k = m.lookup k := by
  induction l generalizing m with
  | nil => rfl
  | cons p l ih =>
    simp only [List.map_cons, List.mem_cons, not_or] at h
    rw [List.foldl_cons, ih _ h.2, AList.lookup_insert_ne h.1]

/-- A key collected once is bound to its value. -/
theorem lookup_collect {l : List (κ × ν)} (hl : (l.map Prod.fst).Nodup) {k : κ} {v : ν} :
    (collect l).lookup k = some v ↔ (k, v) ∈ l := by
  suffices h : ∀ m : HashMap κ ν, (∀ p ∈ l, m.lookup p.1 = none) →
      ((l.foldl (fun m p => m.insert p.1 p.2) m).lookup k = some v ↔
        (k, v) ∈ l ∨ m.lookup k = some v) by
    simpa [collect] using h ∅ (fun p _ => AList.lookup_empty p.1)
  induction l with
  | nil => simp
  | cons p l ih =>
    intro m hm
    simp only [List.map_cons, List.nodup_cons] at hl
    rw [List.foldl_cons]
    by_cases hkp : k = p.1
    · subst hkp
      rw [lookup_foldl_insert_of_notMem l _ hl.1, AList.lookup_insert,
        hm p List.mem_cons_self]
      have hnot : (p.1, v) ∉ l := fun h => hl.1 (List.mem_map.mpr ⟨_, h, rfl⟩)
      simp only [Option.some.injEq, List.mem_cons, hnot, or_false, reduceCtorEq]
      constructor
      · intro h; rw [← h]
      · intro h; rw [← h]
    · rw [ih hl.2 _ ?_, AList.lookup_insert_ne hkp]
      · have hne : (k, v) ≠ p := fun h => hkp (h ▸ rfl)
        simp [hne]
      · intro q hq
        rw [AList.lookup_insert_ne, hm q (List.mem_cons_of_mem _ hq)]
        intro h
        exact hl.1 (List.mem_map.mpr ⟨q, hq, h⟩)

theorem collect_singleton_ne (k : κ) (v : ν) : collect [(k, v)] ≠ ∅ := by
  intro h
  have hlook : (collect [(k, v)]).lookup k = some v :=
    (lookup_collect (by simp)).mpr (List.mem_singleton_self _)
  rw [h] at hlook
  cases hlook

end HashMap
