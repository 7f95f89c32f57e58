import C0mpiler.Data.HashMap
import Mathlib

/-!
# Memoised computations

A computation that may fail and that looks up and stores results in a hash map. The map keeps
what was stored before a failure. `Follows f x y` says that `x` behaves like the plain result `y`
as long as the map holds results of `f` only; it is kept by sequencing and by `memoise`, so a
recursion that memoises its calls computes what the same recursion without the map computes.
-/

abbrev MemoM (κ ν ε : Type) := ExceptT ε (StateM (HashMap κ ν))

namespace MemoM

variable {κ ν ε α β : Type}

def exec (x : MemoM κ ν ε α) (s : HashMap κ ν) : Except ε α × HashMap κ ν := x.run.run s

@[simp] theorem exec_pure (a : α) (s : HashMap κ ν) :
    (pure a : MemoM κ ν ε α).exec s = (.ok a, s) := rfl

@[simp] theorem exec_throw (e : ε) (s : HashMap κ ν) :
    (throw e : MemoM κ ν ε α).exec s = (.error e, s) := rfl

theorem exec_bind (x : MemoM κ ν ε α) (g : α → MemoM κ ν ε β) (s : HashMap κ ν) :
    (x >>= g).exec s = match x.exec s with
      | (.ok a, s') => (g a).exec s'
      | (.error e, s') => (.error e, s') := by
  unfold exec
  simp only [ExceptT.run_bind, StateT.run_bind]
  generalize StateT.run (ExceptT.run x) s = r
  obtain ⟨_ | _, _⟩ := r <;> rfl

variable [DecidableEq κ]

/-- Answer from the map, or compute the answer and store it. -/
def memoise (k : κ) (x : MemoM κ ν ε ν) : MemoM κ ν ε ν := do
  match (← get).lookup k with
  | some v => return v
  | none =>
    let v ← x
    modify fun m => m.insert k v
    return v

theorem exec_memoise (k : κ) (x : MemoM κ ν ε ν) (s : HashMap κ ν) :
    (memoise k x).exec s = match s.lookup k with
      | some v => (.ok v, s)
      | none => match x.exec s with
        | (.ok v, s') => (.ok v, s'.insert k v)
        | (.error e, s') => (.error e, s') := by
  unfold memoise
  rw [exec_bind]
  simp only [show (get : MemoM κ ν ε (HashMap κ ν)).exec s = (.ok s, s) from rfl]
  cases s.lookup k with
  | some v => rfl
  | none =>
    dsimp only
    rw [exec_bind]
    obtain ⟨_ | _, _⟩ := x.exec s <;> rfl

/-- The map holds results of `f`. -/
def Holds (f : κ → Except ε ν) (s : HashMap κ ν) : Prop :=
  ∀ k v, s.lookup k = some v → f k = .ok v

theorem Holds.empty (f : κ → Except ε ν) : Holds f ∅ := fun _ _ h => by
  rw [AList.lookup_empty] at h
  cases h

theorem Holds.insert {f : κ → Except ε ν} {s : HashMap κ ν} (h : Holds f s) {k : κ} {v : ν}
    (hv : f k = .ok v) : Holds f (s.insert k v) := by
  intro k' v' hk'
  rw [HashMap.lookup_insert_ite] at hk'
  split at hk'
  · next hkk =>
    cases hk'
    exact hkk ▸ hv
  · exact h k' v' hk'

/-- With results of `f` in the map, `x` gives `y` and leaves results of `f` in the map. -/
def Follows (f : κ → Except ε ν) (x : MemoM κ ν ε α) (y : Except ε α) : Prop :=
  ∀ s, Holds f s → (x.exec s).1 = y ∧ Holds f (x.exec s).2

namespace Follows

variable {f : κ → Except ε ν}

theorem pure (a : α) : Follows f (Pure.pure a) (.ok a) := fun _ hs => ⟨rfl, hs⟩

theorem throw (e : ε) : Follows (α := α) f (MonadExcept.throw e) (.error e) := fun _ hs => ⟨rfl, hs⟩

theorem bind {x : MemoM κ ν ε α} {y : Except ε α} {g : α → MemoM κ ν ε β} {g' : α → Except ε β}
    (hx : Follows f x y) (hg : ∀ a, y = .ok a → Follows f (g a) (g' a)) :
    Follows f (x >>= g) (y >>= g') := by
  intro s hs
  obtain ⟨hres, hmap⟩ := hx s hs
  rw [exec_bind]
  cases hexec : x.exec s with
  | mk r s' =>
    rw [hexec] at hres hmap
    subst hres
    cases r with
    | error e => exact ⟨rfl, hmap⟩
    | ok a => exact hg a rfl s' hmap

/-- A memoised call of `f` gives what `f` gives. -/
theorem memoise {k : κ} {x : MemoM κ ν ε ν} (hx : Follows f x (f k)) :
    Follows f (memoise k x) (f k) := by
  intro s hs
  rw [exec_memoise]
  cases hlookup : s.lookup k with
  | some v => exact ⟨(hs k v hlookup).symm, hs⟩
  | none =>
    obtain ⟨hres, hmap⟩ := hx s hs
    cases hexec : x.exec s with
    | mk r s' =>
      rw [hexec] at hres hmap
      cases r with
      | error e => exact ⟨hres, hmap⟩
      | ok v => exact ⟨hres, hmap.insert hres.symm⟩

end Follows

end MemoM
