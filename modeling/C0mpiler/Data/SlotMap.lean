import Mathlib

/-!
# Slot maps

The IR keeps functions, blocks, instructions, arguments, globals and constants in slot maps:
`insert` hands out a key that was never handed out before, and a removed key stays dead: a key of
the crate is a slot and its version, and a slot that is used again has a new version. A `SlotMap`
carries that as a field (`fresh`): no key from `next` on is bound. Keys start at `1`, so that `0`
can stand for the null key a key type has as its default.

Iteration goes by slot, and the slot of a removed key is used again, so the order of the keys says
nothing about when they were handed out. A `SlotOrder` is any such order.
-/

/-- The order in which slot maps are iterated over: any order of the live keys. `site` tells the
owners of the maps apart. -/
structure SlotOrder where
  iter : Nat → List Nat → List Nat
  perm : ∀ site l, (iter site l).Perm l

/-- Every map in the order in which its keys were handed out: no slot is used twice. -/
def SlotOrder.byCreation : SlotOrder := ⟨fun _ l => l, fun _ _ => .refl _⟩

structure SlotMap (α : Type) where
  next : Nat
  slot : Nat → Option α
  fresh : ∀ k, next ≤ k → slot k = none

namespace SlotMap

variable {α : Type}

def empty : SlotMap α := ⟨1, fun _ => none, fun _ _ => rfl⟩

def get? (m : SlotMap α) (k : Nat) : Option α := m.slot k

/-- The map with `a` under the next key. -/
def insert (m : SlotMap α) (a : α) : SlotMap α where
  next := m.next + 1
  slot := fun k => if k = m.next then some a else m.slot k
  fresh := by
    intro k hk
    rw [if_neg (by omega)]
    exact m.fresh k (by omega)

/-- Update the value under `k`, if there is one. -/
def modify (m : SlotMap α) (k : Nat) (g : α → α) : SlotMap α where
  next := m.next
  slot := fun k' => if k' = k then (m.slot k).map g else m.slot k'
  fresh := by
    intro k' hk
    split
    · next h => subst h; rw [m.fresh k' hk]; rfl
    · exact m.fresh k' hk

def remove (m : SlotMap α) (k : Nat) : SlotMap α where
  next := m.next
  slot := fun k' => if k' = k then none else m.slot k'
  fresh := by
    intro k' hk
    split
    · rfl
    · exact m.fresh k' hk

/-- The live keys, in the order they were handed out. -/
def keys (m : SlotMap α) : List Nat := (List.range m.next).filter fun k => (m.slot k).isSome

@[simp] theorem get?_empty (k : Nat) : (empty : SlotMap α).get? k = none := rfl

theorem get?_insert (m : SlotMap α) (a : α) (k : Nat) :
    (m.insert a).get? k = if k = m.next then some a else m.get? k := rfl

@[simp] theorem get?_insert_next (m : SlotMap α) (a : α) : (m.insert a).get? m.next = some a := by
  simp [get?_insert]

theorem get?_modify (m : SlotMap α) (k k' : Nat) (g : α → α) :
    (m.modify k g).get? k' = if k' = k then (m.get? k).map g else m.get? k' := rfl

@[simp] theorem get?_modify_self (m : SlotMap α) (k : Nat) (g : α → α) :
    (m.modify k g).get? k = (m.get? k).map g := by
  simp [get?_modify]

theorem get?_remove (m : SlotMap α) (k k' : Nat) :
    (m.remove k).get? k' = if k' = k then none else m.get? k' := rfl

theorem get?_next (m : SlotMap α) : m.get? m.next = none := m.fresh _ le_rfl

theorem mem_keys {m : SlotMap α} {k : Nat} : k ∈ m.keys ↔ (m.get? k).isSome := by
  simp only [keys, List.mem_filter, List.mem_range, get?]
  refine ⟨fun h => h.2, fun h => ⟨?_, h⟩⟩
  by_contra hk
  rw [m.fresh k (by omega)] at h
  cases h

theorem keys_nodup (m : SlotMap α) : m.keys.Nodup := List.nodup_range.filter _

/-- The live keys as an iteration meets them. -/
def keysIn (m : SlotMap α) (order : SlotOrder) (site : Nat) : List Nat := order.iter site m.keys

theorem mem_keysIn {m : SlotMap α} {order : SlotOrder} {site k : Nat} :
    k ∈ m.keysIn order site ↔ (m.get? k).isSome := (order.perm site m.keys).mem_iff.trans mem_keys

theorem keysIn_nodup (m : SlotMap α) (order : SlotOrder) (site : Nat) : (m.keysIn order site).Nodup :=
  (order.perm site m.keys).nodup_iff.mpr m.keys_nodup

end SlotMap
