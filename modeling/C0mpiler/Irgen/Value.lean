import C0mpiler.Ir.CoreBuilder
import C0mpiler.Semantics.Types
import Mathlib

/-!
# Values of the IR generator

A `CoreValueContainer` (`irgen/value.rs`) is how the generator holds the value of an expression:
`raw` is the value itself, `ptr` a pointer to a slot that holds it. An aggregate travels as a
pointer; a reference to an unsized type is a fat pointer, two values side by side.
-/

open Ir Semantics

namespace Irgen

/-- A type together with the name of its struct, which `Ty` leaves out. -/
structure TypePtr where
  ty : Ty
  structName : Option String
  deriving DecidableEq

def TypePtr.isFatPtr (t : TypePtr) : Bool := t.structName == some "fat_ptr"

def isAggregateType : Ty → Bool
  | .array _ _ | .function _ _ | .struct _ _ | .structForward => true
  | _ => false

/-- `ptr_type`. -/
def ptrType : TypePtr := ⟨.ptr, none⟩

inductive CoreContainerKind where
  | raw (fat : Option ValueId)
  | ptr (ty : TypePtr)
  deriving DecidableEq

structure CoreValueContainer where
  value : ValueId
  kind : CoreContainerKind
  deriving DecidableEq

def CoreValueContainer.flatten (c : CoreValueContainer) : List ValueId :=
  match c.kind with
  | .raw (some fat) => [c.value, fat]
  | _ => [c.value]

/-- The generator: the module, the builder at the end of the current block, and the builder that
puts allocas at the front of the entry block. -/
structure IRGenerator where
  target : TargetDataLayout
  module : ModuleCore
  builder : BuilderLocation
  allocaBuilder : BuilderLocation

namespace IRGenerator

def ptrWidthIntType (g : IRGenerator) : Ty := .int (g.target.pointerSize * 8)

def fatPtrType (g : IRGenerator) : TypePtr :=
  ⟨.struct [.ptr, g.ptrWidthIntType] false, some "fat_ptr"⟩

/-- The code emitted so far. -/
def code (g : IRGenerator) : Code := g.module.code

def addI32Const (g : IRGenerator) (value : Nat) : Option (ValueId × IRGenerator) := do
  let c ← CoreInt.fromSigned value 32
  let (id, m) := g.module.addConst (.int 32) (.int c)
  some (.const id, { g with module := m })

def buildLoad (g : IRGenerator) (ty : Ty) (ptr : ValueId) : Option (ValueId × IRGenerator) := do
  let (r, m) ← g.module.buildLoad g.builder ty ptr none
  some (.inst r, { g with module := m })

def buildStore (g : IRGenerator) (value ptr : ValueId) : Option IRGenerator := do
  let (_, m) ← g.module.buildStore g.builder value ptr
  some { g with module := m }

def buildGetelementptr (g : IRGenerator) (baseTy : Ty) (base : ValueId) (indices : List ValueId) :
    Option (ValueId × IRGenerator) := do
  let (r, m) ← g.module.buildGetelementptr g.builder baseTy base indices none
  some (.inst r, { g with module := m })

/-- `build_alloca` of the generator uses the alloca builder. -/
def buildAlloca (g : IRGenerator) (ty : Ty) : Option (ValueId × IRGenerator) := do
  let (r, m) ← g.module.buildAlloca g.allocaBuilder ty none
  some (.inst r, { g with module := m })

/-- The address of the second word of a fat pointer. -/
def buildFatSecond (g : IRGenerator) (base : ValueId) : Option (ValueId × IRGenerator) := do
  let (zero, g) ← g.addI32Const 0
  let (one, g) ← g.addI32Const 1
  g.buildGetelementptr g.fatPtrType.ty base [zero, one]

def getRawValue (g : IRGenerator) (value : CoreValueContainer) :
    Option (ValueId × IRGenerator) :=
  match value.kind with
  | .raw _ => some (value.value, g)
  | .ptr ty => g.buildLoad ty.ty value.value

/-- The first word of a fat pointer: a string literal is the array itself. -/
def fatHead (g : IRGenerator) (rawType : Ty) (raw zero zeroIdx : ValueId) :
    Option (ValueId × IRGenerator) :=
  match rawType with
  | .ptr => some (raw, g)
  | .array _ _ => g.buildGetelementptr rawType raw [zero, zeroIdx]
  | _ => none

def rawValueToPtr (g : IRGenerator) (raw : CoreValueContainer) :
    Option (CoreValueContainer × IRGenerator) := do
  let rawType ← g.module.valueTy raw.value
  match raw.kind with
  | .ptr _ => none
  | .raw (some fat) => do
    let (allocated, g) ← g.buildAlloca g.fatPtrType.ty
    let (zero, g) ← g.addI32Const 0
    let (zeroIdx, g) ← g.addI32Const 0
    let (head, g) ← g.fatHead rawType raw.value zero zeroIdx
    let g ← g.buildStore head allocated
    let (second, g) ← g.buildFatSecond allocated
    let g ← g.buildStore fat second
    some (⟨allocated, .ptr g.fatPtrType⟩, g)
  | .raw none => do
    let (allocated, g) ← g.buildAlloca rawType
    let g ← g.buildStore raw.value allocated
    some (⟨allocated, .ptr ⟨rawType, none⟩⟩, g)

def getValuePtr (g : IRGenerator) (value : CoreValueContainer) :
    Option (CoreValueContainer × IRGenerator) :=
  match value.kind with
  | .raw _ => g.rawValueToPtr value
  | .ptr _ => some (value, g)

/-- The form in which a value is passed to a call. -/
def getValuePresentation (g : IRGenerator) (value : CoreValueContainer) :
    Option (CoreValueContainer × IRGenerator) :=
  match value.kind with
  | .raw (some _) => some (value, g)
  | .raw none => do
    let rawTy ← g.module.valueTy value.value
    if isAggregateType rawTy then g.getValuePtr value else some (value, g)
  | .ptr ty =>
    if ty.isFatPtr then do
      let (head, g) ← g.buildLoad .ptr value.value
      let (second, g) ← g.buildFatSecond value.value
      let (fat, g) ← g.buildLoad g.ptrWidthIntType second
      some (⟨head, .raw (some fat)⟩, g)
    else if isAggregateType ty.ty then some (value, g)
    else do
      let (raw, g) ← g.getRawValue value
      some (⟨raw, .raw none⟩, g)

/-! ## Dereference -/

def derefImpl (g : IRGenerator) (value : CoreValueContainer) :
    DerefLevel → TypePtr → Bool → Option (CoreValueContainer × IRGenerator)
  | .not, _, selfByRef => do
    guard (!selfByRef)
    some (value, g)
  | .deref derefLevel _, ty, selfByRef =>
    if selfByRef then derefImpl g value derefLevel ty false
    else do
      let (value, g) ← g.getRawValue value
      if derefLevel.isNot then some (⟨value, .ptr ty⟩, g)
      else do
        let (newValue, g) ← g.buildLoad .ptr value
        derefImpl g ⟨newValue, .ptr ptrType⟩ derefLevel ty false

def deref (g : IRGenerator) (value : CoreValueContainer) (level : DerefLevel) (ty : TypePtr) :
    Option (CoreValueContainer × IRGenerator) :=
  g.derefImpl value level ty false

/-! ## The accesses that dereference -/

/-- `visit_field_expr` after its receiver: `pos` is the field's index and `ty` its type. -/
def visitFieldExpr (g : IRGenerator) (exprValue : CoreValueContainer) (derefLevel : DerefLevel)
    (structTy : TypePtr) (pos : Nat) (ty : TypePtr) : Option (CoreValueContainer × IRGenerator) := do
  let (derefedValue, g) ← g.deref exprValue derefLevel structTy
  let (zero, g) ← g.addI32Const 0
  let (index, g) ← g.addI32Const pos
  let (v, g) ← g.buildGetelementptr structTy.ty derefedValue.value [zero, index]
  some (⟨v, .ptr ty⟩, g)

/-- `visit_index_expr` after its operands: `indexRaw` is the value of the index. -/
def visitIndexExpr (g : IRGenerator) (arrayValue : CoreValueContainer) (indexRaw : ValueId)
    (derefLevel : DerefLevel) (arrayTy innerTy : TypePtr) :
    Option (CoreValueContainer × IRGenerator) := do
  let (derefedValue, g) ← g.deref arrayValue derefLevel arrayTy
  let (zero, g) ← g.addI32Const 0
  let (v, g) ← g.buildGetelementptr arrayTy.ty derefedValue.value [zero, indexRaw]
  some (⟨v, .ptr innerTy⟩, g)

/-- The receiver of a call that takes it by reference without dereferencing it: its address. -/
def borrowReceiver (g : IRGenerator) (receiverValue : CoreValueContainer) (level : DerefLevel)
    (selfByRef : Bool) : Option (CoreValueContainer × Bool × IRGenerator) :=
  if level.isNot && selfByRef then do
    let (p, g) ← g.getValuePtr receiverValue
    some (⟨p.value, .raw none⟩, false, g)
  else some (receiverValue, selfByRef, g)

/-- The arguments that `visit_method_call_expr` passes for the receiver. -/
def methodReceiverArgs (g : IRGenerator) (receiverValue : CoreValueContainer) (level : DerefLevel)
    (selfByRef : Bool) (receiverTy : TypePtr) : Option (List ValueId × IRGenerator) := do
  let (receiverValue, selfByRef, g) ← g.borrowReceiver receiverValue level selfByRef
  let (derefedValue, g) ← g.derefImpl receiverValue level receiverTy selfByRef
  let (presented, g) ← g.getValuePresentation derefedValue
  some (presented.flatten, g)

def presentArgs : IRGenerator → List CoreValueContainer → Option (List ValueId × IRGenerator)
  | g, [] => some ([], g)
  | g, v :: vs => do
    let (presented, g) ← g.getValuePresentation v
    let (rest, g) ← presentArgs g vs
    some (presented.flatten ++ rest, g)

def buildCall (g : IRGenerator) (func : FunctionId) (args : List ValueId) :
    Option (ValueId × IRGenerator) := do
  let fd ← g.module.func func
  let (r, m) ← g.module.buildInst g.builder fd.ty.returnType (.call func args) none
  some (.inst r, { g with module := m })

/-- `visit_method_call_expr` after its operands. `sret` is the type of a result that is returned
through a pointer. -/
def visitMethodCallExpr (g : IRGenerator) (receiverValue : CoreValueContainer)
    (argValues : List CoreValueContainer) (level : DerefLevel) (selfByRef : Bool)
    (receiverTy : TypePtr) (func : FunctionId) (sret : Option TypePtr) :
    Option (CoreValueContainer × IRGenerator) := do
  let (receiverArgs, g) ← g.methodReceiverArgs receiverValue level selfByRef receiverTy
  let (restArgs, g) ← g.presentArgs argValues
  match sret with
  | some ty => do
    let (ptr, g) ← g.buildAlloca ty.ty
    let (_, g) ← g.buildCall func (ptr :: receiverArgs ++ restArgs)
    some (⟨ptr, .ptr ty⟩, g)
  | none => do
    let (ins, g) ← g.buildCall func (receiverArgs ++ restArgs)
    some (⟨ins, .raw none⟩, g)

end IRGenerator

end Irgen
