import C0mpiler.Semantics.TypeSolver
import Mathlib

/-!
# Places and their mutability

The visitors of the analyser that compute an `AssigneeKind` and that check one (`analyzer.rs`): paths,
tuples, arrays, structs, fields, indices, dereferences, borrows, assignments and method calls. Every
other expression visits its operands, unifies types and is a value; `Expr.value` lists these steps.
A path is resolved already: it names an entry of the tables of places.

The visitors return what the source stores under the id of the expression. Two things are recorded
for the theorems and are not in the source: the access path of an expression, and the paths of the
places that are mutated (`Analyzer.mutated`).
-/

namespace Semantics

/-- What an expression may be used for: a place, a value, or an assignment only (as `_`). -/
inductive AssigneeKind where
  | place (mutbl : Mutability)
  | value
  | only
  deriving DecidableEq, Repr

/-- `AssigneeKind::merge`. -/
def AssigneeKind.merge : AssigneeKind → AssigneeKind → Option AssigneeKind
  | .place m₁, .place m₂ => some (.place (m₁.and m₂))
  | .value, .place _ | .place _, .value | .value, .value => some .value
  | .only, .place .mut | .place .mut, .only | .only, .only => some .only
  | .only, .place .not | .place .not, .only => none
  | .only, .value | .value, .only => none

/-- `From<AssigneeKind> for Mutability`. -/
def AssigneeKind.toMutability : AssigneeKind → Option Mutability
  | .place m => some m
  | .value => some .mut
  | .only => none

/-- `Not < Mut`. -/
def Mutability.lt : Mutability → Mutability → Bool
  | .not, .mut => true
  | _, _ => false

/-- A name resolved to a place. -/
abbrev PlaceIndex := Nat

/-- How a method takes its receiver. -/
inductive MethodKind where
  | not | byRef | byRaw
  deriving DecidableEq, Repr

/-- What a name stands for. -/
inductive PlaceKind where
  | binding
  | constant (unitStruct : Bool)
  | fn (method : MethodKind)
  deriving DecidableEq, Repr

/-- What the analyzer knows of a place. -/
structure PlaceValue where
  ty : TypeIntern
  kind : PlaceKind
  mutbl : Mutability
  deriving DecidableEq, Repr

/-- The operators of `a op= b`. -/
inductive AssignOp where
  | add | sub | mul | div | rem | bitXor | bitAnd | bitOr | shl | shr
  deriving DecidableEq, Repr

/-- What an expression that is a value does besides being one. -/
inductive Step (E : Type) where
  | newType (ty : ResolvedTy) (h : ty.Nominal)
  | eq (left right : TypeIntern)
  | downgradeEq (lower higher : TypeIntern)
  | eqWithType (left : TypeIntern) (rightTy : ResolvedTy) (h : rightTy.Nominal)
  | declare (index : PlaceIndex) (value : PlaceValue)
  | visit (e : E) (target : TypeIntern)

/-- The expressions that can stand on the left of an assignment, and those inside them. -/
inductive Expr where
  | path (index : PlaceIndex)
  | underscore
  | tup (exprs : List Expr) (force : Bool)
  | array (exprs : List Expr)
  | struct (structType : TypeIntern) (fields : List (String × Expr))
  | field (receiver : Expr) (ident : String)
  | index (array index : Expr)
  | deref (e : Expr)
  | addrOf (mutbl : Mutability) (e : Expr)
  | assign (left right : Expr)
  | assignOp (op : AssignOp) (left right : Expr)
  | methodCall (receiver : Expr) (symbol : String) (args : List Expr)
  | value (steps : List (Step Expr))

/-! ## Access paths -/

/-- Where an access starts: a binding, or a temporary. -/
inductive Root where
  | binding (mutbl : Mutability)
  | temporary
  deriving DecidableEq, Repr

/-- The path of an access: its root, and for each step that dereferences the references it goes
through, with the mutability each of them had when the step was visited. -/
structure Access where
  root : Root
  steps : List (List (TypeIntern × RefMutability))
  deriving DecidableEq, Repr

/-- A temporary itself. -/
def Access.temporary : Access := ⟨.temporary, []⟩

/-- One more step through references; following none is no step. -/
def Access.through (a : Access) : List (TypeIntern × RefMutability) → Access
  | [] => a
  | p :: step => { a with steps := a.steps ++ [p :: step] }

/-- What `visit_expr` returns, with the access that the expression reads and the ones it assigns. -/
structure ExprResult where
  assignee : AssigneeKind
  access : Access
  /-- The places that an assignment to the expression writes. -/
  assignees : List Access

/-- The result of an expression that is a value. -/
def ExprResult.ofValue : ExprResult := ⟨.value, .temporary, []⟩

/-- The result of a place. -/
def ExprResult.ofPlace (mutbl : Mutability) (access : Access) : ExprResult :=
  ⟨.place mutbl, access, [access]⟩

/-- The state of the analyzer that these functions use; `mutated` records what was assigned or
borrowed mutably. -/
structure Analyzer where
  ut : TypeUt
  places : PlaceIndex → Option PlaceValue
  mutated : List Access

/-- What the visitors use of the rest of the analyser. -/
structure Prims where
  unitType : TypeIntern
  u32Type : TypeIntern
  usizeType : TypeIntern
  refStrType : TypeIntern
  searchValueInImpl : Analyzer → TypeIntern → String → Option (Option PlaceIndex)

namespace Analyzer

/-- `intern_type` of a new type. -/
def newType (a : Analyzer) (ty : ResolvedTy) : TypeIntern × Analyzer :=
  (.other (a.ut.newKey ty).1, { a with ut := (a.ut.newKey ty).2 })

/-- One `new_any_type` for each component. -/
def newAnyTypes (a : Analyzer) : Nat → List TypeIntern × Analyzer
  | 0 => ([], a)
  | n + 1 =>
    let (ty, a) := a.newType .anyType
    let (tys, a) := newAnyTypes a n
    (ty :: tys, a)

/-- `ty_intern_eq`. -/
def tyInternEq (fuel : Nat) (a : Analyzer) (left right : TypeIntern) : Option Analyzer :=
  (solveEq fuel false a.ut left right).map fun ut => { a with ut := ut }

/-- `ty_downgrade_eq`. -/
def tyDowngradeEq (fuel : Nat) (a : Analyzer) (lower higher : TypeIntern) : Option Analyzer :=
  (solveEq fuel true a.ut lower higher).map fun ut => { a with ut := ut }

/-- `type_eq`. -/
def typeEq (fuel : Nat) (a : Analyzer) (left : TypeIntern) (rightTy : ResolvedTy) : Option Analyzer :=
  (solveEqWithType fuel a.ut left rightTy).map fun ut => { a with ut := ut }

/-- `probe_type`. -/
def probeType (a : Analyzer) (i : TypeIntern) : Option ResolvedTy := a.ut.probeType i

/-- `check_sized`: the types that have no size, and those not known yet, are refused. -/
def checkSized (a : Analyzer) (ty : TypeIntern) : Option Unit := do
  let probe ← a.probeType ty
  match probe.kind with
  | .builtIn .str | .trait | .fn _ _ | .implicitSelf _ => none
  | .any .any => none
  | _ => some ()

/-- Record what is changed. -/
def addMutated (a : Analyzer) (accesses : List Access) : Analyzer :=
  { a with mutated := a.mutated ++ accesses }

end Analyzer

/-- The references that an `auto_deref` of `n` levels goes through. -/
def derefTypes (ut : TypeTable) (u32Type : TypeIntern) :
    Nat → Nat → TypeIntern → List (TypeIntern × RefMutability)
  | 0, _, _ => []
  | _ + 1, 0, _ => []
  | fuel + 1, n + 1, i =>
    match ut.probeType i with
    | none => []
    | some probe =>
      match probe.kind with
      | .ref inner m => (i, m) :: derefTypes ut u32Type fuel n inner
      | .any .anyInt => derefTypes ut u32Type fuel (n + 1) u32Type
      | _ => []

/-- `merge_result_info`. -/
def mergeResultInfo (rs : List ExprResult) : Option AssigneeKind :=
  rs.foldlM (fun assignee r => assignee.merge r.assignee) (.place .mut)

/-- `no_assignee`. -/
def noAssignee (r : ExprResult) : Option Unit := guard (r.assignee ≠ .only)

/-- The recursive call of the visitors. -/
abbrev Visit := Analyzer → Expr → TypeIntern → Option (ExprResult × Analyzer)

/-! ## The visitors -/

section

variable (P : Prims) (fuel : Nat) (visit : Visit)

/-- Visit expressions with their targets; `check` is done after each of them. -/
def visitAll (check : Analyzer → TypeIntern → Option Unit) :
    Analyzer → List (Expr × TypeIntern) → Option (List ExprResult × Analyzer)
  | a, [] => some ([], a)
  | a, (e, target) :: es => do
    let (r, a) ← visit a e target
    check a target
    let (rs, a) ← visitAll check a es
    some (r :: rs, a)

/-- A tuple, or an expression in parentheses. -/
def visitTupExpr (a : Analyzer) (exprs : List Expr) (force : Bool) (target : TypeIntern) :
    Option (ExprResult × Analyzer) :=
  match exprs, force with
  | [], _ => do
    let a ← a.tyInternEq fuel target P.unitType
    let assignee ← mergeResultInfo []
    some (⟨assignee, .temporary, []⟩, a)
  | [e], false => do
    let (rightTy, a) := a.newType .anyType
    let a ← a.tyInternEq fuel target rightTy
    let (r, a) ← visit a e rightTy
    let assignee ← mergeResultInfo [r]
    some (⟨assignee, r.access, r.assignees⟩, a)
  | exprs, _ => do
    let (items, a) := a.newAnyTypes exprs.length
    let (rightTy, a) := a.newType (.tupType items)
    let a ← a.tyInternEq fuel target rightTy
    let probe ← a.probeType rightTy
    match probe.kind with
    | .tup tys => do
      let (rs, a) ← visitAll visit Analyzer.checkSized a (exprs.zip tys)
      let assignee ← mergeResultInfo rs
      some (⟨assignee, .temporary, rs.flatMap ExprResult.assignees⟩, a)
    | _ => none

/-- An array. -/
def visitArrayExpr (a : Analyzer) (exprs : List Expr) (target : TypeIntern) :
    Option (ExprResult × Analyzer) := do
  let (innerTy, a) := a.newType .anyType
  let a ← a.typeEq fuel target (.arrayType innerTy (some exprs.length))
  let (rs, a) ← visitAll visit (fun _ _ => some ()) a (exprs.map fun e => (e, innerTy))
  a.checkSized innerTy
  let assignee ← mergeResultInfo rs
  some (⟨assignee, .temporary, rs.flatMap ExprResult.assignees⟩, a)

/-- The targets of the fields: each field of the struct is given once. -/
def takeFields : List (String × TypeIntern) → List (String × Expr) → Option (List (Expr × TypeIntern))
  | [], [] => some []
  | _ :: _, [] => none
  | map, (ident, e) :: fields => do
    let ty ← map.lookup ident
    let rest ← takeFields (map.filter fun f => f.1 ≠ ident) fields
    some ((e, ty) :: rest)

/-- A struct expression: each field with the type of the declaration. -/
def visitStructExpr (a : Analyzer) (structType : TypeIntern) (fields : List (String × Expr))
    (target : TypeIntern) : Option (ExprResult × Analyzer) := do
  let a ← a.tyInternEq fuel target structType
  let probe ← a.probeType structType
  match probe.kind, probe.names with
  | .tup fieldTys, some (_, some fieldNames) => do
    let targets ← takeFields (fieldNames.zip fieldTys) fields
    let (rs, a) ← visitAll visit (fun _ _ => some ()) a targets
    let assignee ← mergeResultInfo rs
    some (⟨assignee, .temporary, rs.flatMap ExprResult.assignees⟩, a)
  | _, _ => none

/-- `auto_deref` with the references it goes through. -/
def autoDerefTypes {T : Type} (a : Analyzer) (intern : TypeIntern)
    (func : TypeIntern → Option (Option T)) :
    Option (DerefLevel × T × List (TypeIntern × RefMutability)) :=
  match autoDeref a.ut.probeValue P.u32Type
      (fun i => match func i with
        | some t => .ok t
        | none => .error ()) fuel intern with
  | some (.ok (some (level, _, t))) =>
    some (level, t, derefTypes a.ut.probeValue P.u32Type fuel level.depth intern)
  | _ => none

/-- The probe of `visit_field_expr`: the components of a tuple or a struct. -/
def tupOf (a : Analyzer) (i : TypeIntern) : Option (Option (ResolvedTy × List TypeIntern)) :=
  match a.probeType i with
  | none => some none
  | some probe =>
    match probe.kind with
    | .tup items => some (some (probe, items))
    | _ => some none

/-- The probe of `visit_index_expr`. -/
def arrayOf (a : Analyzer) (i : TypeIntern) : Option (Option TypeIntern) :=
  match a.probeType i with
  | none => some none
  | some probe =>
    match probe.kind with
    | .array elem _ => some (some elem)
    | _ => some none

/-- The position of a field: by name, or by number in a tuple. -/
def fieldPos (probe : ResolvedTy) (ident : String) : Option Nat :=
  match probe.names with
  | some (_, some names) => names.findIdx? (· == ident)
  | _ => ident.toNat?

/-- `a.b`: the place of the field, as mutable as the references on the way allow. -/
def visitFieldExpr (a : Analyzer) (receiver : Expr) (ident : String) (target : TypeIntern) :
    Option (ExprResult × Analyzer) := do
  let (receiverTy, a) := a.newType .anyType
  let (r, a) ← visit a receiver receiverTy
  noAssignee r
  let (level, (probe, items), refs) ← autoDerefTypes P fuel a receiverTy (tupOf a)
  let pos ← fieldPos probe ident
  let fieldTy ← items[pos]?
  let a ← a.tyDowngradeEq fuel target fieldTy
  let assignee ← mergeResultInfo [r]
  let mutbl ← assignee.toMutability
  some (.ofPlace (level.chainMutbl mutbl) (r.access.through refs), a)

/-- `a[i]`. -/
def visitIndexExpr (a : Analyzer) (array index : Expr) (target : TypeIntern) :
    Option (ExprResult × Analyzer) := do
  let (arrayIntern, a) := a.newType .anyType
  let (r, a) ← visit a array arrayIntern
  let (ri, a) ← visit a index P.usizeType
  let (level, innerTy, refs) ← autoDerefTypes P fuel a arrayIntern (arrayOf a)
  let a ← a.tyDowngradeEq fuel target innerTy
  noAssignee r
  noAssignee ri
  let mutbl ← r.assignee.toMutability
  some (.ofPlace (level.chainMutbl mutbl) (r.access.through refs), a)

/-- A name: a unit struct is a fresh place, a binding is as mutable as it was declared. -/
def visitPathExpr (a : Analyzer) (index : PlaceIndex) (target : TypeIntern) :
    Option (ExprResult × Analyzer) := do
  let value ← a.places index
  let a ← a.tyDowngradeEq fuel target value.ty
  if value.kind = .constant true then some (.ofPlace .mut .temporary, a)
  else some (.ofPlace value.mutbl ⟨.binding value.mutbl, []⟩, a)

/-- The `Deref` arm of `visit_unary_expr`. -/
def visitDerefExpr (a : Analyzer) (e : Expr) (target : TypeIntern) :
    Option (ExprResult × Analyzer) := do
  let (ty, a) := a.newType .anyType
  let (r, a) ← visit a e ty
  let probe ← a.probeType ty
  match probe.kind with
  | .ref inner mutbl => do
    let a ← a.tyDowngradeEq fuel target inner
    noAssignee r
    some (.ofPlace mutbl.toMutability (r.access.through [(ty, mutbl)]), a)
  | _ => none

/-- `&e` and `&mut e`; a mutable borrow is recorded. -/
def visitAddrOfExpr (a : Analyzer) (mutbl : Mutability) (e : Expr) (target : TypeIntern) :
    Option (ExprResult × Analyzer) := do
  let (innerTy, a) := a.newType .anyType
  let (selfTy, a) := a.newType (.refType innerTy (if mutbl = .mut then .weakMut else .not))
  let a ← a.tyInternEq fuel target selfTy
  let (r, a) ← visit a e innerTy
  noAssignee r
  let assignee ← mergeResultInfo [r]
  let innerMutbl ← assignee.toMutability
  guard (!innerMutbl.lt mutbl)
  some (.ofValue, a.addMutated (if mutbl = .mut then [r.access] else []))

/-- `a = b`: the left side must be a mutable place or take assignments only. -/
def visitAssignExpr (a : Analyzer) (left right : Expr) (target : TypeIntern) :
    Option (ExprResult × Analyzer) := do
  let a ← a.tyInternEq fuel target P.unitType
  let (leftTy, a) := a.newType .anyType
  let (r, a) ← visit a left leftTy
  let (rr, a) ← visit a right leftTy
  noAssignee rr
  match r.assignee with
  | .place .mut | .only => some (.ofValue, a.addMutated r.assignees)
  | .place .not | .value => none

/-- The target of the right operand of a compound assignment. -/
def assignOpTarget (a : Analyzer) (op : AssignOp) (expTy : TypeIntern) (probe : ResolvedTy) :
    Option (TypeIntern × Analyzer) :=
  if probe.isStringType && op = .add then some (P.refStrType, a)
  else if probe.isInteger then
    if op = .shl || op = .shr then some (a.newType .anyIntType) else some (expTy, a)
  else if probe.isBoolType && (op = .bitAnd || op = .bitOr || op = .bitXor) then some (expTy, a)
  else none

/-- `a op= b`: here `_` is refused as well. -/
def visitAssignOpExpr (a : Analyzer) (op : AssignOp) (left right : Expr) (target : TypeIntern) :
    Option (ExprResult × Analyzer) := do
  let a ← a.tyInternEq fuel target P.unitType
  let (expTy, a) := a.newType .anyType
  let (r, a) ← visit a left expTy
  let probe ← a.probeType expTy
  let (rightTy, a) ← assignOpTarget P a op expTy probe
  let (rr, a) ← visit a right rightTy
  noAssignee rr
  match r.assignee with
  | .place .mut => some (.ofValue, a.addMutated [r.access])
  | .place .not | .value | .only => none

/-- The check of the receiver against the type of `self`. -/
def checkReceiver (a : Analyzer) (level : DerefLevel) (receiverMutbl : Mutability)
    (selfTy : ResolvedTy) (access : Access) : Option Analyzer :=
  match selfTy.kind with
  | .ref _ refMutbl => do
    guard (!(level.chainMutbl receiverMutbl).lt refMutbl.toMutability)
    some (a.addMutated (if refMutbl.toMutability = .mut then [access] else []))
  | _ => if level.isNot then some a else none

/-- A method call: the receiver may be borrowed on the way. -/
def visitMethodCallExpr (a : Analyzer) (receiver : Expr) (symbol : String) (args : List Expr)
    (target : TypeIntern) : Option (ExprResult × Analyzer) := do
  let (receiverType, a) := a.newType .anyType
  let (r, a) ← visit a receiver receiverType
  let (level, index, refs) ← autoDerefTypes P fuel a receiverType
    fun i => P.searchValueInImpl a i symbol
  let value ← a.places index
  match value.kind with
  | .fn .byRef | .fn .byRaw => do
    let probe ← a.probeType value.ty
    match probe.kind with
    | .fn retTy (selfTy :: argTys) => do
      let a ← a.tyDowngradeEq fuel target retTy
      guard (args.length = argTys.length)
      let (rs, a) ← visitAll visit (fun _ _ => some ()) a (args.zip argTys)
      noAssignee r
      rs.forM noAssignee
      let firstProbe ← a.probeType selfTy
      let receiverMutbl ← r.assignee.toMutability
      let a ← checkReceiver a level receiverMutbl firstProbe (r.access.through refs)
      some (.ofValue, a)
    | _ => none
  | _ => none

/-- One step of an expression that is a value. A declaration has an index of its own. -/
def visitStep (a : Analyzer) : Step Expr → Option Analyzer
  | .newType ty _ => some (a.newType ty).2
  | .eq left right => a.tyInternEq fuel left right
  | .downgradeEq lower higher => a.tyDowngradeEq fuel lower higher
  | .eqWithType left rightTy _ => a.typeEq fuel left rightTy
  | .declare index value => do
    guard (a.places index).isNone
    some { a with places := Function.update a.places index (some value) }
  | .visit e target => (visit a e target).map Prod.snd

end

/-- `visit_expr`. -/
def visitExpr (P : Prims) : Nat → Visit
  | 0, _, _, _ => none
  | fuel + 1, a, e, target =>
    match e with
    | .path index => visitPathExpr fuel a index target
    | .underscore => some (⟨.only, .temporary, []⟩, a)
    | .tup exprs force => visitTupExpr P fuel (visitExpr P fuel) a exprs force target
    | .array exprs => visitArrayExpr fuel (visitExpr P fuel) a exprs target
    | .struct structType fields => visitStructExpr fuel (visitExpr P fuel) a structType fields target
    | .field receiver ident => visitFieldExpr P fuel (visitExpr P fuel) a receiver ident target
    | .index array index => visitIndexExpr P fuel (visitExpr P fuel) a array index target
    | .deref e => visitDerefExpr fuel (visitExpr P fuel) a e target
    | .addrOf mutbl e => visitAddrOfExpr fuel (visitExpr P fuel) a mutbl e target
    | .assign left right => visitAssignExpr P fuel (visitExpr P fuel) a left right target
    | .assignOp op left right => visitAssignOpExpr P fuel (visitExpr P fuel) a op left right target
    | .methodCall receiver symbol args =>
      visitMethodCallExpr P fuel (visitExpr P fuel) a receiver symbol args target
    | .value steps =>
      (steps.foldlM (visitStep fuel (visitExpr P fuel)) a).map fun a => (.ofValue, a)

end Semantics
