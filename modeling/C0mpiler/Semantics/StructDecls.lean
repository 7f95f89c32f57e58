import C0mpiler.Data.HashMap
import C0mpiler.Semantics.Lexical
import C0mpiler.Semantics.TypeSolver
import Mathlib

/-!
# Struct declarations

What the analyser makes of the struct declarations of a crate: a placeholder for every struct, then
the types of the fields (`visit_struct_item`, `resolve_type`, `check_sized`). Nothing is unified
here, so the table of types is the list of what was interned. A declaration is refused by an error,
or the analyser panics.

`StructDecls.fault` says for the declarations as written which of the two happens first.
-/

namespace Structs

open Semantics Lexical

/-- How the analyser stops. -/
inductive Fault where
  | error
  | panic
  deriving DecidableEq, Repr

/-- A type as it is written. The length of an array is the value of its expression, if it has one. -/
inductive Ty where
  /-- Slices, trait objects and `impl` types. -/
  | unsupported
  | array (inner : Ty) (len : Option Nat)
  | ref (inner : Ty) (mutbl : Mutability)
  | tup (tys : List Ty) (force : Bool)
  | path (symbol : Symbol)
  | infer
  | implicitSelf

/-- The three shapes of a struct item. -/
inductive VariantData where
  | struct (fields : List (Symbol × Ty))
  | tuple
  | unit

namespace VariantData

/-- The declared fields. -/
def fields : VariantData → List (Symbol × Ty)
  | .struct fields => fields
  | .tuple | .unit => []

/-- A tuple struct is not implemented. -/
def isTuple : VariantData → Bool
  | .tuple => true
  | _ => false

end VariantData

/-- A struct of the crate. -/
structure StructItem where
  ident : Symbol
  /-- The scope of the item. -/
  father : NodeId
  /-- The scopes around that one, from the inside out. -/
  outer : List NodeId
  variants : VariantData

namespace StructItem

variable (item : StructItem)

/-- The scopes a field type is looked up in. -/
def scopes : List NodeId := item.father :: item.outer

/-- The names of the fields. -/
def subnames : List Symbol := item.variants.fields.map Prod.fst

/-- Their types, as written. -/
def fieldTys : List Ty := item.variants.fields.map Prod.snd

end StructItem

/-- The struct declarations of a crate, in the order in which they are visited. -/
structure StructDecls where
  /-- The scope of the crate. -/
  crate : NodeId
  items : List StructItem

def boolKey : TypeKey := 0
def charKey : TypeKey := 1
def i32Key : TypeKey := 2
def isizeKey : TypeKey := 3
def u32Key : TypeKey := 4
def usizeKey : TypeKey := 5
def strKey : TypeKey := 6
def unitKey : TypeKey := 7
def refStrKey : TypeKey := 8
def stringKey : TypeKey := 9

/-- The types of the preludes, at their keys; the last one is the placeholder of `String`. -/
def preludes : List ResolvedTy :=
  [⟨none, .builtIn .bool⟩, ⟨none, .builtIn .char⟩, ⟨none, .builtIn .i32⟩, ⟨none, .builtIn .isize⟩,
    ⟨none, .builtIn .u32⟩, ⟨none, .builtIn .usize⟩, ⟨none, .builtIn .str⟩, ⟨none, .tup []⟩,
    ⟨none, .ref (.other strKey) .not⟩, ⟨some (["String"], none), .placeholder⟩]

/-- The key of the first struct. -/
def firstKey : TypeKey := preludes.length

/-- The built-in types of `resolve_path_type`. -/
def builtInKey : Symbol → Option TypeKey
  | "bool" => some boolKey
  | "char" => some charKey
  | "i32" => some i32Key
  | "isize" => some isizeKey
  | "u32" => some u32Key
  | "usize" => some usizeKey
  | "str" => some strKey
  | _ => none

/-! ## The analyser -/

/-- The part of the analyser that struct items go through. -/
structure Analyzer where
  crate : NodeId
  /-- The types, by key. -/
  ut : List ResolvedTy
  /-- The types of the scopes. -/
  types : HashMap (NodeId × Symbol) TypeKey

namespace Analyzer

/-- Before the first item only the preludes are there. -/
def new (crate : NodeId) : Analyzer := ⟨crate, preludes, AList.singleton (0, "String") stringKey⟩

variable (a : Analyzer)

/-- `intern_type`. -/
def internType (ty : ResolvedTy) : TypeKey × Analyzer := (a.ut.length, { a with ut := a.ut ++ [ty] })

/-- The values of the table. -/
def probeKey : TypeTable := fun key => a.ut.getD key default

/-- `probe_type`. -/
def probeType (intern : TypeIntern) : Option ResolvedTy := TypeTable.probeType a.probeKey intern

/-- `set_type_kind` of a key that the stage of symbols has made. -/
def setTypeKind (key : TypeKey) (kind : ResolvedTyKind) : Analyzer :=
  { a with ut := a.ut.modify key fun ty => { ty with kind := kind } }

/-- `get_full_name`: names of the root and `main` stand alone. -/
def getFullName (scope : NodeId) (name : Symbol) : List Symbol :=
  if scope = 0 ∨ scope = a.crate ∧ name = "main" then [name] else [toString scope, name]

/-- `add_type_placeholder`. -/
def addTypePlaceholder (scope : NodeId) (name : Symbol) (subnames : Option (List Symbol)) :
    Except Fault (TypeKey × Analyzer) :=
  let (key, a') := a.internType ⟨some (a.getFullName scope name, subnames), .placeholder⟩
  if (a.types.lookup (scope, name)).isSome then .error .error
  else .ok (key, { a' with types := a.types.insert (scope, name) key })

/-- `check_sized`. -/
def checkSized (intern : TypeIntern) : Except Fault Unit :=
  match a.probeType intern with
  | none => .error .error
  | some probe =>
    match probe.kind with
    | .builtIn .str | .trait | .fn _ _ | .implicitSelf _ => .error .error
    | .any .anyInt | .any .anySignedInt => .ok ()
    | .any .any => .error .panic
    | _ => .ok ()

/-- The sizes of several types, in order. -/
def checkAllSized : List TypeIntern → Except Fault Unit
  | [] => .ok ()
  | intern :: interns => do
    a.checkSized intern
    checkAllSized interns

/-- The loop over the scopes in `resolve_path_type`. -/
def getTypeInScopes (symbol : Symbol) : List NodeId → Option TypeKey
  | [] => none
  | id :: ids => (a.types.lookup (id, symbol)).orElse fun _ => getTypeInScopes symbol ids

/-- `Self` in the scope of a struct is a panic (`get_self_type`). -/
def resolvePathType (scopes : List NodeId) (symbol : Symbol) : Except Fault TypeIntern :=
  match a.getTypeInScopes symbol scopes with
  | some key => .ok (.other key)
  | none =>
    match builtInKey symbol with
    | some key => .ok (.other key)
    | none => if symbol = "Self" then .error .panic else .error .error

end Analyzer

mutual
def resolveType (scopes : List NodeId) : Ty → Analyzer → Except Fault (TypeIntern × Analyzer)
  | .unsupported, _ => .error .error
  | .array inner len, a => do
    let len ← len.elim (.error .error) .ok
    let (ty, a) ← resolveType scopes inner a
    a.checkSized ty
    let (key, a) := a.internType (.arrayType ty (some len))
    .ok (.other key, a)
  | .ref inner mutbl, a => do
    let (ty, a) ← resolveType scopes inner a
    let (key, a) := a.internType (.refType ty (match mutbl with | .not => .not | .mut => .mut))
    .ok (.other key, a)
  | .tup tys force, a => do
    let (inners, a) ← resolveTypes scopes tys a
    a.checkAllSized inners
    match inners with
    | [] => .ok (.other unitKey, a)
    | [inner] =>
      if force then
        let (key, a) := a.internType (.tupType [inner])
        .ok (.other key, a)
      else .ok (inner, a)
    | inners =>
      let (key, a) := a.internType (.tupType inners)
      .ok (.other key, a)
  | .path symbol, a => do
    let ty ← a.resolvePathType scopes symbol
    .ok (ty, a)
  | .infer, a =>
    let (key, a) := a.internType .anyType
    .ok (.other key, a)
  | .implicitSelf, _ => .error .panic

/-- The types inside a tuple, one after the other. -/
def resolveTypes (scopes : List NodeId) : List Ty → Analyzer →
    Except Fault (List TypeIntern × Analyzer)
  | [], a => .ok ([], a)
  | ty :: tys, a => do
    let (intern, a) ← resolveType scopes ty a
    let (interns, a) ← resolveTypes scopes tys a
    .ok (intern :: interns, a)
end

namespace Analyzer

variable (a : Analyzer)

/-- A struct at the stage of symbols. -/
def collectStruct (item : StructItem) : Except Fault (TypeKey × Analyzer) :=
  if item.variants.isTuple ∨ ¬item.subnames.Nodup then .error .error
  else a.addTypePlaceholder item.father item.ident (some item.subnames)

/-- All structs at the stage of symbols, with their keys (the scopes of the structs keep them). -/
def collectStructs : List StructItem → Analyzer → Except Fault (List TypeKey × Analyzer)
  | [], a => .ok ([], a)
  | item :: items, a => do
    let (key, a) ← a.collectStruct item
    let (keys, a) ← collectStructs items a
    .ok (key :: keys, a)

/-- A struct at the stage of definitions. -/
def defineStruct (item : StructItem) (key : TypeKey) : Except Fault Analyzer := do
  let (fields, a) ← resolveTypes item.scopes item.fieldTys a
  .ok (a.setTypeKind key (.tup fields))

/-- `visit_struct_item` at the stage of definitions, for every item. -/
def defineStructs : List (StructItem × TypeKey) → Analyzer → Except Fault Analyzer
  | [], a => .ok a
  | (item, key) :: items, a => do
    let a ← a.defineStruct item key
    defineStructs items a

end Analyzer

/-- The two stages that structs go through. -/
def StructDecls.analyse (D : StructDecls) : Except Fault Analyzer := do
  let (keys, a) ← Analyzer.collectStructs D.items (.new D.crate)
  Analyzer.defineStructs (D.items.zip keys) a

/-! ## The declarations as written -/

/-- What a name in scope stands for. -/
inductive Target where
  | prelude
  | struct (i : Nat)
  deriving DecidableEq, Repr

namespace StructDecls

variable (D : StructDecls)

/-- What a scope declares under a name. -/
def declared (symbol : Symbol) (scope : NodeId) : Option Target :=
  match D.items.findIdx? fun item => item.father = scope ∧ item.ident = symbol with
  | some i => some (.struct i)
  | none => if scope = 0 ∧ symbol = "String" then some .prelude else none

/-- What a name stands for: the innermost declaration counts. -/
def find (symbol : Symbol) : List NodeId → Option Target
  | [] => none
  | id :: ids => (D.declared symbol id).orElse fun _ => find symbol ids

end StructDecls

section Written

variable (find : Symbol → Option Target)

mutual
/-- The structs that a type mentions. -/
def Ty.mentions : Ty → List Nat
  | .unsupported | .infer | .implicitSelf => []
  | .array inner _ => inner.mentions
  | .ref inner _ => inner.mentions
  | .tup tys _ => mentionsAll tys
  | .path symbol =>
    match find symbol with
    | some (.struct i) => [i]
    | _ => []

/-- The structs that several types mention. -/
def mentionsAll : List Ty → List Nat
  | [] => []
  | ty :: tys => ty.mentions ++ mentionsAll tys
end

mutual
/-- The structs that a value of the type holds: those it mentions, but not behind a reference. -/
def Ty.holds : Ty → List Nat
  | .unsupported | .infer | .implicitSelf | .ref _ _ => []
  | .array inner _ => inner.holds
  | .tup tys _ => holdsAll tys
  | .path symbol =>
    match find symbol with
    | some (.struct i) => [i]
    | _ => []

/-- The structs that several types hold. -/
def holdsAll : List Ty → List Nat
  | [] => []
  | ty :: tys => ty.holds ++ holdsAll tys
end

/-- Why a type that is without fault otherwise is no type of an element. -/
def Ty.unsized : Ty → Option Fault
  | .path symbol => if (find symbol).isNone ∧ symbol = "str" then some .error else none
  | .infer => some .panic
  | _ => none

/-- The first type that has no size. -/
def unsizedAll : List Ty → Option Fault
  | [] => none
  | ty :: tys => (ty.unsized find).or (unsizedAll tys)

mutual
/-- The first fault of a type. -/
def Ty.fault : Ty → Option Fault
  | .unsupported => some .error
  | .array inner len => if len.isNone then some .error else inner.fault.or (inner.unsized find)
  | .ref inner _ => inner.fault
  | .tup tys _ => (faultAll tys).or (unsizedAll find tys)
  | .path symbol =>
    if (find symbol).isSome ∨ (builtInKey symbol).isSome then none
    else if symbol = "Self" then some .panic
    else some .error
  | .infer => none
  | .implicitSelf => some .panic

/-- The first type that cannot be resolved. -/
def faultAll : List Ty → Option Fault
  | [] => none
  | ty :: tys => ty.fault.or (faultAll tys)
end

end Written

namespace StructDecls

variable (D : StructDecls)

/-- The first fault of the names, given those declared before. -/
def nameFault : List (NodeId × Symbol) → List StructItem → Option Fault
  | _, [] => none
  | names, item :: items =>
    if item.variants.isTuple ∨ ¬item.subnames.Nodup ∨ (item.father, item.ident) ∈ names then some .error
    else nameFault ((item.father, item.ident) :: names) items

/-- The first field that cannot be resolved. -/
def fieldFault : List StructItem → Option Fault
  | [] => none
  | item :: items => (faultAll (D.find · item.scopes) item.fieldTys).or (fieldFault items)

/-- The first fault of the declarations. -/
def fault : Option Fault := (nameFault [(0, "String")] D.items).or (D.fieldFault D.items)

/-- The struct `i` has a field whose type mentions the struct `j`. -/
def Mentions (i j : Nat) : Prop :=
  ∃ item, D.items[i]? = some item ∧ j ∈ mentionsAll (D.find · item.scopes) item.fieldTys

/-- The struct `i` has a field that holds the struct `j`. -/
def Holds (i j : Nat) : Prop :=
  ∃ item, D.items[i]? = some item ∧ j ∈ holdsAll (D.find · item.scopes) item.fieldTys

/-- A struct that holds itself has no finite size. -/
def InfiniteSize (i : Nat) : Prop := Relation.TransGen D.Holds i i

end StructDecls

end Structs
