import Bindery.Symbol
import Bindery.Ty.Subst

/-!
# Declared types

The registry knows the records and sums of one file. Records and sums share one space of names. The
names of variants are global: each belongs to the one sum that declared it first.

A definition is generic in its type parameters. `RecordDef.fieldTy?` and `SumDef.payloadTy?` read a
member's type at given type arguments.
-/

namespace Bindery

/-- A field of a record. -/
structure FieldDef where
  symbol : SymId
  ty : Ty
deriving DecidableEq, Inhabited

/-- A record with its fields in the order of declaration. -/
structure RecordDef where
  name : String
  tyParams : List String
  fields : OrderedMap String FieldDef
deriving Inhabited

/-- A variant of a sum. -/
structure VariantDef where
  symbol : SymId
  payload : Option Ty
deriving DecidableEq, Inhabited

/-- A sum with its variants in the order of declaration. -/
structure SumDef where
  name : String
  tyParams : List String
  variants : OrderedMap String VariantDef
deriving Inhabited

namespace RecordDef

/-- The record type at its own parameters. -/
def selfTy (r : RecordDef) : Ty := .record r.name (r.tyParams.map .generic)

/-- The type of a field at given type arguments. -/
def fieldTy? (r : RecordDef) (field : String) (args : List Ty) : Option Ty :=
  (r.fields.get? field).map fun d => d.ty.subst (.ofArguments r.tyParams args)

end RecordDef

namespace SumDef

/-- The sum type at its own parameters. -/
def selfTy (s : SumDef) : Ty := .sum s.name (s.tyParams.map .generic)

/-- The payload of a variant at given type arguments: `none` if the sum has no such variant,
`some none` if the variant has no payload. -/
def payloadTy? (s : SumDef) (variant : String) (args : List Ty) : Option (Option Ty) :=
  (s.variants.get? variant).map fun d =>
    d.payload.map fun p => p.subst (.ofArguments s.tyParams args)

end SumDef

/-- The records and sums of one file, and the sum that owns each variant. -/
structure Registry where
  records : OrderedMap String RecordDef
  sums : OrderedMap String SumDef
  owners : OrderedMap String String
deriving Inhabited

namespace Registry

/-- No declared types. -/
def empty : Registry := ⟨.empty, .empty, .empty⟩

/-- Whether a record or a sum has the name. -/
def isTypeName (r : Registry) (name : String) : Bool :=
  r.records.contains name || r.sums.contains name

/-- Whether a name is free, and the registry after a declaration that is refused if it is not. -/
def declare (r : Registry) (name : String) (new : Registry) : Bool × Registry :=
  if r.isTypeName name then (false, r) else (true, new)

/-- Declares a record without fields, unless the name is taken. -/
def declareRecord (r : Registry) (name : String) (tyParams : List String) : Bool × Registry :=
  r.declare name { r with records := r.records.insert name ⟨name, tyParams, .empty⟩ }

/-- Declares a sum without variants, unless the name is taken. -/
def declareSum (r : Registry) (name : String) (tyParams : List String) : Bool × Registry :=
  r.declare name { r with sums := r.sums.insert name ⟨name, tyParams, .empty⟩ }

/-- The record with a name. -/
def record? (r : Registry) (name : String) : Option RecordDef := r.records.get? name

/-- The sum with a name. -/
def sum? (r : Registry) (name : String) : Option SumDef := r.sums.get? name

/-- Writes a field of a record, if there is such a record, which is the answer; a field that is
already there keeps its place. -/
def insertField (r : Registry) (record field : String) (d : FieldDef) : Bool × Registry :=
  match r.record? record with
  | none => (false, r)
  | some rd =>
    (true, { r with
      records := r.records.insert record { rd with fields := rd.fields.insert field d } })

/-- Adds a variant to a sum. It is refused if some sum already owns the name, or if there is no such
sum; the error is the owner, or the missing sum. -/
def addVariant (r : Registry) (sum variant : String) (d : VariantDef) :
    Except String Unit × Registry :=
  match r.owners.get? variant with
  | some owner => (.error owner, r)
  | none =>
    match r.sum? sum with
    | none => (.error sum, r)
    | some sd =>
      (.ok (), { r with
        sums := r.sums.insert sum { sd with variants := sd.variants.insert variant d }
        owners := r.owners.insert variant sum })

/-- A variant with the sum that declares it. -/
def variant? (r : Registry) (variant : String) : Option (SumDef × VariantDef) := do
  let owner ← r.owners.get? variant
  let sum ← r.sum? owner
  let d ← sum.variants.get? variant
  return (sum, d)

end Registry

end Bindery
