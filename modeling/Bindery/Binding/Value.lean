import Bindery.Binding.Basic
import Bindery.Ty.Compatibility

/-!
# Values and their parts

The rules for names, operators, records and collections once their parts are bound. A rule says
nothing about a part that is already poisoned: it passes the poison on.

Where an expression has an expected type, it only fills in what the expression does not determine by
itself, such as the element type of an empty list. Whether the result fits is for the user of the
expression to check.
-/

namespace Bindery.Binding

variable {κ : Type}

/-! ## Names -/

/-- The type of a variant used by name alone. -/
def bareVariantTy (expected : Option Ty) (sum : SumDef) : Ty :=
  match expected with
  | some (.sum name args) =>
    if name = sum.name then .sum name args
    else .sum sum.name (List.replicate sum.tyParams.length .error)
  | _ => .sum sum.name (List.replicate sum.tyParams.length .error)

/-- Binds a name that is no variable: a function used as a value, or a variant without payload. -/
def nonVarExpr [DecidableEq κ] [Keyed κ] (expected : Option Ty) (name : Ast.Name) :
    BindingOver κ Bound.Expr := do
  match ← lookup .fn name.text with
  | some id => return ⟨.fnRef id, ← tyOf id, name.range⟩
  | none =>
    match (← get).registry.variant? name.text with
    | none =>
      report name.range (.undefinedVar name.text)
      return .error name.range
    | some (sum, d) =>
      match d.payload with
      | some payload =>
        report name.range (.payloadRequired name.text payload)
        return .error name.range
      | none => return ⟨.variant d.symbol none, bareVariantTy expected sum, name.range⟩

/-- Binds a name: a variable, else a function, else a variant. -/
def nameExpr [DecidableEq κ] [Keyed κ] (expected : Option Ty) (name : Ast.Name) :
    BindingOver κ Bound.Expr := do
  match ← resolveVar name with
  | some id => return ⟨.var id, ← tyOf id, name.range⟩
  | none => nonVarExpr expected name

/-! ## Operators -/

/-- Binds `left op right`. -/
def binaryExpr (op : BinaryOp) (left right : Bound.Expr) (range : Range) :
    BindingOver κ Bound.Expr := do
  if left.ty.isError || right.ty.isError then
    return ⟨.binary op left right, .error, range⟩
  match op.resultTy? left.ty right.ty with
  | some ty => return ⟨.binary op left right, ty, range⟩
  | none =>
    report range (.binaryOperands op left.ty right.ty)
    return ⟨.binary op left right, .error, range⟩

/-- Binds `op operand`. -/
def unaryExpr (op : UnaryOp) (operand : Bound.Expr) (range : Range) : BindingOver κ Bound.Expr := do
  if operand.ty.isError then
    return ⟨.unary op operand, .error, range⟩
  match op.resultTy? operand.ty with
  | some ty => return ⟨.unary op operand, ty, range⟩
  | none =>
    report range (.unaryOperand op operand.ty)
    return ⟨.unary op operand, .error, range⟩

/-- Checks that a condition is a truth value. -/
def checkCondition (cond : Bound.Expr) : BindingOver κ Unit :=
  reportUnless (cond.ty == .bool || cond.ty.isError) cond.range
    (.conditionNotBool cond.ty)

/-! ## Fields and elements -/

/-- The symbol and type of a field, seen from a record type. -/
def fieldOf? (registry : Registry) (record field : String) (args : List Ty) :
    Option (SymId × Ty) := do
  let d ← registry.record? record
  let f ← d.fields.get? field
  let ty ← d.fieldTy? field args
  return (f.symbol, ty)

/-- Binds `target.name`. -/
def fieldExpr (target : Bound.Expr) (name : Ast.Name) (range : Range) : BindingOver κ Bound.Expr := do
  match target.ty with
  | .error => return ⟨.field target none, .error, range⟩
  | .record record args =>
    match fieldOf? (← get).registry record name.text args with
    | some (symbol, ty) => return ⟨.field target (some symbol), ty, range⟩
    | none =>
      report name.range (.noSuchField target.ty.render name.text)
      return ⟨.field target none, .error, range⟩
  | _ =>
    report target.range (.notARecord target.ty.render)
    return ⟨.field target none, .error, range⟩

/-- The type of the elements that a type is indexed by another for. -/
def indexedTy? : (target index : Ty) → Option Ty
  | .list element, .int => some element
  | .map value, .string => some value
  | _, _ => none

/-- Binds `target[index]`. -/
def indexExpr (target index : Bound.Expr) (range : Range) : BindingOver κ Bound.Expr := do
  if target.ty.isError || index.ty.isError then
    return ⟨.index target index, .error, range⟩
  match indexedTy? target.ty index.ty with
  | some ty => return ⟨.index target index, ty, range⟩
  | none =>
    report range (.notIndexable target.ty index.ty)
    return ⟨.index target index, .error, range⟩

/-- The type of what a loop over a type takes from it. -/
def iteratedTy? : Ty → Option Ty
  | .list element => some element
  | .map value => some (.tuple [.string, value])
  | .error => some .error
  | _ => none

/-- The type of the loop variable of a `for`. -/
def itemTy (iterable : Bound.Expr) : BindingOver κ Ty := do
  match iteratedTy? iterable.ty with
  | some ty => return ty
  | none =>
    report iterable.range (.notIterable iterable.ty)
    return .error

/-! ## Collections -/

/-- The expected types of the elements of a tuple, if a tuple of that length is expected. -/
def tupleHints (expected : Option Ty) (count : Nat) : List (Option Ty) :=
  match expected with
  | some (.tuple tys) => if tys.length = count then tys.map some else []
  | _ => []

/-- The element type that an expected type gives a collection. -/
def elementHint (c : Container) : Option Ty → Option Ty
  | some (.container d element) => if c = d then some element else none
  | _ => none

/-- Reports the elements that do not have the element type. -/
def checkElements (element : Ty) : List Bound.Expr → BindingOver κ Unit
  | [] => pure ()
  | e :: es => do
    reportUnless (element.accepts e.ty) e.range (.elementMismatch e.ty element)
    checkElements element es

/-- Settles the element type of a collection: the expected one, else that of the first element that
is not poisoned. Every element is checked against it. -/
def settleElements (hint : Option Ty) (elems : List Bound.Expr) : BindingOver κ Ty := do
  let element := match hint with
    | some ty => ty
    | none => ((elems.map Bound.Expr.ty).find? fun ty => !ty.isError).getD .error
  checkElements element elems
  return element

/-- The type of a collection without elements. -/
def emptyCollectionTy (c : Container) (hint : Option Ty) (collection : String) (range : Range) :
    BindingOver κ Ty := do
  match hint with
  | some ty => return .container c ty
  | none =>
    report range (.emptyLiteral collection)
    return .error

/-- Binds `[elems]`. -/
def listExpr (hint : Option Ty) (elems : List Bound.Expr) (range : Range) :
    BindingOver κ Bound.Expr := do
  match elems with
  | [] => return ⟨.list [], ← emptyCollectionTy .list hint "list" range, range⟩
  | _ => return ⟨.list elems, .list (← settleElements hint elems), range⟩

/-- Checks that the key of a map entry is a text. -/
def checkKey (key : Bound.Expr) : BindingOver κ Unit :=
  reportUnless (key.ty == .string || key.ty.isError) key.range (.mapKeyNotString key.ty)

/-- Binds `{ key: value, ... }`. -/
def mapExpr (hint : Option Ty) (entries : List Bound.Entry) (range : Range) :
    BindingOver κ Bound.Expr := do
  match entries with
  | [] => return ⟨.map [], ← emptyCollectionTy .map hint "map" range, range⟩
  | _ =>
    let value ← settleElements hint (entries.map Bound.Entry.value)
    return ⟨.map entries, .map value, range⟩

/-! ## Records -/

/-- A type without placeholders, for use as an expected type. -/
def closedHint (ty : Ty) : Option Ty := if ty.hasGenerics then none else some ty

/-- The type arguments that an expected type gives a record. -/
def expectedRecordArgs (expected : Option Ty) (record : RecordDef) : Subst :=
  match expected with
  | some (.record name args) =>
    if name = record.name then .ofArguments record.tyParams args else .empty
  | _ => .empty

/-- Reports the declared fields that are not among the given names. -/
def checkMissing (record : String) (given : List String) (range : Range) :
    List String → BindingOver κ Unit
  | [] => pure ()
  | field :: fields => do
    reportUnless (given.contains field) range (.fieldMissing record field)
    checkMissing record given range fields

/-- Checks the value of a field against the declared type, giving what is then known of the record's
type arguments. -/
def checkField (name : String) (declared : Ty) (value : Bound.Expr) (known : Subst) :
    BindingOver κ Subst := do
  let known := declared.infer value.ty known
  let expected := declared.subst known
  reportUnless (expected.accepts value.ty) value.range (.fieldMismatch name expected value.ty)
  return known

/-- Reports that a name is not the name of a record. -/
def reportNotARecord (name : Ast.Name) : BindingOver κ Unit := do
  match (← get).registry.sum? name.text with
  | some _ => report name.range (.notARecord name.text)
  | none => report name.range (.undefinedType name.text)

end Bindery.Binding
