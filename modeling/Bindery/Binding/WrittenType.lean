import Bindery.Binding.Basic

/-!
# Written types

A written type is resolved from the inside out. Its head is, in this order, a type parameter in
scope, a declared record or sum, or a built-in type. An unknown head and a wrong number of arguments
are reported and give the poison type.
-/

namespace Bindery

/-- What the name at the head of a written type stands for. -/
inductive TypeHead where
  | generic (name : String)
  | nominal (kind : Nominal) (name : String) (arity : Nat)
  | prim (p : Prim)
  | container (c : Container)
  | result
deriving DecidableEq, Inhabited

namespace TypeHead

/-- The number of type arguments. -/
def arity : TypeHead → Nat
  | .generic _ | .prim _ => 0
  | .nominal _ _ arity => arity
  | .container _ => 1
  | .result => 2

/-- The type with the given arguments. -/
def apply : TypeHead → List Ty → Ty
  | .generic name, _ => .generic name
  | .nominal kind name _, args => .nominal kind name args
  | .prim p, _ => .prim p
  | .container c, [t] => .container c t
  | .result, [v, e] => .result v e
  | _, _ => .error

/-- The built-in type with a name. -/
def builtin? (name : String) : Option TypeHead :=
  match Prim.ofName? name with
  | some p => some (.prim p)
  | none =>
    match Container.ofName? name with
    | some c => some (.container c)
    | none => if name = Ty.resultName then some .result else none

end TypeHead

namespace Binding

variable {κ : Type}

/-- What a name at the head of a written type stands for. -/
def State.typeHead? (s : State κ) (name : String) : Option TypeHead :=
  if s.generics.contains name then some (.generic name)
  else
    match s.registry.record? name with
    | some r => some (.nominal .record name r.tyParams.length)
    | none =>
      match s.registry.sum? name with
      | some d => some (.nominal .sum name d.tyParams.length)
      | none => TypeHead.builtin? name

/-- Checks the number of type arguments. -/
def checkTypeArity (name : String) (expected : Nat) (args : List Ty) (range : Range) :
    BindingOver κ Bool := do
  let ok := args.length == expected
  reportUnless ok range (.typeArgumentCount name expected args.length)
  return ok

/-- Applies the head of a written type to its resolved arguments. -/
def applyTypeName (name : Ast.Name) (args : List Ty) (range : Range) : BindingOver κ Ty := do
  match (← get).typeHead? name.text with
  | none =>
    report name.range (.undefinedType name.text)
    return .error
  | some head =>
    if ← checkTypeArity name.text head.arity args range then return head.apply args
    else return .error

mutual

/-- Resolves a written type. -/
def resolveType : Ast.TyExpr → BindingOver κ Ty
  | .named origin name args => do
    let args ← resolveTypes args
    applyTypeName name args origin.range
  | .fn _ params ret => do
    let params ← resolveTypes params
    let ret ← resolveType ret
    return .fn params ret
  | .tuple _ elems => do
    let elems ← resolveTypes elems
    return .tuple elems

/-- Resolves written types from left to right. -/
def resolveTypes : List Ast.TyExpr → BindingOver κ (List Ty)
  | [] => pure []
  | t :: ts => do
    let t ← resolveType t
    let ts ← resolveTypes ts
    return t :: ts

end

/-- Resolves a written type, if there is one. -/
def resolveType? : Option Ast.TyExpr → BindingOver κ (Option Ty)
  | none => pure none
  | some t => do
    let t ← resolveType t
    return some t

end Binding

end Bindery
