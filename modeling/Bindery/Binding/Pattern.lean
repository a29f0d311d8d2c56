import Bindery.Binding.Basic

/-!
# Patterns

A pattern is bound against the type of the value it is matched with, and its names are declared in
the current scope. A bare name that is a variant without payload of the matched sum means that
variant; any other bare name is a new immutable variable. Patterns against the poison type are bound
silently.
-/

namespace Bindery.Binding

variable {κ : Type}

/-- Whether a constant of type `ty` can be matched with a value of type `target`. -/
def literalMatches (ty : Ty) : (target : Ty) → Bool
  | .error | .generic _ => true
  | target => target == ty

/-- Binds a constant pattern. -/
def literalPattern (target : Ty) (value : Literal) (range : Range) : BindingOver κ Bound.Pattern := do
  reportUnless (literalMatches value.ty target) range (.patternMismatch value.ty.render target)
  return ⟨.literal value, value.ty, range⟩

/-- The variant without payload of the target sum that has a name. -/
def bareVariant? (registry : Registry) (target : Ty) (name : String) : Option SymId :=
  match target with
  | .sum sum _ => do
    let d ← (← registry.sum? sum).variants.get? name
    if d.payload.isNone then some d.symbol else none
  | _ => none

/-- Binds a bare name. -/
def namePattern [DecidableEq κ] [Keyed κ] (target : Ty) (name : Ast.Name) :
    BindingOver κ Bound.Pattern := do
  match bareVariant? (← get).registry target name.text with
  | some symbol => return ⟨.variant name.text (some symbol) none true, target, name.range⟩
  | none =>
    let symbol ← declareLocal name (.var false) target
    return ⟨.binding symbol name.text, target, name.range⟩

/-- The types that the elements of a tuple pattern are matched with. -/
def tupleTargets (target : Ty) (count : Nat) (range : Range) : BindingOver κ (List Ty) := do
  match target with
  | .tuple tys =>
    if tys.length = count then return tys
    else
      report range (.tuplePatternLength count tys.length)
      return List.replicate count .error
  | .error | .generic _ => return List.replicate count .error
  | _ =>
    report range (.patternMismatch "tuple" target)
    return List.replicate count .error

/-- The type of a tuple pattern whose elements are matched with the given types. -/
def tuplePatternTy : (target : Ty) → List Ty → Ty
  | .tuple _, tys | .generic _, tys => .tuple tys
  | _, _ => .error

/-- The variant of the target sum that a pattern names, with its payload type. -/
def resolveVariant (target : Ty) (name : Ast.Name) (range : Range) :
    BindingOver κ (Option (SymId × Option Ty)) := do
  let registry := (← get).registry
  match target with
  | .error => return none
  | .sum sum args =>
    let found := do
      let d ← registry.sum? sum
      let v ← d.variants.get? name.text
      let payload ← d.payloadTy? name.text args
      return (v.symbol, payload)
    reportUnless found.isSome name.range (.noSuchVariant sum name.text)
    return found
  | _ =>
    let pattern := match registry.variant? name.text with
      | some (d, _) => d.selfTy.render
      | none => name.text
    report range (.patternMismatch pattern target)
    return none

/-- What the payload of a variant pattern is matched with. A payload that the variant does not take
is reported. -/
def payloadTarget (resolved : Option (SymId × Option Ty)) (name : String) (range : Range) :
    BindingOver κ Ty := do
  match resolved with
  | none => return .error
  | some (_, some ty) => return ty
  | some (_, none) =>
    report range (.payloadNotAllowed name)
    return .error

/-- Reports a variant pattern that leaves out the payload. -/
def checkNoPayload (resolved : Option (SymId × Option Ty)) (name : String) (range : Range) :
    BindingOver κ Unit := do
  match resolved with
  | some (_, some ty) => report range (.payloadRequired name ty)
  | _ => return ()

/-- A bound variant pattern. -/
def variantPattern (target : Ty) (resolved : Option (SymId × Option Ty)) (name : String)
    (payload : Option Bound.Pattern) (range : Range) : Bound.Pattern :=
  ⟨.variant name (resolved.map Prod.fst) payload false,
    if resolved.isSome then target else .error, range⟩

mutual

/-- Binds a pattern against the type of the matched value. -/
def bindPattern [DecidableEq κ] [Keyed κ] (target : Ty) : Ast.Pattern → BindingOver κ Bound.Pattern
  | .literal origin value => literalPattern target value origin.range
  | .wildcard origin => pure ⟨.wildcard, target, origin.range⟩
  | .name name => namePattern target name
  | .tuple origin elems => do
    let tys ← tupleTargets target elems.length origin.range
    let elems ← bindPatterns tys elems
    return ⟨.tuple elems, tuplePatternTy target tys, origin.range⟩
  | .variant origin name none => do
    let resolved ← resolveVariant target name origin.range
    checkNoPayload resolved name.text origin.range
    return variantPattern target resolved name.text none origin.range
  | .variant origin name (some payload) => do
    let resolved ← resolveVariant target name origin.range
    let ty ← payloadTarget resolved name.text payload.range
    let payload ← bindPattern ty payload
    return variantPattern target resolved name.text (some payload) origin.range

/-- Binds patterns against the types at their places. -/
def bindPatterns [DecidableEq κ] [Keyed κ] :
    List Ty → List Ast.Pattern → BindingOver κ (List Bound.Pattern)
  | ty :: tys, p :: ps => do
    let p ← bindPattern ty p
    let ps ← bindPatterns tys ps
    return p :: ps
  | _, _ => pure []

end

end Bindery.Binding
