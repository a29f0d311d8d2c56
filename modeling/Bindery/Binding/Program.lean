import Bindery.Binding.Tree
import Bindery.Fault

/-!
# Binding a file

The top level of a file is bound in passes, so that declarations may stand in any order:

1. the built-in functions;
2. the names of all records and sums;
3. the fields of the records, then the variants of the sums;
4. the signatures of all functions, a missing return type being provisional;
5. the bodies of the functions in order, each settling its return type;
6. the other statements in order.

A pass relies on what earlier passes have done. Where that is not so, a `Fault` ends the bind.
-/

namespace Bindery

/-- A step of binding with keys of type `κ` for names that can end in a fault. -/
abbrev PassOver (κ : Type) := ExceptT Fault (BindingOver κ)

/-- A step of binding that can end in a fault. -/
abbrev Pass := PassOver String

namespace Binding

variable {κ : Type}

/-! ## Built-in functions -/

/-- Declares built-in functions in the root scope. -/
def declareBuiltins [DecidableEq κ] [Keyed κ] : List Sig → PassOver κ Unit
  | [] => pure ()
  | f :: rest => do
    let id ← (addSymbol f.name (.fn f) f.ty (some Scopes.rootId) 0 : BindingOver κ SymId)
    if ← (declareName .fn Scopes.rootId f.name id : BindingOver κ Bool) then declareBuiltins rest
    else throw (.duplicateBuiltin f.name)

/-! ## Types -/

/-- The names of type parameters without repetitions, which are reported. -/
def tyParamNames (seen : List String) : List Ast.Name → BindingOver κ (List String)
  | [] => pure seen
  | name :: names => do
    if seen.contains name.text then
      report name.range (.alreadyDeclared name.text)
      tyParamNames seen names
    else tyParamNames (seen ++ [name.text]) names

/-- Declares a record or sum without its members; the answer is whether the name was free. -/
def declareTypeName (kind : Nominal) (name : Ast.Name) (tyParams : List String) :
    BindingOver κ Bool := do
  let s ← get
  let declared := match kind with
    | .record => s.registry.declareRecord name.text tyParams
    | .sum => s.registry.declareSum name.text tyParams
  set { s with registry := declared.2 }
  if declared.1 then return true
  report name.range (.alreadyDeclared name.text)
  return false

/-- Declares the names of all records and sums. The answer lists the places of the declarations,
counted from `index`, that own the type of their name. -/
def declareTypeNames : (index : Nat) → List Ast.Stmt → BindingOver κ (List Nat)
  | _, [] => pure []
  | index, stmt :: stmts => do
    let owned ← match stmt with
      | .record _ name tyParams _ => do
        let tyParams ← tyParamNames [] tyParams
        declareTypeName .record name tyParams
      | .sum _ name tyParams _ => do
        let tyParams ← tyParamNames [] tyParams
        declareTypeName .sum name tyParams
      | _ => pure false
    let rest ← declareTypeNames (index + 1) stmts
    return if owned then index :: rest else rest

/-- Binds the fields of a record. A repeated field is reported and left out. -/
def bindFieldDecls (record : String) : List Ast.FieldDecl → PassOver κ (List SymId)
  | [] => pure []
  | field :: fields => do
    let ty ← (resolveType field.annot : BindingOver κ Ty)
    let some d := (← get).registry.record? record | throw (.missingRegistryEntry record)
    if d.fields.contains field.name.text then
      (report field.name.range (.alreadyDeclared field.name.text) : BindingOver κ Unit)
      bindFieldDecls record fields
    else
      let symbol ← (addSymbol field.name.text (.field record) ty none 0 : BindingOver κ SymId)
      match (← get).registry.insertField record field.name.text ⟨symbol, ty⟩ with
      | (false, _) => throw (.missingRegistryEntry record)
      | (true, registry) =>
        modify fun s => { s with registry }
        let rest ← bindFieldDecls record fields
        return symbol :: rest

/-- Runs a pass in which the given type parameters may be mentioned. -/
def passWithGenerics {α : Type} (names : List String) (act : PassOver κ α) : PassOver κ α :=
  ExceptT.mk (withGenerics names act.run)

/-- Binds the declarations of one kind that own their names, one after another. -/
def bindOwned {δ : Type} (bindOne? : Ast.Stmt → PassOver κ (Option δ)) (owned : List Nat) :
    (index : Nat) → List Ast.Stmt → PassOver κ (List δ)
  | _, [] => pure []
  | index, stmt :: stmts => do
    let decl? ← if owned.contains index then bindOne? stmt else pure none
    let rest ← bindOwned bindOne? owned (index + 1) stmts
    return decl?.toList ++ rest

/-- Binds a record. -/
def bindRecord? : Ast.Stmt → PassOver κ (Option Bound.RecordDecl)
  | .record origin name _ fields => do
    let some d := (← get).registry.record? name.text | throw (.missingRegistryEntry name.text)
    let fields ← passWithGenerics d.tyParams (bindFieldDecls name.text fields)
    return some ⟨name.text, d.tyParams, fields, origin.range⟩
  | _ => pure none

/-- The problem of a variant whose name is taken: by the same sum, or by another one. -/
def takenVariant (sum variant owner : String) : Problem :=
  if owner = sum then .alreadyDeclared variant else .variantDeclaredElsewhere variant owner

/-- Binds the variants of a sum. A variant whose name is taken is reported and left out. -/
def bindVariantDecls (sum : String) (selfTy : Ty) : List Ast.VariantDecl → PassOver κ (List SymId)
  | [] => pure []
  | variant :: variants => do
    let payload ← (resolveType? variant.payload : BindingOver κ (Option Ty))
    match (← get).registry.variant? variant.name.text with
    | some (owner, _) =>
      (report variant.name.range (takenVariant sum variant.name.text owner.name) : BindingOver κ Unit)
      bindVariantDecls sum selfTy variants
    | none =>
      let symbol ←
        (addSymbol variant.name.text (.variant sum payload) selfTy none 0 : BindingOver κ SymId)
      match (← get).registry.addVariant sum variant.name.text ⟨symbol, payload⟩ with
      | (.error _, _) => throw (.missingRegistryEntry sum)
      | (.ok _, registry) =>
        modify fun s => { s with registry }
        let rest ← bindVariantDecls sum selfTy variants
        return symbol :: rest

/-- Binds a sum. -/
def bindSum? : Ast.Stmt → PassOver κ (Option Bound.SumDecl)
  | .sum origin name _ variants => do
    let some d := (← get).registry.sum? name.text | throw (.missingRegistryEntry name.text)
    let variants ← passWithGenerics d.tyParams (bindVariantDecls name.text d.selfTy variants)
    return some ⟨name.text, d.tyParams, variants, origin.range⟩
  | _ => pure none

/-! ## Functions -/

/-- The signature of a function as it is written. Without a return type it is provisional. -/
def writtenSig (name : Ast.Name) (tyParams : List Ast.Name)
    (params : List Ast.Param) (ret : Option Ast.TyExpr) : BindingOver κ Sig := do
  let tyParams ← tyParamNames [] tyParams
  withGenerics tyParams do
    let tys ← resolveTypes (params.map Ast.Param.annot)
    let declared ← resolveType? ret
    return {
      name := name.text
      params := (params.zip tys).map fun p => ⟨p.1.name.text, p.2⟩
      tyParams
      ret := declared.getD .unit
      isBuiltin := false
      isFinal := declared.isSome }

/-- Declares the signatures of all functions. The answer gives the symbol of each function
declaration by its place, counted from `index`. -/
def declareSigs [DecidableEq κ] [Keyed κ] :
    (index : Nat) → List Ast.Stmt → BindingOver κ (List (Nat × SymId))
  | _, [] => pure []
  | index, .fn _ name tyParams params ret _ :: stmts => do
    let f ← writtenSig name tyParams params ret
    let id ← addSymbol f.name (.fn f) f.ty (some Scopes.rootId) 0
    let fresh ← declareName .fn Scopes.rootId name.text id
    reportUnless fresh name.range (.alreadyDeclared name.text)
    let rest ← declareSigs (index + 1) stmts
    return (index, id) :: rest
  | index, _ :: stmts => declareSigs (index + 1) stmts

/-- Replaces a provisional signature by its final version. -/
def finalizeFn (id : SymId) (provisional : Sig) (ret : Ty) : PassOver κ Unit := do
  match (← get).syms.sig? id with
  | none => throw (.fnFinalizedTwice provisional.name)
  | some f =>
    if f.isFinal || f.isBuiltin then throw (.fnFinalizedTwice provisional.name)
    else
      let final := { provisional with ret, isFinal := true }
      modify fun s => { s with syms := s.syms.setSig id final }

/-- Binds the parameters and the body of a function in a scope of its own. -/
def bindFnScope [DecidableEq κ] [Keyed κ] (f : Sig) (name : Ast.Name) (params : List Ast.Param)
    (body : Ast.Block) : BindingOver κ (List SymId × Bound.Block × Option FnFrame) :=
  inScope .fn <| withGenerics f.tyParams do
    let syms ← declareLocals .parameter ((params.map Ast.Param.name).zip f.paramTys)
    let declared := if f.isFinal then some f.ret else none
    let (stmts, frame) ← withFn ⟨f.name, declared, [], name.range⟩ <|
      withLoopDepth (fun _ => 0) <| withScopeDepth (fun _ => 0) <| bindStmts body.stmts
    return (syms, .ofStatements stmts body.range, frame)

/-- Binds the body of a function and settles its return type. -/
def bindFnBody [DecidableEq κ] [Keyed κ] (id : SymId) (origin : Origin) (name : Ast.Name)
    (params : List Ast.Param) (body : Ast.Block) : PassOver κ Bound.FnDecl := do
  let some f := (← get).syms.sig? id | throw (.missingSig name.text)
  let (syms, body, frame) ←
    (bindFnScope f name params body :
      BindingOver κ (List SymId × Bound.Block × Option FnFrame))
  let some frame := frame | throw (.unbalancedScopes (← get).current)
  let ret ← (settleReturn frame (blockCandidate body) : BindingOver κ Ty)
  if !f.isFinal then finalizeFn id f ret
  return ⟨id, syms, body, origin.range⟩

/-- Binds the bodies of all functions in order. -/
def bindFns [DecidableEq κ] [Keyed κ] (sigs : List (Nat × SymId)) :
    (index : Nat) → List Ast.Stmt → PassOver κ (List Bound.FnDecl)
  | _, [] => pure []
  | index, .fn origin name _ params _ body :: stmts => do
    let some id := sigs.lookup index | throw (.missingSig name.text)
    let f ← bindFnBody id origin name params body
    let rest ← bindFns sigs (index + 1) stmts
    return f :: rest
  | index, _ :: stmts => bindFns sigs (index + 1) stmts

/-! ## Files -/

/-- Checks that everything that was entered was left again. -/
def checkBalanced : PassOver κ Unit := do
  let s ← get
  if s.current ≠ Scopes.rootId ∨ s.fns ≠ [] ∨ s.captures.depth ≠ 0 then
    throw (.unbalancedScopes s.current)

/-- Binds the statements of a file, starting from nothing. -/
def bindProgram [DecidableEq κ] [Keyed κ] (stmts : List Ast.Stmt) : PassOver κ Bound.Program := do
  set (State.initial : State κ)
  declareBuiltins Builtin.sigs
  let owned ← (declareTypeNames 0 stmts : BindingOver κ (List Nat))
  let records ← bindOwned bindRecord? owned 0 stmts
  let sums ← bindOwned bindSum? owned 0 stmts
  let sigs ← (declareSigs 0 stmts : BindingOver κ (List (Nat × SymId)))
  let fns ← bindFns sigs 0 stmts
  let bound ← (bindStmts (stmts.filter fun s => !s.isDeclaration) : BindingOver κ (List Bound.Stmt))
  checkBalanced
  return ⟨records, sums, fns, bound, (← get).syms⟩

end Binding

end Bindery
