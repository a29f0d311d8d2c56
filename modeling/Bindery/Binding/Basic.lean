import Bindery.Bound.Tree
import Bindery.Problem
import Bindery.Registry
import Bindery.Scope.Capture

/-!
# The state of binding

Binding walks a syntax tree and turns it into a bound tree. What it has found out so far is a
`State`: the symbols and scopes made, the declared types, the problems found, and where in the
program it stands. `Binding` is the monad of steps on that state. A step never fails: a mistake in
the program is reported and binding goes on with the poison type. Steps do not depend on the keys
under which the tables of names know names: `BindingOver κ` is `Binding` with keys of type `κ`.

Where binding stands changes only inside `inScope`, `withGenerics`, `withLoopDepth`,
`withScopeDepth`, `inLoop`, `inScopeBlock`, `withFn` and `withLambda`, which all put back what they
found.
-/

namespace Bindery

/-- A function or lambda being bound: its return type if one was written, and the types of the
`return` statements met so far. -/
structure FnFrame where
  name : String
  declared : Option Ty
  returns : List (Ty × Range)
  range : Range
deriving DecidableEq, Inhabited

namespace Binding

/-- Everything binding has found out, and where it stands. -/
structure State (κ : Type := String) where
  syms : Symbols
  scopes : Scopes κ
  /-- The scope that new names go to. -/
  current : ScopeId
  registry : Registry
  findings : Array Finding
  /-- The functions and lambdas around this place, innermost first. -/
  fns : List FnFrame
  /-- The number of loops around this place, within the innermost function or lambda. -/
  loopDepth : Nat
  /-- The number of `scope` blocks around this place, within the innermost function. -/
  scopeDepth : Nat
  captures : Captures
  /-- The type parameters that written types may mention. -/
  generics : List String
  /-- Some name was to be declared in a scope that does not exist. -/
  strayed : Bool

/-- Nothing bound yet: the root scope without names. -/
def State.initial {κ : Type} : State κ where
  syms := .empty
  scopes := .initial
  current := Scopes.rootId
  registry := .empty
  findings := #[]
  fns := []
  loopDepth := 0
  scopeDepth := 0
  captures := .empty
  generics := []
  strayed := false

end Binding

/-- A step of binding with keys of type `κ` for names. -/
abbrev BindingOver (κ : Type) := StateM (Binding.State κ)

/-- A step of binding. -/
abbrev Binding := BindingOver String

namespace Binding

variable {α κ : Type}

/-! ## Reporting -/

/-- Reports a problem at a place. -/
def report (range : Range) (problem : Problem) : BindingOver κ Unit :=
  modify fun s => { s with findings := s.findings.push ⟨range, problem⟩ }

/-- Reports a problem unless all is well. -/
def reportUnless (ok : Bool) (range : Range) (problem : Problem) : BindingOver κ Unit :=
  if ok then pure () else report range problem

/-! ## Places in the program -/

/-- Opens a scope inside the current one. -/
def enterScope (kind : ScopeKind) : BindingOver κ Unit :=
  modify fun s =>
    let opened := s.scopes.push s.current kind
    { s with scopes := opened.2, current := opened.1 }

/-- Runs a step in a new scope. -/
def inScope (kind : ScopeKind) (act : BindingOver κ α) : BindingOver κ α := do
  let outer := (← get).current
  enterScope kind
  let a ← act
  modify fun s => { s with current := outer }
  return a

/-- Runs a step in which the given type parameters may be mentioned. -/
def withGenerics (names : List String) (act : BindingOver κ α) : BindingOver κ α := do
  let outer := (← get).generics
  modify fun s => { s with generics := names }
  let a ← act
  modify fun s => { s with generics := outer }
  return a

/-- Runs a step with another number of loops around it. -/
def withLoopDepth (depth : Nat → Nat) (act : BindingOver κ α) : BindingOver κ α := do
  let outer := (← get).loopDepth
  modify fun s => { s with loopDepth := depth outer }
  let a ← act
  modify fun s => { s with loopDepth := outer }
  return a

/-- Runs a step with another number of `scope` blocks around it. -/
def withScopeDepth (depth : Nat → Nat) (act : BindingOver κ α) : BindingOver κ α := do
  let outer := (← get).scopeDepth
  modify fun s => { s with scopeDepth := depth outer }
  let a ← act
  modify fun s => { s with scopeDepth := outer }
  return a

/-- Runs a step inside one more loop. -/
def inLoop (act : BindingOver κ α) : BindingOver κ α := do
  modify fun s => { s with loopDepth := s.loopDepth + 1 }
  let a ← act
  modify fun s => { s with loopDepth := s.loopDepth - 1 }
  return a

/-- Runs a step inside one more `scope` block. -/
def inScopeBlock (act : BindingOver κ α) : BindingOver κ α := do
  modify fun s => { s with scopeDepth := s.scopeDepth + 1 }
  let a ← act
  modify fun s => { s with scopeDepth := s.scopeDepth - 1 }
  return a

/-- Leaves the innermost function. -/
def leaveFn : BindingOver κ (Option FnFrame) :=
  modifyGet fun s =>
    match s.fns with
    | [] => (none, s)
    | f :: fns => (some f, { s with fns })

/-- Runs the body of a function, giving also what was noted of its `return` statements. -/
def withFn (frame : FnFrame) (act : BindingOver κ α) : BindingOver κ (α × Option FnFrame) := do
  modify fun s => { s with fns := frame :: s.fns }
  let a ← act
  let frame ← leaveFn
  return (a, frame)

/-- Leaves the innermost lambda with what it captured. -/
def leaveLambda : BindingOver κ (List SymId) :=
  modifyGet fun s =>
    let left := s.captures.exit
    (left.1, { s with captures := left.2 })

/-- Runs the body of a lambda whose scope is the current one, giving also what it captures. -/
def withLambda (act : BindingOver κ α) : BindingOver κ (α × List SymId) := do
  modify fun s => { s with captures := s.captures.enter s.current }
  let a ← act
  let captured ← leaveLambda
  return (a, captured)

/-! ## Names -/

/-- Makes a symbol. -/
def addSymbol (name : String) (kind : SymKind) (ty : Ty) (scope : Option ScopeId) (depth : Nat) :
    BindingOver κ SymId :=
  modifyGet fun s =>
    let added := s.syms.add name kind ty scope depth
    (added.1, { s with syms := added.2 })

/-- Declares a name in a scope; the answer is whether the name was new there. -/
def declareName [DecidableEq κ] [Keyed κ] (space : NameSpace) (scope : ScopeId) (name : String)
    (symbol : SymId) :
    BindingOver κ Bool :=
  modifyGet fun s =>
    match s.scopes.declare space scope name symbol with
    | .ok scopes => (true, { s with scopes })
    | .error (.duplicate _) => (false, s)
    | .error .noSuchScope => (false, { s with strayed := true })

/-- Declares a variable or parameter in the current scope. A repeated name is reported and gets a
symbol all the same. -/
def declareLocal [DecidableEq κ] [Keyed κ] (name : Ast.Name) (kind : SymKind) (ty : Ty) :
    BindingOver κ SymId := do
  let s ← get
  let id ← addSymbol name.text kind ty (some s.current) (s.scopes.depth s.current)
  let fresh ← declareName .var s.current name.text id
  reportUnless fresh name.range (.alreadyDeclared name.text)
  return id

/-- Declares the names with the types at their places. -/
def declareLocals [DecidableEq κ] [Keyed κ] (kind : SymKind) :
    List (Ast.Name × Ty) → BindingOver κ (List SymId)
  | [] => pure []
  | (name, ty) :: rest => do
    let id ← declareLocal name kind ty
    let ids ← declareLocals kind rest
    return id :: ids

/-- The symbol that a name stands for in one of the two spaces of names. -/
def lookup [DecidableEq κ] [Keyed κ] (space : NameSpace) (name : String) :
    BindingOver κ (Option SymId) :=
  return (← get).scopes.lookup space (← get).current name

/-- The type of a symbol. -/
def tyOf (symbol : SymId) : BindingOver κ Ty :=
  return (((← get).syms.get? symbol).map Symbol.ty).getD .error

/-- Shows a reference to the lambdas around it. -/
def observe (symbol : SymId) (declaring : ScopeId) (isMutable : Bool) : BindingOver κ Reference :=
  modifyGet fun s =>
    let observed := s.captures.observe s.scopes symbol declaring isMutable
    (observed.1, { s with captures := observed.2 })

/-- Resolves a reference to a variable and lets the lambdas around it capture it. -/
def resolveVar [DecidableEq κ] [Keyed κ] (name : Ast.Name) : BindingOver κ (Option SymId) := do
  let some id ← lookup .var name.text | return none
  let some symbol := (← get).syms.get? id | return none
  let some declaring := symbol.scope | return none
  let reference ← observe id declaring symbol.isMutable
  reportUnless (reference != .mutableCapture) name.range (.mutableCapture name.text)
  return some id

end Binding

end Bindery
