import Bindery.Binding.WrittenType
import Bindery.Binding.Value
import Bindery.Builtin

/-!
# Calls

A call by name means, in this order, a call of the variable's value, of the function, or the
construction of a variant with that name. A callee that is no name is a value too.

A call is bound in three steps: the callee is resolved to a `Callee`, which says what is expected of
each argument; the arguments are bound from left to right; the `Callee` then checks them and gives
the call its type.

Explicit type arguments are put into the parameter types. Without them, the type arguments of a
generic function are read off the arguments, the first one winning, and only feed the result type:
an argument fits a parameter wherever the parameter mentions a placeholder. A type parameter that
nothing determines becomes poison.
-/

namespace Bindery

/-- What a call by name calls. -/
inductive Callee where
  /-- A function, with the substitution of its explicit type arguments. `isExplicit` says that there
  are any, and `agrees` that there are not too many or too few. -/
  | fn (symbol : SymId) (sig : Sig) (explicit : Subst)
      (isExplicit agrees : Bool)
  /-- A built-in function that is typed from its arguments. -/
  | builtin (symbol : SymId) (name : String) (builtin : Builtin)
  /-- A variant, with what the expected type says of the sum's type arguments. -/
  | variant (sum : SumDef) (name : String) (variant : VariantDef) (known : Subst)
  /-- Nothing has that name. -/
  | undefined

namespace Callee

/-- The types expected of the arguments, where one is known. -/
def hints : Callee → List (Option Ty)
  | .fn _ sig explicit _ _ =>
    sig.paramTys.map fun ty => Binding.closedHint (ty.subst explicit)
  | .builtin .. => []
  | .variant _ _ d known => [d.payload.bind fun ty => Binding.closedHint (ty.subst known)]
  | .undefined => []

end Callee

namespace Binding

variable {κ : Type}

/-- What the expected type says of the type arguments of a sum. -/
def expectedSumArgs (expected : Option Ty) (sum : SumDef) : Subst :=
  match expected with
  | some (.sum name args) => if name = sum.name then .ofArguments sum.tyParams args else .empty
  | _ => .empty

/-- Resolves the name of a function that is called. -/
def fnCallee (symbol : SymId) (sig : Sig) (callee : Ast.Name)
    (tyArgs : List Ast.TyExpr) (range : Range) : BindingOver κ Callee := do
  let explicit ← resolveTypes tyArgs
  let special := if sig.isBuiltin then Builtin.ofName? sig.name else none
  match special with
  | some builtin =>
    if !explicit.isEmpty then
      discard (checkTypeArity sig.name 0 explicit range)
    return .builtin symbol sig.name builtin
  | none =>
    if explicit.isEmpty then return .fn symbol sig .empty false true
    else if ← checkTypeArity sig.name sig.tyParams.length explicit callee.range then
      return .fn symbol sig (.ofArguments sig.tyParams explicit) true true
    else return .fn symbol sig .empty true false

/-- Resolves a name that is called and is no variable. -/
def namedCallee [DecidableEq κ] [Keyed κ] (expected : Option Ty) (callee : Ast.Name)
    (tyArgs : List Ast.TyExpr)
    (range : Range) : BindingOver κ Callee := do
  let s ← get
  let fn := do
    let id ← s.scopes.lookup .fn s.current callee.text
    let sig ← s.syms.sig? id
    return (id, sig)
  match fn with
  | some (id, sig) => fnCallee id sig callee tyArgs range
  | none =>
    match s.registry.variant? callee.text with
    | some (sum, d) => return .variant sum callee.text d (expectedSumArgs expected sum)
    | none =>
      report callee.range (.undefinedFn callee.text)
      return .undefined

/-- Resolves the callee of a call: `none` if its value is called. -/
def resolveCallee [DecidableEq κ] [Keyed κ] (expected : Option Ty) (callee : Ast.Expr)
    (tyArgs : List Ast.TyExpr)
    (range : Range) : BindingOver κ (Option Callee) := do
  match callee with
  | .name name =>
    match ← lookup .var name.text with
    | some _ => return none
    | none => return some (← namedCallee expected name tyArgs range)
  | _ => return none

/-! ## Checking arguments -/

/-- Reports the arguments that do not fit their parameters. Arguments are counted from `index`; with
`loose`, placeholders of a parameter fit anything. -/
def checkArguments (callee : String) (loose : Bool) :
    (index : Nat) → List Ty → List Bound.Expr → BindingOver κ Unit
  | index, param :: params, arg :: args => do
    reportUnless (param.compatible loose arg.ty) arg.range
      (.argumentMismatch index callee param arg.ty)
    checkArguments callee loose (index + 1) params args
  | _, _, _ => pure ()

/-- A call of a named function. -/
def finishFnCall (symbol : SymId) (f : Sig) (explicit : Subst)
    (isExplicit agrees : Bool) (args : List Bound.Expr) (range : Range) :
    BindingOver κ Bound.Expr := do
  if args.length ≠ f.params.length then
    report range (.argumentCount f.name f.params.length args.length)
    return ⟨.call symbol [] args, .error, range⟩
  let inferred :=
    if f.isGeneric && !isExplicit then Ty.inferAll f.paramTys (args.map Bound.Expr.ty) explicit
    else explicit
  checkArguments f.name true 1 (Ty.substAll explicit f.paramTys) args
  let closed := inferred.closeWith f.tyParams
  let ty := if agrees then f.ret.subst closed else .error
  return ⟨.call symbol (closed.instantiate f.tyParams) args, ty, range⟩

/-- A call of a built-in function that is typed from its arguments. -/
def finishBuiltinCall (symbol : SymId) (name : String) (builtin : Builtin)
    (args : List Bound.Expr) (range : Range) : BindingOver κ Bound.Expr := do
  let tys := args.map Bound.Expr.ty
  match builtin.resolve tys with
  | .ok ty => return ⟨.call symbol [] args, ty, range⟩
  | .error (.arity expected got) =>
    report range (.argumentCount name expected got)
    return ⟨.call symbol [] args, .error, range⟩
  | .error .noOverload =>
    report range (.noOverload name tys)
    return ⟨.call symbol [] args, .error, range⟩

/-- The construction of a variant with the given type arguments. -/
def constructed (sum : SumDef) (d : VariantDef) (known : Subst)
    (payload : Option Bound.Expr) (range : Range) : Bound.Expr :=
  ⟨.variant d.symbol payload, .sum sum.name (known.instantiate sum.tyParams), range⟩

/-- The construction of a variant from the arguments of a call. -/
def finishVariantCall (sum : SumDef) (name : String) (d : VariantDef) (known : Subst)
    (args : List Bound.Expr) (range : Range) : BindingOver κ Bound.Expr := do
  match d.payload, args with
  | none, [] => return constructed sum d known none range
  | none, _ :: _ =>
    report range (.payloadNotAllowed name)
    return constructed sum d known none range
  | some payload, [] =>
    report range (.payloadRequired name payload)
    return constructed sum d known none range
  | some payload, [arg] =>
    let known := payload.infer arg.ty known
    let expected := payload.subst known
    reportUnless (expected.acceptsArgument arg.ty) arg.range
      (.payloadMismatch name expected arg.ty)
    return constructed sum d known (some arg) range
  | some _, _ :: _ :: _ =>
    report range (.argumentCount name 1 args.length)
    return constructed sum d known none range

/-- A call by name with its bound arguments. -/
def finishCall (callee : Callee) (args : List Bound.Expr) (range : Range) : BindingOver κ Bound.Expr :=
  match callee with
  | .fn symbol sig explicit isExplicit agrees =>
    finishFnCall symbol sig explicit isExplicit agrees args range
  | .builtin symbol name builtin => finishBuiltinCall symbol name builtin args range
  | .variant sum name d known => finishVariantCall sum name d known args range
  | .undefined => pure (.error range)

/-! ## Calls of values -/

/-- The name that messages give a called value: the name it is called by, else its type. -/
def calleeName (callee : Ast.Expr) (ty : Ty) : String :=
  match callee with
  | .name name => name.text
  | _ => ty.render

/-- Checks that a called value is given no type arguments. -/
def checkValueTyArgs (name : String) (tyArgs : List Ast.TyExpr) (range : Range) :
    BindingOver κ Unit := do
  if !tyArgs.isEmpty then
    let explicit ← resolveTypes tyArgs
    discard (checkTypeArity name 0 explicit range)

/-- The types expected of the arguments of a called value. -/
def valueHints : Ty → List (Option Ty)
  | .fn params _ => params.map some
  | _ => []

/-- Whether an expression is a function used by name. -/
def isFnRef (e : Bound.Expr) : Bool :=
  match e.kind with
  | .fnRef _ => true
  | _ => false

/-- The type of a call of a value. The placeholders of a function used by name are open. -/
def valueCallTy (callee : Bound.Expr) (name : String) (args : List Bound.Expr) (range : Range) :
    BindingOver κ Ty := do
  match callee.ty with
  | .error => return .error
  | .fn params ret =>
    if params.length ≠ args.length then
      report range (.argumentCount name params.length args.length)
      return .error
    let loose := isFnRef callee
    checkArguments name loose 1 params args
    if loose && ret.hasGenerics then
      return ret.subst (Ty.inferAll params (args.map Bound.Expr.ty) .empty)
    else return ret
  | other =>
    report callee.range (.notCallable other)
    return .error

/-- A call of a value with its bound arguments. -/
def finishValueCall (callee : Bound.Expr) (name : String) (args : List Bound.Expr) (range : Range) :
    BindingOver κ Bound.Expr := do
  let ty ← valueCallTy callee name args range
  return ⟨.callValue callee args, ty, range⟩

end Binding

end Bindery
