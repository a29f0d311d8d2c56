import Bindery.Binding.Branch
import Bindery.Binding.Call
import Bindery.Binding.Pattern

/-!
# Binding expressions and statements

One case for each kind of node. The parts of a node are bound from left to right, and then the rule
for that kind of node is applied to them. Blocks, lambdas, loops and match arms open scopes.

* The value of a `let` is bound before the name is declared, so it sees an outer variable of that name.
* A lambda starts with no loop around it, but stays inside the `scope` blocks around it.
* Declarations of types and functions are bound at the top level; anywhere else they are reported and
  left out.
-/

namespace Bindery.Binding

variable {κ : Type}

/-- Reports a declaration that is not at the top level. -/
def rejectDeclaration (name : Ast.Name) (kind : String) : BindingOver κ (Option Bound.Stmt) := do
  report name.range (.nestedDeclaration kind)
  return none

/-- Reports a `break` or `continue` outside every loop. -/
def checkInLoop (keyword : String) (range : Range) : BindingOver κ Unit := do
  reportUnless ((← get).loopDepth != 0) range (.jumpOutsideLoop keyword)

/-- Reports a `spawn` outside every `scope` block. -/
def checkSpawn (range : Range) : BindingOver κ Unit := do
  reportUnless ((← get).scopeDepth != 0) range .spawnOutsideScope

/-- Declares a `let` once its value is bound. -/
def finishLet [DecidableEq κ] [Keyed κ] (name : Ast.Name) (isMutable : Bool) (annot : Option Ty)
    (init : Bound.Expr) :
    BindingOver κ Bound.StmtKind := do
  match annot with
  | some ty =>
    reportUnless (ty.accepts init.ty) init.range (.notAssignable init.ty ty)
    let symbol ← declareLocal name (.var isMutable) ty
    return .bindName symbol init
  | none =>
    let symbol ← declareLocal name (.var isMutable) init.ty
    return .bindName symbol init

/-- Resolves the target of an assignment, with its type and whether it may be assigned. -/
def assignTarget [DecidableEq κ] [Keyed κ] (name : Ast.Name) :
    BindingOver κ (Option SymId × Option (Ty × Bool)) := do
  let target ← resolveVar name
  let syms := (← get).syms
  return (target, (target.bind syms.get?).map fun s => (s.ty, s.isMutable))

/-- Checks an assignment once its value is bound. -/
def finishAssign (name : Ast.Name) (target : Option (Ty × Bool)) (value : Bound.Expr) :
    BindingOver κ Unit := do
  match target with
  | none => report name.range (.undefinedVar name.text)
  | some (ty, isMutable) =>
    reportUnless isMutable name.range (.assignToImmutable name.text)
    reportUnless (ty.accepts value.ty) value.range (.notAssignable value.ty ty)

/-- Notes a `return` and reports one outside every function. -/
def finishReturn (ty : Ty) (candidateRange range : Range) : BindingOver κ Unit := do
  let inside ← noteReturn ty candidateRange
  reportUnless inside range .returnOutsideFn

/-- Binds a lambda from the types of its parameters and a step that binds its body. -/
def lambdaExpr [DecidableEq κ] [Keyed κ] (params : List (Ast.Name × Ty)) (declared : Option Ty)
    (body : BindingOver κ Bound.Expr)
    (range : Range) : BindingOver κ Bound.Expr := do
  let ((syms, body, frame), captures) ← inScope .lambda <| withLambda do
    let syms ← declareLocals .parameter params
    let (body, frame) ← withFn ⟨"<lambda>", declared, [], range⟩ (withLoopDepth (fun _ => 0) body)
    return (syms, body, frame)
  let ret ← match frame with
    | some frame => settleReturn frame (bodyCandidate body)
    | none => pure .error
  return ⟨.lambda syms ret captures body, .fn (params.map Prod.snd) ret, range⟩

/-- The explicit or expected type arguments of a record expression. -/
def recordArgs (expected : Option Ty) (record : RecordDef) (type : Ast.Name)
    (tyArgs : List Ast.TyExpr) : BindingOver κ Subst := do
  let explicit ← resolveTypes tyArgs
  if explicit.isEmpty then return expectedRecordArgs expected record
  else if ← checkTypeArity type.text record.tyParams.length explicit type.range then
    return .ofArguments record.tyParams explicit
  else return .empty

mutual

/-- Binds an expression. The expected type fills in what the expression leaves open. -/
def bindExpr [DecidableEq κ] [Keyed κ] (expected : Option Ty) : Ast.Expr → BindingOver κ Bound.Expr
  | .literal origin value => pure ⟨.literal value, value.ty, origin.range⟩
  | .name name => nameExpr expected name
  | .binary origin op left right => do
    let left ← bindExpr none left
    let right ← bindExpr none right
    binaryExpr op left right origin.range
  | .unary origin op operand => do
    let operand ← bindExpr none operand
    unaryExpr op operand origin.range
  | .call origin callee tyArgs args => do
    match ← resolveCallee expected callee tyArgs origin.range with
    | some target =>
      let args ← bindExprs target.hints args
      finishCall target args origin.range
    | none =>
      let value ← bindExpr none callee
      let name := calleeName callee value.ty
      checkValueTyArgs name tyArgs origin.range
      let args ← bindExprs (valueHints value.ty) args
      finishValueCall value name args origin.range
  | .lambda origin params ret body => do
    let tys ← resolveTypes (params.map Ast.Param.annot)
    let declared ← resolveType? ret
    lambdaExpr ((params.map Ast.Param.name).zip tys) declared (bindExpr declared body) origin.range
  | .record origin type tyArgs fields => do
    match (← get).registry.record? type.text with
    | none =>
      reportNotARecord type
      bindUnused fields
      return .error origin.range
    | some record =>
      let known ← recordArgs expected record type tyArgs
      let (values, known) ← bindFields record [] known fields
      checkMissing type.text (fields.map fun f => f.name.text) origin.range record.fields.keys
      return ⟨.record values, .record record.name (known.instantiate record.tyParams), origin.range⟩
  | .field origin target name => do
    let target ← bindExpr none target
    fieldExpr target name origin.range
  | .tuple origin elems => do
    let elems ← bindExprs (tupleHints expected elems.length) elems
    return ⟨.tuple elems, .tuple (elems.map Bound.Expr.ty), origin.range⟩
  | .list origin elems => do
    let hint := elementHint .list expected
    let elems ← bindEach hint elems
    listExpr hint elems origin.range
  | .map origin entries => do
    let hint := elementHint .map expected
    let entries ← bindEntries hint entries
    mapExpr hint entries origin.range
  | .index origin target index => do
    let target ← bindExpr none target
    let index ← bindExpr none index
    indexExpr target index origin.range
  | .ifElse origin cond thenBranch none => do
    let cond ← bindExpr none cond
    checkCondition cond
    let thenBranch ← bindBlock thenBranch
    ifExpr cond thenBranch none origin.range
  | .ifElse origin cond thenBranch (some elseBranch) => do
    let cond ← bindExpr none cond
    checkCondition cond
    let thenBranch ← bindBlock thenBranch
    let elseBranch ← bindExpr expected elseBranch
    ifExpr cond thenBranch (some elseBranch) origin.range
  | .block block => do
    let range := block.range
    let block ← bindBlock block
    return ⟨.block block, block.ty, range⟩
  | .matchOn origin scrutinee arms => do
    let scrutinee ← bindExpr none scrutinee
    let (arms, agreed) ← bindArms scrutinee.ty expected .initial arms
    matchExpr scrutinee arms agreed origin.range
  | .spawn origin body => do
    checkSpawn origin.range
    let body ← bindBlock body
    return ⟨.spawn body, .task body.ty, origin.range⟩
  | .scope origin body => do
    let body ← inScopeBlock (bindBlock body)
    return ⟨.scope body, body.ty, origin.range⟩
  | .channel origin element => do
    let element ← resolveType element
    return ⟨.channel element, .tuple [.sender element, .receiver element], origin.range⟩
  | .par origin inner => do
    let inner ← bindExpr expected inner
    return ⟨.par inner, inner.ty, origin.range⟩
termination_by structural e => e

/-- Binds expressions with the expected types at their places. -/
def bindExprs [DecidableEq κ] [Keyed κ] :
    (hints : List (Option Ty)) → List Ast.Expr → BindingOver κ (List Bound.Expr)
  | _, [] => pure []
  | hints, e :: es => do
    let e ← bindExpr (hints.head?.join) e
    let es ← bindExprs hints.tail es
    return e :: es
termination_by structural _ es => es

/-- Binds expressions with one expected type for all. -/
def bindEach [DecidableEq κ] [Keyed κ] (hint : Option Ty) :
    List Ast.Expr → BindingOver κ (List Bound.Expr)
  | [] => pure []
  | e :: es => do
    let e ← bindExpr hint e
    let es ← bindEach hint es
    return e :: es
termination_by structural es => es

/-- Binds the entries of a map. -/
def bindEntries [DecidableEq κ] [Keyed κ] (hint : Option Ty) :
    List Ast.MapEntry → BindingOver κ (List Bound.Entry)
  | [] => pure []
  | ⟨_, key, value⟩ :: entries => do
    let key ← bindExpr (some .string) key
    checkKey key
    let value ← bindExpr hint value
    let entries ← bindEntries hint entries
    return ⟨key, value⟩ :: entries
termination_by structural entries => entries

/-- Binds the values of a record expression whose record is unknown. -/
def bindUnused [DecidableEq κ] [Keyed κ] : List Ast.FieldInit → BindingOver κ Unit
  | [] => pure ()
  | ⟨_, _, value⟩ :: fields => do
    let _ ← bindExpr none value
    bindUnused fields
termination_by structural fields => fields

/-- Binds the fields of a record expression. `seen` are the names met so far, `known` what they say
of the type arguments. A repeated or unknown field is reported and left out. -/
def bindFields [DecidableEq κ] [Keyed κ] (record : RecordDef) (seen : List String) (known : Subst) :
    List Ast.FieldInit → BindingOver κ (List Bound.FieldValue × Subst)
  | [] => pure ([], known)
  | ⟨_, name, value⟩ :: fields => do
    if seen.contains name.text then
      report name.range (.fieldRepeated name.text)
      let _ ← bindExpr none value
      bindFields record seen known fields
    else
      match record.fields.get? name.text with
      | none =>
        report name.range (.noSuchField record.name name.text)
        let _ ← bindExpr none value
        bindFields record (name.text :: seen) known fields
      | some d =>
        let value ← bindExpr (closedHint (d.ty.subst known)) value
        let known ← checkField name.text d.ty value known
        let (values, known) ← bindFields record (name.text :: seen) known fields
        return (⟨d.symbol, value⟩ :: values, known)
termination_by structural fields => fields

/-- Binds the arms of a match on a value of type `target`. -/
def bindArms [DecidableEq κ] [Keyed κ] (target : Ty) (expected : Option Ty) (agreed : ArmTypes) :
    List Ast.Arm → BindingOver κ (List Bound.Arm × ArmTypes)
  | [] => pure ([], agreed)
  | ⟨origin, pattern, body⟩ :: arms => do
    let arm : Bound.Arm ← inScope .matchArm do
      let pattern ← bindPattern target pattern
      let body ← bindExpr (expected <|> agreed.result) body
      return ⟨pattern, body, origin.range⟩
    let agreed ← noteArm agreed arm.body
    let (arms, agreed) ← bindArms target expected agreed arms
    return (arm :: arms, agreed)
termination_by structural arms => arms

/-- Binds a block in a scope of its own. -/
def bindBlock [DecidableEq κ] [Keyed κ] : Ast.Block → BindingOver κ Bound.Block
  | ⟨origin, stmts⟩ => do
    let stmts ← inScope .block (bindStmts stmts)
    return .ofStatements stmts origin.range
termination_by structural block => block

/-- Binds statements in the current scope. -/
def bindStmts [DecidableEq κ] [Keyed κ] : List Ast.Stmt → BindingOver κ (List Bound.Stmt)
  | [] => pure []
  | stmt :: stmts => do
    let bound ← bindStmt stmt
    let rest ← bindStmts stmts
    return bound.toList ++ rest
termination_by structural stmts => stmts

/-- Binds a statement; `none` for a declaration. -/
def bindStmt [DecidableEq κ] [Keyed κ] : Ast.Stmt → BindingOver κ (Option Bound.Stmt)
  | .bindName origin name isMutable annot init => do
    let annot ← resolveType? annot
    let init ← bindExpr annot init
    let kind ← finishLet name isMutable annot init
    return some ⟨kind, origin.range⟩
  | .assign origin name value => do
    let (symbol, target) ← assignTarget name
    let value ← bindExpr (target.map Prod.fst) value
    finishAssign name target value
    return some ⟨.assign symbol value, origin.range⟩
  | .expr origin value => do
    let value ← bindExpr none value
    return some ⟨.expr value, origin.range⟩
  | .print origin value => do
    let value ← bindExpr none value
    return some ⟨.print value, origin.range⟩
  | .ret origin none => do
    finishReturn .unit origin.range origin.range
    return some ⟨.ret none, origin.range⟩
  | .ret origin (some value) => do
    let declared ← declaredReturn
    let value ← bindExpr declared value
    finishReturn value.ty value.range origin.range
    return some ⟨.ret (some value), origin.range⟩
  | .block block => do
    let range := block.range
    let block ← bindBlock block
    return some ⟨.block block, range⟩
  | .whileLoop origin cond body => do
    let cond ← bindExpr none cond
    checkCondition cond
    let body ← inLoop (bindBlock body)
    return some ⟨.whileLoop cond body, origin.range⟩
  | .forLoop origin item iterable body => do
    let iterable ← bindExpr none iterable
    let ty ← itemTy iterable
    let (symbol, body) ← inScope .block do
      let symbol ← declareLocal item (.var false) ty
      let body ← inLoop (bindBlock body)
      return (symbol, body)
    return some ⟨.forLoop symbol iterable body, origin.range⟩
  | .breakLoop origin => do
    checkInLoop "break" origin.range
    return some ⟨.breakLoop, origin.range⟩
  | .continueLoop origin => do
    checkInLoop "continue" origin.range
    return some ⟨.continueLoop, origin.range⟩
  | .fn _ name _ _ _ _ => rejectDeclaration name "Function"
  | .record _ name _ _ => rejectDeclaration name "Record"
  | .sum _ name _ _ => rejectDeclaration name "Sum"
termination_by structural stmt => stmt

end

end Bindery.Binding
