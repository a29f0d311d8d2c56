import Bindery.Binding.Value
import Bindery.Bound.Coverage

/-!
# Branches and returns

What several branches agree on: the type of an `if`, of a `match`, and the return type of a
function. A branch that diverges has no value and is left out, and poison agrees with everything.
-/

namespace Bindery.Binding

variable {κ : Type}

/-! ## Conditionals -/

/-- The type of an `if` with both branches. -/
def branchTy (thenBranch : Bound.Block) (elseBranch : Bound.Expr) (range : Range) :
    BindingOver κ Ty := do
  if thenBranch.diverges then return elseBranch.ty
  else if elseBranch.diverges || elseBranch.ty.isError then return thenBranch.ty
  else if thenBranch.ty.isError then return elseBranch.ty
  else if thenBranch.ty.accepts elseBranch.ty then return thenBranch.ty
  else
    report range (.branchesDiffer thenBranch.ty elseBranch.ty)
    return .error

/-- Binds an `if` from its parts. Without an `else` it has no value. -/
def ifExpr (cond : Bound.Expr) (thenBranch : Bound.Block) (elseBranch : Option Bound.Expr)
    (range : Range) : BindingOver κ Bound.Expr := do
  match elseBranch with
  | none => return ⟨.ifElse cond thenBranch none, .unit, range⟩
  | some e => return ⟨.ifElse cond thenBranch (some e), ← branchTy thenBranch e range, range⟩

/-! ## Matches -/

/-- What the arms of a match have agreed on so far. -/
structure ArmTypes where
  /-- The type of the first arm that has a value. -/
  result : Option Ty
  /-- Some arm is poisoned. -/
  poisoned : Bool
  /-- Some arm has another type than the first. -/
  mismatched : Bool
deriving DecidableEq, Inhabited

namespace ArmTypes

/-- No arm yet. -/
def initial : ArmTypes := ⟨none, false, false⟩

/-- The type of the match. -/
def ty (a : ArmTypes) : Ty :=
  if a.mismatched then .error
  else
    match a.result with
    | some ty => ty
    | none => if a.poisoned then .error else .unit

end ArmTypes

/-- Takes one more arm into account. -/
def noteArm (a : ArmTypes) (body : Bound.Expr) : BindingOver κ ArmTypes := do
  if body.ty.isError then return { a with poisoned := true }
  else if body.diverges then return a
  else
    match a.result with
    | none => return { a with result := some body.ty }
    | some first =>
      if first.accepts body.ty then return a
      else
        report body.range (.armMismatch body.ty first)
        return { a with mismatched := true }

/-- The problem that an issue of a match is. -/
def issueProblem : Bound.MatchIssueKind → Problem
  | .nonExhaustive => .nonExhaustive
  | .unreachable => .unreachableArm
  | .duplicate => .duplicateArm

/-- Reports the issues of a match. -/
def reportIssues : List Bound.MatchIssue → BindingOver κ Unit
  | [] => pure ()
  | issue :: issues => do
    report issue.range (issueProblem issue.kind)
    reportIssues issues

/-- Binds a match from its parts. -/
def matchExpr (scrutinee : Bound.Expr) (arms : List Bound.Arm) (agreed : ArmTypes) (range : Range) :
    BindingOver κ Bound.Expr := do
  let registry := (← get).registry
  reportIssues (Bound.checkMatch registry scrutinee.ty (arms.map Bound.Arm.pattern) range)
  return ⟨.matchOn scrutinee arms, agreed.ty, range⟩

/-! ## Return types -/

/-- Notes the type of a `return`; the answer is whether there is a function to return from. -/
def noteReturn (ty : Ty) (range : Range) : BindingOver κ Bool :=
  modifyGet fun s =>
    match s.fns with
    | [] => (false, s)
    | f :: fns =>
      (true, { s with fns := { f with returns := f.returns ++ [(ty, range)] } :: fns })

/-- The return type written for the innermost function. -/
def declaredReturn : BindingOver κ (Option Ty) :=
  return (← get).fns.head?.bind FnFrame.declared

/-- The value of a block as a candidate for the return type, unless it diverges. -/
def blockCandidate (block : Bound.Block) : Option (Ty × Range) :=
  match block.value? with
  | some e => if e.diverges then none else some (e.ty, e.range)
  | none => none

/-- The value of a lambda's body as a candidate for the return type, unless it diverges. -/
def bodyCandidate (body : Bound.Expr) : Option (Ty × Range) :=
  match body.kind with
  | .block block => blockCandidate block
  | _ => if body.diverges then none else some (body.ty, body.range)

/-- Reports the candidates that do not fit the written return type. -/
def checkReturns (fn : String) (declared : Ty) : List (Ty × Range) → BindingOver κ Unit
  | [] => pure ()
  | (ty, range) :: returns => do
    reportUnless (declared.accepts ty) range (.returnMismatch fn ty declared)
    checkReturns fn declared returns

/-- Settles the return type of a function from its `return` statements and the value of its body.

A written return type stands, and every candidate is checked against it; if it is `Unit`, the value
of the body is no candidate. Otherwise all candidates that are not poisoned have to be the same
type. -/
def settleReturn (frame : FnFrame) (trailing : Option (Ty × Range)) : BindingOver κ Ty := do
  match frame.declared with
  | some declared =>
    let candidates := if declared = .unit then frame.returns else frame.returns ++ trailing.toList
    checkReturns frame.name declared candidates
    return declared
  | none =>
    let candidates := (frame.returns ++ trailing.toList).map Prod.fst
    if candidates.isEmpty then return .unit
    match candidates.filter fun ty => !ty.isError with
    | [] => return .error
    | first :: rest =>
      if rest.all (· == first) then return first
      else
        report frame.range (.inconsistentReturns frame.name)
        return .error

end Bindery.Binding
