import Bindery.Diagnostic.Basic
import Bindery.Diagnostic.Rule
import Bindery.Ast.Operator
import Bindery.Ty.Render

/-!
# Problems

A `Problem` is a broken rule together with the names and types it is about. `Problem.rule` says
which rule it is and `Problem.args` what goes into the holes of the rule's message. A `Finding` is a
problem at its place in the source.
-/

namespace Bindery

/-- A broken rule with the things it is about. -/
inductive Problem where
  | alreadyDeclared (name : String)
  | variantDeclaredElsewhere (variant owner : String)
  /-- A declaration of the given kind below the top level. -/
  | nestedDeclaration (kind : String)
  | undefinedVar (name : String)
  | undefinedFn (name : String)
  | undefinedType (name : String)
  | assignToImmutable (name : String)
  | returnOutsideFn
  | jumpOutsideLoop (keyword : String)
  | notAssignable (found expected : Ty)
  | binaryOperands (op : BinaryOp) (left right : Ty)
  | unaryOperand (op : UnaryOp) (operand : Ty)
  | conditionNotBool (found : Ty)
  | branchesDiffer (thenTy elseTy : Ty)
  | inconsistentReturns (fn : String)
  | returnMismatch (fn : String) (found declared : Ty)
  | argumentCount (callee : String) (expected got : Nat)
  /-- The argument is counted from 1. -/
  | argumentMismatch (argument : Nat) (callee : String) (expected found : Ty)
  | notCallable (found : Ty)
  | noOverload (callee : String) (args : List Ty)
  | typeArgumentCount (name : String) (expected got : Nat)
  | notARecord (type : String)
  | fieldRepeated (field : String)
  | noSuchField (type field : String)
  | fieldMissing (record field : String)
  | fieldMismatch (field : String) (expected found : Ty)
  | payloadNotAllowed (variant : String)
  | payloadRequired (variant : String) (payload : Ty)
  | payloadMismatch (variant : String) (expected found : Ty)
  | elementMismatch (found expected : Ty)
  /-- An empty list or map whose element type nothing determines. -/
  | emptyLiteral (collection : String)
  | notIndexable (target index : Ty)
  | notIterable (found : Ty)
  | mapKeyNotString (found : Ty)
  | nonExhaustive
  | unreachableArm
  | duplicateArm
  | armMismatch (found expected : Ty)
  | patternMismatch (pattern : String) (target : Ty)
  | tuplePatternLength (pattern target : Nat)
  | noSuchVariant (sum variant : String)
  | mutableCapture (name : String)
  | spawnOutsideScope
deriving DecidableEq, Inhabited

namespace Problem

/-- The rule that is broken. -/
def rule : Problem → Rule
  | alreadyDeclared .. => .alreadyDeclared
  | variantDeclaredElsewhere .. => .variantDeclaredElsewhere
  | nestedDeclaration .. => .nestedDeclaration
  | undefinedVar .. => .undefinedVar
  | undefinedFn .. => .undefinedFn
  | undefinedType .. => .undefinedType
  | assignToImmutable .. => .assignToImmutable
  | returnOutsideFn => .returnOutsideFn
  | jumpOutsideLoop .. => .jumpOutsideLoop
  | notAssignable .. => .notAssignable
  | binaryOperands .. => .binaryOperands
  | unaryOperand .. => .unaryOperand
  | conditionNotBool .. => .conditionNotBool
  | branchesDiffer .. => .branchesDiffer
  | inconsistentReturns .. => .inconsistentReturns
  | returnMismatch .. => .returnMismatch
  | argumentCount .. => .argumentCount
  | argumentMismatch .. => .argumentMismatch
  | notCallable .. => .notCallable
  | noOverload .. => .noOverload
  | typeArgumentCount .. => .typeArgumentCount
  | notARecord .. => .notARecord
  | fieldRepeated .. => .fieldRepeated
  | noSuchField .. => .noSuchField
  | fieldMissing .. => .fieldMissing
  | fieldMismatch .. => .fieldMismatch
  | payloadNotAllowed .. => .payloadNotAllowed
  | payloadRequired .. => .payloadRequired
  | payloadMismatch .. => .payloadMismatch
  | elementMismatch .. => .elementMismatch
  | emptyLiteral .. => .emptyLiteral
  | notIndexable .. => .notIndexable
  | notIterable .. => .notIterable
  | mapKeyNotString .. => .mapKeyNotString
  | nonExhaustive => .nonExhaustive
  | unreachableArm => .unreachableArm
  | duplicateArm => .duplicateArm
  | armMismatch .. => .armMismatch
  | patternMismatch .. => .patternMismatch
  | tuplePatternLength .. => .tuplePatternLength
  | noSuchVariant .. => .noSuchVariant
  | mutableCapture .. => .mutableCapture
  | spawnOutsideScope => .spawnOutsideScope

/-- What goes into the holes of the rule's message. -/
def args : Problem → List String
  | alreadyDeclared name | undefinedVar name | undefinedFn name | undefinedType name
  | assignToImmutable name | mutableCapture name => [name]
  | variantDeclaredElsewhere variant owner => [variant, owner]
  | nestedDeclaration kind => [kind]
  | jumpOutsideLoop keyword => [keyword]
  | notAssignable found expected | elementMismatch found expected | armMismatch found expected =>
    [found.render, expected.render]
  | binaryOperands op left right => [op.symbol, left.render, right.render]
  | unaryOperand op operand => [op.symbol, operand.render]
  | conditionNotBool found | notCallable found | notIterable found | mapKeyNotString found =>
    [found.render]
  | branchesDiffer thenTy elseTy => [thenTy.render, elseTy.render]
  | inconsistentReturns fn => [fn]
  | returnMismatch fn found declared => [fn, found.render, declared.render]
  | argumentCount callee expected got => [callee, toString expected, toString got]
  | argumentMismatch argument callee expected found =>
    [toString argument, callee, expected.render, found.render]
  | noOverload callee args => [callee, Ty.renderAll args]
  | typeArgumentCount name expected got => [name, toString expected, toString got]
  | notARecord type => [type]
  | fieldRepeated field => [field]
  | noSuchField type field => [type, field]
  | fieldMissing record field => [record, field]
  | fieldMismatch field expected found => [field, expected.render, found.render]
  | payloadNotAllowed variant => [variant]
  | payloadRequired variant payload => [variant, payload.render]
  | payloadMismatch variant expected found => [variant, expected.render, found.render]
  | emptyLiteral collection => [collection]
  | notIndexable target index => [target.render, index.render]
  | patternMismatch pattern target => [pattern, target.render]
  | tuplePatternLength pattern target => [toString pattern, toString target]
  | noSuchVariant sum variant => [sum, variant]
  | returnOutsideFn | nonExhaustive | unreachableArm | duplicateArm | spawnOutsideScope => []

end Problem

/-- A problem at its place. -/
structure Finding where
  range : Range
  problem : Problem
deriving DecidableEq, Inhabited

/-- The finding as a diagnostic of a file. -/
def Finding.toDiagnostic (f : Finding) (file : String) (lines : LineMap) : Diagnostic :=
  .placed file lines f.range f.problem.rule.template f.problem.args

end Bindery
