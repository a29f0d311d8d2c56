import Bindery.Diagnostic.Template

/-!
# The rules of the language

Every rule that a program can break has a code and a message template. Codes starting with 1 are
about names and where statements may stand, 2 about types, 3 about matches, 4 about lambdas and
tasks.
-/

namespace Bindery

/-- A rule that a program can break. -/
inductive Rule where
  | alreadyDeclared
  | variantDeclaredElsewhere
  | nestedDeclaration
  | undefinedVar
  | undefinedFn
  | undefinedType
  | assignToImmutable
  | returnOutsideFn
  | jumpOutsideLoop
  | notAssignable
  | binaryOperands
  | unaryOperand
  | conditionNotBool
  | branchesDiffer
  | inconsistentReturns
  | returnMismatch
  | argumentCount
  | argumentMismatch
  | notCallable
  | noOverload
  | typeArgumentCount
  | notARecord
  | fieldRepeated
  | noSuchField
  | fieldMissing
  | fieldMismatch
  | payloadNotAllowed
  | payloadRequired
  | payloadMismatch
  | elementMismatch
  | emptyLiteral
  | notIndexable
  | notIterable
  | mapKeyNotString
  | nonExhaustive
  | unreachableArm
  | duplicateArm
  | armMismatch
  | patternMismatch
  | tuplePatternLength
  | noSuchVariant
  | mutableCapture
  | spawnOutsideScope
deriving DecidableEq, Inhabited

namespace Rule

/-- Every rule, in the order of the codes. -/
def all : List Rule :=
  [alreadyDeclared, variantDeclaredElsewhere, nestedDeclaration, undefinedVar,
    undefinedFn, undefinedType, assignToImmutable, returnOutsideFn, jumpOutsideLoop,
    notAssignable, binaryOperands, unaryOperand, conditionNotBool, branchesDiffer,
    inconsistentReturns, returnMismatch, argumentCount, argumentMismatch, notCallable, noOverload,
    typeArgumentCount, notARecord, fieldRepeated, noSuchField, fieldMissing, fieldMismatch,
    payloadNotAllowed, payloadRequired, payloadMismatch, elementMismatch, emptyLiteral,
    notIndexable, notIterable, mapKeyNotString, nonExhaustive, unreachableArm, duplicateArm,
    armMismatch, patternMismatch, tuplePatternLength, noSuchVariant, mutableCapture,
    spawnOutsideScope]

/-- The code of a rule. -/
def code : Rule → Nat
  | alreadyDeclared => 1001
  | variantDeclaredElsewhere => 1002
  | nestedDeclaration => 1003
  | undefinedVar => 1004
  | undefinedFn => 1005
  | undefinedType => 1006
  | assignToImmutable => 1007
  | returnOutsideFn => 1008
  | jumpOutsideLoop => 1009
  | notAssignable => 2001
  | binaryOperands => 2002
  | unaryOperand => 2003
  | conditionNotBool => 2004
  | branchesDiffer => 2005
  | inconsistentReturns => 2006
  | returnMismatch => 2007
  | argumentCount => 2008
  | argumentMismatch => 2009
  | notCallable => 2010
  | noOverload => 2011
  | typeArgumentCount => 2012
  | notARecord => 2013
  | fieldRepeated => 2014
  | noSuchField => 2015
  | fieldMissing => 2016
  | fieldMismatch => 2017
  | payloadNotAllowed => 2018
  | payloadRequired => 2019
  | payloadMismatch => 2020
  | elementMismatch => 2021
  | emptyLiteral => 2022
  | notIndexable => 2023
  | notIterable => 2024
  | mapKeyNotString => 2025
  | nonExhaustive => 3001
  | unreachableArm => 3002
  | duplicateArm => 3003
  | armMismatch => 3004
  | patternMismatch => 3005
  | tuplePatternLength => 3006
  | noSuchVariant => 3007
  | mutableCapture => 4001
  | spawnOutsideScope => 4002

/-- The message of a rule with holes for its arguments. -/
def text : Rule → String
  | alreadyDeclared => "'{0}' is already declared in this scope."
  | variantDeclaredElsewhere => "Variant '{0}' is already declared by type '{1}'."
  | nestedDeclaration => "{0} declarations are only allowed at the top level."
  | undefinedVar => "Undefined variable '{0}'."
  | undefinedFn => "Undefined function '{0}'."
  | undefinedType => "Undefined type '{0}'."
  | assignToImmutable => "Cannot assign to immutable variable '{0}'."
  | returnOutsideFn => "'return' can only be used inside a function."
  | jumpOutsideLoop => "'{0}' can only be used inside a loop."
  | notAssignable => "Cannot assign expression of type '{0}' to variable of type '{1}'."
  | binaryOperands => "Operator '{0}' is not defined for types '{1}' and '{2}'."
  | unaryOperand => "Operator '{0}' is not defined for type '{1}'."
  | conditionNotBool => "Condition must be of type 'Bool' but got '{0}'."
  | branchesDiffer => "If branches have incompatible types '{0}' and '{1}'."
  | inconsistentReturns => "Function '{0}' has inconsistent return types."
  | returnMismatch => "Function '{0}' returns '{1}' but is declared to return '{2}'."
  | argumentCount => "'{0}' expects {1} argument(s) but was given {2}."
  | argumentMismatch => "Argument {0} of '{1}' expects type '{2}' but got '{3}'."
  | notCallable => "Expression of type '{0}' is not callable."
  | noOverload => "No overload of '{0}' accepts arguments of type(s) '{1}'."
  | typeArgumentCount => "'{0}' expects {1} type argument(s) but was given {2}."
  | notARecord => "Type '{0}' is not a record type."
  | fieldRepeated => "Field '{0}' is already initialized."
  | noSuchField => "Type '{0}' has no field '{1}'."
  | fieldMissing => "Record literal of type '{0}' is missing required field '{1}'."
  | fieldMismatch => "Field '{0}' expects type '{1}' but got '{2}'."
  | payloadNotAllowed => "Variant '{0}' does not take a payload."
  | payloadRequired => "Variant '{0}' requires a payload of type '{1}'."
  | payloadMismatch => "Variant '{0}' expects a payload of type '{1}' but got '{2}'."
  | elementMismatch => "Element has type '{0}' but expected '{1}'."
  | emptyLiteral => "Cannot infer the element type of an empty {0} literal."
  | notIndexable => "Type '{0}' cannot be indexed by '{1}'."
  | notIterable => "Type '{0}' is not iterable."
  | mapKeyNotString => "Map keys must be of type 'String' but got '{0}'."
  | nonExhaustive => "Non-exhaustive match expression."
  | unreachableArm => "Unreachable match arm."
  | duplicateArm => "Duplicate match arm."
  | armMismatch => "Match arm has type '{0}' but previous arms have type '{1}'."
  | patternMismatch => "Pattern of type '{0}' cannot match a value of type '{1}'."
  | tuplePatternLength => "Tuple pattern has {0} element(s) but the matched type has {1}."
  | noSuchVariant => "Type '{0}' has no variant '{1}'."
  | mutableCapture => "Cannot capture mutable variable '{0}' in lambda."
  | spawnOutsideScope => "'spawn' can only be used inside a 'scope' block."

/-- The template of a rule. Breaking any rule is an error. -/
def template (r : Rule) : Template := ⟨r.code, .error, r.text⟩

/-- The rule with a code. -/
def ofCode? (code : Nat) : Option Rule := all.find? (·.code == code)

theorem ofCode?_code (r : Rule) : ofCode? r.code = some r := by cases r <;> rfl

/-- No two rules share a code. -/
theorem code_injective (r s : Rule) (h : r.code = s.code) : r = s :=
  Option.some.inj ((ofCode?_code r).symm.trans (h ▸ ofCode?_code s))

end Rule

end Bindery
