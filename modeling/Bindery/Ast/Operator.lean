import Bindery.Ty.Basic

/-!
# Operators

The operators of the language with their spelling, their classes, and the types they are defined on.
An operator has no implicit conversions: both operands of a binary operator have the same type.
-/

namespace Bindery

/-- Operators between two operands. -/
inductive BinaryOp where
  | add
  | subtract
  | multiply
  | divide
  | remainder
  | less
  | lessEqual
  | greater
  | greaterEqual
  | equal
  | notEqual
  | and
  | or
deriving DecidableEq, Inhabited

namespace BinaryOp

/-- Every binary operator. -/
def all : List BinaryOp :=
  [add, subtract, multiply, divide, remainder, less, lessEqual, greater, greaterEqual, equal,
    notEqual, and, or]

/-- The spelling of an operator. -/
def symbol : BinaryOp → String
  | add => "+"
  | subtract => "-"
  | multiply => "*"
  | divide => "/"
  | remainder => "%"
  | less => "<"
  | lessEqual => "<="
  | greater => ">"
  | greaterEqual => ">="
  | equal => "=="
  | notEqual => "!="
  | and => "&&"
  | or => "||"

/-- The operator with a spelling. -/
def ofSymbol? (s : String) : Option BinaryOp := all.find? (·.symbol == s)

/-- Operators that compute a number or a text from two of them. -/
def isArithmetic : BinaryOp → Bool
  | add | subtract | multiply | divide | remainder => true
  | _ => false

/-- Operators that order two numbers. -/
def isComparison : BinaryOp → Bool
  | less | lessEqual | greater | greaterEqual => true
  | _ => false

/-- Operators that tell whether two values are equal. -/
def isEquality : BinaryOp → Bool
  | equal | notEqual => true
  | _ => false

/-- Operators on truth values. -/
def isLogical : BinaryOp → Bool
  | and | or => true
  | _ => false

/-- The type of `left op right`, if the operator is defined on the operand types. -/
def resultTy? (op : BinaryOp) : (left right : Ty) → Option Ty
  | .bool, .bool => if op.isLogical || op.isEquality then some .bool else none
  | .int, .int =>
    if op.isArithmetic then some .int
    else if op.isComparison || op.isEquality then some .bool else none
  | .float, .float =>
    if op.isArithmetic then some .float
    else if op.isComparison || op.isEquality then some .bool else none
  | .string, .string =>
    if op = add then some .string else if op.isEquality then some .bool else none
  | _, _ => none

end BinaryOp

/-- Operators before one operand. -/
inductive UnaryOp where
  | not
  | plus
  | minus
deriving DecidableEq, Inhabited

namespace UnaryOp

/-- Every unary operator. -/
def all : List UnaryOp := [not, plus, minus]

/-- The spelling of an operator. -/
def symbol : UnaryOp → String
  | not => "!"
  | plus => "+"
  | minus => "-"

/-- The operator with a spelling. -/
def ofSymbol? (s : String) : Option UnaryOp := all.find? (·.symbol == s)

/-- The type of `op operand`, if the operator is defined on the operand type. -/
def resultTy? : UnaryOp → (operand : Ty) → Option Ty
  | not, .bool => some .bool
  | plus, .int | minus, .int => some .int
  | plus, .float | minus, .float => some .float
  | _, _ => none

end UnaryOp

end Bindery
