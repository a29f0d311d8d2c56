import Bindery.Ast.Operator
import Bindery.Text.Range

/-!
# Syntax trees

A source file is a list of statements. Statements, expressions, patterns and written types are each
a closed family of nodes, and every node and every written name knows its `Origin`: the range of
text it covers and its number in the tree.

Blocks, match arms, field initialisers and map entries are nodes of their own, since diagnostics may
be placed on them.
-/

namespace Bindery

/-- Where a node comes from. -/
structure Origin where
  range : Range
  id : Nat
  /-- The node was built by a program and has no text of its own. -/
  synthesized : Bool
deriving DecidableEq, Inhabited

/-- A constant value as written. A float is kept as its IEEE 754 bits. -/
inductive Literal where
  | int (value : Int64)
  | float (bits : UInt64)
  | bool (value : Bool)
  | string (value : String)
  | unit
deriving DecidableEq, Inhabited

/-- The type of a constant. -/
def Literal.ty : Literal → Ty
  | .int _ => .int
  | .float _ => .float
  | .bool _ => .bool
  | .string _ => .string
  | .unit => .unit

namespace Ast

/-- A name at the place where it is written. -/
structure Name where
  origin : Origin
  text : String
deriving DecidableEq, Inhabited

/-- A written type. -/
inductive TyExpr where
  /-- A name and its arguments: `Int`, `List<T>`, `Box<Int>`, `T`. -/
  | named (origin : Origin) (name : Name) (args : List TyExpr)
  /-- A function type, `fn(Int, Int) -> Bool`. -/
  | fn (origin : Origin) (params : List TyExpr) (ret : TyExpr)
  /-- A tuple type, `(Int, String)`. -/
  | tuple (origin : Origin) (elems : List TyExpr)
deriving Inhabited

/-- A pattern of a match arm. -/
inductive Pattern where
  | literal (origin : Origin) (value : Literal)
  | wildcard (origin : Origin)
  | name (name : Name)
  | tuple (origin : Origin) (elems : List Pattern)
  /-- A variant by its name, `Some(x)` or `None`. -/
  | variant (origin : Origin) (name : Name) (payload : Option Pattern)
deriving Inhabited

/-- A parameter of a function or a lambda. -/
structure Param where
  origin : Origin
  name : Name
  annot : TyExpr
deriving Inhabited

/-- A field of a record declaration. -/
structure FieldDecl where
  origin : Origin
  name : Name
  annot : TyExpr
deriving Inhabited

/-- A variant of a sum declaration. -/
structure VariantDecl where
  origin : Origin
  name : Name
  payload : Option TyExpr
deriving Inhabited

mutual

/-- An expression. -/
inductive Expr where
  | literal (origin : Origin) (value : Literal)
  | name (name : Name)
  | binary (origin : Origin) (op : BinaryOp) (left right : Expr)
  | unary (origin : Origin) (op : UnaryOp) (operand : Expr)
  | call (origin : Origin) (callee : Expr) (tyArgs : List TyExpr) (args : List Expr)
  /-- A function value, `fn(x: Int) => body`. -/
  | lambda (origin : Origin) (params : List Param) (ret : Option TyExpr) (body : Expr)
  /-- A record value, `User { name: "a", age: 3 }`. -/
  | record (origin : Origin) (type : Name) (tyArgs : List TyExpr) (fields : List FieldInit)
  | field (origin : Origin) (target : Expr) (name : Name)
  | tuple (origin : Origin) (elems : List Expr)
  | list (origin : Origin) (elems : List Expr)
  | map (origin : Origin) (entries : List MapEntry)
  | index (origin : Origin) (target index : Expr)
  | ifElse (origin : Origin) (cond : Expr) (thenBranch : Block) (elseBranch : Option Expr)
  | block (block : Block)
  | matchOn (origin : Origin) (scrutinee : Expr) (arms : List Arm)
  | spawn (origin : Origin) (body : Block)
  | scope (origin : Origin) (body : Block)
  /-- A new channel, `channel<T>()`. -/
  | channel (origin : Origin) (element : TyExpr)
  | par (origin : Origin) (inner : Expr)

/-- One field `name: value` inside a record expression. -/
structure FieldInit where
  origin : Origin
  name : Name
  value : Expr

/-- One entry `key: value` inside a map expression. -/
structure MapEntry where
  origin : Origin
  key : Expr
  value : Expr

/-- One arm of a match. -/
structure Arm where
  origin : Origin
  pattern : Pattern
  body : Expr

/-- Statements in braces. -/
structure Block where
  origin : Origin
  stmts : List Stmt

/-- A statement. -/
inductive Stmt where
  /-- A local declaration, `let [mut] name [: T] = init`. -/
  | bindName (origin : Origin) (name : Name) (isMutable : Bool) (annot : Option TyExpr)
      (init : Expr)
  | assign (origin : Origin) (target : Name) (value : Expr)
  | expr (origin : Origin) (value : Expr)
  | print (origin : Origin) (value : Expr)
  | ret (origin : Origin) (value : Option Expr)
  | block (block : Block)
  | whileLoop (origin : Origin) (cond : Expr) (body : Block)
  /-- A loop over a value, `for item in iterable { ... }`. -/
  | forLoop (origin : Origin) (item : Name) (iterable : Expr) (body : Block)
  | breakLoop (origin : Origin)
  | continueLoop (origin : Origin)
  | fn (origin : Origin) (name : Name) (tyParams : List Name) (params : List Param)
      (ret : Option TyExpr) (body : Block)
  | record (origin : Origin) (name : Name) (tyParams : List Name) (fields : List FieldDecl)
  | sum (origin : Origin) (name : Name) (tyParams : List Name) (variants : List VariantDecl)

end

/-- The text a name covers. -/
def Name.range (n : Name) : Range := n.origin.range

/-- The text a block covers. -/
def Block.range (b : Block) : Range := b.origin.range

/-- The text a written type covers. -/
def TyExpr.range : TyExpr → Range
  | .named o .. | .fn o .. | .tuple o .. => o.range

/-- The text a pattern covers. -/
def Pattern.range : Pattern → Range
  | .literal o _ | .wildcard o | .tuple o _ | .variant o .. => o.range
  | .name n => n.range

/-- The text an expression covers. -/
def Expr.range : Expr → Range
  | .literal o _ | .binary o .. | .unary o .. | .call o .. | .lambda o .. | .record o .. | .field o ..
  | .tuple o _ | .list o _ | .map o _ | .index o .. | .ifElse o .. | .matchOn o .. | .spawn o _
  | .scope o _ | .channel o _ | .par o _ => o.range
  | .name n => n.range
  | .block b => b.range

/-- The text a statement covers. -/
def Stmt.range : Stmt → Range
  | .bindName o .. | .assign o .. | .expr o _ | .print o _ | .ret o _ | .whileLoop o ..
  | .forLoop o .. | .breakLoop o | .continueLoop o | .fn o .. | .record o .. | .sum o .. =>
    o.range
  | .block b => b.range

/-- Whether a statement declares a type or a function. -/
def Stmt.isDeclaration : Stmt → Bool
  | .fn .. | .record .. | .sum .. => true
  | _ => false

/-- The name of one syntax tree. Different trees have different names, also when their contents
agree. -/
abbrev TreeId := Nat

/-- A whole file. -/
structure SourceFile where
  id : TreeId
  origin : Origin
  stmts : List Stmt
  name : String
  text : String

end Ast

end Bindery
