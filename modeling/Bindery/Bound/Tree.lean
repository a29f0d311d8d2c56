import Bindery.Symbol
import Bindery.Ast.Tree

/-!
# Bound trees

The result of binding. Every expression and pattern carries its type, and names are replaced by the
numbers of the symbols they stand for. A part that could not be resolved is `ExprKind.error` or an
absent symbol.

A block diverges if running it always leaves it by `return`, `break` or `continue`. What diverges
has no value, so its type is not compared with the type of anything else.
-/

namespace Bindery.Bound

mutual

/-- What a pattern matches. -/
inductive PatternKind where
  | literal (value : Literal)
  | wildcard
  | binding (symbol : SymId) (name : String)
  | tuple (elems : List Pattern)
  /-- A variant of a sum; `bare` if it was written as a name alone. -/
  | variant (name : String) (symbol : Option SymId) (payload : Option Pattern) (bare : Bool)

/-- A pattern with the type of the values it is matched against. -/
structure Pattern where
  kind : PatternKind
  ty : Ty
  range : Range

end

mutual

/-- What an expression does. -/
inductive ExprKind where
  | literal (value : Literal)
  | var (symbol : SymId)
  /-- A named function used as a value. -/
  | fnRef (symbol : SymId)
  | binary (op : BinaryOp) (left right : Expr)
  | unary (op : UnaryOp) (operand : Expr)
  /-- A call of a named function. -/
  | call (fn : SymId) (tyArgs : List Ty) (args : List Expr)
  /-- A call of a value of function type. -/
  | callValue (callee : Expr) (args : List Expr)
  | variant (symbol : SymId) (payload : Option Expr)
  /-- A lambda with its parameters, its return type and the variables it captures, in the order of
  first reference. -/
  | lambda (params : List SymId) (ret : Ty) (captures : List SymId) (body : Expr)
  | record (fields : List FieldValue)
  | field (target : Expr) (field : Option SymId)
  | tuple (elems : List Expr)
  | list (elems : List Expr)
  | map (entries : List Entry)
  | index (target index : Expr)
  | ifElse (cond : Expr) (thenBranch : Block) (elseBranch : Option Expr)
  | block (block : Block)
  | matchOn (scrutinee : Expr) (arms : List Arm)
  | spawn (body : Block)
  | scope (body : Block)
  | channel (element : Ty)
  | par (inner : Expr)
  /-- An expression that was reported and has no meaning. -/
  | error

/-- An expression with its type. -/
structure Expr where
  kind : ExprKind
  ty : Ty
  range : Range

/-- A field of a record expression. -/
structure FieldValue where
  field : SymId
  value : Expr

/-- An entry of a map expression. -/
structure Entry where
  key : Expr
  value : Expr

/-- One arm of a match. -/
structure Arm where
  pattern : Pattern
  body : Expr
  range : Range

/-- A block with the type of its value: that of the last statement if it is an expression, else
`Unit`. -/
structure Block where
  stmts : List Stmt
  ty : Ty
  diverges : Bool
  range : Range

/-- What a statement does. -/
inductive StmtKind where
  | bindName (symbol : SymId) (init : Expr)
  | assign (symbol : Option SymId) (value : Expr)
  | expr (value : Expr)
  | print (value : Expr)
  | ret (value : Option Expr)
  | block (block : Block)
  | whileLoop (cond : Expr) (body : Block)
  | forLoop (item : SymId) (iterable : Expr) (body : Block)
  | breakLoop
  | continueLoop

/-- A statement at its place. -/
structure Stmt where
  kind : StmtKind
  range : Range

end

mutual

/-- Whether the pattern matches every value of its type. -/
def Pattern.isIrrefutable : Pattern → Bool
  | ⟨.wildcard, _, _⟩ => true
  | ⟨.binding .., _, _⟩ => true
  | ⟨.tuple elems, _, _⟩ => Pattern.allIrrefutable elems
  | ⟨.literal _, _, _⟩ => false
  | ⟨.variant .., _, _⟩ => false

/-- Whether all patterns are irrefutable. -/
def Pattern.allIrrefutable : List Pattern → Bool
  | [] => true
  | p :: ps => p.isIrrefutable && Pattern.allIrrefutable ps

end

namespace Expr

/-- The expression that stands for one already reported. -/
def error (range : Range) : Expr := ⟨.error, .error, range⟩

/-- Whether evaluating the expression always leaves the body around it. -/
def diverges : Expr → Bool
  | ⟨.block b, _, _⟩ => b.diverges
  | ⟨.ifElse _ thenBranch (some elseBranch), _, _⟩ => thenBranch.diverges && elseBranch.diverges
  | _ => false

end Expr

/-- Whether running the statement always leaves the block around it. -/
def Stmt.diverges (s : Stmt) : Bool :=
  match s.kind with
  | .ret _ | .breakLoop | .continueLoop => true
  | .block b => b.diverges
  | .expr e => e.diverges
  | _ => false

namespace Block

/-- The last statement of a list, if it is an expression. -/
def lastExpr? (stmts : List Stmt) : Option Expr :=
  match stmts.getLast? with
  | some ⟨.expr e, _⟩ => some e
  | _ => none

/-- The block of some statements. -/
def ofStatements (stmts : List Stmt) (range : Range) : Block where
  stmts := stmts
  ty := ((lastExpr? stmts).map Expr.ty).getD .unit
  diverges := stmts.any Stmt.diverges
  range := range

/-- The expression that gives the block its value. -/
def value? (b : Block) : Option Expr := lastExpr? b.stmts

end Block

/-- A bound record declaration. -/
structure RecordDecl where
  name : String
  tyParams : List String
  fields : List SymId
  range : Range

/-- A bound sum declaration. -/
structure SumDecl where
  name : String
  tyParams : List String
  variants : List SymId
  range : Range

/-- A bound function declaration. -/
structure FnDecl where
  symbol : SymId
  params : List SymId
  body : Block
  range : Range

/-- A bound file: its declarations, its statements in order, and the symbols they refer to. -/
structure Program where
  records : List RecordDecl
  sums : List SumDecl
  fns : List FnDecl
  stmts : List Stmt
  syms : Symbols

/-- The first declared function with a name. -/
def Program.fn? (p : Program) (name : String) : Option FnDecl :=
  p.fns.find? fun f => ((p.syms.get? f.symbol).map Symbol.name) == some name

end Bindery.Bound
