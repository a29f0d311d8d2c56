import Bindery.Ast.Tree

/-!
# The nodes of a syntax tree

`nodes` lists the expressions and statements below a syntax tree, itself included, each before its
parts. A shallow list leaves out the bodies of lambdas and functions.
-/

namespace Bindery.Ast

/-- A part of a syntax tree. -/
inductive Node where
  | expr (e : Expr)
  | stmt (s : Stmt)

mutual

/-- The nodes of an expression; those in the bodies of lambdas only if `deep`. -/
def Expr.nodes (deep : Bool) : Expr → List Node
  | .literal o v => [.expr (.literal o v)]
  | .name n => [.expr (.name n)]
  | .binary o op left right => .expr (.binary o op left right) :: (left.nodes deep ++ right.nodes deep)
  | .unary o op operand => .expr (.unary o op operand) :: operand.nodes deep
  | .call o callee tyArgs args =>
    .expr (.call o callee tyArgs args) :: (callee.nodes deep ++ Expr.allNodes deep args)
  | .lambda o params ret body =>
    .expr (.lambda o params ret body) :: (if deep then body.nodes deep else [])
  | .record o type tyArgs fields =>
    .expr (.record o type tyArgs fields) :: FieldInit.allNodes deep fields
  | .field o target name => .expr (.field o target name) :: target.nodes deep
  | .tuple o elems => .expr (.tuple o elems) :: Expr.allNodes deep elems
  | .list o elems => .expr (.list o elems) :: Expr.allNodes deep elems
  | .map o entries => .expr (.map o entries) :: MapEntry.allNodes deep entries
  | .index o target index => .expr (.index o target index) :: (target.nodes deep ++ index.nodes deep)
  | .ifElse o cond thenBranch none =>
    .expr (.ifElse o cond thenBranch none) :: (cond.nodes deep ++ thenBranch.nodes deep)
  | .ifElse o cond thenBranch (some elseBranch) =>
    .expr (.ifElse o cond thenBranch (some elseBranch)) ::
      (cond.nodes deep ++ thenBranch.nodes deep ++ elseBranch.nodes deep)
  | .block b => .expr (.block b) :: b.nodes deep
  | .matchOn o scrutinee arms =>
    .expr (.matchOn o scrutinee arms) :: (scrutinee.nodes deep ++ Arm.allNodes deep arms)
  | .spawn o body => .expr (.spawn o body) :: body.nodes deep
  | .scope o body => .expr (.scope o body) :: body.nodes deep
  | .channel o element => [.expr (.channel o element)]
  | .par o inner => .expr (.par o inner) :: inner.nodes deep

/-- The nodes of expressions. -/
def Expr.allNodes (deep : Bool) : List Expr → List Node
  | [] => []
  | e :: es => e.nodes deep ++ Expr.allNodes deep es

/-- The nodes of the fields of a record expression. -/
def FieldInit.allNodes (deep : Bool) : List FieldInit → List Node
  | [] => []
  | ⟨_, _, value⟩ :: fields => value.nodes deep ++ FieldInit.allNodes deep fields

/-- The nodes of the entries of a map expression. -/
def MapEntry.allNodes (deep : Bool) : List MapEntry → List Node
  | [] => []
  | ⟨_, key, value⟩ :: entries => key.nodes deep ++ value.nodes deep ++ MapEntry.allNodes deep entries

/-- The nodes of the arms of a match. -/
def Arm.allNodes (deep : Bool) : List Arm → List Node
  | [] => []
  | ⟨_, _, body⟩ :: arms => body.nodes deep ++ Arm.allNodes deep arms

/-- The nodes of a block. -/
def Block.nodes (deep : Bool) : Block → List Node
  | ⟨_, stmts⟩ => Stmt.allNodes deep stmts

/-- The nodes of a statement; those in the body of a function only if `deep`. -/
def Stmt.nodes (deep : Bool) : Stmt → List Node
  | .bindName o name isMutable annot init =>
    .stmt (.bindName o name isMutable annot init) :: init.nodes deep
  | .assign o target value => .stmt (.assign o target value) :: value.nodes deep
  | .expr o value => .stmt (.expr o value) :: value.nodes deep
  | .print o value => .stmt (.print o value) :: value.nodes deep
  | .ret o none => [.stmt (.ret o none)]
  | .ret o (some value) => .stmt (.ret o (some value)) :: value.nodes deep
  | .block b => .stmt (.block b) :: b.nodes deep
  | .whileLoop o cond body => .stmt (.whileLoop o cond body) :: (cond.nodes deep ++ body.nodes deep)
  | .forLoop o item iterable body =>
    .stmt (.forLoop o item iterable body) :: (iterable.nodes deep ++ body.nodes deep)
  | .breakLoop o => [.stmt (.breakLoop o)]
  | .continueLoop o => [.stmt (.continueLoop o)]
  | .fn o name tyParams params ret body =>
    .stmt (.fn o name tyParams params ret body) :: (if deep then body.nodes deep else [])
  | .record o name tyParams fields => [.stmt (.record o name tyParams fields)]
  | .sum o name tyParams variants => [.stmt (.sum o name tyParams variants)]

/-- The nodes of statements. -/
def Stmt.allNodes (deep : Bool) : List Stmt → List Node
  | [] => []
  | s :: ss => s.nodes deep ++ Stmt.allNodes deep ss

end

namespace Node

/-- Whether the node is a `return`. -/
def isReturn : Node → Bool
  | .stmt (.ret ..) => true
  | _ => false

/-- Whether the node is a `return`, `break` or `continue`. -/
def isJump : Node → Bool
  | .stmt (.ret ..) | .stmt (.breakLoop _) | .stmt (.continueLoop _) => true
  | _ => false

/-- The return type that is written at a lambda. -/
def annotations : Node → List (Option TyExpr)
  | .expr (.lambda _ _ written _) => [written]
  | _ => []

end Node

/-- Whether there is a `return` among the nodes. -/
def returns (nodes : List Node) : Bool := nodes.any Node.isReturn

/-- Whether there is a `return`, `break` or `continue` among the nodes. -/
def jumps (nodes : List Node) : Bool := nodes.any Node.isJump

section

variable (n : Node) (ns ms : List Node)

@[simp]
theorem returns_cons : returns (n :: ns) = (n.isReturn || returns ns) := List.any_cons

@[simp]
theorem returns_append : returns (ns ++ ms) = (returns ns || returns ms) := List.any_append

@[simp]
theorem jumps_cons : jumps (n :: ns) = (n.isJump || jumps ns) := List.any_cons

@[simp]
theorem jumps_append : jumps (ns ++ ms) = (jumps ns || jumps ms) := List.any_append

end

/-- The name that a node refers to a variable, function or variant by. -/
def Node.referred? : Node → Option String
  | .expr (.name n) => some n.text
  | .stmt (.assign _ target _) => some target.text
  | _ => none

/-- The names that nodes refer by. -/
def references (nodes : List Node) : List String := nodes.filterMap Node.referred?

end Bindery.Ast
