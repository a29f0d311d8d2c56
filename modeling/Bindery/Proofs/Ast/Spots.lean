import Bindery.Proofs.Ast.Nodes
import Bindery.Problem

/-!
# Where jumps, spawns and declarations stand

Some nodes of a syntax tree are allowed in some places only. A `Spot` is such a node with what is
around it, and `spots` lists those of a tree in the order in which binding meets them. A declaration
below the top level is one of them, and what is inside it is not looked at.
-/

namespace Bindery.Ast

/-- What may be around a node: the body of a loop, a lambda, a function or a `scope`. -/
inductive Enclosure where
  | loop
  | lambda
  | fn
  | scope
deriving DecidableEq

/-- A node, and what is around it from the inside out. -/
structure Spot where
  around : List Enclosure
  node : Node

namespace Enclosure

/-- Whether there is a loop around, within the nearest lambda or function. -/
def inLoop (around : List Enclosure) :
    Bool := (around.takeWhile fun e => e != .lambda && e != .fn).contains .loop

/-- Whether there is a function or a lambda around. -/
def inFn (around : List Enclosure) : Bool := around.contains .fn || around.contains .lambda

/-- Whether there is a `scope` around, within the function. -/
def inScope (around : List Enclosure) : Bool := (around.takeWhile (· != .fn)).contains .scope

end Enclosure

/-- What is wrong with a node where it stands. -/
def Spot.problem? (spot : Spot) : Option Finding :=
  match spot.node with
  | .stmt (.breakLoop o) =>
    if Enclosure.inLoop spot.around then none else some ⟨o.range, .jumpOutsideLoop "break"⟩
  | .stmt (.continueLoop o) =>
    if Enclosure.inLoop spot.around then none else some ⟨o.range, .jumpOutsideLoop "continue"⟩
  | .stmt (.ret o _) => if Enclosure.inFn spot.around then none else some ⟨o.range, .returnOutsideFn⟩
  | .expr (.spawn o _) =>
    if Enclosure.inScope spot.around then none else some ⟨o.range, .spawnOutsideScope⟩
  | .stmt (.fn _ name ..) => some ⟨name.range, .nestedDeclaration "Function"⟩
  | .stmt (.record _ name ..) => some ⟨name.range, .nestedDeclaration "Record"⟩
  | .stmt (.sum _ name ..) => some ⟨name.range, .nestedDeclaration "Sum"⟩
  | _ => none

mutual

/-- The spots of an expression. -/
def Expr.spots (around : List Enclosure) : Expr → List Spot
  | .literal .. | .name _ | .channel .. => []
  | .binary _ _ left right | .index _ left right => left.spots around ++ right.spots around
  | .unary _ _ e | .field _ e _ | .par _ e => e.spots around
  | .call _ callee _ args => callee.spots around ++ Expr.allSpots around args
  | .lambda _ _ _ body => body.spots (.lambda :: around)
  | .record _ _ _ fields => FieldInit.allSpots around fields
  | .tuple _ es | .list _ es => Expr.allSpots around es
  | .map _ entries => MapEntry.allSpots around entries
  | .ifElse _ cond thenBranch none => cond.spots around ++ thenBranch.spots around
  | .ifElse _ cond thenBranch (some elseBranch) =>
    cond.spots around ++ (thenBranch.spots around ++ elseBranch.spots around)
  | .block b => b.spots around
  | .matchOn _ scrutinee arms => scrutinee.spots around ++ Arm.allSpots around arms
  | .spawn o body => ⟨around, .expr (.spawn o body)⟩ :: body.spots around
  | .scope _ body => body.spots (.scope :: around)

/-- The spots of expressions. -/
def Expr.allSpots (around : List Enclosure) : List Expr → List Spot
  | [] => []
  | e :: es => e.spots around ++ Expr.allSpots around es

/-- The spots of the entries of a map. -/
def MapEntry.allSpots (around : List Enclosure) : List MapEntry → List Spot
  | [] => []
  | ⟨_, key, value⟩ :: entries =>
    key.spots around ++ (value.spots around ++ MapEntry.allSpots around entries)

/-- The spots of the fields of a record expression. -/
def FieldInit.allSpots (around : List Enclosure) : List FieldInit → List Spot
  | [] => []
  | ⟨_, _, value⟩ :: fields => value.spots around ++ FieldInit.allSpots around fields

/-- The spots of the arms of a match. -/
def Arm.allSpots (around : List Enclosure) : List Arm → List Spot
  | [] => []
  | ⟨_, _, body⟩ :: arms => body.spots around ++ Arm.allSpots around arms

/-- The spots of a block. -/
def Block.spots (around : List Enclosure) : Block → List Spot
  | ⟨_, stmts⟩ => Stmt.allSpots around stmts

/-- The spots of a statement that is not at the top level, or no declaration. The value of a
`return` is bound before the `return` itself, and the condition of a loop is outside its body. -/
def Stmt.spots (around : List Enclosure) : Stmt → List Spot
  | .bindName _ _ _ _ e | .assign _ _ e | .expr _ e | .print _ e => e.spots around
  | .ret o none => [⟨around, .stmt (.ret o none)⟩]
  | .ret o (some value) => value.spots around ++ [⟨around, .stmt (.ret o (some value))⟩]
  | .block b => b.spots around
  | .whileLoop _ e body | .forLoop _ _ e body => e.spots around ++ body.spots (.loop :: around)
  | .breakLoop o => [⟨around, .stmt (.breakLoop o)⟩]
  | .continueLoop o => [⟨around, .stmt (.continueLoop o)⟩]
  | .fn o name tyParams params ret body => [⟨around, .stmt (.fn o name tyParams params ret body)⟩]
  | .record o name tyParams fields => [⟨around, .stmt (.record o name tyParams fields)⟩]
  | .sum o name tyParams variants => [⟨around, .stmt (.sum o name tyParams variants)⟩]

/-- The spots of statements. -/
def Stmt.allSpots (around : List Enclosure) : List Stmt → List Spot
  | [] => []
  | s :: ss => s.spots around ++ Stmt.allSpots around ss

end

/-- The spots inside a declaration at the top level: those of the body of a function. -/
def Stmt.bodySpots : Stmt → List Spot
  | .fn _ _ _ _ _ body => body.spots [.fn]
  | _ => []

/-- The spots of a file: the bodies of the functions first, then the other statements. -/
def SourceFile.spots (file : SourceFile) : List Spot :=
  file.stmts.flatMap Stmt.bodySpots ++ Stmt.allSpots [] (file.stmts.filter fun s => !s.isDeclaration)

end Bindery.Ast
