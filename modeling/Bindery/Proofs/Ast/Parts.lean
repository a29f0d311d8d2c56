import Mathlib.Data.Set.Defs
import Bindery.Ast.Tree

/-!
# The parts of a syntax tree

`parts` lists everything of a syntax tree that has a place of its own: its nodes and the names
written in it. Binding reads no name that is not among them, and reports on no other place.
-/

namespace Bindery.Ast

/-- A node of a syntax tree, or a name written in it. A name that is a whole expression or pattern
is listed as a name. -/
inductive Part where
  | node (origin : Origin)
  | name (name : Name)

/-- The part is no name, or a name of the set. -/
def Part.Among (names : Set String) : Part → Prop
  | .node _ => True
  | .name n => n.text ∈ names

/-- All names among the parts are in the set. -/
def AllAmong (names : Set String) (parts : List Part) : Prop := ∀ part ∈ parts, part.Among names

namespace AllAmong

variable {names : Set String} {part : Part} {parts parts' : List Part}

theorem head {n : Name} (h : AllAmong names (.name n :: parts)) : n.text ∈ names :=
  h (.name n) List.mem_cons_self

theorem tail (h : AllAmong names (part :: parts)) : AllAmong names parts :=
  (List.forall_mem_cons.mp h).2

theorem left (h : AllAmong names (parts ++ parts')) : AllAmong names parts :=
  (List.forall_mem_append.mp h).1

theorem right (h : AllAmong names (parts ++ parts')) : AllAmong names parts' :=
  (List.forall_mem_append.mp h).2

end AllAmong

mutual

/-- The parts of a written type. -/
def TyExpr.parts : TyExpr → List Part
  | .named origin name args => .node origin :: .name name :: TyExpr.allParts args
  | .fn origin params ret => .node origin :: (TyExpr.allParts params ++ ret.parts)
  | .tuple origin elems => .node origin :: TyExpr.allParts elems

/-- The parts of written types. -/
def TyExpr.allParts : List TyExpr → List Part
  | [] => []
  | t :: ts => t.parts ++ TyExpr.allParts ts

end

/-- The parts of a type that may be left out. -/
def TyExpr.optionParts : Option TyExpr → List Part
  | none => []
  | some t => t.parts

mutual

/-- The parts of a pattern. -/
def Pattern.parts : Pattern → List Part
  | .literal origin _ => [.node origin]
  | .wildcard origin => [.node origin]
  | .name n => [.name n]
  | .tuple origin elems => .node origin :: Pattern.allParts elems
  | .variant origin n none => [.node origin, .name n]
  | .variant origin n (some payload) => .node origin :: .name n :: payload.parts

/-- The parts of patterns. -/
def Pattern.allParts : List Pattern → List Part
  | [] => []
  | p :: ps => p.parts ++ Pattern.allParts ps

end

/-- The parts of a parameter. -/
def Param.parts (p : Param) : List Part := .node p.origin :: .name p.name :: p.annot.parts

/-- The names of parameters are among the names of their parts. -/
theorem Param.among_zip {names : Set String} {params : List Param} {tys : List Ty}
    (h : AllAmong names (params.flatMap Param.parts)) :
    ∀ entry ∈ (params.map Param.name).zip tys, entry.1.text ∈ names := by
  intro entry hentry
  obtain ⟨p, hp, hname⟩ := List.mem_map.mp (List.of_mem_zip hentry).1
  have := h (.name p.name) (List.mem_flatMap.mpr ⟨p, hp, by simp [Param.parts]⟩)
  rwa [hname] at this

/-- The parts of the declaration of a field. -/
def FieldDecl.parts (d : FieldDecl) : List Part := .node d.origin :: .name d.name :: d.annot.parts

/-- The parts of the declaration of a variant. -/
def VariantDecl.parts (d : VariantDecl) : List Part :=
  .node d.origin :: .name d.name :: TyExpr.optionParts d.payload

mutual

/-- The parts of an expression. -/
def Expr.parts : Expr → List Part
  | .literal origin _ => [.node origin]
  | .name n => [.name n]
  | .binary origin _ left right => .node origin :: (left.parts ++ right.parts)
  | .unary origin _ operand => .node origin :: operand.parts
  | .call origin callee tyArgs args =>
    .node origin :: (callee.parts ++ TyExpr.allParts tyArgs ++ Expr.allParts args)
  | .lambda origin params ret body =>
    .node origin :: (params.flatMap Param.parts ++ TyExpr.optionParts ret ++ body.parts)
  | .record origin type tyArgs fields =>
    .node origin :: .name type :: (TyExpr.allParts tyArgs ++ FieldInit.allParts fields)
  | .field origin target n => .node origin :: .name n :: target.parts
  | .tuple origin elems => .node origin :: Expr.allParts elems
  | .list origin elems => .node origin :: Expr.allParts elems
  | .map origin entries => .node origin :: MapEntry.allParts entries
  | .index origin target index => .node origin :: (target.parts ++ index.parts)
  | .ifElse origin cond thenBranch none => .node origin :: (cond.parts ++ thenBranch.parts)
  | .ifElse origin cond thenBranch (some elseBranch) =>
    .node origin :: (cond.parts ++ thenBranch.parts ++ elseBranch.parts)
  | .block block => block.parts
  | .matchOn origin scrutinee arms => .node origin :: (scrutinee.parts ++ Arm.allParts arms)
  | .spawn origin body => .node origin :: body.parts
  | .scope origin body => .node origin :: body.parts
  | .channel origin element => .node origin :: element.parts
  | .par origin inner => .node origin :: inner.parts

/-- The parts of expressions. -/
def Expr.allParts : List Expr → List Part
  | [] => []
  | e :: es => e.parts ++ Expr.allParts es

/-- The parts of the fields of a record expression. -/
def FieldInit.allParts : List FieldInit → List Part
  | [] => []
  | ⟨origin, name, value⟩ :: fields =>
    .node origin :: .name name :: (value.parts ++ FieldInit.allParts fields)

/-- The parts of the entries of a map expression. -/
def MapEntry.allParts : List MapEntry → List Part
  | [] => []
  | ⟨origin, key, value⟩ :: entries =>
    .node origin :: (key.parts ++ value.parts ++ MapEntry.allParts entries)

/-- The parts of the arms of a match. -/
def Arm.allParts : List Arm → List Part
  | [] => []
  | ⟨origin, pattern, body⟩ :: arms =>
    .node origin :: (pattern.parts ++ body.parts ++ Arm.allParts arms)

/-- The parts of a block. -/
def Block.parts : Block → List Part
  | ⟨origin, stmts⟩ => .node origin :: Stmt.allParts stmts

/-- The parts of a statement. -/
def Stmt.parts : Stmt → List Part
  | .bindName origin name _ annot init =>
    .node origin :: .name name :: (TyExpr.optionParts annot ++ init.parts)
  | .assign origin target value => .node origin :: .name target :: value.parts
  | .expr origin value => .node origin :: value.parts
  | .print origin value => .node origin :: value.parts
  | .ret origin none => [.node origin]
  | .ret origin (some value) => .node origin :: value.parts
  | .block block => block.parts
  | .whileLoop origin cond body => .node origin :: (cond.parts ++ body.parts)
  | .forLoop origin item iterable body => .node origin :: .name item :: (iterable.parts ++ body.parts)
  | .breakLoop origin => [.node origin]
  | .continueLoop origin => [.node origin]
  | .fn origin name tyParams params ret body =>
    .node origin :: .name name ::
      (tyParams.map Part.name ++ params.flatMap Param.parts ++ TyExpr.optionParts ret ++ body.parts)
  | .record origin name tyParams fields =>
    .node origin :: .name name :: (tyParams.map Part.name ++ fields.flatMap FieldDecl.parts)
  | .sum origin name tyParams variants =>
    .node origin :: .name name :: (tyParams.map Part.name ++ variants.flatMap VariantDecl.parts)

/-- The parts of statements. -/
def Stmt.allParts : List Stmt → List Part
  | [] => []
  | s :: ss => s.parts ++ Stmt.allParts ss

end

theorem Stmt.mem_allParts {part : Part} {ss : List Stmt} :
    part ∈ Stmt.allParts ss ↔ ∃ s ∈ ss, part ∈ s.parts := by
  induction ss with
  | nil => simp [Stmt.allParts]
  | cons s ss ih => simp [Stmt.allParts, ih]

/-- The names written in a file. -/
def SourceFile.names (file : SourceFile) : List String :=
  (Stmt.allParts file.stmts).filterMap fun part =>
    match part with
    | .node _ => none
    | .name n => some n.text

/-- Every part of a file is among its names. -/
theorem SourceFile.among_names {file : SourceFile} {names : Set String}
    (h : ∀ n ∈ file.names, n ∈ names) :
    AllAmong names (Stmt.allParts file.stmts) := by
  intro part hpart
  cases part with
  | node _ => trivial
  | name name => exact h name.text (List.mem_filterMap.mpr ⟨.name name, hpart, rfl⟩)

end Bindery.Ast
