import Bindery.Interner
import Bindery.Ast.Tree

/-!
# Building syntax trees

A `Builder` makes trees without a source text. It hands out slots, consecutive numbers from 0: every
node and every written name takes the next one, and a node in slot `n` gets the number `n` and the
one-byte range that starts at `n`. The numbers and the ranges are counted apart, by counters that
are natural numbers: fewer than 2 ^ 32 slots are handed out. Diagnostics on a built tree therefore
sort in the order in which the tree was built.

Each construction below takes finished children and allots the slots of the new node. The order in
which it allots them is part of its meaning: the node comes before the names written in it, except
that a call by name takes the slot of the name first, and the members of records, maps and sums come
before the node that holds them. A whole file takes one slot too, and its range reaches from 0 to
the number of slots used before it.
-/

namespace Bindery.Ast

/-- Where the next node is, its number, and the names written so far. -/
structure Builder where
  cursor : Nat
  nextId : Nat
  interner : Interner
deriving Inhabited

/-- A construction: it takes slots from a builder. -/
abbrev Build := StateM Builder

namespace Builder

/-- The builder that has handed out no slot. -/
def empty : Builder := ⟨0, 0, .empty⟩

/-- Takes the next slot. -/
def origin : Build Origin := fun b =>
  (⟨.single b.cursor, b.nextId, true⟩, { b with cursor := b.cursor + 1, nextId := b.nextId + 1 })

/-- A name in the next slot. -/
def name (text : String) : Build Name := do
  let o ← origin
  modify fun b => { b with interner := (b.interner.intern text).2 }
  return ⟨o, text⟩

/-- Names in consecutive slots. -/
def names : List String → Build (List Name)
  | [] => pure []
  | n :: ns => do
    let n ← name n
    let ns ← names ns
    return n :: ns

/-! ## Types -/

/-- A named type with its arguments. -/
def namedType (text : String) (args : List TyExpr) : Build TyExpr := do
  let o ← origin
  let n ← name text
  return .named o n args

/-- A function type. -/
def fnType (params : List TyExpr) (ret : TyExpr) : Build TyExpr := do
  return .fn (← origin) params ret

/-- A tuple type. -/
def tupleType (elems : List TyExpr) : Build TyExpr := do
  return .tuple (← origin) elems

/-! ## Expressions -/

/-- A constant. -/
def literal (value : Literal) : Build Expr := do
  return .literal (← origin) value

/-- A name used as an expression. -/
def nameExpr (text : String) : Build Expr := do
  return .name (← name text)

/-- An operator between two operands, `left op right`. -/
def binary (op : BinaryOp) (left right : Expr) : Build Expr := do
  return .binary (← origin) op left right

/-- An operator before its operand, `op operand`. -/
def unary (op : UnaryOp) (operand : Expr) : Build Expr := do
  return .unary (← origin) op operand

/-- The call `callee<tyArgs>(args)` with any expression as the callee. -/
def callValue (callee : Expr) (tyArgs : List TyExpr) (args : List Expr) : Build Expr := do
  return .call (← origin) callee tyArgs args

/-- The call `text<tyArgs>(args)` by name; the name of the callee takes its slot before the call. -/
def callName (text : String) (tyArgs : List TyExpr) (args : List Expr) : Build Expr := do
  let callee ← nameExpr text
  callValue callee tyArgs args

/-- A parameter. -/
def param (text : String) (annot : TyExpr) : Build Param := do
  let o ← origin
  let n ← name text
  return ⟨o, n, annot⟩

/-- The function value `fn(params) => body`. -/
def lambda (params : List Param) (ret : Option TyExpr) (body : Expr) : Build Expr := do
  return .lambda (← origin) params ret body

/-- The initialisers of a record expression. -/
def fieldInits : List (String × Expr) → Build (List FieldInit)
  | [] => pure []
  | (text, value) :: fields => do
    let o ← origin
    let n ← name text
    let rest ← fieldInits fields
    return ⟨o, n, value⟩ :: rest

/-- The record value `type<tyArgs> { fields }`. -/
def record (type : String) (tyArgs : List TyExpr) (fields : List (String × Expr)) :
    Build Expr := do
  let fields ← fieldInits fields
  let o ← origin
  let n ← name type
  return .record o n tyArgs fields

/-- The field access `target.text`. -/
def field (target : Expr) (text : String) : Build Expr := do
  let o ← origin
  let n ← name text
  return .field o target n

/-- The tuple `(elems)`. -/
def tuple (elems : List Expr) : Build Expr := do
  return .tuple (← origin) elems

/-- The list `[elems]`. -/
def list (elems : List Expr) : Build Expr := do
  return .list (← origin) elems

/-- The entries of a map expression. -/
def mapEntries : List (Expr × Expr) → Build (List MapEntry)
  | [] => pure []
  | (key, value) :: entries => do
    let o ← origin
    let rest ← mapEntries entries
    return ⟨o, key, value⟩ :: rest

/-- The map `{ key: value, ... }`. -/
def map (entries : List (Expr × Expr)) : Build Expr := do
  let entries ← mapEntries entries
  return .map (← origin) entries

/-- The element access `target[index]`. -/
def index (target index : Expr) : Build Expr := do
  return .index (← origin) target index

/-- A block of statements. -/
def block (stmts : List Stmt) : Build Block := do
  return ⟨← origin, stmts⟩

/-- The conditional `if cond { thenBranch } else elseBranch`. -/
def ifElse (cond : Expr) (thenBranch : List Stmt) (elseBranch : Option Expr) : Build Expr := do
  let o ← origin
  let body ← block thenBranch
  return .ifElse o cond body elseBranch

/-- A block used as an expression. -/
def blockExpr (stmts : List Stmt) : Build Expr := do
  return .block (← block stmts)

/-- One arm of a match. -/
def arm (pattern : Pattern) (body : Expr) : Build Arm := do
  return ⟨← origin, pattern, body⟩

/-- The choice `match scrutinee { arms }`. -/
def matchOn (scrutinee : Expr) (arms : List Arm) : Build Expr := do
  return .matchOn (← origin) scrutinee arms

/-- The task `spawn { body }`. -/
def spawn (body : List Stmt) : Build Expr := do
  let o ← origin
  let body ← block body
  return .spawn o body

/-- The task scope `scope { body }`. -/
def scope (body : List Stmt) : Build Expr := do
  let o ← origin
  let body ← block body
  return .scope o body

/-- The new channel `channel<element>()`. -/
def channel (element : TyExpr) : Build Expr := do
  return .channel (← origin) element

/-- The parallel evaluation `par inner`. -/
def par (inner : Expr) : Build Expr := do
  return .par (← origin) inner

/-! ## Patterns -/

/-- A constant as a pattern. -/
def literalPattern (value : Literal) : Build Pattern := do
  return .literal (← origin) value

/-- The pattern `_`. -/
def wildcard : Build Pattern := do
  return .wildcard (← origin)

/-- A bare name as a pattern. -/
def namePattern (text : String) : Build Pattern := do
  return .name (← name text)

/-- The tuple pattern `(elems)`. -/
def tuplePattern (elems : List Pattern) : Build Pattern := do
  return .tuple (← origin) elems

/-- The variant pattern `text(payload)`, or `text` alone. -/
def variantPattern (text : String) (payload : Option Pattern) : Build Pattern := do
  let o ← origin
  let n ← name text
  return .variant o n payload

/-! ## Statements -/

/-- The declaration `let [mut] text [: annot] = init`. -/
def bindName (text : String) (isMutable : Bool) (annot : Option TyExpr) (init : Expr) :
    Build Stmt := do
  let o ← origin
  let n ← name text
  return .bindName o n isMutable annot init

/-- The assignment `text = value`. -/
def assign (text : String) (value : Expr) : Build Stmt := do
  let o ← origin
  let n ← name text
  return .assign o n value

/-- An expression as a statement. -/
def exprStmt (value : Expr) : Build Stmt := do
  return .expr (← origin) value

/-- The statement `print value`. -/
def print (value : Expr) : Build Stmt := do
  return .print (← origin) value

/-- The statement `return [value]`. -/
def ret (value : Option Expr) : Build Stmt := do
  return .ret (← origin) value

/-- A block as a statement. -/
def blockStmt (stmts : List Stmt) : Build Stmt := do
  return .block (← block stmts)

/-- The loop `while cond { body }`. -/
def whileLoop (cond : Expr) (body : List Stmt) : Build Stmt := do
  let o ← origin
  let body ← block body
  return .whileLoop o cond body

/-- The loop `for text in iterable { body }`. -/
def forLoop (text : String) (iterable : Expr) (body : List Stmt) : Build Stmt := do
  let o ← origin
  let n ← name text
  let body ← block body
  return .forLoop o n iterable body

/-- The statement `break`. -/
def breakLoop : Build Stmt := do
  return .breakLoop (← origin)

/-- The statement `continue`. -/
def continueLoop : Build Stmt := do
  return .continueLoop (← origin)

/-- The declaration `fn text<tyParams>(params) -> ret { body }`. -/
def fn (text : String) (tyParams : List String) (params : List Param)
    (ret : Option TyExpr) (body : List Stmt) : Build Stmt := do
  let o ← origin
  let n ← name text
  let tyParams ← names tyParams
  let body ← block body
  return .fn o n tyParams params ret body

/-- The fields of a record declaration. -/
def fieldDecls : List (String × TyExpr) → Build (List FieldDecl)
  | [] => pure []
  | (text, annot) :: fields => do
    let o ← origin
    let n ← name text
    let rest ← fieldDecls fields
    return ⟨o, n, annot⟩ :: rest

/-- The record declaration `type text<tyParams> { fields }`. -/
def recordDecl (text : String) (tyParams : List String) (fields : List (String × TyExpr)) :
    Build Stmt := do
  let fields ← fieldDecls fields
  let o ← origin
  let n ← name text
  let tyParams ← names tyParams
  return .record o n tyParams fields

/-- The variants of a sum declaration. -/
def variantDecls : List (String × Option TyExpr) → Build (List VariantDecl)
  | [] => pure []
  | (text, payload) :: variants => do
    let o ← origin
    let n ← name text
    let rest ← variantDecls variants
    return ⟨o, n, payload⟩ :: rest

/-- The sum declaration `type text<tyParams> { variants }`. -/
def sumDecl (text : String) (tyParams : List String)
    (variants : List (String × Option TyExpr)) : Build Stmt := do
  let variants ← variantDecls variants
  let o ← origin
  let n ← name text
  let tyParams ← names tyParams
  return .sum o n tyParams variants

/-! ## Files -/

/-- A whole file. The caller names the tree; no other tree may have that name. -/
def finish (id : TreeId) (fileName text : String) (stmts : List Stmt) : Build SourceFile := do
  let used := (← get).cursor
  let o ← origin
  return ⟨id, { o with range := ⟨0, used⟩ }, stmts, fileName, text⟩

end Builder

/-! ## Flags of a node -/

/-- The bit set on a `let mut`. -/
def mutableFlag : Nat := 1

/-- The bit set on a node that was built by a program. -/
def synthesizedFlag : Nat := 2

/-- The flags of a statement as a sum of bits. -/
def Stmt.flagBits : Stmt → Nat
  | .bindName o _ isMutable .. =>
    (if isMutable then mutableFlag else 0) + (if o.synthesized then synthesizedFlag else 0)
  | .assign o .. | .expr o _ | .print o _ | .ret o _ | .whileLoop o .. | .forLoop o ..
  | .breakLoop o | .continueLoop o | .fn o .. | .record o .. | .sum o .. =>
    if o.synthesized then synthesizedFlag else 0
  | .block b => if b.origin.synthesized then synthesizedFlag else 0

end Bindery.Ast
