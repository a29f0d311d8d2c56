import Bindery.Ast.Tree
import Bindery.Symbol

/-!
# A resolver of names

A reference resolver that knows nothing of types and keeps no scopes. It carries the frames around
the place it stands at, each with the variables declared in it so far. Inside a block, a function, a
lambda, a `for` or an arm there is one frame more, and what follows is resolved without it. A name
is looked up among the variables in the frames, then among the functions, then among the variants.

Two things come from outside. Functions and variants are given as tables (`Globals`). And which
names of a pattern are variables depends on the type of the matched value, so the variables of the
patterns are given in the order in which the arms stand (`Progress.patterns`). A declaration is
known by its number: functions and variants by the number their table gives, variables by counting
on from `Progress.next`.
-/

namespace Bindery.Resolver

/-- What a name stands for, by its number. -/
inductive Declaration where
  | var (id : SymId)
  | fn (id : SymId)
  | variant (id : SymId)
deriving DecidableEq, Inhabited

/-- How a name is used: for its value, as what is called, or as what is assigned. -/
inductive Role where
  | value
  | callee
  | target
deriving DecidableEq, Inhabited

/-- A use of a name and what it stands for, if anything. -/
structure Occurrence where
  role : Role
  name : Ast.Name
  declaration : Option Declaration

/-! ## What is in sight -/

/-- The variables of each frame, the innermost frame first. -/
abbrev Env := List (List (String × SymId))

namespace Env

/-- The variable that a name stands for. -/
def lookup (env : Env) (name : String) : Option SymId := env.findSome? (List.lookup name)

/-- With one frame more. -/
def opened (env : Env) : Env := [] :: env

/-- With a variable in the innermost frame, unless that has one of this name. -/
def declare : Env → String → SymId → Env
  | [], _, _ => []
  | frame :: frames, name, id =>
    (if (frame.lookup name).isSome then frame else (name, id) :: frame) :: frames

/-- The variable that a name stands for, as a declaration. -/
def declared? (env : Env) (name : String) : Option Declaration := (env.lookup name).map .var

end Env

/-- The functions and variants of a file by name. -/
structure Globals where
  fn? : String → Option SymId
  variant? : String → Option SymId

namespace Globals

/-- The function, else the variant, that a name stands for. -/
def declaration? (g : Globals) (name : String) : Option Declaration :=
  ((g.fn? name).map .fn).or ((g.variant? name).map .variant)

end Globals

/-! ## Resolving -/

/-- The number of the next variable, the variables of the patterns to come, and the occurrences met
so far. -/
structure Progress where
  next : SymId
  patterns : List (List String)
  occurrences : List Occurrence

/-- A part of resolving a file. -/
abbrev Resolving := StateM Progress

/-- Notes an occurrence of a name. -/
def refer (role : Role) (name : Ast.Name) (declaration : Option Declaration) : Resolving Unit :=
  modify fun n => { n with occurrences := n.occurrences ++ [⟨role, name, declaration⟩] }

/-- Declares a variable in the innermost frame. It is counted even if the frame has one of this
name. -/
def declare (env : Env) (name : String) : Resolving Env :=
  modifyGet fun n => (env.declare name n.next, { n with next := n.next + 1 })

/-- Declares variables one after another. -/
def declareAll (env : Env) : List String → Resolving Env
  | [] => pure env
  | name :: names => do
    let env ← declare env name
    declareAll env names

/-- The variables of the next pattern. -/
def nextPattern : Resolving (List String) :=
  modifyGet fun n => (n.patterns.headD [], { n with patterns := n.patterns.tail })

/-- A name that is used for its value: a variable, else a function, else a variant. -/
def resolveName (g : Globals) (env : Env) (name : Ast.Name) : Resolving Unit :=
  refer .value name ((env.declared? name.text).or (g.declaration? name.text))

/-- A name that is called: the value of a variable, else a function, else a variant. -/
def resolveCalled (g : Globals) (env : Env) (name : Ast.Name) : Resolving Unit :=
  match env.declared? name.text with
  | some d => refer .value name (some d)
  | none => refer .callee name (g.declaration? name.text)

mutual

/-- Resolves the names of an expression. -/
def resolveExpr (g : Globals) (env : Env) : Ast.Expr → Resolving Unit
  | .literal .. | .channel .. => pure ()
  | .name name => resolveName g env name
  | .binary _ _ left right | .index _ left right => do
    resolveExpr g env left
    resolveExpr g env right
  | .unary _ _ e | .field _ e _ | .par _ e => resolveExpr g env e
  | .call _ (.name name) _ args => do
    resolveCalled g env name
    resolveExprs g env args
  | .call _ callee _ args => do
    resolveExpr g env callee
    resolveExprs g env args
  | .lambda _ params _ body => do
    let inner ← declareAll env.opened (params.map (·.name.text))
    resolveExpr g inner body
  | .record _ _ _ fields => resolveFields g env fields
  | .tuple _ es | .list _ es => resolveExprs g env es
  | .map _ entries => resolveEntries g env entries
  | .ifElse _ cond thenBranch none => do
    resolveExpr g env cond
    resolveBlock g env thenBranch
  | .ifElse _ cond thenBranch (some elseBranch) => do
    resolveExpr g env cond
    resolveBlock g env thenBranch
    resolveExpr g env elseBranch
  | .block b | .spawn _ b | .scope _ b => resolveBlock g env b
  | .matchOn _ scrutinee arms => do
    resolveExpr g env scrutinee
    resolveArms g env arms

/-- Resolves the names of expressions. -/
def resolveExprs (g : Globals) (env : Env) : List Ast.Expr → Resolving Unit
  | [] => pure ()
  | e :: es => do
    resolveExpr g env e
    resolveExprs g env es

/-- Resolves the names of the entries of a map. -/
def resolveEntries (g : Globals) (env : Env) : List Ast.MapEntry → Resolving Unit
  | [] => pure ()
  | ⟨_, key, value⟩ :: entries => do
    resolveExpr g env key
    resolveExpr g env value
    resolveEntries g env entries

/-- Resolves the names of the fields of a record expression. -/
def resolveFields (g : Globals) (env : Env) : List Ast.FieldInit → Resolving Unit
  | [] => pure ()
  | ⟨_, _, value⟩ :: fields => do
    resolveExpr g env value
    resolveFields g env fields

/-- Resolves the names of the arms of a match, each in a frame with the variables of its pattern. -/
def resolveArms (g : Globals) (env : Env) : List Ast.Arm → Resolving Unit
  | [] => pure ()
  | ⟨_, _, body⟩ :: arms => do
    let names ← nextPattern
    let inner ← declareAll env.opened names
    resolveExpr g inner body
    resolveArms g env arms

/-- Resolves the names of a block in a frame of its own. -/
def resolveBlock (g : Globals) (env : Env) : Ast.Block → Resolving Unit
  | ⟨_, stmts⟩ => do
    let _ ← resolveStmts g env.opened stmts

/-- Resolves the names of statements, each of which sees what those before it have declared. -/
def resolveStmts (g : Globals) (env : Env) : List Ast.Stmt → Resolving Env
  | [] => pure env
  | stmt :: stmts => do
    let env ← resolveStmt g env stmt
    resolveStmts g env stmts

/-- Resolves the names of a statement and gives what is in sight behind it. A `let` is declared once
its value is resolved. -/
def resolveStmt (g : Globals) (env : Env) : Ast.Stmt → Resolving Env
  | .bindName _ name _ _ init => do
    resolveExpr g env init
    declare env name.text
  | .assign _ name value => do
    resolveExpr g env value
    refer .target name (env.declared? name.text)
    return env
  | .expr _ value | .print _ value | .ret _ (some value) => do
    resolveExpr g env value
    return env
  | .block b => do
    resolveBlock g env b
    return env
  | .whileLoop _ cond body => do
    resolveExpr g env cond
    resolveBlock g env body
    return env
  | .forLoop _ item iterable body => do
    resolveExpr g env iterable
    let inner ← declare env.opened item.text
    resolveBlock g inner body
    return env
  | .ret _ none | .breakLoop _ | .continueLoop _ | .fn .. | .record .. | .sum .. => pure env

end

/-- Resolves the names of the body of a function in a frame with its parameters. -/
def resolveFn (g : Globals) (env : Env) (params : List Ast.Param) (body : Ast.Block) :
    Resolving Unit := do
  let inner ← declareAll env.opened (params.map (·.name.text))
  let _ ← resolveStmts g inner body.stmts

/-- Resolves the names of the bodies of functions. No variable of the file is in sight there. -/
def resolveFns (g : Globals) : List Ast.Stmt → Resolving Unit
  | [] => pure ()
  | .fn _ _ _ params _ body :: stmts => do
    resolveFn g [[]] params body
    resolveFns g stmts
  | _ :: stmts => resolveFns g stmts

/-- Resolves the names of a file: the functions first, then the other statements. -/
def resolveFile (g : Globals) (stmts : List Ast.Stmt) : Resolving Unit := do
  resolveFns g stmts
  let _ ← resolveStmts g [[]] (stmts.filter fun s => !s.isDeclaration)

end Bindery.Resolver
