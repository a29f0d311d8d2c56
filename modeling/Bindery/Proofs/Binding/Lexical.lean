import Bindery.Proofs.Binding.Tree

/-!
# References by lexical scope

Which variable a name stands for follows from the syntax tree alone: the innermost scope around the
name in which it was declared before, the first declaration of a name in a scope being the one that
counts. A walk through a tree lists the references it meets, each with the variable it stands for
and with the number of lambdas around the declaration and around the reference.

Only one thing is not read off the tree. Whether a name in a pattern is a variable or a variant
depends on the type of the matched value, so a walk is told the tables of names that binding has
made. The scopes are counted in the order in which a walk meets them.
-/

namespace Bindery.Lexical

/-- A variable: whether it may be assigned, and how many lambdas are around its declaration. -/
structure Variable where
  isMutable : Bool
  depth : Nat
deriving DecidableEq

/-- The variables in sight: those of each scope, innermost first, and how many lambdas are
around. -/
structure Env where
  frames : List (List (String × Variable))
  depth : Nat

namespace Env

/-- Outside every function and block. -/
def root : Env := ⟨[[]], 0⟩

/-- The variable that a name stands for. -/
def lookup (env : Env) (name : String) : Option Variable := env.frames.findSome? (List.lookup name)

/-- Inside a new scope. -/
def opened (env : Env) : Env := ⟨[] :: env.frames, env.depth⟩

/-- Inside the scope of a new lambda. -/
def entered (env : Env) : Env := ⟨[] :: env.frames, env.depth + 1⟩

/-- Declares a variable in the innermost scope, unless it has one of that name. -/
def declare (isMutable : Bool) (env : Env) (name : String) : Env :=
  match env.frames with
  | [] => env
  | frame :: frames =>
    if (frame.lookup name).isSome then env
    else ⟨((name, ⟨isMutable, env.depth⟩) :: frame) :: frames, env.depth⟩

/-- Declares parameters or the variables of a pattern. -/
def declareAll (env : Env) (names : List String) : Env := names.foldl (declare false) env

/-- The variables in sight after a statement. -/
def after (env : Env) : Ast.Stmt → Env
  | .bindName _ name isMutable _ _ => env.declare isMutable name.text
  | _ => env

theorem declare_mk (isMutable : Bool) (frame : List (String × Variable))
    (frames : List (List (String × Variable))) (depth : Nat) (name : String) :
    declare isMutable ⟨frame :: frames, depth⟩ name =
      ⟨(if (frame.lookup name).isSome then frame else (name, ⟨isMutable, depth⟩) :: frame)
      :: frames, depth⟩ := by
  show (if (frame.lookup name).isSome then _ else _) = _
  split <;> rfl

/-- Declaring several names adds those that are new to the innermost frame. -/
theorem exists_declareAll (names : List String) (frame : List (String × Variable))
    (frames : List (List (String × Variable))) (depth : Nat) :
    ∃ frame', declareAll ⟨frame :: frames, depth⟩ names = ⟨frame' :: frames, depth⟩ ∧
      ∀ x, frame'.lookup x = (frame.lookup x).or
        (if x ∈ names then some ⟨false, depth⟩ else none) := by
  induction names generalizing frame with
  | nil => exact ⟨frame, rfl, by simp⟩
  | cons name names ih =>
    have hcons : declareAll ⟨frame :: frames, depth⟩ (name :: names) =
        (declare false ⟨frame :: frames, depth⟩ name).declareAll names := rfl
    rw [hcons, declare_mk]
    obtain ⟨frame', hframe', hlookup⟩ :=
      ih (if (frame.lookup name).isSome then frame else (name, ⟨false, depth⟩) :: frame)
    refine ⟨frame', hframe', fun x => ?_⟩
    rw [hlookup]
    split
    · next htaken =>
      by_cases hx : x = name
      · obtain ⟨v, hv⟩ := Option.isSome_iff_exists.mp htaken
        simp [hx, hv]
      · simp [hx]
    · next hfree =>
      rw [List.lookup_cons]
      by_cases hx : x = name
      · have hnone : frame.lookup name = none := Option.not_isSome_iff_eq_none.mp hfree
        simp [hx, hnone]
      · simp [hx, beq_false_of_ne hx]

end Env

/-- A name that stands for a variable, and how many lambdas are around the name. -/
structure Mention where
  name : Ast.Name
  target : Variable
  depth : Nat

/-- Whether a mutable variable is declared outside a lambda that contains the reference. -/
def Mention.isMutableCapture (r : Mention) :
    Bool := r.target.isMutable && decide (r.target.depth < r.depth)

/-- What is found at a mutable capture. -/
def Mention.finding (r : Mention) : Finding := ⟨r.name.range, .mutableCapture r.name.text⟩

/-- The references that a walk has met, and the number of the next scope. -/
structure Trail where
  mentions : List Mention
  next : Nat

/-- A walk through a tree, from the number of the next scope. -/
def Walk := Nat → Trail

namespace Walk

/-- Nothing is met. -/
def nothing : Walk := fun n => ⟨[], n⟩

/-- One walk after another. -/
def andThen (w w' : Walk) : Walk := fun n =>
  ⟨(w n).mentions ++ (w' (w n).next).mentions, (w' (w n).next).next⟩

/-- A walk through a new scope. -/
def inScope (w : Nat → Walk) : Walk := fun n => w n (n + 1)

/-- Meets a name. -/
def refer (env : Env) (name : Ast.Name) : Walk := fun n =>
  ⟨((env.lookup name.text).map fun target => ⟨name, target, env.depth⟩).toList, n⟩

theorem refer_of_none {env : Env} {name : Ast.Name} (h : env.lookup name.text = none) :
    refer env name = nothing := by
  funext n
  simp [refer, h, nothing]

@[simp]
theorem andThen_nothing (w : Walk) : w.andThen nothing = w := by
  funext n
  simp [andThen, nothing]

end Walk

open Walk

/-- The variables of a pattern: those identifiers that the scope declares. -/
def patternVars (a : Scopes) (scope : Nat) (p : Ast.Pattern) : List String :=
  p.identifiers.filter fun name => ((a.get? scope).map (·.varNames.contains name)).getD false

mutual

/-- Walks through an expression. -/
def walkExpr (a : Scopes) (env : Env) : Ast.Expr → Walk
  | .literal .. | .channel .. => nothing
  | .name name => refer env name
  | .binary _ _ left right | .index _ left right =>
    (walkExpr a env left).andThen (walkExpr a env right)
  | .unary _ _ e | .field _ e _ | .par _ e => walkExpr a env e
  | .call _ callee _ args => (walkExpr a env callee).andThen (walkExprs a env args)
  | .lambda _ params _ body =>
    inScope fun _ => walkExpr a (env.entered.declareAll (params.map (·.name.text))) body
  | .record _ _ _ fields => walkFields a env fields
  | .tuple _ es | .list _ es => walkExprs a env es
  | .map _ entries => walkEntries a env entries
  | .ifElse _ cond thenBranch none => (walkExpr a env cond).andThen (walkBlock a env thenBranch)
  | .ifElse _ cond thenBranch (some elseBranch) =>
    (walkExpr a env cond).andThen ((walkBlock a env thenBranch).andThen (walkExpr a env elseBranch))
  | .block b | .spawn _ b | .scope _ b => walkBlock a env b
  | .matchOn _ scrutinee arms => (walkExpr a env scrutinee).andThen (walkArms a env arms)

/-- Walks through expressions. -/
def walkExprs (a : Scopes) (env : Env) : List Ast.Expr → Walk
  | [] => nothing
  | e :: es => (walkExpr a env e).andThen (walkExprs a env es)

/-- Walks through the entries of a map. -/
def walkEntries (a : Scopes) (env : Env) : List Ast.MapEntry → Walk
  | [] => nothing
  | ⟨_, key, value⟩ :: entries =>
    (walkExpr a env key).andThen ((walkExpr a env value).andThen (walkEntries a env entries))

/-- Walks through the fields of a record expression. -/
def walkFields (a : Scopes) (env : Env) : List Ast.FieldInit → Walk
  | [] => nothing
  | ⟨_, _, value⟩ :: fields => (walkExpr a env value).andThen (walkFields a env fields)

/-- Walks through the arms of a match, each in a scope with the variables of its pattern. -/
def walkArms (a : Scopes) (env : Env) : List Ast.Arm → Walk
  | [] => nothing
  | ⟨_, pattern, body⟩ :: arms =>
    (inScope fun scope => walkExpr a (env.opened.declareAll (patternVars a scope pattern))
      body).andThen
      (walkArms a env arms)

/-- Walks through a block in a scope of its own. -/
def walkBlock (a : Scopes) (env : Env) : Ast.Block → Walk
  | ⟨_, stmts⟩ => inScope fun _ => walkStmts a env.opened stmts

/-- Walks through statements, each of which sees what those before it have declared. -/
def walkStmts (a : Scopes) (env : Env) : List Ast.Stmt → Walk
  | [] => nothing
  | stmt :: stmts => (walkStmt a env stmt).andThen (walkStmts a (env.after stmt) stmts)

/-- Walks through a statement. -/
def walkStmt (a : Scopes) (env : Env) : Ast.Stmt → Walk
  | .bindName _ _ _ _ init => walkExpr a env init
  | .assign _ name value => (refer env name).andThen (walkExpr a env value)
  | .expr _ value | .print _ value | .ret _ (some value) => walkExpr a env value
  | .block b => walkBlock a env b
  | .whileLoop _ cond body => (walkExpr a env cond).andThen (walkBlock a env body)
  | .forLoop _ item iterable body =>
    (walkExpr a env iterable).andThen
      (inScope fun _ => walkBlock a (env.opened.declare false item.text) body)
  | .ret _ none | .breakLoop _ | .continueLoop _ | .fn .. | .record .. | .sum .. => nothing

end

/-- Walks through the bodies of the functions among the statements. -/
def walkFns (a : Scopes) : List Ast.Stmt → Walk
  | [] => nothing
  | .fn _ _ _ params _ body :: stmts =>
    (inScope fun _ => walkStmts a (Env.root.opened.declareAll (params.map (·.name.text)))
      body.stmts).andThen (walkFns a stmts)
  | _ :: stmts => walkFns a stmts

/-- Walks through a file: the functions first, then the other statements. -/
def walkFile (a : Scopes) (stmts : List Ast.Stmt) : Walk :=
  (walkFns a stmts).andThen (walkStmts a .root (stmts.filter fun s => !s.isDeclaration))

/-- The references of a file to mutable variables that a lambda around them would have to
capture. -/
def mutableCaptures (a : Scopes) (stmts : List Ast.Stmt) : List Mention :=
  (walkFile a stmts 1).mentions.filter Mention.isMutableCapture

end Bindery.Lexical
