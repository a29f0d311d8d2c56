import Bindery.OrderedMap
import Bindery.Symbol

/-!
# Lexical scopes

Scopes are numbered in the order in which they are opened; scope 0 is the root. Every other scope
knows the scope it was opened in, and following these links outward gives its chain. Each scope has
two tables of names that do not see each other, one for variables and one for functions.

A name is looked up along the chain, innermost scope first. Within one scope the first declaration
of a name stands: declaring it again is refused and names the symbol that is already there.
Declaring the same name in an inner scope hides the outer one.

Names are written down in the tables under keys (`Keyed`). A name may be its own key, or be known by
the number that an interner has given it.
-/

namespace Bindery

/-- The keys under which tables know names. -/
class Keyed (κ : Type) where
  /-- The key of a name. -/
  key : String → κ

/-- A name as its own key. -/
instance : Keyed String := ⟨fun name => name⟩

/-- What opened a scope. -/
inductive ScopeKind where
  | root
  | block
  | fn
  | lambda
  | matchArm
deriving DecidableEq, Inhabited

/-- The two separate tables of names. -/
inductive NameSpace where
  | var
  | fn
deriving DecidableEq, Inhabited

/-- One scope. -/
structure Scope (κ : Type := String) where
  kind : ScopeKind
  parent : Option ScopeId
  /-- The number of scopes around this one. -/
  depth : Nat
  varNames : OrderedMap κ SymId
  fnNames : OrderedMap κ SymId
deriving Inhabited

namespace Scope

variable {κ : Type}

/-- A scope in which nothing is declared. -/
def fresh (kind : ScopeKind) (parent : Option ScopeId) (depth : Nat) : Scope κ :=
  ⟨kind, parent, depth, .empty, .empty⟩

/-- The names of one of the two tables. -/
def table (s : Scope κ) : NameSpace → OrderedMap κ SymId
  | .var => s.varNames
  | .fn => s.fnNames

/-- Adds a name to one of the two tables. -/
def addName [DecidableEq κ] (s : Scope κ) (space : NameSpace) (key : κ) (symbol : SymId) : Scope κ :=
  match space with
  | .var => { s with varNames := s.varNames.insert key symbol }
  | .fn => { s with fnNames := s.fnNames.insert key symbol }

end Scope

/-- Why a name could not be declared. -/
inductive DeclareError where
  /-- The scope already declares the name, as this symbol. -/
  | duplicate (existing : SymId)
  | noSuchScope
deriving DecidableEq, Inhabited

/-- All scopes of one bind, by number. -/
structure Scopes (κ : Type := String) where
  scopes : Array (Scope κ)
deriving Inhabited

namespace Scopes

variable {κ : Type}

/-- The number of the root scope. -/
def rootId : ScopeId := 0

/-- Only the root scope. -/
def initial : Scopes κ := ⟨#[.fresh .root none 0]⟩

/-- How many scopes there are. -/
def size (a : Scopes κ) : Nat := a.scopes.size

/-- Whether there is no scope. -/
def isEmpty (a : Scopes κ) : Bool := a.scopes.isEmpty

/-- The scope with a number. -/
def get? (a : Scopes κ) (id : ScopeId) : Option (Scope κ) := a.scopes[id]?

/-- The scope around a scope. -/
def parent? (a : Scopes κ) (id : ScopeId) : Option ScopeId := (a.get? id).bind Scope.parent

/-- The depth of a scope; 0 for one that does not exist. -/
def depth (a : Scopes κ) (id : ScopeId) : Nat := ((a.get? id).map Scope.depth).getD 0

/-- Opens a scope inside another one. -/
def push (a : Scopes κ) (parent : ScopeId) (kind : ScopeKind) : ScopeId × Scopes κ :=
  let depth := ((a.get? parent).map (·.depth + 1)).getD 0
  (a.size, ⟨a.scopes.push (.fresh kind (some parent) depth)⟩)

/-- Declares a name in a scope. -/
def declare [DecidableEq κ] [Keyed κ] (a : Scopes κ) (space : NameSpace) (scope : ScopeId)
    (name : String)
    (symbol : SymId) : Except DeclareError (Scopes κ) :=
  match a.get? scope with
  | none => .error .noSuchScope
  | some s =>
    match (s.table space).get? (Keyed.key name) with
    | some existing => .error (.duplicate existing)
    | none => .ok ⟨a.scopes.modify scope (·.addName space (Keyed.key name) symbol)⟩

/-- At most `fuel` links of the chain that starts at a scope. -/
def chainUpTo (a : Scopes κ) : (fuel : Nat) → ScopeId → List ScopeId
  | 0, _ => []
  | fuel + 1, id =>
    id :: match a.parent? id with
      | none => []
      | some p => chainUpTo a fuel p

/-- The numbers from a scope outward, itself included. A chain that does not go round in circles
visits no more than all scopes and one number that is not a scope. -/
def chain (a : Scopes κ) (id : ScopeId) : List ScopeId := a.chainUpTo (a.size + 1) id

/-- The scopes from a number outward. -/
def ancestors (a : Scopes κ) (id : ScopeId) : List (Scope κ) := (a.chain id).filterMap a.get?

/-- The symbol that a name stands for, seen from a scope. -/
def lookup [DecidableEq κ] [Keyed κ] (a : Scopes κ) (space : NameSpace) (scope : ScopeId)
    (name : String) :
    Option SymId :=
  (a.ancestors scope).findSome? fun s => (s.table space).get? (Keyed.key name)

/-- Whether a scope is `ancestor` or nested inside it. -/
def isWithin (a : Scopes κ) (scope ancestor : ScopeId) : Bool := (a.chain scope).contains ancestor

end Scopes

end Bindery
