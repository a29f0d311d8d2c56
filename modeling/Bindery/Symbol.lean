import Bindery.Ty.Basic

/-!
# Symbols

A symbol is a resolved declaration. Bound trees refer to symbols by number; the number of a symbol
is its place in the `Symbols`, which only grows. A function whose return type is still to be
inferred starts out provisional and is replaced once by its final version.
-/

namespace Bindery

/-- The number of a symbol in its table. -/
abbrev SymId := Nat

/-- The number of a scope. -/
abbrev ScopeId := Nat

/-- A parameter as seen by callers. -/
structure ParamSymbol where
  name : String
  ty : Ty
deriving DecidableEq, Inhabited

/-- What callers know of a function. -/
structure Sig where
  name : String
  params : List ParamSymbol
  tyParams : List String
  ret : Ty
  isBuiltin : Bool
  /-- The return type is settled. -/
  isFinal : Bool
deriving DecidableEq, Inhabited

namespace Sig

/-- Whether the function has type parameters. -/
def isGeneric (f : Sig) : Bool := !f.tyParams.isEmpty

/-- The types of the parameters. -/
def paramTys (f : Sig) : List Ty := f.params.map ParamSymbol.ty

/-- The function as a value. -/
def ty (f : Sig) : Ty := .fn f.paramTys f.ret

end Sig

/-- What kind of thing a symbol stands for. -/
inductive SymKind where
  | var (isMutable : Bool)
  | parameter
  | fn (sig : Sig)
  | field (record : String)
  | variant (sum : String) (payload : Option Ty)
deriving DecidableEq, Inhabited

/-- A resolved declaration. -/
structure Symbol where
  id : SymId
  name : String
  kind : SymKind
  ty : Ty
  /-- The scope of the declaration. Fields and variants belong to no scope. -/
  scope : Option ScopeId
  /-- How deep that scope is nested. -/
  depth : Nat
deriving DecidableEq, Inhabited

namespace Symbol

/-- Whether the symbol is a variable that may be assigned. -/
def isMutable (s : Symbol) : Bool :=
  match s.kind with
  | .var isMutable => isMutable
  | _ => false

/-- The signature, if the symbol is a function. -/
def sig? (s : Symbol) : Option Sig :=
  match s.kind with
  | .fn f => some f
  | _ => none

end Symbol

/-- Every symbol of one bind, by number. -/
structure Symbols where
  syms : Array Symbol
deriving Inhabited

namespace Symbols

/-- The table without symbols. -/
def empty : Symbols := ⟨#[]⟩

/-- How many symbols there are. -/
def size (t : Symbols) : Nat := t.syms.size

/-- Whether there is no symbol. -/
def isEmpty (t : Symbols) : Bool := t.syms.isEmpty

/-- All symbols in the order of their numbers. -/
def toList (t : Symbols) : List Symbol := t.syms.toList

/-- The symbol with a number. -/
def get? (t : Symbols) (id : SymId) : Option Symbol := t.syms[id]?

/-- Adds a symbol under the next number. -/
def add (t : Symbols) (name : String) (kind : SymKind) (ty : Ty) (scope : Option ScopeId)
    (depth : Nat) : SymId × Symbols :=
  (t.size, ⟨t.syms.push ⟨t.size, name, kind, ty, scope, depth⟩⟩)

/-- The signature of a function symbol. -/
def sig? (t : Symbols) (id : SymId) : Option Sig :=
  (t.get? id).bind Symbol.sig?

/-- Turns the symbol into the given function. -/
def setSig (t : Symbols) (id : SymId) (f : Sig) : Symbols :=
  ⟨t.syms.modify id fun s => { s with kind := .fn f, ty := f.ty }⟩

end Symbols

end Bindery
