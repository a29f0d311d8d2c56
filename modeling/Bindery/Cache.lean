import Bindery.Session

/-!
# The cache of results

A tree never changes, so what binding it gives can be used again. A `Cache` keeps results under the
names of their trees. It also numbers every result that is made through it, so that a result handed
out twice can be told from two results with the same contents.
-/

namespace Bindery

/-- A result under the number it got when it was made. -/
structure Shared where
  serial : Nat
  result : BindResult

/-- The results kept, and how many results were numbered. -/
structure Cache where
  entries : OrderedMap Ast.TreeId Shared
  issued : Nat

namespace Cache

/-- A cache that keeps nothing. -/
def empty : Cache := ⟨.empty, 0⟩

/-- The result kept for a tree. -/
def get? (c : Cache) (tree : Ast.TreeId) : Option Shared := c.entries.get? tree

/-- Keeps a result for a tree. -/
def insert (c : Cache) (tree : Ast.TreeId) (r : Shared) : Cache :=
  { c with entries := c.entries.insert tree r }

/-- Whether a result is kept for a tree. -/
def contains (c : Cache) (tree : Ast.TreeId) : Bool := c.entries.contains tree

/-- How many results are kept. -/
def size (c : Cache) : Nat := c.entries.size

/-- Whether no result is kept. -/
def isEmpty (c : Cache) : Bool := c.entries.isEmpty

/-- Forgets all results. Numbers are not used again. -/
def clear (c : Cache) : Cache := { c with entries := .empty }

/-- Numbers a new result. -/
def number (c : Cache) (r : BindResult) : Shared × Cache :=
  (⟨c.issued, r⟩, { c with issued := c.issued + 1 })

/-- The result to use again for a tree, if the options allow it. -/
def reuse? (c : Cache) (options : Options) (tree : Ast.TreeId) : Option Shared :=
  if options.useCache then c.get? tree else none

/-- Numbers a new result for a tree and keeps it, if the options allow it. -/
def store (c : Cache) (options : Options) (tree : Ast.TreeId) (r : BindResult) :
    Shared × Cache :=
  let (shared, c) := c.number r
  (shared, if options.useCache then c.insert tree shared else c)

end Cache

/-- Binds a file, using an earlier result for the same tree if the options allow it. -/
def Session.bindCached (s : Session) (file : Ast.SourceFile) (cache : Cache) :
    Except Fault Shared × Session × Cache :=
  match cache.reuse? s.options file.id with
  | some hit => (.ok hit, s, cache)
  | none =>
    match s.bind file with
    | (.error fault, s) => (.error fault, s, cache)
    | (.ok result, s) =>
      let (shared, cache) := cache.store s.options file.id result
      (.ok shared, s, cache)

end Bindery
