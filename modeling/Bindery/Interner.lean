/-!
# Interned strings

An `Interner` hands out one number per string. Asking again for a string that was seen before gives
the number it already has, and numbers count up from 0 in the order in which strings are first seen.
-/

namespace Bindery

/-- The strings seen so far; a string's number is its place in the list. -/
structure Interner where
  strings : List String
deriving Inhabited

namespace Interner

/-- The interner that has seen nothing. -/
def empty : Interner := ⟨[]⟩

/-- The number of a string that was seen before. -/
def get? (i : Interner) (s : String) : Option Nat := i.strings.idxOf? s

/-- The number of a string, which is recorded if it is new. -/
def intern (i : Interner) (s : String) : Nat × Interner :=
  match i.get? s with
  | some n => (n, i)
  | none => (i.strings.length, ⟨i.strings ++ [s]⟩)

/-- Records strings one after another. -/
def internAll (i : Interner) (strings : List String) : Interner :=
  strings.foldl (fun i s => (i.intern s).2) i

/-- The number under which tables know a string. One that was never seen has the first free
number. -/
def handle (i : Interner) (s : String) : Nat := (i.get? s).getD i.strings.length

/-- The string that a number stands for. -/
def resolve? (i : Interner) (n : Nat) : Option String := i.strings[n]?

/-- How many different strings were seen. -/
def size (i : Interner) : Nat := i.strings.length

/-- Whether nothing was seen yet. -/
def isEmpty (i : Interner) : Bool := i.strings.isEmpty

/-- A one-line account of the interner that shows its size only. -/
def summary (i : Interner) : String :=
  "StringInterner \x7b len: " ++ toString i.size ++ " \x7d"

end Interner

end Bindery
