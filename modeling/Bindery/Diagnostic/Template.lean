/-!
# Message templates

A template is a text with numbered holes, a number in braces. `Template.fill` puts the arguments
into the holes one after another: all holes with number 0 first, then all holes with number 1, and
so on, each time over the text rendered so far. A hole without an argument stays as it is.
-/

namespace Bindery

/-- How serious a diagnostic is. -/
inductive Severity where
  | warning
  | error
deriving DecidableEq, Inhabited

/-- The severity as written in a diagnostic. -/
def Severity.text : Severity → String
  | .warning => "warning"
  | .error => "error"

/-- A message text with numbered holes, under a code that stays the same over time. -/
structure Template where
  code : Nat
  severity : Severity
  text : String
deriving DecidableEq, Inhabited

namespace Template

/-- Replaces every occurrence of `pattern` from left to right. Occurrences do not overlap: after one
is replaced, the `skip` characters that still belong to it are passed over. -/
def replaceFrom (pattern replacement : List Char) : (skip : Nat) → List Char → List Char
  | _, [] => []
  | skip + 1, _ :: cs => replaceFrom pattern replacement skip cs
  | 0, c :: cs =>
    if pattern.isPrefixOf (c :: cs) then
      replacement ++ replaceFrom pattern replacement (pattern.length - 1) cs
    else
      c :: replaceFrom pattern replacement 0 cs

/-- The hole with number `k`: its decimal digits between braces. -/
def hole (k : Nat) : List Char := '\x7b' :: (Nat.toDigits 10 k ++ ['\x7d'])

/-- Fills the holes from number `k` on. -/
def fillFrom : (k : Nat) → List Char → List (List Char) → List Char
  | _, text, [] => text
  | k, text, a :: args => fillFrom (k + 1) (replaceFrom (hole k) a 0 text) args

/-- Puts the arguments into the holes of a text, in the order of their numbers. -/
def fill (text : String) (args : List String) : String :=
  String.ofList (fillFrom 0 text.toList (args.map String.toList))

end Template

end Bindery
