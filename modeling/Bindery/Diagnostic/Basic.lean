import Bindery.Diagnostic.Template
import Bindery.Text.LineMap

/-!
# Diagnostics

A `Diagnostic` is a message that was worked out in full: its text has no holes left, and its place,
if it has one, is known as a file, a span and a line and column.

A list of diagnostics is kept in the order of report. `Diagnostic.sort` orders it by file and then
by where the spans start, and leaves diagnostics of one place in the order of report.
-/

namespace Bindery

/-- A message with its code, its severity and, if it has one, its place. -/
structure Diagnostic where
  file : Option String
  span : Option Span
  position : Option Position
  message : String
  code : Nat
  severity : Severity
deriving DecidableEq, Inhabited

namespace Diagnostic

/-- A diagnostic that belongs to no place. -/
def unplaced (template : Template) (args : List String) : Diagnostic where
  file := none
  span := none
  position := none
  message := Template.fill template.text args
  code := template.code
  severity := template.severity

/-- A diagnostic at a range of a file whose lines are known. -/
def placed (file : String) (lines : LineMap) (range : Range) (template : Template)
    (args : List String) : Diagnostic where
  file := some file
  span := some range.toSpan
  position := some (lines.positionOf (.ofNat range.start))
  message := Template.fill template.text args
  code := template.code
  severity := template.severity

/-- Whether the diagnostic is an error. -/
def isError (d : Diagnostic) : Bool := d.severity == .error

/-- The place in front of a diagnostic's text, ending in a colon and a blank. -/
def placeText (d : Diagnostic) : String :=
  match d.file, d.position with
  | none, _ => ""
  | some file, none => file ++ ": "
  | some file, some position => file ++ ":" ++ position.text ++ ": "

/-- The diagnostic as shown to a person. -/
def display (d : Diagnostic) : String :=
  d.placeText ++ d.severity.text ++ " W" ++ toString d.code ++ ": " ++ d.message

/-! ## Lists of diagnostics -/

/-- Whether some diagnostic is an error. -/
def hasErrors (ds : List Diagnostic) : Bool := ds.any isError

/-- How many diagnostics are errors. -/
def errorCount (ds : List Diagnostic) : Nat := ds.countP isError

/-- Where a diagnostic starts in its file; 0 without a span. -/
def start (d : Diagnostic) : Nat := (d.span.map Span.start).getD 0

/-- The order of files: no file comes before any file, files are ordered by name. -/
def compareFiles : Option String → Option String → Ordering
  | none, none => .eq
  | none, some _ => .lt
  | some _, none => .gt
  | some a, some b => compare a b

/-- Whether `a` may stand before `b` in a sorted list. -/
def precedes (a b : Diagnostic) : Bool :=
  match compareFiles a.file b.file with
  | .lt => true
  | .eq => a.start ≤ b.start
  | .gt => false

/-- Sorts by file and start; what agrees in both keeps its order. -/
def sort (ds : List Diagnostic) : List Diagnostic := ds.mergeSort precedes

end Diagnostic

end Bindery
