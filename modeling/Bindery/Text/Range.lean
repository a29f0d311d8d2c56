/-!
# Places in a source text

Offsets count bytes. A `Range` is stored on syntax nodes and names its two ends, a `Span` is what
diagnostics carry and names its start and its length. A `Position` is the line and column shown to a
person, both counted from 1, in words of 32 bits.
-/

namespace Bindery

/-- A stretch of text given by its first offset and its length. -/
structure Span where
  start : Nat
  length : Nat
deriving DecidableEq, Inhabited

namespace Span

/-- The offset just after the span. -/
def stop (s : Span) : Nat := s.start + s.length

/-- The span between two offsets. -/
def ofBounds (start stop : Nat) : Span := ⟨start, stop - start⟩

/-- Whether the span covers no offset. -/
def isEmpty (s : Span) : Bool := s.length == 0

/-- Whether an offset lies inside the span. -/
def contains (s : Span) (offset : Nat) : Bool := s.start ≤ offset && offset < s.stop

/-- The span as a half-open interval, `[3, 7)`. -/
def interval (s : Span) : String := "[" ++ toString s.start ++ ", " ++ toString s.stop ++ ")"

/-- The span as a pair of ends, `3..7`. -/
def dotted (s : Span) : String := toString s.start ++ ".." ++ toString s.stop

end Span

/-- A stretch of text given by its first offset and the offset just after it. -/
structure Range where
  start : Nat
  stop : Nat
deriving DecidableEq, Inhabited

namespace Range

/-- The range at an offset that covers nothing. -/
def empty (offset : Nat) : Range := ⟨offset, offset⟩

/-- The one-byte range at an offset. -/
def single (offset : Nat) : Range := ⟨offset, offset + 1⟩

/-- The number of offsets covered. -/
def length (r : Range) : Nat := r.stop - r.start

/-- Whether the two ends coincide. -/
def isEmpty (r : Range) : Bool := r.start == r.stop

/-- The same stretch of text by start and length. -/
def toSpan (r : Range) : Span := .ofBounds r.start r.stop

/-- The smallest range that covers both. -/
def cover (r s : Range) : Range := ⟨min r.start s.start, max r.stop s.stop⟩

/-- The range as a pair of ends, `3..7`. -/
def dotted (r : Range) : String := toString r.start ++ ".." ++ toString r.stop

end Range

/-- A line and a column, both counted from 1. -/
structure Position where
  line : UInt32
  column : UInt32
deriving DecidableEq, Inhabited

namespace Position

/-- Earlier lines first, then earlier columns. -/
def compare (p q : Position) : Ordering :=
  (Ord.compare p.line q.line).then (Ord.compare p.column q.column)

/-- The position as shown to a person, `4:11`. -/
def text (p : Position) : String := toString p.line ++ ":" ++ toString p.column

end Position

end Bindery
