import Bindery.Text.Range

/-!
# Line maps

A `LineMap` holds the byte offset at which each line of a text starts. The first line starts at 0,
and every newline byte starts another line just after itself. An offset is searched among these
starts: a hit is the line that starts there, a miss is the place at which the offset would have to
be inserted, just after the line that holds it. An offset past the end of the text lies on the last
line.

Offsets, lines and columns are words of 32 bits. The start of a line is cut to 32 bits when the map
is made, and the arithmetic on words wraps.
-/

namespace Bindery

/-- The offsets at which the lines of a text start, in increasing order. -/
structure LineMap where
  starts : List UInt32
deriving Inhabited

namespace LineMap

/-- The newline byte. -/
def newline : UInt8 := 10

/-- The offsets just after the newline bytes of a text that begins at `offset`, cut to 32 bits. -/
def startsAfter (offset : Nat) : List UInt8 → List UInt32
  | [] => []
  | b :: bs =>
    if b = newline then .ofNat (offset + 1) :: startsAfter (offset + 1) bs
    else startsAfter (offset + 1) bs

/-- The line map of a sequence of bytes. -/
def ofBytes (bytes : List UInt8) : LineMap := ⟨0 :: startsAfter 0 bytes⟩

/-- The line map of a text. -/
def ofText (text : String) : LineMap := ofBytes text.toUTF8.data.toList

/-- The number of lines. -/
def lineCount (m : LineMap) : Nat := m.starts.length

/-- The index of the line that starts at an offset, or else the index at which the offset would have
to be inserted to keep the starts in order. -/
def search (m : LineMap) (offset : UInt32) : Except Nat Nat :=
  match m.starts.idxOf? offset with
  | some line => .ok line
  | none => .error (m.starts.countP (· < offset))

/-- The index of the line that holds an offset, counted from 0. -/
def lineOf (m : LineMap) (offset : UInt32) : UInt32 :=
  match m.search offset with
  | .ok line => .ofNat line
  | .error place => .ofNat (place - 1)

/-- The offset at which a line starts; the text's beginning for a line that does not exist. -/
def lineStart (m : LineMap) (line : UInt32) : UInt32 := (m.starts[line.toNat]?).getD 0

/-- The line and column of an offset. -/
def positionOf (m : LineMap) (offset : UInt32) : Position :=
  let line := m.lineOf offset
  ⟨line + 1, offset - m.lineStart line + 1⟩

end LineMap

end Bindery
