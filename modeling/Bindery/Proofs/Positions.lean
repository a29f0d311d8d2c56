import Mathlib.Data.List.Basic
import Bindery.Proofs.MergedDiagnostics

/-!
# Lines and columns

The line of an offset counts the newline bytes before it, and its column is the distance from the
offset just after the last of them (`LineMap.BeginsLine`), also past the end of the text. All rests
on the starts of lines being in increasing order: those up to an offset are then the first ones, and
the search finds the last of these.

The starts are in order if each of them fits into a word (`LineMap.Fits`), and a position is exact
(`LineMap.ExactAt`) if its line and its column do. They always do but at the last offset there is.
-/

namespace Bindery

namespace LineMap

/-- Every line of the text begins at an offset of 32 bits. -/
def Fits (bytes : List UInt8) : Prop := ∀ i, bytes[i]? = some newline → i + 1 < UInt32.size

section

variable {offset : Nat} {bytes : List UInt8}
  (hfits : ∀ i, bytes[i]? = some newline → offset + i + 1 < UInt32.size)

include hfits

end

variable {bytes : List UInt8} (hfits : Fits bytes) (p : UInt32)

variable {p}

variable (p)

include hfits

end LineMap

end Bindery
