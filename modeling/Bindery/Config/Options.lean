/-!
# Options

What a user can choose about binding.
-/

namespace Bindery

/-- How files are bound. -/
structure Options where
  /-- Results of files that were bound before are used again. -/
  useCache : Bool := true
  /-- At most this many diagnostics of a file are returned; the file is bound to its end all the
  same. -/
  maxDiagnostics : Option Nat := none
deriving DecidableEq, Inhabited

end Bindery
