import Bindery.Symbol

/-!
# Faults

A fault is a broken promise between the passes of binding, not a mistake in the program that is
bound. It ends the bind.
-/

namespace Bindery

/-- A broken promise between the passes of binding. -/
inductive Fault where
  | duplicateBuiltin (name : String)
  | missingSig (fn : String)
  | missingRegistryEntry (type : String)
  | fnFinalizedTwice (fn : String)
  | unbalancedScopes (current : ScopeId)
deriving DecidableEq, Inhabited

/-- The wording of a fault. -/
def Fault.message : Fault → String
  | .duplicateBuiltin name => "builtin '" ++ name ++ "' was declared twice"
  | .missingSig fn => "no signature was declared for function '" ++ fn ++ "'"
  | .missingRegistryEntry type => "type '" ++ type ++ "' is missing from the declaration registry"
  | .fnFinalizedTwice fn => "function '" ++ fn ++ "' was finalized twice"
  | .unbalancedScopes current =>
    "scope stack is unbalanced after binding (current scope " ++ toString current ++ ")"

end Bindery
