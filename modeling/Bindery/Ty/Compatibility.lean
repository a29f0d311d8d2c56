import Bindery.Ty.Basic

/-!
# Compatibility of types

`a.accepts b` says that a value of type `b` may be stored where `a` is expected. It is equality of
shape, except that the poison type on either side fits anything at its place. A placeholder accepts
only itself.

`d.acceptsArgument a` is the check of an argument at a call. A placeholder of the declared type that
the call has left open fits any argument.
-/

namespace Bindery.Ty

mutual

/-- Place-by-place comparison of types up to poison. With `loose`, a placeholder on the left fits
everything. -/
def compatible (loose : Bool) : Ty → Ty → Bool
  | .error, _ => true
  | _, .error => true
  | .generic n, .generic m => loose || n == m
  | .generic _, _ => loose
  | .prim p, .prim q => p == q
  | .container c a, .container d b => c == d && compatible loose a b
  | .result v e, .result w f => compatible loose v w && compatible loose e f
  | .fn ps r, .fn qs q => compatibleAll loose ps qs && compatible loose r q
  | .tuple as, .tuple bs => compatibleAll loose as bs
  | .nominal k n as, .nominal l m bs => k == l && n == m && compatibleAll loose as bs
  | _, _ => false

/-- Compatibility of two lists of the same length, place by place. -/
def compatibleAll (loose : Bool) : List Ty → List Ty → Bool
  | [], [] => true
  | a :: as, b :: bs => compatible loose a b && compatibleAll loose as bs
  | _, _ => false

end

/-- Whether a value of type `actual` may stand where `expected` is expected. -/
def accepts (expected actual : Ty) : Bool := compatible false expected actual

/-- Whether an argument of type `actual` fits a parameter whose open placeholders fit anything. -/
def acceptsArgument (declared actual : Ty) : Bool := compatible true declared actual

end Bindery.Ty
