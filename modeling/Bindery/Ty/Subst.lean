import Bindery.OrderedMap
import Bindery.Ty.Basic

/-!
# Substitution and inference of type arguments

A `Subst` sends placeholder names to types. `Ty.subst` replaces the placeholders it knows
and leaves the others in place. `Ty.infer` goes the other way: it walks a declared type beside an
actual one and records, for each placeholder, the first type that stands there. Poison is never
recorded.
-/

namespace Bindery

/-- A finite map from placeholder names to types. -/
abbrev Subst := OrderedMap String Ty

namespace Subst

/-- Sends each parameter to the argument at its place. Parameters without an argument stay open. -/
def ofArguments (params : List String) (args : List Ty) : Subst :=
  OrderedMap.ofList (params.zip args)

/-- The types that stand for the parameters, poison where nothing is known. -/
def instantiate (s : Subst) (params : List String) : List Ty :=
  params.map fun p => (s.get? p).getD .error

/-- Sends every parameter that is still open to poison. -/
def closeWith (s : Subst) (params : List String) : Subst :=
  params.foldl (fun s p => s.insertNew p .error) s

end Subst

namespace Ty

mutual

/-- Replaces the placeholders that the substitution knows. -/
def subst (s : Subst) : Ty → Ty
  | .error => .error
  | .prim p => .prim p
  | .generic n => (s.get? n).getD (.generic n)
  | .container c t => .container c (subst s t)
  | .result v e => .result (subst s v) (subst s e)
  | .fn ps r => .fn (substAll s ps) (subst s r)
  | .tuple ts => .tuple (substAll s ts)
  | .nominal k n ts => .nominal k n (substAll s ts)

/-- Substitutes in every type of a list. -/
def substAll (s : Subst) : List Ty → List Ty
  | [] => []
  | t :: ts => subst s t :: substAll s ts

end

mutual

/-- Records for each placeholder of the declared type the first type found at its place in the
actual type. Entries that are already there are kept, and places that do not correspond are passed
over. -/
def infer : (declared actual : Ty) → Subst → Subst
  | _, .error, s => s
  | .generic n, t, s => s.insertNew n t
  | .container c a, .container d b, s => if c = d then infer a b s else s
  | .result v e, .result w f, s => infer e f (infer v w s)
  | .fn ps r, .fn qs q, s => infer r q (inferAll ps qs s)
  | .tuple as, .tuple bs, s => inferAll as bs s
  | .nominal k n as, .nominal l m bs, s => if k = l ∧ n = m then inferAll as bs s else s
  | _, _, s => s

/-- Infers from the pairs of two lists, as far as both reach. -/
def inferAll : (declared actual : List Ty) → Subst → Subst
  | a :: as, b :: bs, s => inferAll as bs (infer a b s)
  | _, _, s => s

end

theorem substAll_eq_map (s : Subst) (ts : List Ty) :
    substAll s ts = ts.map (subst s) := by
  induction ts with
  | nil => rfl
  | cons t ts ih => simp [substAll, ih]

end Ty

end Bindery
