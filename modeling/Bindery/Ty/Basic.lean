/-!
# Types

`Ty` is the type of a bound expression. Two types are the same exactly when they have the same
shape.

* `error` is the poison type of an expression that was already reported. It fits everywhere, so that
  one mistake is reported once.
* `generic` is a placeholder: a type parameter seen from inside the declaration that introduces it.
* `nominal` is a declared record or sum together with its type arguments.
* A `container` carries one element type. The keys of a map are strings, so a map carries its value
  type only.
-/

namespace Bindery

/-- Types without parts. -/
inductive Prim where
  | int
  | float
  | bool
  | string
  | unit
  | instant
deriving DecidableEq, Inhabited

/-- Built-in type constructors with one argument. -/
inductive Container where
  | list
  | map
  | task
  | sender
  | receiver
deriving DecidableEq, Inhabited

/-- The two kinds of declared type. -/
inductive Nominal where
  | record
  | sum
deriving DecidableEq, Inhabited

/-- The type of a bound expression. -/
inductive Ty where
  | error
  | prim (p : Prim)
  | generic (name : String)
  | container (c : Container) (element : Ty)
  | result (value error : Ty)
  | fn (params : List Ty) (ret : Ty)
  | tuple (elems : List Ty)
  | nominal (kind : Nominal) (name : String) (args : List Ty)
deriving Inhabited

namespace Ty

@[match_pattern] abbrev int : Ty := .prim .int
@[match_pattern] abbrev float : Ty := .prim .float
@[match_pattern] abbrev bool : Ty := .prim .bool
@[match_pattern] abbrev string : Ty := .prim .string
@[match_pattern] abbrev unit : Ty := .prim .unit
@[match_pattern] abbrev instant : Ty := .prim .instant

@[match_pattern] abbrev list (element : Ty) : Ty := .container .list element
@[match_pattern] abbrev map (value : Ty) : Ty := .container .map value
@[match_pattern] abbrev task (result : Ty) : Ty := .container .task result
@[match_pattern] abbrev sender (element : Ty) : Ty := .container .sender element
@[match_pattern] abbrev receiver (element : Ty) : Ty := .container .receiver element

@[match_pattern] abbrev record (name : String) (args : List Ty) : Ty := .nominal .record name args
@[match_pattern] abbrev sum (name : String) (args : List Ty) : Ty := .nominal .sum name args

/-! ## Equality -/

mutual

/-- Whether two types have the same shape. -/
def same : Ty → Ty → Bool
  | .error, .error => true
  | .prim p, .prim q => p == q
  | .generic n, .generic m => n == m
  | .container c a, .container d b => c == d && same a b
  | .result v e, .result w f => same v w && same e f
  | .fn ps r, .fn qs q => sameAll ps qs && same r q
  | .tuple as, .tuple bs => sameAll as bs
  | .nominal k n as, .nominal l m bs => k == l && n == m && sameAll as bs
  | _, _ => false

/-- Whether two lists of types agree place by place. -/
def sameAll : List Ty → List Ty → Bool
  | [], [] => true
  | a :: as, b :: bs => same a b && sameAll as bs
  | _, _ => false

end

mutual

theorem eq_of_same (a b : Ty) (h : same a b = true) : a = b := by
  match a, b with
  | .error, .error => rfl
  | .prim p, .prim q => simp_all [same]
  | .generic n, .generic m => simp_all [same]
  | .container c a, .container d b =>
    simp only [same, Bool.and_eq_true, beq_iff_eq] at h
    rw [h.1, eq_of_same a b h.2]
  | .result v e, .result w f =>
    simp only [same, Bool.and_eq_true] at h
    rw [eq_of_same v w h.1, eq_of_same e f h.2]
  | .fn ps r, .fn qs q =>
    simp only [same, Bool.and_eq_true] at h
    rw [eq_of_sameAll ps qs h.1, eq_of_same r q h.2]
  | .tuple as, .tuple bs =>
    simp only [same] at h
    rw [eq_of_sameAll as bs h]
  | .nominal k n as, .nominal l m bs =>
    simp only [same, Bool.and_eq_true, beq_iff_eq] at h
    rw [h.1.1, h.1.2, eq_of_sameAll as bs h.2]
  | .error, .prim _ | .error, .generic _ | .error, .container .. | .error, .result ..
  | .error, .fn .. | .error, .tuple _ | .error, .nominal .. => simp [same] at h
  | .prim _, .error | .prim _, .generic _ | .prim _, .container .. | .prim _, .result ..
  | .prim _, .fn .. | .prim _, .tuple _ | .prim _, .nominal .. => simp [same] at h
  | .generic _, .error | .generic _, .prim _ | .generic _, .container .. | .generic _, .result ..
  | .generic _, .fn .. | .generic _, .tuple _ | .generic _, .nominal .. => simp [same] at h
  | .container .., .error | .container .., .prim _ | .container .., .generic _
  | .container .., .result .. | .container .., .fn .. | .container .., .tuple _
  | .container .., .nominal .. => simp [same] at h
  | .result .., .error | .result .., .prim _ | .result .., .generic _ | .result .., .container ..
  | .result .., .fn .. | .result .., .tuple _ | .result .., .nominal .. => simp [same] at h
  | .fn .., .error | .fn .., .prim _ | .fn .., .generic _
  | .fn .., .container .. | .fn .., .result .. | .fn .., .tuple _
  | .fn .., .nominal .. => simp [same] at h
  | .tuple _, .error | .tuple _, .prim _ | .tuple _, .generic _ | .tuple _, .container ..
  | .tuple _, .result .. | .tuple _, .fn .. | .tuple _, .nominal .. => simp [same] at h
  | .nominal .., .error | .nominal .., .prim _ | .nominal .., .generic _
  | .nominal .., .container .. | .nominal .., .result .. | .nominal .., .fn ..
  | .nominal .., .tuple _ => simp [same] at h

theorem eq_of_sameAll (as bs : List Ty) (h : sameAll as bs = true) : as = bs := by
  match as, bs with
  | [], [] => rfl
  | a :: as, b :: bs =>
    simp only [sameAll, Bool.and_eq_true] at h
    rw [eq_of_same a b h.1, eq_of_sameAll as bs h.2]
  | [], _ :: _ | _ :: _, [] => simp [sameAll] at h

end

mutual

theorem same_self (a : Ty) : same a a = true := by
  match a with
  | .error | .prim _ | .generic _ => simp [same]
  | .container c a => simp [same, same_self a]
  | .result v e => simp [same, same_self v, same_self e]
  | .fn ps r => simp [same, sameAll_self ps, same_self r]
  | .tuple as => simp [same, sameAll_self as]
  | .nominal k n as => simp [same, sameAll_self as]

theorem sameAll_self (as : List Ty) : sameAll as as = true := by
  match as with
  | [] => simp [sameAll]
  | a :: as => simp [sameAll, same_self a, sameAll_self as]

end

theorem same_iff_eq (a b : Ty) : same a b = true ↔ a = b :=
  ⟨eq_of_same a b, fun h => h ▸ same_self a⟩

instance : DecidableEq Ty := fun a b => decidable_of_iff _ (same_iff_eq a b)

/-! ## Classes of types -/

/-- Whether this is the poison type itself. -/
def isError : Ty → Bool
  | .error => true
  | _ => false

/-- Whether arithmetic is defined on the type. -/
def isNumeric : Ty → Bool
  | .int | .float => true
  | _ => false

mutual

/-- Whether a placeholder occurs anywhere in the type. -/
def hasGenerics : Ty → Bool
  | .error | .prim _ => false
  | .generic _ => true
  | .container _ t => hasGenerics t
  | .result v e => hasGenerics v || hasGenerics e
  | .fn ps r => anyGenerics ps || hasGenerics r
  | .tuple ts => anyGenerics ts
  | .nominal _ _ ts => anyGenerics ts

/-- Whether a placeholder occurs in one of the types. -/
def anyGenerics : List Ty → Bool
  | [] => false
  | t :: ts => hasGenerics t || anyGenerics ts

end

end Ty

end Bindery
