import Bindery.Proofs.Binding.Fits

/-!
# Values and the patterns that match them

A value is a constant, a tuple of values, or a variant with its payload. Values of any other type
(functions, records, collections and so on) are not told apart by any pattern, and one of them
stands for all. Every value is a value of a placeholder, and no value is one of the poison type.

`Pattern.matches` says whether a pattern matches a value. A pattern is `Sure` of a type if it looks
at nothing that can fail; it then matches every value of that type.
-/

namespace Bindery

/-- The variant takes a payload of type `ty` if the sum has the type arguments `args`. -/
def Symbols.HasPayload (Γ : Symbols) (id : SymId) (sum : String) (args : List Ty) (ty : Ty) : Prop :=
  ∃ sym declared params, Γ.get? id = some sym ∧ sym.kind = .variant sum (some declared) ∧
    sym.ty = .sum sum (params.map .generic) ∧ ty = declared.subst (.ofArguments params args)

/-- The types whose values no pattern looks into. -/
def Ty.IsSealed : Ty → Prop
  | .instant | .container .. | .result .. | .fn .. | .record .. => True
  | _ => False

namespace Bound

/-- What an expression can evaluate to, as far as patterns can tell. -/
inductive Value where
  | literal (value : Literal)
  | tuple (elems : List Value)
  | variant (symbol : SymId) (payload : Option Value)
  | other

mutual

/-- The value is one of the type. -/
inductive Value.HasType (Γ : Symbols) : Value → Ty → Prop
  | literal {value : Literal} {ty : Ty} (h : value.ty = ty) : HasType Γ (.literal value) ty
  | tuple {vs : List Value} {tys : List Ty} (h : HaveTypes Γ vs tys) :
    HasType Γ (.tuple vs) (.tuple tys)
  | bare {id : SymId} {sym : Symbol} {sum : String} (args : List Ty) (hsym : Γ.get? id = some sym)
      (hkind : sym.kind = .variant sum none) : HasType Γ (.variant id none) (.sum sum args)
  | payload {id : SymId} {sum : String} {args : List Ty} {v : Value} {ty : Ty}
      (hpayload : Γ.HasPayload id sum args ty) (h : HasType Γ v ty) :
      HasType Γ (.variant id (some v)) (.sum sum args)
  | placeholder (v : Value) (name : String) : HasType Γ v (.generic name)
  | other {ty : Ty} (h : ty.IsSealed) : HasType Γ .other ty

/-- The values are ones of the types at their places. -/
inductive Value.HaveTypes (Γ : Symbols) : List Value → List Ty → Prop
  | nil : HaveTypes Γ [] []
  | cons {v : Value} {vs : List Value} {ty : Ty} {tys : List Ty} (h : Value.HasType Γ v ty)
      (hs : HaveTypes Γ vs tys) : HaveTypes Γ (v :: vs) (ty :: tys)

end

namespace Value.HasType

variable {Γ : Symbols} {v : Value}

theorem not_error (h : v.HasType Γ .error) : False := by
  cases h with
  | @literal value _ h => cases value <;> cases h
  | other h => cases h

theorem exists_tuple {tys : List Ty} (h : v.HasType Γ (.tuple tys)) :
    ∃ vs, v = .tuple vs ∧ HaveTypes Γ vs tys := by
  cases h with
  | @literal value _ h => cases value <;> cases h
  | tuple h => exact ⟨_, rfl, h⟩
  | other h => cases h

theorem exists_bool (h : v.HasType Γ .bool) : ∃ b, v = .literal (.bool b) := by
  cases h with
  | @literal value _ h =>
    cases value with
    | bool b => exact ⟨b, rfl⟩
    | _ => cases h
  | other h => cases h

theorem exists_variant {sum : String} {args : List Ty} (h : v.HasType Γ (.sum sum args)) :
    ∃ id sym payload, Γ.get? id = some sym ∧ sym.kind = .variant sum payload ∧
      (payload = none ∧ v = .variant id none ∨
        ∃ w ty, v = .variant id (some w) ∧ Γ.HasPayload id sum args ty ∧ w.HasType Γ ty) := by
  cases h with
  | @literal value _ h => cases value <;> cases h
  | @bare id sym _ _ hsym hkind => exact ⟨id, sym, none, hsym, hkind, .inl ⟨rfl, rfl⟩⟩
  | @payload id _ _ w ty hpayload h =>
    obtain ⟨sym, declared, params, hsym, hkind, hty, hdeclared⟩ := hpayload
    exact ⟨id, sym, some declared, hsym, hkind,
      .inr ⟨w, ty, rfl, ⟨sym, declared, params, hsym, hkind, hty, hdeclared⟩, h⟩⟩
  | other h => cases h

end Value.HasType

mutual

/-- Whether the pattern matches the value. -/
def Pattern.matches : Pattern → Value → Bool
  | ⟨.wildcard, _, _⟩, _ | ⟨.binding .., _, _⟩, _ => true
  | ⟨.literal value, _, _⟩, .literal value' => value == value'
  | ⟨.tuple elems, _, _⟩, .tuple vs => Pattern.matchAll elems vs
  | ⟨.variant _ symbol none _, _, _⟩, .variant id none => symbol == some id
  | ⟨.variant _ symbol (some payload) _, _, _⟩, .variant id (some v) =>
    symbol == some id && payload.matches v
  | _, _ => false

/-- Whether the patterns match the values at their places. -/
def Pattern.matchAll : List Pattern → List Value → Bool
  | [], [] => true
  | p :: ps, v :: vs => p.matches v && Pattern.matchAll ps vs
  | _, _ => false

end

/-! ## Patterns that match every value of a type -/

mutual

/-- Some tuple in the pattern is matched with a placeholder, of whose values nothing is known. -/
def Pattern.Forces : Ty → Pattern → Prop
  | .generic _, ⟨.tuple _, _, _⟩ => True
  | .tuple tys, ⟨.tuple elems, _, _⟩ => Pattern.AnyForces tys elems
  | _, _ => False

/-- Some of the patterns matches a tuple with a placeholder. -/
def Pattern.AnyForces : List Ty → List Pattern → Prop
  | ty :: tys, p :: ps => p.Forces ty ∨ Pattern.AnyForces tys ps
  | _, _ => False

end

/-- The pattern is irrefutable and matches no tuple with a placeholder. -/
def Pattern.Sure (ty : Ty) (p : Pattern) : Prop := p.isIrrefutable = true ∧ ¬ p.Forces ty

mutual

/-- A pattern that is sure of a type matches every value of it. -/
theorem Pattern.Sure.matches_eq_true {Γ : Symbols} {r : Registry} {ty : Ty} {p : Pattern} {v : Value}
    (hsure : p.Sure ty) (hfits : p.Fits r ty) (hv : v.HasType Γ ty) : p.matches v = true := by
  match p, hsure with
  | ⟨.wildcard, _, _⟩, _ => rw [Pattern.matches]
  | ⟨.binding .., _, _⟩, _ => rw [Pattern.matches]
  | ⟨.literal _, _, _⟩, ⟨h, _⟩ => cases h
  | ⟨.variant .., _, _⟩, ⟨h, _⟩ => cases h
  | ⟨.tuple elems, _, _⟩, ⟨hall, hforces⟩ =>
    obtain ⟨tys, -, htarget, hfit⟩ := hfits
    rcases htarget with rfl | ⟨rfl | ⟨name, rfl⟩, -⟩
    · obtain ⟨vs, rfl, hvs⟩ := hv.exists_tuple
      exact Pattern.matchAll_of_sure elems hall hforces hfit hvs
    · exact absurd hv Value.HasType.not_error
    · exact absurd trivial hforces

theorem Pattern.matchAll_of_sure {Γ : Symbols} {r : Registry} {tys : List Ty} (ps : List Pattern)
    {vs : List Value} (hall : Pattern.allIrrefutable ps = true) (hforces : ¬ Pattern.AnyForces tys ps)
    (hfit : Pattern.FitAll r tys ps) (hvs : Value.HaveTypes Γ vs tys) :
    Pattern.matchAll ps vs = true := by
  match ps with
  | [] =>
    cases hvs with
    | nil => rfl
    | cons => cases hfit
  | p :: ps =>
    cases hvs with
    | nil => cases hfit
    | cons hv hvs =>
      rw [Pattern.allIrrefutable, Bool.and_eq_true] at hall
      rw [Pattern.AnyForces, not_or] at hforces
      have hp : p.Sure _ := ⟨hall.1, hforces.1⟩
      rw [Pattern.matchAll, hp.matches_eq_true hfit.1 hv, Pattern.matchAll_of_sure ps hall.2
        hforces.2 hfit.2 hvs]
      rfl

end

end Bound

end Bindery
