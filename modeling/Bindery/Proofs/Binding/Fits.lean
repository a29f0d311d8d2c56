import Bindery.Proofs.Binding.Rules

/-!
# Patterns that fit the matched type

`Pattern.Fits r target p` says how the parts of a bound pattern go with the type `target` of the
values it is matched with: constants have that type, tuples its length, and variants are variants of
that sum with the payload they are declared with. Below a placeholder or poison nothing is known,
and the parts are matched with poison. Every pattern that is bound quietly fits.
-/

namespace Bindery

namespace Bound

mutual

/-- The pattern goes with the type of the matched value. -/
def Pattern.Fits (r : Registry) : (target : Ty) → Pattern → Prop
  | target, ⟨.literal value, ty, _⟩ => ty = value.ty ∧ Binding.literalMatches value.ty target = true
  | target, ⟨.wildcard, ty, _⟩ => ty = target
  | target, ⟨.binding _ name, ty, _⟩ => ty = target ∧ Binding.bareVariant? r target name = none
  | target, ⟨.tuple elems, ty, _⟩ => ∃ tys, ty = Binding.tuplePatternTy target tys ∧
      (target = .tuple tys ∨ (target = .error ∨ ∃ name, target = .generic name) ∧
        tys = List.replicate elems.length .error) ∧
      Pattern.FitAll r tys elems
  | target, ⟨.variant _ none none bare, ty, _⟩ => target = .error ∧ ty = .error ∧ bare = false
  | target, ⟨.variant _ none (some payload) bare, ty, _⟩ =>
    target = .error ∧ ty = .error ∧ bare = false ∧ payload.Fits r .error
  | target, ⟨.variant name (some symbol) none _, ty, _⟩ => ty = target ∧
      ∃ sum args d, target = .sum sum args ∧ r.sum? sum = some d ∧ d.variants.get? name =
        some ⟨symbol, none⟩
  | target, ⟨.variant name (some symbol) (some payload) bare, ty, _⟩ => ty = target ∧ bare = false ∧
      ∃ sum args d declared, target = .sum sum args ∧ r.sum? sum = some d ∧
        d.variants.get? name = some ⟨symbol, some declared⟩ ∧
        payload.Fits r (declared.subst (.ofArguments d.tyParams args))

/-- The patterns go with the types at their places. -/
def Pattern.FitAll (r : Registry) : List Ty → List Pattern → Prop
  | [], [] => True
  | ty :: tys, p :: ps => p.Fits r ty ∧ Pattern.FitAll r tys ps
  | _, _ => False

end

theorem Pattern.FitAll.length_eq {r : Registry} {tys : List Ty} {ps : List Pattern}
    (h : FitAll r tys ps) : tys.length = ps.length := by
  induction ps generalizing tys with
  | nil => cases tys <;> simp_all [FitAll]
  | cons p ps ih =>
    cases tys with
    | nil => simp [FitAll] at h
    | cons ty tys => rw [List.length_cons, List.length_cons, ih h.2]

end Bound

namespace Binding

open Bindery.Bound

variable {Γ : Symbols}

mutual

/-- A pattern that is bound quietly goes with the type it is bound against. -/
theorem fits_bindPattern {target : Ty} (p : Ast.Pattern) {b : Pattern} {s t : State}
    (h : Quiet Γ (bindPattern target p) s b t) : b.Fits s.registry target := by
  match p with
  | .literal origin value =>
    obtain ⟨-, rfl, hmatches⟩ := h.literalPattern
    exact ⟨rfl, hmatches⟩
  | .wildcard origin =>
    obtain ⟨rfl, -⟩ := h.pure
    rw [Pattern.Fits]
  | .name name =>
    rcases h.namePattern with ⟨symbol, hbare, -, rfl⟩ | ⟨hbare, symbol, -, rfl⟩
    · exact ⟨rfl, exists_of_bareVariant? hbare⟩
    · exact ⟨rfl, hbare⟩
  | .tuple origin elems =>
    obtain ⟨tys, _, htargets, hrest⟩ := h.bind
    obtain ⟨rfl, hlength, htarget⟩ := htargets.tupleTargets
    obtain ⟨bs, helems, rfl⟩ := hrest.bind_pure
    have hfit := fitAll_bindPatterns elems hlength helems
    refine ⟨tys, rfl, ?_, hfit⟩
    rw [← hfit.length_eq, hlength]
    exact htarget
  | .variant origin name none =>
    obtain ⟨resolved, _, hresolve, hrest⟩ := h.bind
    obtain ⟨_, hcheck, rfl⟩ := hrest.bind_pure
    obtain ⟨rfl, ⟨rfl, rfl⟩ | ⟨sum, args, d, v, rfl, hd, hv, rfl⟩⟩ := hresolve.resolveVariant
    · exact ⟨rfl, rfl, rfl⟩
    · have hnone := hcheck.checkNoPayload.2 _ _ rfl
      refine ⟨rfl, sum, args, d, rfl, hd, ?_⟩
      rw [hv]
      obtain ⟨symbol, payload⟩ := v
      cases payload with
      | none => rfl
      | some ty => cases hnone
  | .variant origin name (some payload) =>
    obtain ⟨resolved, _, hresolve, hrest⟩ := h.bind
    obtain ⟨ty, _, htarget, hrest⟩ := hrest.bind
    obtain ⟨b', hpayload, rfl⟩ := hrest.bind_pure
    obtain ⟨rfl, hresolved⟩ := hresolve.resolveVariant
    obtain ⟨rfl, hty⟩ := htarget.payloadTarget
    have hfits := fits_bindPattern payload hpayload
    rcases hresolved with ⟨rfl, rfl⟩ | ⟨sum, args, d, ⟨symbol, declared⟩, rfl, hd, hv, rfl⟩
    · rcases hty with ⟨-, rfl⟩ | ⟨_, hsome⟩
      · exact ⟨rfl, rfl, rfl, hfits⟩
      · cases hsome
    · rcases hty with ⟨hnone, -⟩ | ⟨symbol', hsome⟩
      · cases hnone
      · cases declared with
        | none => cases hsome
        | some declared =>
          cases hsome
          exact ⟨rfl, rfl, sum, args, d, declared, rfl, hd, hv, hfits⟩

theorem fitAll_bindPatterns {tys : List Ty} (ps : List Ast.Pattern) {bs : List Pattern}
    {s t : State} (hlength : tys.length = ps.length) (h : Quiet Γ (bindPatterns tys ps) s bs t) :
    Pattern.FitAll s.registry tys bs := by
  match tys, ps with
  | [], [] =>
    rw [bindPatterns] at h
    · obtain ⟨rfl, -⟩ := h.pure
      trivial
    · simp
  | ty :: tys, p :: ps =>
    obtain ⟨b, u, hfirst, hrest⟩ := h.bind
    obtain ⟨bs', htail, rfl⟩ := hrest.bind_pure
    have hregistry := (hfirst.grows (keeps_bindPattern ty p)).registry
    have hfit := fitAll_bindPatterns ps (by simpa using hlength) htail
    rw [hregistry] at hfit
    exact ⟨fits_bindPattern p hfirst, hfit⟩

end

end Binding

end Bindery
