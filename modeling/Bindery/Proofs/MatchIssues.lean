import Bindery.Proofs.Binding.TopLevel
import Bindery.Proofs.Bound.Arms

/-!
# What is wrong with a match

The check of a match goes through the arms once and counts the variants that it has met. What it
reports is what `Bound.matchIssues` says of each arm and the arms before it, for any patterns that
were bound against the matched type.
-/

namespace Bindery

open Bindery.Binding Bindery.Bound

namespace Binding

variable {sum : String} {args : List Ty} {sd : SumDef} {name : String} {s : State}

/-- A variant that a pattern is found to name is one of the matched sum. -/
theorem mem_keys_of_resolveVariant {written : Ast.Name} {range : Range}
    (hsd : s.registry.sum? sum = some sd)
    (h : (out (resolveVariant (.sum sum args) written range) s).isSome = true) :
    written.text ∈ sd.variants.keys := by
  refine (OrderedMap.contains_iff_mem_keys _ _).mp ?_
  simp only [resolveVariant, out_bind, out_get, out_pure, after_get, hsd] at h
  rw [OrderedMap.contains]
  cases hvariant : sd.variants.get? written.text with
  | none => simp [hvariant] at h
  | some => rfl

theorem mem_keys_of_bareVariant? {symbol : SymId} (hsd : s.registry.sum? sum = some sd)
    (h : bareVariant? s.registry (.sum sum args) name = some symbol) : name ∈ sd.variants.keys := by
  refine (OrderedMap.contains_iff_mem_keys _ _).mp ?_
  rw [OrderedMap.contains]
  cases hvariant : sd.variants.get? name with
  | none => simp [bareVariant?, hsd, hvariant] at h
  | some => rfl

theorem named?_variantPattern {target : Ty} {resolved : Option (SymId × Option Ty)} {written : String}
    {payload : Option Pattern} {range : Range}
    (h : name ∈ (variantPattern target resolved written payload range).named?) :
    resolved.isSome = true ∧ written = name := by
  cases resolved with
  | none => cases h
  | some => exact ⟨rfl, Option.some.inj h⟩

theorem mem_keys_of_bindPattern (hsd : s.registry.sum? sum = some sd) (p : Ast.Pattern)
    (h : name ∈ (out (bindPattern (.sum sum args) p) s).named?) : name ∈ sd.variants.keys := by
  cases p with
  | literal | wildcard | tuple => cases h
  | name written =>
    rw [bindPattern, namePattern, out_bind, out_get] at h
    cases hbare : bareVariant? s.registry (.sum sum args) written.text with
    | none =>
      rw [hbare] at h
      cases h
    | some symbol =>
      rw [hbare] at h
      cases h
      exact mem_keys_of_bareVariant? hsd hbare
  | variant origin written payload =>
    have hresolved : (out (resolveVariant (.sum sum args) written origin.range) s).isSome = true ∧
      written.text = name := by
      cases payload <;> exact named?_variantPattern h
    exact hresolved.2 ▸ mem_keys_of_resolveVariant hsd hresolved.1

end Binding

/-- The check of a match finds what is wrong with its arms, each taken by itself. -/
theorem checkMatch_eq_matchIssues (registry : Registry) (target : Ty)
    (arms : List (State × Ast.Pattern))
    (range : Range) :
    let ps := arms.map fun arm => out (bindPattern target arm.2) (arm.1.registering registry)
    checkMatch registry target ps range = matchIssues registry target ps range := by
  intro ps
  cases target with
  | nominal kind name args =>
    cases kind with
    | record => exact checkLiterals_eq_issues false ps range
    | sum =>
      rw [checkMatch, matchIssues]
      cases hsum : registry.sum? name with
      | none => rfl
      | some sum =>
        refine checkSum_eq_issues (fun p hp variant hvariant => ?_) range
        obtain ⟨arm, -, rfl⟩ := List.mem_map.mp hp
        exact mem_keys_of_bindPattern hsum arm.2 hvariant
  | prim p => cases p <;> exact checkLiterals_eq_issues _ ps range
  | error => rfl
  | _ => exact checkLiterals_eq_issues false ps range

end Bindery
