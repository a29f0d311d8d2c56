import Bindery.Builtin
import Bindery.Proofs.Ty.Below

/-!
# Built-in functions on poisoned arguments

A call of a built-in function with poison among its arguments gets its type from a table of its own.
That table and the overloads never contradict each other: a call that has a type keeps one when
parts of its arguments are poisoned, and the new type is a poisoned form of the old one.
-/

namespace Bindery

/-- A poisoned form of a type with arithmetic is poison or the type itself. -/
theorem Ty.Below.eq_of_isNumeric {t t' : Ty} (h : t'.Below t) (hnumeric : t.isNumeric = true)
    (hne : t' ≠ .error) :
    t' = t := by
  unfold isNumeric at hnumeric
  split at hnumeric
  · exact h.eq_error_or_prim.resolve_left hne
  · exact h.eq_error_or_prim.resolve_left hne
  · cases hnumeric

namespace Builtin

variable {b : Builtin} {tys tys' : List Ty} {ty : Ty}

/-- What a built-in function gives for poisoned arguments in any case. -/
theorem poisonedTy_below (h : b.overload? tys = some ty) : (b.poisonedTy []).Below ty := by
  unfold overload? at h
  split at h
  · exact .error _
  · exact .error _
  · exact .error _
  · cases h
    exact .prim _
  · cases h
    exact .prim _
  · cases h
    exact .prim _
  · split at h
    · cases h
      exact .prim _
    · cases h
  · exact .error _
  · exact .error _
  · cases h

/-- An overload that takes some types takes poisoned forms of them, none of which is poison
itself. -/
theorem overload?_mono (h : b.overload? tys = some ty) (hbelow : Ty.BelowAll tys' tys)
    (hsound : ∀ t ∈ tys', t ≠ .error) : ∃ ty', b.overload? tys' = some ty' ∧ ty'.Below ty := by
  have hpair : ∀ {a b a' b' : Ty}, a'.Below a → b'.Below b → a' ≠ .error → b' ≠ .error →
    (a.isNumeric ∧ a = b) →
      a' = a ∧ b' = a := by
    rintro a b a' b' ha hb hne hne' ⟨hnum, rfl⟩
    exact ⟨ha.eq_of_isNumeric hnum hne, hb.eq_of_isNumeric hnum hne'⟩
  -- One argument or two, each a poisoned form of what the overload takes.
  unfold overload? at h
  split at h
  · split at h
    · next hnum =>
      cases h
      obtain _ | ⟨ha, _ | _⟩ := hbelow
      obtain rfl := ha.eq_of_isNumeric hnum (hsound _ (by simp))
      exact ⟨_, if_pos hnum, Ty.below_refl _⟩
    · cases h
  · split at h
    · next hnum =>
      cases h
      obtain _ | ⟨ha, _ | ⟨hb, _ | _⟩⟩ := hbelow
      obtain ⟨rfl, rfl⟩ := hpair ha hb (hsound _ (by simp)) (hsound _ (by simp)) hnum
      exact ⟨_, if_pos ⟨hnum.1, rfl⟩, Ty.below_refl _⟩
    · cases h
  · split at h
    · next hnum =>
      cases h
      obtain _ | ⟨ha, _ | ⟨hb, _ | _⟩⟩ := hbelow
      obtain ⟨rfl, rfl⟩ := hpair ha hb (hsound _ (by simp)) (hsound _ (by simp)) hnum
      exact ⟨_, if_pos ⟨hnum.1, rfl⟩, Ty.below_refl _⟩
    · cases h
  · cases h
    obtain _ | ⟨ha, _ | _⟩ := hbelow
    obtain ⟨a', rfl, -⟩ := ha.eq_error_or_container.resolve_left (hsound _ (by simp))
    exact ⟨_, rfl, Ty.below_refl _⟩
  · cases h
    obtain _ | ⟨ha, _ | _⟩ := hbelow
    obtain ⟨a', rfl, -⟩ := ha.eq_error_or_container.resolve_left (hsound _ (by simp))
    exact ⟨_, rfl, Ty.below_refl _⟩
  · cases h
    obtain _ | ⟨ha, _ | _⟩ := hbelow
    obtain rfl := ha.eq_error_or_prim.resolve_left (hsound _ (by simp))
    exact ⟨_, rfl, Ty.below_refl _⟩
  · split at h
    · next haccepts =>
      cases h
      obtain _ | ⟨ha, _ | ⟨hb, _ | _⟩⟩ := hbelow
      obtain ⟨a', rfl, ha'⟩ := ha.eq_error_or_container.resolve_left (hsound _ (by simp))
      exact ⟨_, if_pos (Ty.compatible_mono haccepts ha' hb), Ty.below_refl _⟩
    · cases h
  · cases h
    obtain _ | ⟨ha, _ | _⟩ := hbelow
    obtain ⟨a', rfl, ha'⟩ := ha.eq_error_or_container.resolve_left (hsound _ (by simp))
    exact ⟨_, rfl, ha'⟩
  · cases h
    obtain _ | ⟨ha, _ | _⟩ := hbelow
    obtain ⟨a', rfl, ha'⟩ := ha.eq_error_or_container.resolve_left (hsound _ (by simp))
    exact ⟨_, rfl, ha'⟩
  · cases h

/-- Where an argument is poison, it still is when more is poisoned. -/
theorem any_isError_of_below (hbelow : Ty.BelowAll tys' tys) (h : tys.any Ty.isError = true) :
    tys'.any Ty.isError = true := by
  induction tys generalizing tys' with
  | nil => cases h
  | cons t tys ih =>
    cases hbelow with
    | cons hfirst hrest =>
      rw [List.any_cons, Bool.or_eq_true] at h ⊢
      rcases h with herror | hsome
      · rw [Ty.isError_eq_true_iff] at herror
        subst herror
        exact .inl (Ty.isError_eq_true_iff.mpr hfirst.eq_error)
      · exact .inr (ih hrest hsome)

/-- A call that has a type keeps one when parts of its arguments are poisoned. -/
theorem resolve_mono (h : b.resolve tys = .ok ty) (hbelow : Ty.BelowAll tys' tys) :
    ∃ ty', b.resolve tys' = .ok ty' ∧ ty'.Below ty := by
  unfold resolve at h ⊢
  rw [hbelow.length_eq]
  split at h
  · cases h
  · next hlength =>
    rw [if_neg hlength]
    split at h
    · next hpoisoned =>
      cases h
      have hpoisoned' := any_isError_of_below hbelow hpoisoned
      rw [if_pos hpoisoned', poisonedTy_eq hpoisoned, poisonedTy_eq hpoisoned']
      exact ⟨_, rfl, Ty.below_refl _⟩
    · split at h
      · next hoverload =>
        cases h
        by_cases hpoisoned' : tys'.any Ty.isError = true
        · -- the two tables meet here: the arguments were fine and now poison is among them
          rw [if_pos hpoisoned', poisonedTy_eq hpoisoned']
          exact ⟨_, rfl, poisonedTy_below hoverload⟩
        · rw [if_neg hpoisoned']
          have hsound : ∀ t ∈ tys', t ≠ .error := by
            intro t ht herror
            exact hpoisoned' (List.any_eq_true.mpr ⟨t, ht, Ty.isError_eq_true_iff.mpr herror⟩)
          obtain ⟨ty', hty', hle⟩ := overload?_mono hoverload hbelow hsound
          rw [hty']
          exact ⟨ty', rfl, hle⟩
      · cases h

end Builtin

end Bindery
