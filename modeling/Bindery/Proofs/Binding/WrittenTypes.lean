import Bindery.Proofs.Binding.Sane

/-!
# What written types can mean

A written type mentions only the type parameters in scope, whether or not it is reported. A type
that is written without a finding is free of poison: its head is known and has as many arguments as
it takes.
-/

namespace Bindery

variable {args : List Ty} {n : String}

namespace TypeHead

variable {head : TypeHead}

theorem placeholders_apply (h : n ∈ (head.apply args).placeholders) :
    head = .generic n ∨ ∃ t ∈ args, n ∈ t.placeholders := by
  unfold TypeHead.apply at h
  split at h
  · next name =>
    left
    rw [show n = name by simpa [Ty.placeholders] using h]
  · exact .inr (Ty.mem_allPlaceholders.mp h)
  · simp [Ty.placeholders] at h
  · next c t => exact .inr ⟨t, by simp, h⟩
  · next v e =>
    rcases List.mem_append.mp h with h | h
    · exact .inr ⟨v, by simp, h⟩
    · exact .inr ⟨e, by simp, h⟩
  · simp [Ty.placeholders] at h

/-- A head with as many arguments as it takes makes a type without poison from such arguments. -/
theorem hasPoison_apply (hlength : args.length = head.arity)
    (hargs : ∀ t ∈ args, t.hasPoison = false) :
    (head.apply args).hasPoison = false := by
  unfold TypeHead.apply
  split
  · rfl
  · exact Ty.anyPoison_eq_false_iff.mpr hargs
  · rfl
  · next c t => exact hargs t (by simp)
  · next v e =>
    rw [Ty.hasPoison, hargs v (by simp), hargs e (by simp)]
    rfl
  · -- the remaining heads have another number of arguments
    next hgeneric hnominal hprim hcontainer hresult =>
    exfalso
    cases head with
    | generic name => exact hgeneric name rfl
    | nominal kind name arity => exact hnominal kind name arity rfl
    | prim p => exact hprim p rfl
    | container c =>
      obtain ⟨t, rfl⟩ := List.length_eq_one_iff.mp hlength
      exact hcontainer c t rfl rfl
    | result =>
      rcases args with _ | ⟨v, _ | ⟨e, _ | ⟨_, _⟩⟩⟩
      · cases hlength
      · cases hlength
      · exact hresult v e rfl rfl
      · cases hlength

end TypeHead

namespace Binding

variable {α : Type} {Γ : Symbols}

theorem mem_generics_of_typeHead? {s : State} {name : String}
    (h : s.typeHead? name = some (.generic n)) :
    n ∈ s.generics := by
  unfold State.typeHead? at h
  split at h
  · next hcontains =>
    cases h
    simpa using hcontains
  · split at h
    · cases h
    · split at h
      · cases h
      · unfold TypeHead.builtin? at h
        split at h
        · cases h
        · split at h
          · cases h
          · split at h <;> cases h

theorem generics_after (m : Binding α) [Checks m] (s : State) : (after m s).generics = s.generics :=
  (Keeps.grows [] m s).generics

/-- The type parameters of a type applied by name are in scope, or occur in its arguments. -/
theorem placeholders_applyTypeName {name : Ast.Name} {range : Range} {s : State}
    (h : n ∈ (out (applyTypeName name args range) s).placeholders) :
    n ∈ s.generics ∨ ∃ t ∈ args, n ∈ t.placeholders := by
  rw [applyTypeName, out_bind, out_get] at h
  cases hhead : s.typeHead? name.text with
  | none =>
    rw [hhead] at h
    cases h
  | some head =>
    rw [hhead] at h
    rw [out_bind] at h
    split at h
    · rw [out_pure] at h
      rcases TypeHead.placeholders_apply h with rfl | h
      · exact .inl (mem_generics_of_typeHead? hhead)
      · exact .inr h
    · simp [Ty.placeholders] at h

mutual

/-- A written type mentions only the type parameters in scope. -/
theorem placeholders_resolveType (e : Ast.TyExpr) (s : State) :
    ∀ n ∈ (out (resolveType e) s).placeholders, n ∈ s.generics := by
  match e with
  | .named origin name args =>
    intro n hn
    rw [resolveType, out_bind] at hn
    rcases placeholders_applyTypeName hn with hn | ⟨t, ht, hn⟩
    · rwa [generics_after] at hn
    · exact placeholders_resolveTypes args s t ht n hn
  | .fn origin params ret =>
    intro n hn
    rcases List.mem_append.mp hn with hn | hn
    · obtain ⟨t, ht, hn⟩ := Ty.mem_allPlaceholders.mp hn
      exact placeholders_resolveTypes params s t ht n hn
    · have hret := placeholders_resolveType ret (after (resolveTypes params) s) n hn
      rwa [generics_after] at hret
  | .tuple origin elems =>
    intro n hn
    obtain ⟨t, ht, hn⟩ := Ty.mem_allPlaceholders.mp hn
    exact placeholders_resolveTypes elems s t ht n hn

theorem placeholders_resolveTypes (es : List Ast.TyExpr) (s : State) :
    ∀ t ∈ out (resolveTypes es) s, ∀ n ∈ t.placeholders, n ∈ s.generics := by
  match es with
  | [] =>
    intro t ht
    cases ht
  | e :: es =>
    intro t ht n hn
    rcases List.mem_cons.mp ht with rfl | ht
    · exact placeholders_resolveType e s n hn
    · have hrest := placeholders_resolveTypes es (after (resolveType e) s) t ht n hn
      rwa [generics_after] at hrest

end

/-- A type that is written without a finding is free of poison. -/
theorem typeLaw_hasPoison (s : State) : TypeLaw s (·.hasPoison = false) where
  apply _ := TypeHead.hasPoison_apply
  fn hparams hret := by
    rw [Ty.hasPoison, hret, Bool.or_false]
    exact Ty.anyPoison_eq_false_iff.mpr hparams
  tuple := Ty.anyPoison_eq_false_iff.mpr

end Binding

end Bindery
