import Bindery.Proofs.Ty.Shape

/-!
# Types without poison and without placeholders

Poison fits everywhere and placeholders are filled in. Where neither occurs, compatible types are
equal.
-/

namespace Bindery.Ty

mutual

/-- Whether the poison type occurs anywhere in the type. -/
def hasPoison : Ty → Bool
  | .error => true
  | .prim _ | .generic _ => false
  | .container _ t => hasPoison t
  | .result v e => hasPoison v || hasPoison e
  | .fn ps r => anyPoison ps || hasPoison r
  | .tuple ts => anyPoison ts
  | .nominal _ _ ts => anyPoison ts

/-- Whether the poison type occurs in one of the types. -/
def anyPoison : List Ty → Bool
  | [] => false
  | t :: ts => hasPoison t || anyPoison ts

end

theorem anyPoison_eq_false_iff {ts : List Ty} :
    anyPoison ts = false ↔ ∀ t ∈ ts, t.hasPoison = false := by
  induction ts with
  | nil => simp [anyPoison]
  | cons t ts ih => simp [anyPoison, ih]

theorem hasPoison_iff {t : Ty} {h : Head} (ht : t.head? = some h) :
    t.hasPoison = false ↔ ∀ u ∈ t.parts, u.hasPoison = false := by
  cases t <;> cases ht <;> simp [hasPoison, parts, anyPoison_eq_false_iff, or_imp, forall_and]

theorem isError_eq_true_iff {t : Ty} : t.isError = true ↔ t = .error := by
  cases t <;> simp [isError]

theorem isError_eq_false_iff {t : Ty} : t.isError = false ↔ t ≠ .error := by
  cases t <;> simp [isError]

theorem ne_error_of_hasPoison {t : Ty} (h : t.hasPoison = false) : t ≠ .error := by
  rintro rfl
  simp [hasPoison] at h

/-! ## Compatible types -/

/-- Compatible types without poison are equal, if no placeholder is left open. -/
theorem eq_of_compatible {loose : Bool} {a b : Ty} (ha : a.hasPoison = false)
    (hb : b.hasPoison = false)
    (hloose : loose = true → a.hasGenerics = false) (h : compatible loose a b = true) : a = b := by
  induction a using induction_parts generalizing b with
  | error => simp [hasPoison] at ha
  | generic n =>
    cases loose with
    | true => simp [hasGenerics] at hloose
    | false => cases b <;> simp_all [compatible, hasPoison]
  | prim p =>
    cases b with
    | prim q => simpa [compatible] using h
    | error => simp [hasPoison] at hb
    | _ => simp [compatible] at h
  | node a k hk ih =>
    rcases (compatible_iff hk).mp h with rfl | ⟨hk', hparts⟩
    · simp [hasPoison] at hb
    · refine eq_of_parts hk hk' (List.forall₂_eq_eq_eq ▸ forall₂_imp hparts fun u hu v hv huv => ?_)
      exact ih u hu ((hasPoison_iff hk).mp ha u hu) ((hasPoison_iff hk').mp hb v hv)
        (fun hl => (hasGenerics_iff hk).mp (hloose hl) u hu) huv

/-! ## Substitution -/

theorem subst_empty (t : Ty) : t.subst .empty = t := by
  induction t using induction_parts with
  | error | prim _ | generic _ => simp [subst]
  | node t k hk ih =>
    refine eq_of_parts (head?_subst _ hk) hk ?_
    rw [parts_subst _ hk, List.map_congr_left ih, List.map_id']

theorem substAll_empty (ts : List Ty) : substAll .empty ts = ts := by
  rw [substAll_eq_map, List.map_congr_left fun t _ => subst_empty t, List.map_id']

end Bindery.Ty
