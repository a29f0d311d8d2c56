import Bindery.Proofs.Ty.Poison

/-!
# The placeholders of a type

`Ty.placeholders` lists the placeholders that occur in a type. A substitution matters to a type only
at these names (`subst_congr`), inference from a declared type only records parts of the actual type
under them (`infer_induction`), and a parameter without placeholders leaves a call nothing to fill
in, so the loose check of an argument is then the strict one (`compatible_of_hasGenerics`).
-/

namespace Bindery

/-! ## Maps made from lists -/

namespace OrderedMap

variable {κ α : Type} [DecidableEq κ] {k : κ} {es : List (κ × α)}

theorem get?_foldl_insert_of_ne (m : OrderedMap κ α) (h : ∀ e ∈ es, e.1 ≠ k) :
    (es.foldl (fun m e => m.insert e.1 e.2) m).get? k = m.get? k := by
  induction es generalizing m with
  | nil => rfl
  | cons e es ih =>
    obtain ⟨hne, hrest⟩ := List.forall_mem_cons.mp h
    rw [List.foldl_cons, ih _ hrest, get?_insert, if_neg (Ne.symm hne)]

/-- All pairs with the key agree on its value. -/
theorem get?_foldl_insert_of_forall (m : OrderedMap κ α) {v : α} (hk : k ∈ es.map Prod.fst)
    (h : ∀ e ∈ es, e.1 = k → e.2 = v) :
    (es.foldl (fun m e => m.insert e.1 e.2) m).get? k = some v := by
  induction es generalizing m with
  | nil => simp at hk
  | cons e es ih =>
    obtain ⟨hfirst, hrest⟩ := List.forall_mem_cons.mp h
    rw [List.foldl_cons]
    by_cases hmem : k ∈ es.map Prod.fst
    · exact ih _ hmem hrest
    · -- the key stands only in the first pair
      have hkey : e.1 = k := by
        rcases List.mem_cons.mp hk with hkey | hmem'
        · exact hkey.symm
        · exact absurd hmem' hmem
      rw [get?_foldl_insert_of_ne, get?_insert, if_pos hkey.symm, hfirst hkey]
      intro e' he' heq
      exact hmem (heq ▸ List.mem_map_of_mem he')

theorem isSome_get?_foldl_insert (m : OrderedMap κ α)
    (h : k ∈ es.map Prod.fst ∨ (m.get? k).isSome = true) :
    ((es.foldl (fun m e => m.insert e.1 e.2) m).get? k).isSome = true := by
  induction es generalizing m with
  | nil => simpa using h
  | cons e es ih =>
    apply ih
    rw [get?_insert]
    by_cases hkey : k = e.1
    · simp [hkey]
    · simpa [hkey] using h

end OrderedMap

/-! ## Type arguments -/

namespace Subst

variable {params : List String} {n : String}

theorem get?_ofArguments_of_not_mem (args : List Ty) (h : n ∉ params) :
    (ofArguments params args).get? n = none := by
  rw [ofArguments, OrderedMap.ofList, OrderedMap.get?_foldl_insert_of_ne, OrderedMap.get?_empty]
  intro e he heq
  exact h (heq ▸ (List.of_mem_zip he).1)

theorem isSome_get?_ofArguments {args : List Ty} (hlength : args.length = params.length)
    (h : n ∈ params) :
    ((ofArguments params args).get? n).isSome = true := by
  apply OrderedMap.isSome_get?_foldl_insert
  left
  rwa [List.map_fst_zip (by omega)]

/-- Each parameter is sent to what the list of arguments was made from. -/
theorem get?_ofArguments_map (g : String → Ty) (h : n ∈ params) :
    (ofArguments params (params.map g)).get? n = some (g n) := by
  apply OrderedMap.get?_foldl_insert_of_forall
  · rwa [List.map_fst_zip (by simp)]
  · intro e he heq
    rw [← List.map_prod_left_eq_zip] at he
    obtain ⟨p, -, rfl⟩ := List.mem_map.mp he
    exact congrArg g heq

theorem get?_closeWith (s : Subst) :
    (s.closeWith params).get? n = if n ∈ params then some ((s.get? n).getD .error) else s.get? n := by
  induction params generalizing s with
  | nil => rfl
  | cons p params ih =>
    rw [closeWith, List.foldl_cons, ← closeWith, ih, OrderedMap.get?_insertNew]
    by_cases hp : n = p
    · subst hp
      by_cases hn : n ∈ params <;> simp [hn]
    · simp [hp]

end Subst

/-! ## Placeholders -/

namespace Ty

mutual

/-- The names of the placeholders in a type. -/
def placeholders : Ty → List String
  | .error | .prim _ => []
  | .generic n => [n]
  | .container _ t => placeholders t
  | .result v e => placeholders v ++ placeholders e
  | .fn ps r => allPlaceholders ps ++ placeholders r
  | .tuple ts => allPlaceholders ts
  | .nominal _ _ ts => allPlaceholders ts

/-- The names of the placeholders in some types. -/
def allPlaceholders : List Ty → List String
  | [] => []
  | t :: ts => placeholders t ++ allPlaceholders ts

end

theorem allPlaceholders_eq (ts : List Ty) : allPlaceholders ts = ts.flatMap placeholders := by
  induction ts with
  | nil => rfl
  | cons t ts ih => rw [allPlaceholders, ih, List.flatMap_cons]

theorem mem_allPlaceholders {n : String} {ts : List Ty} :
    n ∈ allPlaceholders ts ↔ ∃ t ∈ ts, n ∈ t.placeholders := by
  rw [allPlaceholders_eq, List.mem_flatMap]

variable {t : Ty} {k : Head}

theorem placeholders_eq (hk : t.head? = some k) : t.placeholders = t.parts.flatMap placeholders := by
  cases t <;> cases hk <;> simp [placeholders, parts, allPlaceholders_eq]

theorem mem_placeholders_of_mem (hk : t.head? = some k) {u : Ty} (hu : u ∈ t.parts) {n : String}
    (hn : n ∈ u.placeholders) : n ∈ t.placeholders := by
  rw [placeholders_eq hk]
  exact List.mem_flatMap.mpr ⟨u, hu, hn⟩

theorem hasGenerics_eq_false_iff (t : Ty) : t.hasGenerics = false ↔ t.placeholders = [] := by
  induction t using induction_parts with
  | error | prim _ | generic _ => simp [hasGenerics, placeholders]
  | node t k hk ih =>
    rw [hasGenerics_iff hk, placeholders_eq hk, List.flatMap_eq_nil_iff]
    exact forall₂_congr ih

/-- Substitutions that agree on the placeholders of a type do the same to it. -/
theorem subst_congr {s s' : Subst} (t : Ty) (h : ∀ n ∈ t.placeholders, s.get? n = s'.get? n) :
    t.subst s = t.subst s' := by
  induction t using induction_parts with
  | error | prim _ => rfl
  | generic n => rw [subst, subst, h n (by simp [placeholders])]
  | node t k hk ih =>
    refine eq_of_parts (head?_subst s hk) (head?_subst s' hk) ?_
    rw [parts_subst s hk, parts_subst s' hk]
    exact List.map_congr_left fun u hu => ih u hu fun n hn => h n (mem_placeholders_of_mem hk hu hn)

/-! ## Inference -/

/-- What holds of a type holds of the types in it. -/
structure Hereditary (A : Ty → Prop) : Prop where
  container {c : Container} {t : Ty} : A (.container c t) → A t
  result {v e : Ty} : A (.result v e) → A v ∧ A e
  fn {ps : List Ty} {r : Ty} : A (.fn ps r) → (∀ p ∈ ps, A p) ∧ A r
  tuple {ts : List Ty} : A (.tuple ts) → ∀ t ∈ ts, A t
  nominal {k : Nominal} {n : String} {ts : List Ty} : A (.nominal k n ts) → ∀ t ∈ ts, A t

theorem hereditary_true : Hereditary fun _ => True := by constructor <;> simp

theorem hereditary_hasPoison : Hereditary fun t => t.hasPoison = false := by
  constructor <;> simp [hasPoison, anyPoison_eq_false_iff]

section

variable {A : Ty → Prop} {P : Subst → Prop}

mutual

/-- Inference records types of the actual type, but no poison, under placeholders of the declared
type that have no entry, and does nothing else. -/
theorem infer_induction (hA : Hereditary A) (declared actual : Ty) (hactual : A actual)
    (hinsert : ∀ n ∈ declared.placeholders, ∀ t, A t → t ≠ .error → ∀ s : Subst, P s →
      P (s.insertNew n t))
    (s : Subst) (hs : P s) : P (declared.infer actual s) := by
  match declared with
  | .error | .prim _ => cases actual <;> exact hs
  | .generic n =>
    cases actual with
    | error => exact hs
    | _ => exact hinsert n List.mem_cons_self _ hactual nofun s hs
  | .container c a =>
    cases actual with
    | container d b =>
      rw [infer]
      split
      · exact infer_induction hA a b (hA.container hactual) hinsert s hs
      · exact hs
    | _ => exact hs
  | .result v e =>
    cases actual with
    | result w f =>
      obtain ⟨hv, he⟩ := List.forall_mem_append.mp hinsert
      exact infer_induction hA e f (hA.result hactual).2 he _
        (infer_induction hA v w (hA.result hactual).1 hv s hs)
    | _ => exact hs
  | .fn ps r =>
    cases actual with
    | fn qs q =>
      obtain ⟨hps, hr⟩ := List.forall_mem_append.mp hinsert
      exact infer_induction hA r q (hA.fn hactual).2 hr _
        (inferAll_induction hA ps qs (hA.fn hactual).1 hps s hs)
    | _ => exact hs
  | .tuple as =>
    cases actual with
    | tuple bs => exact inferAll_induction hA as bs (hA.tuple hactual) hinsert s hs
    | _ => exact hs
  | .nominal k m as =>
    cases actual with
    | nominal l o bs =>
      rw [infer]
      split
      · exact inferAll_induction hA as bs (hA.nominal hactual) hinsert s hs
      · exact hs
    | _ => exact hs

theorem inferAll_induction (hA : Hereditary A) (declared actual : List Ty)
    (hactual : ∀ t ∈ actual, A t)
    (hinsert : ∀ n ∈ allPlaceholders declared, ∀ t, A t → t ≠ .error → ∀ s : Subst, P s →
      P (s.insertNew n t))
    (s : Subst) (hs : P s) : P (inferAll declared actual s) := by
  match declared, actual with
  | [], actual => cases actual <;> exact hs
  | _ :: _, [] => exact hs
  | a :: as, b :: bs =>
    obtain ⟨ha, has⟩ := List.forall_mem_append.mp hinsert
    obtain ⟨hb, hbs⟩ := List.forall_mem_cons.mp hactual
    exact inferAll_induction hA as bs hbs has _ (infer_induction hA a b hb ha s hs)

end

end

theorem get?_insertNew_of_not_mem {n m : String} {names : List String} (h : n ∉ names)
    (hm : m ∈ names) (t : Ty)
    (s : Subst) : (s.insertNew m t).get? n = s.get? n := by
  rw [OrderedMap.get?_insertNew, if_neg]
  rintro rfl
  exact h hm

/-- Inference records nothing under a name that the declared type does not mention. -/
theorem get?_infer {n : String} (declared actual : Ty) (s : Subst) (h : n ∉ declared.placeholders) :
    (declared.infer actual s).get? n = s.get? n :=
  infer_induction hereditary_true declared actual trivial
    (fun _ hm t _ _ s' hs' => (get?_insertNew_of_not_mem h hm t s').trans hs') s rfl

theorem get?_inferAll {n : String} (declared actual : List Ty) (s : Subst)
    (h : n ∉ allPlaceholders declared) : (inferAll declared actual s).get? n = s.get? n :=
  inferAll_induction hereditary_true declared actual (fun _ _ => trivial)
    (fun _ hm t _ _ s' hs' => (get?_insertNew_of_not_mem h hm t s').trans hs') s rfl

/-- Nothing is inferred from a declared type without placeholders. -/
theorem infer_of_hasGenerics {declared : Ty} (h : declared.hasGenerics = false) (actual : Ty)
    (s : Subst) : declared.infer actual s = s :=
  infer_induction (P := (· = s)) hereditary_true declared actual trivial
    (fun n hn => by simp [(hasGenerics_eq_false_iff declared).mp h] at hn) s rfl

/-! ## Arguments -/

/-- A type without placeholders is compared the same way, loosely or not. -/
theorem compatible_of_hasGenerics {a : Ty} (b : Ty) (h : a.hasGenerics = false) (loose : Bool) :
    compatible loose a b = a.accepts b := by
  unfold accepts
  induction a using induction_parts generalizing b with
  | error => simp [compatible]
  | generic _ => simp [hasGenerics] at h
  | prim _ => cases b <;> simp [compatible]
  | node a k hk ih =>
    have hparts := (hasGenerics_iff hk).mp h
    rw [Bool.eq_iff_iff, compatible_iff hk, compatible_iff hk]
    refine or_congr_right (and_congr_right fun _ => ⟨fun hall => ?_, fun hall => ?_⟩)
    · exact forall₂_imp hall fun u hu v _ huv => ih u hu v (hparts u hu) ▸ huv
    · exact forall₂_imp hall fun u hu v _ huv => (ih u hu v (hparts u hu)).symm ▸ huv

end Ty

end Bindery
