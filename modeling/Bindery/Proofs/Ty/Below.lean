import Bindery.Proofs.Ty.Placeholders

/-!
# Types that are poisoned in places

`a.Below b` says that the type `a` is `b`, except that some parts of it are poisoned. Whatever fits
a type fits it still when parts on either side are poisoned, and two types that are poisoned forms
of one type fit each other.

A substitution is under another if it sends names to poisoned forms of what the other sends them to.
What is inferred from a poisoned form of a type is under what the type itself says.
-/

namespace Bindery

namespace Ty

mutual

/-- The first type is the second one, except that parts of it are poisoned. -/
inductive Below : Ty → Ty → Prop
  | error (t : Ty) : Below .error t
  | prim (p : Prim) : Below (.prim p) (.prim p)
  | generic (n : String) : Below (.generic n) (.generic n)
  | container (c : Container) {a b : Ty} (h : Below a b) : Below (.container c a) (.container c b)
  | result {v e w f : Ty} (hv : Below v w) (he : Below e f) : Below (.result v e) (.result w f)
  | fn {ps qs : List Ty} {r q : Ty} (hps : BelowAll ps qs) (hr : Below r q) :
    Below (.fn ps r) (.fn qs q)
  | tuple {as bs : List Ty} (h : BelowAll as bs) : Below (.tuple as) (.tuple bs)
  | nominal (k : Nominal) (n : String) {as bs : List Ty} (h : BelowAll as bs) :
    Below (.nominal k n as) (.nominal k n bs)

/-- The same for lists, place by place. -/
inductive BelowAll : List Ty → List Ty → Prop
  | nil : BelowAll [] []
  | cons {a b : Ty} {as bs : List Ty} (h : Below a b) (hs : BelowAll as bs) :
    BelowAll (a :: as) (b :: bs)

end

theorem belowAll_iff {as bs : List Ty} : BelowAll as bs ↔ List.Forall₂ Below as bs := by
  constructor
  · intro h
    induction as generalizing bs with
    | nil =>
      cases h
      exact .nil
    | cons a as ih =>
      cases h with
      | cons h hs => exact .cons h (ih hs)
  · intro h
    induction h with
    | nil => exact .nil
    | cons h _ ih => exact .cons h ih

/-- A poisoned form of a type with parts is poison, or it has the same head and poisoned forms of
the parts. -/
theorem below_iff {a b : Ty} {k : Head} (hk : b.head? = some k) :
    Below a b ↔ a = .error ∨ a.head? = some k ∧ List.Forall₂ Below a.parts b.parts := by
  constructor
  · intro h
    cases h with
    | error => exact .inl rfl
    | prim | generic => cases hk
    | container c h => exact .inr ⟨hk, .cons h .nil⟩
    | result hv he => exact .inr ⟨hk, .cons hv (.cons he .nil)⟩
    | fn hps hr => exact .inr ⟨hk, forall₂_concat.mpr ⟨belowAll_iff.mp hps, hr⟩⟩
    | tuple h | nominal _ _ h => exact .inr ⟨hk, belowAll_iff.mp h⟩
  · rintro (rfl | ⟨hk', hparts⟩)
    · exact .error b
    · cases b <;> cases hk <;> cases a <;> cases hk' <;>
        simp only [parts, forall₂_concat, List.forall₂_cons, ← belowAll_iff] at hparts
      · exact .container _ hparts.1
      · exact .result hparts.1 hparts.2.1
      · exact .fn hparts.1 hparts.2
      · exact .tuple hparts
      · exact .nominal _ _ hparts

theorem below_refl (t : Ty) : Below t t := by
  induction t using induction_parts with
  | error => exact .error _
  | prim p => exact .prim p
  | generic n => exact .generic n
  | node t k hk ih => exact (below_iff hk).mpr (.inr ⟨hk, List.forall₂_same.mpr ih⟩)

theorem belowAll_refl (ts : List Ty) : BelowAll ts ts :=
  belowAll_iff.mpr (List.forall₂_same.mpr fun t _ => below_refl t)

theorem below_of_eq {a b : Ty} (h : a = b) : Below a b := h ▸ below_refl a

namespace Below

variable {t : Ty}

theorem eq_error (h : t.Below .error) : t = .error := by
  cases h
  rfl

/-- A poisoned form of a type without parts is poison or the type itself. -/
theorem eq_error_or_prim {p : Prim} (h : t.Below (.prim p)) : t = .error ∨ t = .prim p := by
  cases h with
  | error => exact .inl rfl
  | prim => exact .inr rfl

/-- A poisoned form of a container is poison or a container of the same kind. -/
theorem eq_error_or_container {c : Container} {a : Ty} (h : t.Below (.container c a)) :
    t = .error ∨ ∃ a', t = .container c a' ∧ a'.Below a := by
  cases h with
  | error => exact .inl rfl
  | container _ ha => exact .inr ⟨_, rfl, ha⟩

end Below

namespace BelowAll

theorem length_eq {as bs : List Ty} (h : BelowAll as bs) : as.length = bs.length :=
  (belowAll_iff.mp h).length_eq

theorem of_map {α : Type} {f g : α → Ty} {l : List α} (h : ∀ x ∈ l, Below (f x) (g x)) :
    BelowAll (l.map f) (l.map g) := by
  induction l with
  | nil => exact .nil
  | cons x l ih =>
    obtain ⟨hfirst, hrest⟩ := List.forall_mem_cons.mp h
    exact .cons hfirst (ih hrest)

/-- Poison in all places. -/
theorem replicate (ts : List Ty) : BelowAll (List.replicate ts.length .error) ts := by
  induction ts with
  | nil => exact .nil
  | cons t ts ih => exact .cons (.error t) ih

end BelowAll

/-! ## Compatible types -/

/-- What fits still fits when parts of it are poisoned. -/
theorem compatible_mono {loose : Bool} {a b a' b' : Ty} (h : compatible loose a b = true)
    (ha : Below a' a)
    (hb : Below b' b) : compatible loose a' b' = true := by
  induction a using induction_parts generalizing b a' b' with
  | error => simp [ha.eq_error, compatible]
  | prim p =>
    cases ha with
    | error => simp [compatible]
    | prim =>
      cases hb with
      | error => simp [compatible]
      | prim q => exact h
      | _ => simp [compatible] at h
  | generic n =>
    cases ha with
    | error => simp [compatible]
    | generic =>
      cases hb with
      | error => simp [compatible]
      | generic m => exact h
      | _ => exact h
  | node a k hk ih =>
    rcases (below_iff hk).mp ha with rfl | ⟨hk', hparts⟩
    · simp [compatible]
    · rw [compatible_iff hk']
      rcases (compatible_iff hk).mp h with rfl | ⟨hb', hall⟩
      · exact .inl hb.eq_error
      · rcases (below_iff hb').mp hb with rfl | ⟨hb'', hparts'⟩
        · exact .inl rfl
        · exact .inr ⟨hb'', forall₂_trans hparts hall hparts' fun u hu _ _ _ _ hu' huv hv' =>
            ih u hu huv hu' hv'⟩

theorem compatibleAll_mono {loose : Bool} {as bs as' bs' : List Ty}
    (h : compatibleAll loose as bs = true)
    (ha : BelowAll as' as) (hb : BelowAll bs' bs) : compatibleAll loose as' bs' = true :=
  @compatible_mono loose (.tuple as) (.tuple bs) _ _ h (.tuple ha) (.tuple hb)

theorem compatible_self (loose : Bool) (t : Ty) : compatible loose t t = true := by
  induction t using induction_parts with
  | error | prim _ | generic _ => simp [compatible]
  | node t k hk ih => exact (compatible_iff hk).mpr (.inr ⟨hk, List.forall₂_same.mpr ih⟩)

theorem compatibleAll_self (loose : Bool) (ts : List Ty) : compatibleAll loose ts ts = true :=
  compatible_self loose (.tuple ts)

/-- Poisoned forms of one type fit each other. -/
theorem Below.compatible {a b t : Ty} (ha : Below a t) (hb : Below b t) (loose : Bool) :
    compatible loose a b = true := compatible_mono (compatible_self loose t) ha hb

/-! ## Substitution -/

theorem Below.subst {a b : Ty} {s t : Subst} (h : Below a b)
    (hs : ∀ n ∈ a.placeholders, Below ((s.get? n).getD (.generic n)) ((t.get? n).getD (.generic n))) :
    Below (a.subst s) (b.subst t) := by
  induction b using induction_parts generalizing a with
  | error =>
    rw [h.eq_error]
    exact .error _
  | prim p =>
    cases h with
    | error => exact .error _
    | prim => exact .prim p
  | generic n =>
    cases h with
    | error => exact .error _
    | generic => exact hs n (by simp [placeholders])
  | node b k hk ih =>
    rcases (below_iff hk).mp h with rfl | ⟨hk', hparts⟩
    · exact .error _
    · rw [below_iff (head?_subst t hk), parts_subst t hk, parts_subst s hk', List.forall₂_map_left_iff,
        List.forall₂_map_right_iff]
      refine .inr ⟨head?_subst s hk', forall₂_imp hparts fun u hu v hv huv => ih v hv huv
        fun n hn => ?_⟩
      exact hs n (mem_placeholders_of_mem hk' hu hn)

end Ty

/-! ## Substitutions -/

namespace Subst

open Ty

variable {s t u : Subst} {params : List String} {as bs : List Ty}

/-- What the first substitution knows is a poisoned form of what the second one says. -/
def Under (s t : Subst) : Prop := ∀ n a, s.get? n = some a → Below a ((t.get? n).getD (.generic n))

/-- The second substitution knows all that the first one knows. -/
def Kept (s t : Subst) : Prop := ∀ n a, s.get? n = some a → t.get? n = some a

theorem under_empty (t : Subst) : Under .empty t := by
  intro n a ha
  simp at ha

theorem kept_refl (s : Subst) : s.Kept s := fun _ _ h => h

theorem Kept.trans (h : s.Kept t) (h' : t.Kept u) : s.Kept u := fun n a ha => h' n a (h n a ha)

theorem kept_insertNew (s : Subst) (n : String) (a : Ty) : s.Kept (s.insertNew n a) := by
  intro m b hb
  rw [OrderedMap.get?_insertNew]
  split
  · next hm =>
    subst hm
    rw [hb]
    rfl
  · exact hb

theorem Under.insertNew {n : String} {a : Ty} (h : s.Under t)
    (ha : Below a ((t.get? n).getD (.generic n))) :
    Under (s.insertNew n a) t := by
  intro m b hb
  rw [OrderedMap.get?_insertNew] at hb
  split at hb
  · next hm =>
    subst hm
    cases hm : s.get? m with
    | some c =>
      rw [hm] at hb
      cases hb
      exact h m _ hm
    | none =>
      rw [hm] at hb
      cases hb
      exact ha
  · exact h m b hb

/-- Poisoned arguments stand where the arguments themselves stand. -/
theorem foldl_insert_below (h : BelowAll as bs) {m m' : Subst}
    (hm : ∀ n, Option.Rel Below (m.get? n) (m'.get? n)) (n : String) :
    Option.Rel Below (((params.zip as).foldl (fun m e => m.insert e.1 e.2) m).get? n)
      (((params.zip bs).foldl (fun m e => m.insert e.1 e.2) m').get? n) := by
  induction params generalizing as bs m m' with
  | nil => exact hm n
  | cons p params ih =>
    cases h with
    | nil => exact hm n
    | cons hfirst hrest =>
      apply ih hrest
      intro k
      rw [OrderedMap.get?_insert, OrderedMap.get?_insert]
      split
      · exact .some hfirst
      · exact hm k

theorem rel_ofArguments (h : BelowAll as bs) (n : String) :
    Option.Rel Below ((ofArguments params as).get? n) ((ofArguments params bs).get? n) :=
  foldl_insert_below h (fun _ => .none) n

theorem under_ofArguments (h : BelowAll as bs) :
    (ofArguments params as).Under (ofArguments params bs) := by
  intro n a ha
  have hrel := @rel_ofArguments params as bs h n
  rw [ha] at hrel
  cases hb : (ofArguments params bs).get? n with
  | none =>
    rw [hb] at hrel
    cases hrel
  | some b =>
    rw [hb] at hrel
    cases hrel with
    | some hab => exact hab

theorem below_ofArguments (h : BelowAll as bs) (n : String) :
    Below (((ofArguments params as).get? n).getD (.generic n))
      (((ofArguments params bs).get? n).getD (.generic n)) := by
  have hrel := @rel_ofArguments params as bs h n
  generalize (ofArguments params as).get? n = x at hrel
  generalize (ofArguments params bs).get? n = y at hrel
  cases hrel with
  | some hab => exact hab
  | none => exact .generic n

/-- The types that stand for the parameters, if the second substitution says what they are. -/
theorem Under.instantiate {g : String → Ty} (h : s.Under t)
    (ht : ∀ p ∈ params, t.get? p = some (g p)) :
    BelowAll (s.instantiate params) (params.map g) := by
  apply BelowAll.of_map
  intro p hp
  cases hs : s.get? p with
  | none => exact .error _
  | some a =>
    have ha := h p a hs
    rwa [ht p hp] at ha

/-! ### Closed substitutions -/

/-- What stands for the parameters once all of them are settled. -/
theorem get?_ofArguments_instantiate (s : Subst) {n : String} (h : n ∈ params) :
    (ofArguments params ((s.closeWith params).instantiate params)).get? n =
      some ((s.get? n).getD .error) := by
  rw [instantiate, get?_ofArguments_map _ h, get?_closeWith, if_pos h]
  rfl

/-- Explicit type arguments stay what they are. -/
theorem under_closeWith {args : List Ty} (hs : s = ofArguments params args) :
    s.Under (ofArguments params ((s.closeWith params).instantiate params)) := by
  intro n a ha
  by_cases hn : n ∈ params
  · rw [get?_ofArguments_instantiate s hn, ha]
    exact below_refl a
  · rw [hs, get?_ofArguments_of_not_mem args hn] at ha
    cases ha

/-- Substitutions of the same parameters, one under the type arguments of the other. -/
theorem below_closeWith (h : s.Under (ofArguments params ((t.closeWith params).instantiate params)))
    (hs : ∀ n, n ∉ params → s.get? n = none) (ht : ∀ n, n ∉ params → t.get? n = none) (n : String) :
    Below (((s.closeWith params).get? n).getD (.generic n))
      (((t.closeWith params).get? n).getD (.generic n)) := by
  rw [get?_closeWith, get?_closeWith]
  by_cases hn : n ∈ params
  · rw [if_pos hn, if_pos hn]
    cases ha : s.get? n with
    | none => exact .error _
    | some a =>
      have hbelow := h n a ha
      rwa [get?_ofArguments_instantiate t hn] at hbelow
  · rw [if_neg hn, if_neg hn, hs n hn, ht n hn]
    exact .generic n

end Subst

namespace Ty

open Subst

variable {s t u : Subst} {declared actual a : Ty}

/-! ## Inference -/

/-- Inference never changes an entry. -/
theorem kept_infer (declared actual : Ty) (s : Subst) : s.Kept (declared.infer actual s) :=
  infer_induction hereditary_true declared actual trivial
    (fun n _ a _ _ s' hs' => hs'.trans (kept_insertNew s' n a)) s (kept_refl s)

theorem kept_inferAll (declared actual : List Ty) (s : Subst) : s.Kept (inferAll declared actual s) :=
  inferAll_induction hereditary_true declared actual (fun _ _ => trivial)
    (fun n _ a _ _ s' hs' => hs'.trans (kept_insertNew s' n a)) s (kept_refl s)

theorem infer_error (declared : Ty) (s : Subst) :
    declared.infer .error s = s := by cases declared <;> rfl

/-- What every pair of types keeps, the lists keep. -/
theorem inferAll_of_forall {P : Subst → Prop} {as bs : List Ty}
    (h : ∀ p ∈ as.zip bs, ∀ s, P s → P (p.1.infer p.2 s)) (hs : P s) : P (inferAll as bs s) := by
  induction as generalizing bs s with
  | nil => cases bs <;> exact hs
  | cons a as ih =>
    cases bs with
    | nil => exact hs
    | cons b bs =>
      obtain ⟨hfirst, hrest⟩ := List.forall_mem_cons.mp h
      exact ih hrest (hfirst s hs)

/-- What is kept of the lists is kept of every pair. -/
theorem kept_of_inferAll {as bs : List Ty} (h : (inferAll as bs s).Kept u) :
    ∀ p ∈ as.zip bs, ∃ s', (p.1.infer p.2 s').Kept u := by
  induction as generalizing bs s with
  | nil => simp
  | cons a as ih =>
    cases bs with
    | nil => simp
    | cons b bs => exact List.forall_mem_cons.mpr ⟨⟨s, (kept_inferAll as bs _).trans h⟩, ih h⟩

theorem below_subst_iff {k : Head} (hk : declared.head? = some k) :
    Below actual (declared.subst t) ↔ actual = .error ∨
      actual.head? = some k ∧ List.Forall₂ (fun d a => Below a (d.subst t)) declared.parts
        actual.parts := by
  rw [below_iff (head?_subst t hk), parts_subst t hk, List.forall₂_map_right_iff]
  exact or_congr_right (and_congr_right fun _ => ⟨.flip, .flip⟩)

theorem compatible_subst_iff {loose : Bool} {k : Head} (hk : declared.head? = some k) :
    compatible loose (declared.subst t) actual = true ↔ actual = .error ∨ actual.head? = some k ∧
      List.Forall₂ (fun d a => compatible loose (d.subst t) a = true) declared.parts actual.parts := by
  rw [compatible_iff (head?_subst t hk), parts_subst t hk, List.forall₂_map_left_iff]

/-- What is inferred from a poisoned form of a type is under what the type itself says. -/
theorem under_infer (h : Below actual (declared.subst t)) (hs : s.Under t) :
    (declared.infer actual s).Under t := by
  induction declared using induction_parts generalizing actual s with
  | error =>
    cases h
    exact hs
  | prim p =>
    cases h with
    | error => exact hs
    | prim => exact hs
  | generic n =>
    cases actual with
    | error => exact hs
    | _ => exact hs.insertNew h
  | node d k hk ih =>
    rcases (below_subst_iff hk).mp h with rfl | ⟨hk', hparts⟩
    · rwa [infer_error]
    · rw [infer_eq_inferAll hk hk' hparts.length_eq]
      refine inferAll_of_forall (P := (·.Under t)) (fun p hp s hs => ?_) hs
      exact ih p.1 (List.of_mem_zip hp).1 (List.forall₂_zip hparts hp) hs

theorem under_inferAll {declared actual : List Ty} (h : BelowAll actual (substAll t declared))
    (hs : s.Under t) : (inferAll declared actual s).Under t :=
  @under_infer s t (.tuple declared) (.tuple actual) (.tuple h) hs

/-- A placeholder has an entry once a type was looked at in its place, that type unless another one
was recorded before. -/
theorem exists_get?_infer_generic (h : actual.isError = false) (n : String) (s : Subst) :
    ∃ a, ((Ty.generic n).infer actual s).get? n = some a := by
  cases actual with
  | error => cases h
  | _ => exact Option.isSome_iff_exists.mp (by simp [infer, OrderedMap.get?_insertNew])

/-- Once a poisoned form of the type was looked at, the declared type fits it: a placeholder that is
still open stands where the form is poisoned. -/
theorem accepts_of_infer (h : Below actual (declared.subst t)) (hu : u.Under t)
    (hkept : (declared.infer actual s).Kept u) :
    compatible false (declared.subst u) actual = true := by
  induction declared using induction_parts generalizing actual s with
  | error => simp [subst, compatible]
  | prim p =>
    cases h with
    | error => simp [subst, compatible]
    | prim => exact compatible_self false _
  | generic n =>
    cases hactual : actual.isError with
    | true =>
      rw [isError_eq_true_iff.mp hactual]
      exact compatible_mono (compatible_self false _) (below_refl _) (.error _)
    | false =>
      obtain ⟨a, ha⟩ := exists_get?_infer_generic hactual n s
      have hn := hkept n a ha
      have hbelow := hu n a hn
      rw [subst, hn]
      exact hbelow.compatible h false
  | node d k hk ih =>
    rw [compatible_subst_iff hk]
    rcases (below_subst_iff hk).mp h with rfl | ⟨hk', hparts⟩
    · exact .inl rfl
    · rw [infer_eq_inferAll hk hk' hparts.length_eq] at hkept
      refine .inr ⟨hk', List.forall₂_iff_zip.mpr ⟨hparts.length_eq, fun {d a} hp => ?_⟩⟩
      obtain ⟨s', hs'⟩ := kept_of_inferAll hkept _ hp
      exact ih d (List.of_mem_zip hp).1 (List.forall₂_zip hparts hp) hs'

/-- A declared type fits a poisoned form of what it says, if its open placeholders fit anything. -/
theorem acceptsArgument_of_under (h : Below actual (declared.subst t)) (hs : s.Under t) :
    compatible true (declared.subst s) actual = true := by
  induction declared using induction_parts generalizing actual with
  | error => simp [subst, compatible]
  | prim p =>
    cases h with
    | error => simp [subst, compatible]
    | prim => exact compatible_self true _
  | generic n =>
    rw [subst]
    cases hn : s.get? n with
    | none => cases actual <;> simp [compatible]
    | some a => exact (hs n a hn).compatible h true
  | node d k hk ih =>
    rw [compatible_subst_iff hk]
    rcases (below_subst_iff hk).mp h with rfl | ⟨hk', hparts⟩
    · exact .inl rfl
    · exact .inr ⟨hk', forall₂_imp hparts fun d hd _ _ => ih d hd⟩

theorem acceptsArguments_of_under {declared actual : List Ty}
    (h : BelowAll actual (substAll t declared))
    (hs : s.Under t) : compatibleAll true (substAll s declared) actual = true :=
  @acceptsArgument_of_under s t (.tuple declared) (.tuple actual) (.tuple h) hs

/-! ## Types that are filled in -/

/-- A placeholder that is not filled in stays. -/
theorem isSome_of_hasGenerics (h : (a.subst s).hasGenerics = false) :
    ∀ n ∈ a.placeholders, (s.get? n).isSome = true := by
  intro n hn
  induction a using induction_parts with
  | error | prim _ => cases hn
  | generic m =>
    obtain rfl : n = m := by simpa [placeholders] using hn
    rw [subst] at h
    cases hm : s.get? n with
    | none => simp [hm, hasGenerics] at h
    | some => rfl
  | node a k hk ih =>
    rw [hasGenerics_iff (head?_subst s hk), parts_subst s hk, List.forall_mem_map] at h
    rw [placeholders_eq hk] at hn
    obtain ⟨u, hu, hn⟩ := List.mem_flatMap.mp hn
    exact ih u hu (h u hu) hn

/-- A type that is filled in completely is a poisoned form of what it stands for. -/
theorem below_of_hasGenerics (h : (a.subst s).hasGenerics = false) (hs : s.Under t) :
    Below (a.subst s) (a.subst t) := by
  apply (below_refl a).subst
  intro n hn
  obtain ⟨b, hb⟩ := Option.isSome_iff_exists.mp (isSome_of_hasGenerics h n hn)
  rw [hb]
  exact hs n b hb

/-- Where a declared type without open places fits a type without poison, all its placeholders are
recorded. -/
theorem isSome_infer (hactual : actual.hasPoison = false)
    (h : compatible false (declared.subst t) actual = true)
    (hkept : (declared.infer actual s).Kept u) :
    ∀ n ∈ declared.placeholders, (u.get? n).isSome = true := by
  intro n hn
  induction declared using induction_parts generalizing actual s with
  | error | prim _ => cases hn
  | generic m =>
    obtain rfl : n = m := by simpa [placeholders] using hn
    obtain ⟨a, ha⟩ :=
      exists_get?_infer_generic (isError_eq_false_iff.mpr (ne_error_of_hasPoison hactual)) n s
    rw [hkept n a ha]
    rfl
  | node d k hk ih =>
    rcases (compatible_subst_iff hk).mp h with rfl | ⟨hk', hparts⟩
    · cases hactual
    · rw [infer_eq_inferAll hk hk' hparts.length_eq] at hkept
      rw [placeholders_eq hk] at hn
      obtain ⟨d, hd, hn⟩ := List.mem_flatMap.mp hn
      rw [← List.map_fst_zip (Nat.le_of_eq hparts.length_eq)] at hd
      obtain ⟨p, hp, rfl⟩ := List.mem_map.mp hd
      obtain ⟨s', hs'⟩ := kept_of_inferAll hkept p hp
      obtain ⟨hd, ha⟩ := List.of_mem_zip hp
      exact ih p.1 hd ((hasPoison_iff hk').mp hactual p.2 ha) (List.forall₂_zip hparts hp) hs' hn

/-- What is recorded was known before, or it is a part of the actual type. -/
theorem hasPoison_of_infer {n : String}
    (hactual : actual.hasPoison = false) (h : (declared.infer actual s).get? n = some a) :
    s.get? n = some a ∨ a.hasPoison = false := by
  refine infer_induction (P := fun s' => s'.get? n = some a → s.get? n = some a ∨ a.hasPoison = false)
    hereditary_hasPoison declared actual hactual ?_ s .inl h
  intro m _ b hb _ s' hs' h
  rw [OrderedMap.get?_insertNew] at h
  split at h
  · next heq =>
    subst heq
    cases hold : s'.get? n with
    | some c =>
      rw [hold] at h
      exact hs' (hold.trans h)
    | none =>
      rw [hold] at h
      cases h
      exact .inr hb
  · exact hs' h

/-- A type without poison stays so where no poison is put in. -/
theorem hasPoison_subst (h : a.hasPoison = false)
    (hs : ∀ n b, s.get? n = some b → b.hasPoison = false) : (a.subst s).hasPoison = false := by
  induction a using induction_parts with
  | error => simp [hasPoison] at h
  | prim _ => rfl
  | generic n =>
    rw [subst]
    cases hn : s.get? n with
    | none => rfl
    | some b => exact hs n b hn
  | node a k hk ih =>
    rw [hasPoison_iff (head?_subst s hk), parts_subst s hk, List.forall_mem_map]
    exact fun u hu => ih u hu ((hasPoison_iff hk).mp h u hu)

/-- A type without poison that fits what was read off it is exactly that. -/
theorem eq_subst_of_infer (hdeclared : declared.hasPoison = false)
    (hactual : actual.hasPoison = false)
    (h : (declared.subst (declared.infer actual s)).accepts actual = true)
    (hsound : ∀ n a, (declared.infer actual s).get? n = some a → a.hasPoison = false)
    (hkept : (declared.infer actual s).Kept t) : actual = declared.subst t := by
  have heq := eq_of_compatible (hasPoison_subst hdeclared hsound) hactual (by simp) h
  rw [← heq]
  apply subst_congr
  intro n hn
  obtain ⟨a, ha⟩ := Option.isSome_iff_exists.mp (isSome_infer hactual h (kept_refl _) n hn)
  rw [ha, hkept n a ha]

end Ty

end Bindery
