import Bindery.Proofs.Ty.Builtins

/-!
# Compatibility is consistency

Poison stands for a type that is not known. Two types are compatible exactly if they are poisoned
forms of one type (`Ty.accepts_iff_exists_below`), and a parameter takes an argument exactly if its
placeholders can be filled in, each at its own place, so that the result accepts the argument
(`Ty.acceptsArgument_iff_exists_filled`). Compatibility is not transitive: poison fits both `Int`
and `Bool`.

What is compatible stays so when more is poisoned, and so does the result of a built-in function.
-/

namespace Bindery

namespace Ty

variable {a d b : Ty}

/-! ## Common forms -/

/-- Compatible types are poisoned forms of one type: where one of them is poison, the other says
what stands there. -/
theorem exists_below_of_compatible (h : compatible false a b = true) : ∃ u, Below a u ∧ Below b u := by
  induction a using induction_parts generalizing b with
  | error => exact ⟨b, .error b, below_refl b⟩
  | prim p =>
    cases b with
    | error => exact ⟨_, below_refl _, .error _⟩
    | prim q =>
      obtain rfl : p = q := by simpa [compatible] using h
      exact ⟨_, .prim p, .prim p⟩
    | _ => simp [compatible] at h
  | generic n =>
    cases b with
    | error => exact ⟨_, below_refl _, .error _⟩
    | generic m =>
      obtain rfl : n = m := by simpa [compatible] using h
      exact ⟨_, .generic n, .generic n⟩
    | _ => simp [compatible] at h
  | node a k hk ih =>
    rcases (compatible_iff hk).mp h with rfl | ⟨hk', hparts⟩
    · exact ⟨a, below_refl a, .error a⟩
    · -- the heads agree, so common forms of the parts make a common form of the types
      obtain ⟨us, ha, hb⟩ := exists_forall₂ (forall₂_imp hparts fun c hc _ _ => ih c hc)
      obtain ⟨u, hu, rfl⟩ := exists_parts hk ha.length_eq
      exact ⟨u, (below_iff hu).mpr (.inr ⟨hk, ha.flip⟩), (below_iff hu).mpr (.inr ⟨hk', hb.flip⟩)⟩

theorem accepts_iff_exists_below : a.accepts b = true ↔ ∃ u, a.Below u ∧ b.Below u := by
  constructor
  · exact exists_below_of_compatible
  · rintro ⟨u, ha, hb⟩
    exact ha.compatible hb false

theorem accepts_comm (a b : Ty) : a.accepts b = b.accepts a := by
  rw [Bool.eq_iff_iff, accepts_iff_exists_below, accepts_iff_exists_below]
  exact exists_congr fun u => And.comm

theorem accepts_iff_eq (ha : a.hasPoison = false) (hb : b.hasPoison = false) :
    a.accepts b = true ↔ a = b := by
  constructor
  · exact eq_of_compatible ha hb (by simp)
  · rintro rfl
    exact compatible_self false a

/-! ## Filled placeholders -/

mutual

/-- The second type is the first one, with any type in the place of each placeholder. The places are
independent of each other, and a placeholder may stay. -/
inductive Filled : Ty → Ty → Prop
  | error : Filled .error .error
  | prim (p : Prim) : Filled (.prim p) (.prim p)
  | generic (n : String) (t : Ty) : Filled (.generic n) t
  | container (c : Container) {d d' : Ty} (h : Filled d d') : Filled (.container c d) (.container c d')
  | result {v e v' e' : Ty} (hv : Filled v v') (he : Filled e e') :
    Filled (.result v e) (.result v' e')
  | fn {ps ps' : List Ty} {r r' : Ty} (hps : FilledAll ps ps') (hr : Filled r r') :
    Filled (.fn ps r) (.fn ps' r')
  | tuple {ds ds' : List Ty} (h : FilledAll ds ds') : Filled (.tuple ds) (.tuple ds')
  | nominal (k : Nominal) (n : String) {ds ds' : List Ty} (h : FilledAll ds ds') :
    Filled (.nominal k n ds) (.nominal k n ds')

/-- The same for lists, place by place. -/
inductive FilledAll : List Ty → List Ty → Prop
  | nil : FilledAll [] []
  | cons {d d' : Ty} {ds ds' : List Ty} (h : Filled d d') (hs : FilledAll ds ds') :
    FilledAll (d :: ds) (d' :: ds')

end

theorem filledAll_iff {ds ds' : List Ty} : FilledAll ds ds' ↔ List.Forall₂ Filled ds ds' := by
  constructor
  · intro h
    induction ds generalizing ds' with
    | nil =>
      cases h
      exact .nil
    | cons d ds ih =>
      cases h with
      | cons h hs => exact .cons h (ih hs)
  · intro h
    induction h with
    | nil => exact .nil
    | cons h _ ih => exact .cons h ih

theorem filled_iff {d' : Ty} {k : Head} (hk : d.head? = some k) :
    Filled d d' ↔ d'.head? = some k ∧ List.Forall₂ Filled d.parts d'.parts := by
  constructor
  · intro h
    cases h with
    | error | prim | generic => cases hk
    | container c h => exact ⟨hk, .cons h .nil⟩
    | result hv he => exact ⟨hk, .cons hv (.cons he .nil)⟩
    | fn hps hr => exact ⟨hk, forall₂_concat.mpr ⟨filledAll_iff.mp hps, hr⟩⟩
    | tuple h | nominal _ _ h => exact ⟨hk, filledAll_iff.mp h⟩
  · rintro ⟨hk', hparts⟩
    cases d <;> cases hk <;> cases d' <;> cases hk' <;>
      simp only [parts, forall₂_concat, List.forall₂_cons, ← filledAll_iff] at hparts
    · exact .container _ hparts.1
    · exact .result hparts.1 hparts.2.1
    · exact .fn hparts.1 hparts.2
    · exact .tuple hparts
    · exact .nominal _ _ hparts

theorem filled_self (d : Ty) : Filled d d := by
  induction d using induction_parts with
  | error => exact .error
  | prim p => exact .prim p
  | generic n => exact .generic n _
  | node d k hk ih => exact (filled_iff hk).mpr ⟨hk, List.forall₂_same.mpr ih⟩

/-- A placeholder fits loosely what any type in its place fits. -/
theorem Filled.compatible {d' : Ty} (h : Filled d d') (ha : compatible false d' a = true) :
    compatible true d a = true := by
  induction d using induction_parts generalizing d' a with
  | error => simp [Ty.compatible]
  | prim p =>
    cases h
    rwa [compatible_of_hasGenerics a rfl true]
  | generic n => cases a <;> simp [Ty.compatible]
  | node d k hk ih =>
    obtain ⟨hk', hparts⟩ := (filled_iff hk).mp h
    refine (compatible_iff hk).mpr (((compatible_iff hk').mp ha).imp_right fun h => ⟨h.1, ?_⟩)
    refine forall₂_trans (List.forall₂_same.mpr fun _ _ => rfl) hparts h.2.flip ?_
    rintro c hc _ _ _ b rfl hfilled hb
    exact ih _ hc hfilled hb

/-- A parameter that fits loosely can be filled in from the argument. -/
theorem exists_filled_of_compatible (h : compatible true d a = true) :
    ∃ d', Filled d d' ∧ compatible false d' a = true := by
  induction d using induction_parts generalizing a with
  | error => exact ⟨_, .error, by simp [compatible]⟩
  | prim p => exact ⟨_, .prim p, (compatible_of_hasGenerics a rfl true).symm.trans h⟩
  -- a placeholder is filled in with the argument itself
  | generic n => exact ⟨a, .generic n a, compatible_self false a⟩
  | node d k hk ih =>
    rcases (compatible_iff hk).mp h with rfl | ⟨hk', hparts⟩
    · exact ⟨d, filled_self d, compatible_mono (compatible_self false d) (below_refl d) (.error d)⟩
    · obtain ⟨us, hd, ha⟩ := exists_forall₂ (forall₂_imp hparts fun c hc _ _ => ih c hc)
      obtain ⟨u, hu, rfl⟩ := exists_parts hk hd.length_eq
      exact ⟨u, (filled_iff hk).mpr ⟨hu, hd.flip⟩, (compatible_iff hu).mpr (.inr ⟨hk', ha⟩)⟩

theorem acceptsArgument_iff_exists_filled :
    d.acceptsArgument a = true ↔ ∃ d', d.Filled d' ∧ d'.accepts a = true := by
  constructor
  · exact exists_filled_of_compatible
  · rintro ⟨d', hd, ha⟩
    exact hd.compatible ha

end Ty

/-- Compatibility is consistency: two types are compatible exactly if they are poisoned forms of one
type, so the relation is reflexive, symmetric and plain equality where there is no poison. A
parameter takes an argument exactly if its placeholders can be filled in, each at its own place,
such that it accepts the argument. -/
theorem compatibility_is_consistency :
    (∀ a b : Ty, a.accepts b = true ↔ ∃ u, a.Below u ∧ b.Below u) ∧
    (∀ a : Ty, a.accepts a = true) ∧
    (∀ a b : Ty, a.accepts b = b.accepts a) ∧
    (∀ a b : Ty, a.hasPoison = false → b.hasPoison = false → (a.accepts b = true ↔ a = b)) ∧
    ∀ d a : Ty, d.acceptsArgument a = true ↔ ∃ d', d.Filled d' ∧ d'.accepts a = true :=
  ⟨fun _ _ => Ty.accepts_iff_exists_below, Ty.compatible_self false, Ty.accepts_comm,
    fun _ _ => Ty.accepts_iff_eq, fun _ _ => Ty.acceptsArgument_iff_exists_filled⟩

/-- The types `fn(List<Int>) -> Int` and `fn(List<Int>) -> String` are without poison and not
compatible, and the parameter `(T, T)` takes an argument of type `(Int, String)`. -/
theorem function_types_differ :
    let a : Ty := .fn [.list .int] .int
    let b : Ty := .fn [.list .int] .string
    (a.hasPoison = false ∧ b.hasPoison = false ∧ a.accepts b = false) ∧
      ∃ d', (Ty.tuple [.generic "T", .generic "T"]).Filled d' ∧
        d'.accepts (.tuple [.int, .string]) = true := by
  refine ⟨⟨rfl, rfl, Bool.eq_false_iff.mpr fun h => ?_⟩, ?_⟩
  · exact absurd ((compatibility_is_consistency.2.2.2.1 _ _ rfl rfl).mp h) (by decide)
  · exact (compatibility_is_consistency.2.2.2.2 _ _).mp (by decide)

/-- Poison only removes errors: what is compatible, or typed by a built-in function, stays so when
parts of the types are poisoned, and the type that the built-in function gives is then a poisoned
form of the one it gave before. -/
theorem poison_only_removes_errors :
    (∀ a b a' b' : Ty, a.accepts b = true → a'.Below a → b'.Below b → a'.accepts b' = true) ∧
    (∀ a b a' b' : Ty, a.acceptsArgument b = true → a'.Below a → b'.Below b →
      a'.acceptsArgument b' = true) ∧
    ∀ (b : Builtin) (args args' : List Ty) (t : Ty), Ty.BelowAll args' args → b.resolve args = .ok t →
      ∃ t', b.resolve args' = .ok t' ∧ t'.Below t :=
  ⟨fun _ _ _ _ h ha hb => Ty.compatible_mono h ha hb, fun _ _ _ _ h ha hb =>
    Ty.compatible_mono h ha hb,
    fun _ _ _ _ hbelow h => Builtin.resolve_mono h hbelow⟩

/-- A parameter of type `fn(List<T>) -> (Int, Bool)` takes a function of type `fn(List<String>) ->
(Int, Bool)`, and `send` takes a `Sender<(Int, List<Bool>)>` and such a pair. So they do when parts
of the types are poisoned. -/
theorem poisoned_functions_and_messages_fit :
    (Ty.fn [.list (.generic "T")] (.tuple [.error, .bool])).acceptsArgument
        (.fn [.list .error] (.tuple [.int, .bool])) = true ∧
      (Ty.tuple [.error, .list .bool]).accepts (.tuple [.int, .error]) = true ∧
      ∃ t', Builtin.send.resolve [.sender (.tuple [.error, .list .bool]),
      .tuple [.int, .list .error]] = .ok t' ∧
        t'.Below .unit := by
  have hpair : Ty.Below (.tuple [.error, .list .bool]) (.tuple [.int, .list .bool]) :=
    .tuple (.cons (.error _) (.cons (Ty.below_refl _) .nil))
  refine ⟨?_, ?_, ?_⟩
  · refine poison_only_removes_errors.2.1 (.fn [.list (.generic "T")] (.tuple [.int, .bool]))
      (.fn [.list .string] (.tuple [.int, .bool])) _ _ (by decide) ?_ ?_
    · exact .fn (Ty.belowAll_refl _) (.tuple (.cons (.error _) (Ty.belowAll_refl _)))
    · exact .fn (.cons (.container _ (.error _)) .nil) (Ty.below_refl _)
  · exact poison_only_removes_errors.1 (.tuple [.int, .list .bool]) (.tuple [.int, .list .bool]) _ _
      (by decide) hpair
      (.tuple (.cons (Ty.below_refl _) (.cons (.error _) .nil)))
  · refine poison_only_removes_errors.2.2 _ [.sender (.tuple [.int, .list .bool]),
      .tuple [.int, .list .bool]] _ _ ?_ rfl
    refine .cons (.container _ hpair) (.cons (.tuple ?_) .nil)
    exact .cons (.prim _) (.cons (.container _ (.error _)) .nil)

end Bindery
