import Bindery.Ty.Compatibility
import Bindery.Ty.Subst
import Mathlib.Data.List.Forall2

/-!
# Heads and parts of types

Poison, the types without parts and the placeholders are the leaves of types. Every other type is a
head over some parts. What is defined by going over types does the same under each head: it compares
the heads and goes over the parts in order. The lemmas below say so for each such function, and a
proof by `Ty.induction_parts` has one case for all heads.
-/

namespace Bindery.Ty

/-- What a type is apart from its parts. -/
inductive Head where
  | container (c : Container)
  | result
  | fn
  | tuple
  | nominal (kind : Nominal) (name : String)

/-- The head of a type that is no leaf. -/
def head? : Ty → Option Head
  | .error | .prim _ | .generic _ => none
  | .container c _ => some (.container c)
  | .result .. => some .result
  | .fn .. => some .fn
  | .tuple _ => some .tuple
  | .nominal k n _ => some (.nominal k n)

/-- The types that a type is made of, in order. -/
def parts : Ty → List Ty
  | .error | .prim _ | .generic _ => []
  | .container _ t => [t]
  | .result v e => [v, e]
  | .fn ps r => ps ++ [r]
  | .tuple ts | .nominal _ _ ts => ts

/-- Induction on types. A type that is made of a list of types has one hypothesis for all of
them. -/
@[elab_as_elim]
theorem induction {P : Ty → Prop} (error : P .error) (prim : ∀ p, P (.prim p))
    (generic : ∀ n, P (.generic n))
    (container : ∀ c t, P t → P (.container c t)) (result : ∀ v e, P v → P e → P (.result v e))
    (fn : ∀ ps r, (∀ p ∈ ps, P p) → P r → P (.fn ps r)) (tuple : ∀ ts, (∀ t ∈ ts, P t) → P (.tuple ts))
    (nominal : ∀ k n ts, (∀ t ∈ ts, P t) → P (.nominal k n ts)) (t : Ty) : P t :=
  @Ty.rec P (fun ts => ∀ t ∈ ts, P t) error prim generic container result fn tuple nominal (by simp)
    (fun _ _ ht hts => List.forall_mem_cons.mpr ⟨ht, hts⟩) t

/-- Induction on types with one case for all types that have parts. -/
@[elab_as_elim]
theorem induction_parts {P : Ty → Prop} (error : P .error) (prim : ∀ p, P (.prim p))
    (generic : ∀ n, P (.generic n))
    (node : ∀ t h, t.head? = some h → (∀ u ∈ t.parts, P u) → P t) (t : Ty) : P t := by
  induction t using Ty.induction with
  | error => exact error
  | prim p => exact prim p
  | generic n => exact generic n
  | container c t ih => exact node _ _ rfl (by simpa [parts] using ih)
  | result v e ihv ihe => exact node _ _ rfl (by simp [parts, ihv, ihe])
  | fn ps r ihps ihr => exact node _ _ rfl (by simpa [parts, or_imp, forall_and, ihr] using ihps)
  | tuple ts ih => exact node _ _ rfl ih
  | nominal k n ts ih => exact node _ _ rfl ih

/-! ## Lists side by side -/

section

variable {α β γ δ : Type} {R : α → β → Prop} {l : List α} {m : List β}

theorem forall₂_concat {a : α} {b : β} : List.Forall₂ R (l ++ [a]) (m ++ [b]) ↔ List.Forall₂ R l m ∧
    R a b := by
  rw [← List.forall₂_reverse_iff, List.reverse_concat, List.reverse_concat, List.forall₂_cons,
    List.forall₂_reverse_iff, And.comm]

/-- What follows from three relations place by place, for the members of the second list. -/
theorem forall₂_trans {S : γ → α → Prop} {T : δ → β → Prop} {U : γ → δ → Prop} {k : List γ}
    {n : List δ}
    (hS : List.Forall₂ S k l) (hR : List.Forall₂ R l m) (hT : List.Forall₂ T n m)
    (h : ∀ a ∈ l, ∀ b ∈ m, ∀ c d, S c a → R a b → T d b → U c d) : List.Forall₂ U k n := by
  induction hR generalizing k n with
  | nil =>
    cases hS
    cases hT
    exact .nil
  | cons hab _ ih =>
    cases hS with
    | cons hca hS =>
      cases hT with
      | cons hdb hT =>
        refine .cons (h _ List.mem_cons_self _ List.mem_cons_self _ _ hca hab hdb)
          (ih hS hT fun a ha b hb => ?_)
        exact h a (List.mem_cons_of_mem _ ha) b (List.mem_cons_of_mem _ hb)

theorem forall₂_imp {S : α → β → Prop} (hR : List.Forall₂ R l m)
    (h : ∀ a ∈ l, ∀ b ∈ m, R a b → S a b) :
    List.Forall₂ S l m := by
  refine forall₂_trans (List.forall₂_same.mpr fun _ _ => rfl) hR (List.forall₂_same.mpr fun _ _ =>
    rfl) ?_
  rintro a ha b hb _ _ rfl hab rfl
  exact h _ ha _ hb hab

theorem exists_forall₂ {S : γ → β → Prop} {T : γ → α → Prop}
    (h : List.Forall₂ (fun a b => ∃ c, T c a ∧ S c b) l m) :
    ∃ k, List.Forall₂ T k l ∧ List.Forall₂ S k m := by
  induction h with
  | nil => exact ⟨[], .nil, .nil⟩
  | cons hc _ ih =>
    obtain ⟨c, ha, hb⟩ := hc
    obtain ⟨k, hl, hm⟩ := ih
    exact ⟨c :: k, .cons ha hl, .cons hb hm⟩

end

/-! ## Functions on types -/

variable {a b t : Ty} {h : Head} {loose : Bool}

theorem eq_of_parts (ha : a.head? = some h) (hb : b.head? = some h) (hparts : a.parts = b.parts) :
    a = b := by
  cases a <;> cases ha <;> cases b <;> cases hb <;> simpa [parts] using hparts

/-- The parts of a type can be exchanged for others. -/
theorem exists_parts (ht : t.head? = some h) {us : List Ty} (hlength : us.length = t.parts.length) :
    ∃ u : Ty, u.head? = some h ∧ u.parts = us := by
  cases t with
  | error | prim | generic => cases ht
  | container c =>
    obtain ⟨u, rfl⟩ := List.length_eq_one_iff.mp hlength
    exact ⟨.container c u, ht, rfl⟩
  | result =>
    obtain ⟨v, e, rfl⟩ := List.length_eq_two.mp hlength
    exact ⟨.result v e, ht, rfl⟩
  | fn =>
    rcases List.eq_nil_or_concat us with rfl | ⟨ps, r, rfl⟩
    · simp [parts] at hlength
    · exact ⟨.fn ps r, ht, List.concat_eq_append.symm⟩
  | tuple => exact ⟨.tuple us, ht, rfl⟩
  | nominal k n => exact ⟨.nominal k n us, ht, rfl⟩

theorem compatibleAll_iff {as bs : List Ty} :
    compatibleAll loose as bs = true ↔ List.Forall₂ (fun a b => compatible loose a b = true) as
      bs := by
  induction as generalizing bs with
  | nil => cases bs <;> simp [compatibleAll]
  | cons a as ih => cases bs <;> simp [compatibleAll, ih]

theorem compatible_iff (ha : a.head? = some h) :
    compatible loose a b = true ↔
      b = .error ∨ b.head? = some h ∧ List.Forall₂ (fun a b => compatible loose a b = true) a.parts
        b.parts := by
  cases a <;> cases ha <;> cases b <;>
    simp [compatible, compatibleAll_iff, head?, parts, forall₂_concat, @eq_comm Container,
      @eq_comm Nominal,
      @eq_comm String]

theorem head?_subst (s : Subst) (ht : t.head? = some h) : (t.subst s).head? = some h := by
  cases t <;> cases ht <;> rfl

theorem parts_subst (s : Subst) (ht : t.head? = some h) :
    (t.subst s).parts = t.parts.map (subst s) := by
  cases t <;> cases ht <;> simp [subst, parts, substAll_eq_map]

theorem inferAll_concat {as bs : List Ty} (hlength : as.length = bs.length) (s : Subst) :
    inferAll (as ++ [a]) (bs ++ [b]) s = a.infer b (inferAll as bs s) := by
  induction as generalizing bs s with
  | nil =>
    obtain rfl := List.length_eq_zero_iff.mp hlength.symm
    rfl
  | cons a as ih =>
    cases bs with
    | nil => cases hlength
    | cons b bs => exact ih (Nat.succ.inj hlength) _

theorem infer_eq_inferAll (ha : a.head? = some h) (hb : b.head? = some h)
    (hlength : a.parts.length = b.parts.length)
    (s : Subst) : a.infer b s = inferAll a.parts b.parts s := by
  cases a <;> cases ha <;> cases b <;> cases hb
  case fn.refl.fn.refl ps r qs q =>
    rw [parts, parts, inferAll_concat (by simpa [parts] using hlength), infer]
  all_goals simp [infer, inferAll, parts]

theorem anyGenerics_eq_false_iff {ts : List Ty} :
    anyGenerics ts = false ↔ ∀ t ∈ ts, t.hasGenerics = false := by
  induction ts with
  | nil => simp [anyGenerics]
  | cons t ts ih => simp [anyGenerics, ih]

theorem hasGenerics_iff (ht : t.head? = some h) :
    t.hasGenerics = false ↔ ∀ u ∈ t.parts, u.hasGenerics = false := by
  cases t <;> cases ht <;> simp [hasGenerics, parts, anyGenerics_eq_false_iff, or_imp, forall_and]

end Bindery.Ty
