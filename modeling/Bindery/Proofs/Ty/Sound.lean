import Mathlib.Tactic.Common
import Bindery.Binding.Call
import Bindery.Proofs.Ty.Placeholders

/-!
# Sound types

The types that values have in a file without type parameters. A placeholder occurs in one of them
only as part of the type of a built-in function, and such a function takes no sound argument: its
parameters are open. So no value whose own type is a placeholder can be made from it.
-/

namespace Bindery

namespace Ty

/-- The types of values: neither poison nor a placeholder, except in the type of a built-in
function. -/
inductive Sound : Ty → Prop
  | prim (p : Prim) : Sound (.prim p)
  | container (c : Container) {t : Ty} (ht : Sound t) : Sound (.container c t)
  | result {v e : Ty} (hv : Sound v) (he : Sound e) : Sound (.result v e)
  | fn {ps : List Ty} {r : Ty} (hps : ∀ p ∈ ps, Sound p) (hr : Sound r) : Sound (.fn ps r)
  | tuple {ts : List Ty} (hts : ∀ t ∈ ts, Sound t) : Sound (.tuple ts)
  | nominal (k : Nominal) (n : String) : Sound (.nominal k n [])
  | builtin {f : Sig} (hf : f ∈ Builtin.sigs) : Sound (.fn f.paramTys f.ret)

/-- A sound type without placeholders, as it can be written down. -/
structure Plain (t : Ty) : Prop where
  sound : t.Sound
  closed : t.hasGenerics = false

/-- Whether the type has no parts. -/
def isPrim : Ty → Bool
  | .prim _ => true
  | _ => false

/-- A placeholder, or a handle on values whose type is one. -/
def isOpen : Ty → Bool
  | .generic _ | .sender (.generic _) | .receiver (.generic _) | .task (.generic _) => true
  | _ => false

/-- The types that can be expected of an expression: sound ones, and open ones, which say nothing
about a tuple, a list, a map, a record or a variant. -/
def Usable (t : Ty) : Prop := t.Sound ∨ t.isOpen = true

end Ty

/-! ## The built-in functions -/

namespace Builtin

theorem hasPoison_sigs : ∀ f ∈ sigs, f.ty.hasPoison = false := by decide

theorem params_sigs : ∀ f ∈ sigs, ∀ t ∈ f.paramTys, t.isOpen = true ∨ t.isPrim = true := by decide

theorem ret_sigs : ∀ f ∈ sigs, (∃ t ∈ f.paramTys, t.isOpen = true) ∨ f.ret.isPrim = true := by decide

/-- The built-in functions that are not typed from their arguments have closed types. -/
theorem isPrim_sigs : ∀ f ∈ sigs, ofName? f.name = none →
    f.tyParams = [] ∧ (∀ t ∈ f.paramTys, t.isPrim = true) ∧ f.ret.isPrim = true := by decide

end Builtin

variable {args : List Ty} {ty : Ty}

namespace Ty

theorem plain_of_isPrim {t : Ty} (h : t.isPrim = true) : t.Plain := by
  cases t with
  | prim p => exact ⟨.prim p, rfl⟩
  | _ => simp [isPrim] at h

namespace Sound

variable {t : Ty}

theorem hasPoison (h : t.Sound) : t.hasPoison = false := by
  induction h with
  | prim | nominal => rfl
  | container c _ ih => exact ih
  | result _ _ ihv ihe => simp [Ty.hasPoison, ihv, ihe]
  | fn _ _ ihps ihr => simp [Ty.hasPoison, anyPoison_eq_false_iff.mpr ihps, ihr]
  | tuple _ ih => exact anyPoison_eq_false_iff.mpr ih
  | builtin hf => exact Builtin.hasPoison_sigs _ hf

theorem ne_error (h : t.Sound) : t ≠ .error := ne_error_of_hasPoison h.hasPoison

theorem isOpen (h : t.Sound) : t.isOpen = false := by
  -- every open type is a placeholder inside at most one container, and a placeholder is not sound
  unfold Ty.isOpen
  split
  · cases h
  · cases h with | container _ ht => cases ht
  · cases h with | container _ ht => cases ht
  · cases h with | container _ ht => cases ht
  · rfl

theorem element {c : Container} (h : (Ty.container c t).Sound) : t.Sound := by
  cases h with | container _ ht => exact ht

theorem elems {ts : List Ty} (h : (Ty.tuple ts).Sound) : ∀ t ∈ ts, t.Sound := by
  cases h with | tuple hts => exact hts

theorem args_eq_nil {k : Nominal} {n : String} (h : (Ty.nominal k n args).Sound) : args = [] := by
  cases h
  rfl

theorem usable (h : t.Sound) : t.Usable := .inl h

theorem params {ps : List Ty} {r : Ty} (h : (Ty.fn ps r).Sound) : ∀ p ∈ ps, p.Usable := by
  intro p hp
  cases h with
  | fn hps _ => exact (hps p hp).usable
  | builtin hf =>
    rcases Builtin.params_sigs _ hf p hp with hopen | hprim
    · exact .inr hopen
    · exact (plain_of_isPrim hprim).sound.usable

/-- A sound function that takes sound arguments has a sound result. -/
theorem ret {ps : List Ty} {r : Ty} (h : (Ty.fn ps r).Sound) (hps : ∀ p ∈ ps, p.Sound) : r.Sound := by
  cases h with
  | fn _ hr => exact hr
  | builtin hf =>
    rcases Builtin.ret_sigs _ hf with ⟨p, hp, hopen⟩ | hprim
    · rw [(hps p hp).isOpen] at hopen
      cases hopen
    · exact (plain_of_isPrim hprim).sound

/-- Strictly compatible sound types are equal. -/
theorem eq_of_accepts {a b : Ty} (ha : a.Sound) (hb : b.Sound) (h : a.accepts b = true) : a = b :=
  eq_of_compatible ha.hasPoison hb.hasPoison (by simp) h

end Sound

namespace Plain

variable {t : Ty}

/-- A value that fits a written type has that type. -/
theorem eq_of_compatible {loose : Bool} {b : Ty} (ht : t.Plain) (hb : b.Sound)
    (h : t.compatible loose b = true) : t = b :=
  Ty.eq_of_compatible ht.sound.hasPoison hb.hasPoison (fun _ => ht.closed) h

theorem infer (ht : t.Plain) (actual : Ty) (s : Subst) : t.infer actual s = s :=
  infer_of_hasGenerics ht.closed actual s

theorem closedHint (ht : t.Plain) : Binding.closedHint t = some t := by
  simp [Binding.closedHint, ht.closed]

end Plain

end Ty

/-! ## Results -/

theorem Literal.sound_ty (v : Literal) : v.ty.Sound := by
  cases v <;> exact .prim _

/-- What a built-in function gives for sound arguments is sound. -/
theorem Builtin.sound_of_overload? {b : Builtin} (hargs : ∀ t ∈ args, t.Sound)
    (h : b.overload? args = some ty) :
    ty.Sound := by
  unfold overload? at h
  split at h <;> simp only [Option.ite_none_right_eq_some, Option.some.injEq, reduceCtorEq] at h
  -- the numeric functions give back the type of their arguments
  · exact h.2 ▸ hargs _ (by simp)
  · exact h.2 ▸ hargs _ (by simp)
  · exact h.2 ▸ hargs _ (by simp)
  -- `len` counts, `send` gives nothing back
  · exact h ▸ .prim _
  · exact h ▸ .prim _
  · exact h ▸ .prim _
  · exact h.2 ▸ .prim _
  -- `recv` and `join` take a value out of a handle
  · exact h ▸ (hargs _ (List.mem_singleton_self _)).element
  · exact h ▸ (hargs _ (List.mem_singleton_self _)).element

theorem Builtin.sound_of_resolve {b : Builtin} (hargs : ∀ t ∈ args, t.Sound)
    (h : b.resolve args = .ok ty) :
    ty.Sound := by
  have hpoison : args.any Ty.isError = false := by
    rw [List.any_eq_false]
    intro t ht herror
    cases t with
    | error => exact (hargs _ ht).ne_error rfl
    | _ => simp [Ty.isError] at herror
  unfold resolve at h
  split at h
  · cases h
  · rw [if_neg (by simp [hpoison])] at h
    split at h
    · next hoverload =>
      cases h
      exact sound_of_overload? hargs hoverload
    · cases h

namespace Binding

/-! ## Expected types -/

variable {expected : Option Ty}

theorem sound_elementHint {c : Container} (hexpected : ∀ ty ∈ expected, ty.Usable)
    (hc : c = .list ∨ c = .map) :
    ∀ ty ∈ elementHint c expected, ty.Sound := by
  intro ty hty
  unfold elementHint at hty
  split at hty
  · next d element =>
    split at hty
    · next hcd =>
      cases hty
      rcases hexpected _ rfl with hsound | hopen
      · exact hsound.element
      · rcases hc with rfl | rfl <;> subst hcd <;> simp [Ty.isOpen] at hopen
    · cases hty
  · cases hty

theorem usable_tupleHints (hexpected : ∀ ty ∈ expected, ty.Usable) (count : Nat) :
    ∀ hint ∈ tupleHints expected count, ∀ ty ∈ hint, ty.Usable := by
  intro hint hhint ty hty
  unfold tupleHints at hhint
  split at hhint
  · next tys =>
    split at hhint
    · obtain ⟨t, ht, rfl⟩ := List.mem_map.mp hhint
      cases hty
      rcases hexpected _ rfl with hsound | hopen
      · exact (hsound.elems _ ht).usable
      · simp [Ty.isOpen] at hopen
    · cases hhint
  · cases hhint

theorem usable_valueHints {callee : Ty} (h : callee.Sound) :
    ∀ hint ∈ valueHints callee, ∀ ty ∈ hint, ty.Usable := by
  intro hint hhint ty hty
  unfold valueHints at hhint
  split at hhint
  · obtain ⟨p, hp, rfl⟩ := List.mem_map.mp hhint
    cases hty
    exact h.params _ hp
  · cases hhint

/-- A bare variant of a sum without type parameters has the type of the sum. -/
theorem bareVariantTy_eq {sum : SumDef} (hexpected : ∀ ty ∈ expected, ty.Usable)
    (hsum : sum.tyParams = []) :
    bareVariantTy expected sum = .sum sum.name [] := by
  unfold bareVariantTy
  split
  · next name args =>
    have hargs : args = [] := by
      rcases hexpected _ rfl with hsound | hopen
      · exact hsound.args_eq_nil
      · simp [Ty.isOpen] at hopen
    split
    · next hname => rw [hname, hargs]
    · simp [hsum]
  · simp [hsum]

theorem expectedSumArgs_eq {sum : SumDef} (hsum : sum.tyParams = []) :
    expectedSumArgs expected sum = .empty := by
  unfold expectedSumArgs
  split
  · split
    · rw [hsum]; rfl
    · rfl
  · rfl

theorem expectedRecordArgs_eq {record : RecordDef} (hrecord : record.tyParams = []) :
    expectedRecordArgs expected record = .empty := by
  unfold expectedRecordArgs
  split
  · split
    · rw [hrecord]; rfl
    · rfl
  · rfl

theorem sound_indexedTy? {target index : Ty} (htarget : target.Sound)
    (h : indexedTy? target index = some ty) :
    ty.Sound := by
  unfold indexedTy? at h
  split at h
  · cases h; exact htarget.element
  · cases h; exact htarget.element
  · cases h

theorem sound_iteratedTy? {target : Ty} (htarget : target.Sound)
    (h : iteratedTy? target = some ty) : ty.Sound := by
  unfold iteratedTy? at h
  split at h
  · cases h; exact htarget.element
  · cases h
    refine .tuple ?_
    simp only [List.mem_cons, List.not_mem_nil, or_false]
    rintro t (rfl | rfl)
    · exact .prim _
    · exact htarget.element
  · exact absurd rfl htarget.ne_error
  · cases h

end Binding

end Bindery
