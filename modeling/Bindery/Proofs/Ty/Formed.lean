import Bindery.Binding.Call
import Bindery.Binding.Pattern
import Bindery.Proofs.Ty.Placeholders

/-!
# Well-formed types

`Ty.Formed D` says of a type that every record and sum in it, at any depth, is one that `D` declares
and has as many arguments as its declaration has parameters. Nothing is said about poison and
placeholders.

All the ways in which binding makes a type from others keep this: substitution, inference from
actual types, filling in what is not known, and taking a type apart for what is expected of its
parts.
-/

namespace Bindery

/-- Which records and sums there are, and how many type parameters they have. -/
abbrev Declarations := Nominal → String → Nat → Prop

namespace Ty

/-- Every record and sum in the type is declared and has the right number of arguments. -/
inductive Formed (D : Declarations) : Ty → Prop
  | error : Formed D .error
  | prim (p : Prim) : Formed D (.prim p)
  | generic (n : String) : Formed D (.generic n)
  | container (c : Container) {t : Ty} (ht : Formed D t) : Formed D (.container c t)
  | result {v e : Ty} (hv : Formed D v) (he : Formed D e) : Formed D (.result v e)
  | fn {ps : List Ty} {r : Ty} (hps : ∀ p ∈ ps, Formed D p) (hr : Formed D r) : Formed D (.fn ps r)
  | tuple {ts : List Ty} (hts : ∀ t ∈ ts, Formed D t) : Formed D (.tuple ts)
  | nominal {k : Nominal} {n : String} {args : List Ty} (hd : D k n args.length)
      (hargs : ∀ t ∈ args, Formed D t) : Formed D (.nominal k n args)

end Ty

/-- Whatever the substitution puts in is well formed. -/
def Subst.Formed (D : Declarations) (σ : Subst) : Prop := ∀ n t, σ.get? n = some t → t.Formed D

variable {D D' : Declarations} {σ : Subst} {t : Ty} {ts : List Ty}

namespace Ty.Formed

/-! ## Parts -/

theorem element {c : Container} (h : (Ty.container c t).Formed D) : t.Formed D := by
  cases h with
  | container _ ht => exact ht

theorem elems (h : (Ty.tuple ts).Formed D) : ∀ t ∈ ts, t.Formed D := by
  cases h with
  | tuple hts => exact hts

theorem params {r : Ty} (h : (Ty.fn ts r).Formed D) : ∀ t ∈ ts, t.Formed D := by
  cases h with
  | fn hps _ => exact hps

theorem ret {r : Ty} (h : (Ty.fn ts r).Formed D) : r.Formed D := by
  cases h with
  | fn _ hr => exact hr

theorem args {k : Nominal} {n : String} (h : (Ty.nominal k n ts).Formed D) : ∀ t ∈ ts, t.Formed D := by
  cases h with
  | nominal _ hargs => exact hargs

/-! ## Substitution and inference -/

theorem subst (h : t.Formed D) (hσ : σ.Formed D) : (t.subst σ).Formed D := by
  have hall : ∀ ts : List Ty, (∀ t ∈ ts, (t.subst σ).Formed D) → ∀ t ∈ substAll σ ts, t.Formed D := by
    intro ts hts t ht
    rw [substAll_eq_map] at ht
    obtain ⟨t', ht', rfl⟩ := List.mem_map.mp ht
    exact hts t' ht'
  induction h with
  | error => exact .error
  | prim p => exact .prim p
  | generic n =>
    rw [Ty.subst]
    cases hn : σ.get? n with
    | none => exact .generic n
    | some t => exact hσ n t hn
  | container c _ ih => exact .container c ih
  | result _ _ ihv ihe => exact .result ihv ihe
  | fn _ _ ihps ihr => exact .fn (hall _ ihps) ihr
  | tuple _ ih => exact .tuple (hall _ ih)
  | nominal hd _ ih =>
    refine .nominal ?_ (hall _ ih)
    rwa [substAll_eq_map, List.length_map]

end Ty.Formed

/-- What a map made from a list holds stands in the list, or was there before. -/
theorem OrderedMap.mem_of_get?_foldl_insert {κ α : Type} [DecidableEq κ] {k : κ} {v : α}
    {es : List (κ × α)}
    {m : OrderedMap κ α} (h : (es.foldl (fun m e => m.insert e.1 e.2) m).get? k = some v) :
    (k, v) ∈ es ∨ m.get? k = some v := by
  induction es generalizing m with
  | nil => exact .inr h
  | cons e es ih =>
    rcases ih h with hmem | hold
    · exact .inl (List.mem_cons_of_mem _ hmem)
    · rw [OrderedMap.get?_insert] at hold
      split at hold
      · next hk =>
        rw [hk, ← Option.some.inj hold]
        exact .inl List.mem_cons_self
      · exact .inr hold

theorem Subst.mem_of_get?_ofArguments {params : List String} {n : String}
    (h : (Subst.ofArguments params ts).get? n = some t) : t ∈ ts := by
  rcases OrderedMap.mem_of_get?_foldl_insert h with hmem | hold
  · exact (List.of_mem_zip hmem).2
  · cases hold

namespace Subst.Formed

theorem empty : Subst.Formed D .empty := by
  intro n t h
  cases h

theorem insertNew (hσ : σ.Formed D) (n : String) (ht : t.Formed D) :
    Subst.Formed D (σ.insertNew n t) := by
  intro m u hu
  rw [OrderedMap.get?_insertNew] at hu
  split at hu
  · cases hn : σ.get? n with
    | none =>
      rw [hn] at hu
      exact Option.some.inj hu ▸ ht
    | some t' =>
      rw [hn] at hu
      exact Option.some.inj hu ▸ hσ n t' hn
  · exact hσ m u hu

theorem ofArguments (params : List String) (h : ∀ t ∈ ts, t.Formed D) :
    Subst.Formed D (.ofArguments params ts) :=
  fun _ t hn => h t (mem_of_get?_ofArguments hn)

theorem closeWith (hσ : σ.Formed D) (params : List String) : Subst.Formed D (σ.closeWith params) := by
  intro n t hn
  rw [Subst.get?_closeWith] at hn
  split at hn
  · cases hget : σ.get? n with
    | none =>
      rw [hget] at hn
      exact Option.some.inj hn ▸ .error
    | some t' =>
      rw [hget] at hn
      exact Option.some.inj hn ▸ hσ n t' hget
  · exact hσ n t hn

theorem instantiate (hσ : σ.Formed D) (params : List String) :
    ∀ t ∈ σ.instantiate params, t.Formed D := by
  intro t ht
  obtain ⟨n, -, rfl⟩ := List.mem_map.mp ht
  cases hget : σ.get? n with
  | none => exact .error
  | some t' => exact hσ n t' hget

/-- A declared type, applied to what is known of its arguments. -/
theorem nominal (hσ : σ.Formed D) {k : Nominal} {n : String} {params : List String}
    (hd : D k n params.length) :
    (Ty.nominal k n (σ.instantiate params)).Formed D := by
  refine .nominal ?_ (hσ.instantiate params)
  rwa [Subst.instantiate, List.length_map]

end Subst.Formed

namespace Ty.Formed

theorem hereditary : Hereditary (Formed D) where
  container h := h.element
  result h := by
    cases h with
    | result hv he => exact ⟨hv, he⟩
  fn h := ⟨h.params, h.ret⟩
  tuple h := h.elems
  nominal h := h.args

/-- Inference records parts of the actual types only. -/
theorem infer {actual : Ty} (h : actual.Formed D) (declared : Ty) (hσ : σ.Formed D) :
    Subst.Formed D (declared.infer actual σ) :=
  infer_induction hereditary declared actual h (fun n _ _ ht _ _ hσ' => hσ'.insertNew n ht) σ hσ

theorem inferAll {actuals : List Ty} (h : ∀ t ∈ actuals, t.Formed D) (declareds : List Ty)
    (hσ : σ.Formed D) :
    Subst.Formed D (Ty.inferAll declareds actuals σ) :=
  inferAll_induction hereditary declareds actuals h (fun n _ _ ht _ _ hσ' => hσ'.insertNew n ht) σ hσ

end Ty.Formed

/-! ## Results of operators and built-in functions -/

theorem Literal.formed_ty (v : Literal) : v.ty.Formed D := by
  cases v <;> exact .prim _

theorem BinaryOp.formed_of_resultTy? {op : BinaryOp} {a b : Ty} (h : op.resultTy? a b = some t) :
    t.Formed D := by
  obtain ⟨p, rfl⟩ : ∃ p, t = .prim p := by
    unfold BinaryOp.resultTy? at h
    grind
  exact .prim p

theorem UnaryOp.formed_of_resultTy? {op : UnaryOp} {a : Ty} (h : op.resultTy? a = some t) :
    t.Formed D := by
  unfold UnaryOp.resultTy? at h
  split at h <;> cases h <;> exact .prim _

namespace Builtin

theorem formed_of_overload? {b : Builtin} (hts : ∀ t ∈ ts, t.Formed D)
    (h : b.overload? ts = some t) : t.Formed D := by
  unfold overload? at h
  split at h <;> simp only [Option.ite_none_right_eq_some, Option.some.injEq, reduceCtorEq] at h
  -- the numeric functions give back the type of their arguments
  · exact h.2 ▸ hts _ List.mem_cons_self
  · exact h.2 ▸ hts _ List.mem_cons_self
  · exact h.2 ▸ hts _ List.mem_cons_self
  -- `len` counts, `send` gives nothing back
  · exact h ▸ .prim _
  · exact h ▸ .prim _
  · exact h ▸ .prim _
  · exact h.2 ▸ .prim _
  -- `recv` and `join` take a value out of a handle
  · exact h ▸ (hts _ List.mem_cons_self).element
  · exact h ▸ (hts _ List.mem_cons_self).element

theorem formed_poisonedTy (b : Builtin) : (b.poisonedTy []).Formed D := by
  cases b with
  | len | send => exact .prim _
  | _ => exact .error

theorem formed_of_resolve {b : Builtin} (hts : ∀ t ∈ ts, t.Formed D) (h : b.resolve ts = .ok t) :
    t.Formed D := by
  unfold resolve at h
  split at h
  · cases h
  · split at h
    · next hpoisoned =>
      cases h
      rw [poisonedTy_eq hpoisoned]
      exact formed_poisonedTy b
    · split at h
      · next t' ht' =>
        cases h
        exact formed_of_overload? hts ht'
      · cases h

end Builtin

namespace Binding

/-! ## Expected types -/

variable {expected : Option Ty}

theorem formed_closedHint (h : t.Formed D) : ∀ ty ∈ closedHint t, ty.Formed D := by
  intro ty hty
  rw [closedHint] at hty
  split at hty
  · cases hty
  · exact Option.some.inj hty ▸ h

theorem formed_elementHint (c : Container) (hexpected : ∀ ty ∈ expected, ty.Formed D) :
    ∀ ty ∈ elementHint c expected, ty.Formed D := by
  intro ty hty
  unfold elementHint at hty
  split at hty
  · split at hty
    · cases hty
      exact (hexpected _ rfl).element
    · cases hty
  · cases hty

theorem formed_tupleHints (count : Nat) (hexpected : ∀ ty ∈ expected, ty.Formed D) :
    ∀ hint ∈ tupleHints expected count, ∀ ty ∈ hint, ty.Formed D := by
  intro hint hhint ty hty
  unfold tupleHints at hhint
  split at hhint
  · split at hhint
    · obtain ⟨t, ht, rfl⟩ := List.mem_map.mp hhint
      exact Option.some.inj hty ▸ (hexpected _ rfl).elems t ht
    · cases hhint
  · cases hhint

theorem formed_valueHints (h : t.Formed D) : ∀ hint ∈ valueHints t, ∀ ty ∈ hint, ty.Formed D := by
  intro hint hhint ty hty
  unfold valueHints at hhint
  split at hhint
  · obtain ⟨u, hu, rfl⟩ := List.mem_map.mp hhint
    exact Option.some.inj hty ▸ h.params u hu
  · cases hhint

theorem formed_expectedSumArgs (sum : SumDef) (hexpected : ∀ ty ∈ expected, ty.Formed D) :
    Subst.Formed D (expectedSumArgs expected sum) := by
  unfold expectedSumArgs
  split
  · split
    · exact .ofArguments _ (hexpected _ rfl).args
    · exact .empty
  · exact .empty

theorem formed_expectedRecordArgs (record : RecordDef) (hexpected : ∀ ty ∈ expected, ty.Formed D) :
    Subst.Formed D (expectedRecordArgs expected record) := by
  unfold expectedRecordArgs
  split
  · split
    · exact .ofArguments _ (hexpected _ rfl).args
    · exact .empty
  · exact .empty

theorem formed_bareVariantTy {sum : SumDef} (hsum : D .sum sum.name sum.tyParams.length)
    (hexpected : ∀ ty ∈ expected, ty.Formed D) : (bareVariantTy expected sum).Formed D := by
  have hpoison : (Ty.sum sum.name (List.replicate sum.tyParams.length .error)).Formed D := by
    refine .nominal ?_ fun t ht => ?_
    · rwa [List.length_replicate]
    · exact List.eq_of_mem_replicate ht ▸ .error
  unfold bareVariantTy
  split
  · split
    · exact hexpected _ rfl
    · exact hpoison
  · exact hpoison

/-! ## Parts of values -/

theorem formed_indexedTy? {target index : Ty} (htarget : target.Formed D)
    (h : indexedTy? target index = some t) :
    t.Formed D := by
  unfold indexedTy? at h
  split at h
  · exact Option.some.inj h ▸ htarget.element
  · exact Option.some.inj h ▸ htarget.element
  · cases h

theorem formed_iteratedTy? {target : Ty} (htarget : target.Formed D)
    (h : iteratedTy? target = some t) :
    t.Formed D := by
  unfold iteratedTy? at h
  split at h
  · exact Option.some.inj h ▸ htarget.element
  · cases h
    refine .tuple fun t ht => ?_
    rcases List.mem_cons.mp ht with rfl | ht
    · exact .prim _
    · obtain rfl := List.mem_singleton.mp ht
      exact htarget.element
  · cases h
    exact .error
  · cases h

end Binding

end Bindery
