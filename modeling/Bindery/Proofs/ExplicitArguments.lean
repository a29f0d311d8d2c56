import Bindery.Proofs.Binding.Parts
import Bindery.Proofs.Binding.WrittenTypes
import Bindery.Session

/-!
# Explicit type arguments

What a call by name with explicit type arguments is checked for, wherever it stands. The type
arguments of a function are put into its signature: there are as many as the function has type
parameters, each of them can be resolved, every argument fits its parameter with the type arguments
filled in, and the call has the return type with the type arguments filled in. A placeholder that is
left in a parameter then, because the call stands inside a generic function and passes its
placeholders on, still fits anything.

The type arguments of a variant are not looked at. They are neither counted nor resolved, and the
variant is bound as if it had none.
-/

namespace Bindery.Binding

open Bindery.Bound

/-- The types are written in `s` without a finding. -/
structure Written (s : State) (exprs : List Ast.TyExpr) (tys : List Ty) : Prop where
  resolved : out (resolveTypes exprs) s = tys
  silent : (after (resolveTypes exprs) s).findings = s.findings
  sound : ∀ ty ∈ tys, ty.hasPoison = false

/-- The call `e` of `f` with the arguments `args` obeys the signature of `f` when the type arguments
`tys` stand for the type parameters. -/
structure ObeysSig (f : Sig) (tys : List Ty) (args : List Expr) (e : Expr) : Prop where
  tyArgs : tys.length = f.tyParams.length
  count : args.length = f.params.length
  /-- A placeholder that is left in a parameter fits any argument. -/
  fits : ∀ p ∈ f.paramTys.zip args, (p.1.subst (.ofArguments f.tyParams tys)).acceptsArgument
    p.2.ty = true
  /-- A parameter in which no placeholder is left accepts its argument. -/
  accepts : ∀ p ∈ f.paramTys.zip args, (p.1.subst (.ofArguments f.tyParams tys)).hasGenerics = false →
    (p.1.subst (.ofArguments f.tyParams tys)).accepts p.2.ty = true
  ty : e.ty = f.ret.subst (.ofArguments f.tyParams tys)

variable {Γ : Symbols} {s t : State} {expected : Option Ty} {name : Ast.Name}
  {tyArgs : List Ast.TyExpr} {range : Range}

variable {tys : List Ty} {id : SymId} {f : Sig} {args : List Expr} {callee : Callee}

theorem Quiet.written {exprs : List Ast.TyExpr} (h : Quiet Γ (resolveTypes exprs) s tys t) :
    Written s exprs tys where
  resolved := h.out_eq
  silent := by rw [h.after_eq, h.silent]
  sound := (typeLaw_hasPoison s).of_resolveTypes exprs h

/-- Closing a substitution that knows every parameter changes nothing. -/
theorem subst_closeWith_ofArguments {params : List String} (hlength : tys.length = params.length)
    (ty : Ty) :
    ty.subst ((Subst.ofArguments params tys).closeWith params) =
      ty.subst (.ofArguments params tys) := by
  apply Ty.subst_congr
  intro n _
  rw [Subst.get?_closeWith]
  split
  · next hn =>
    obtain ⟨v, hv⟩ := Option.isSome_iff_exists.mp (Subst.isSome_get?_ofArguments hlength hn)
    rw [hv]
    rfl
  · rfl

/-- A quiet call of a function with as many explicit type arguments as it has type parameters. -/
theorem Quiet.obeysSig {e : Expr} (hlength : tys.length = f.tyParams.length)
    (h : Quiet Γ (Binding.finishFnCall id f (.ofArguments f.tyParams tys) true true args range) s e
      t) :
    (∃ recorded, e.kind = .call id recorded args) ∧ ObeysSig f tys args e := by
  obtain ⟨-, hcount, hfits, closed, hclosed, rfl⟩ := h.finishFnCall
  refine ⟨⟨_, rfl⟩, ?_⟩
  -- explicit type arguments leave nothing to infer
  rw [Bool.not_true, Bool.and_false] at hclosed
  have hparams : ∀ p ∈ f.paramTys.zip args,
      (p.1.subst (.ofArguments f.tyParams tys)).acceptsArgument p.2.ty = true := by
    intro p hp
    refine hfits (p.1.subst (.ofArguments f.tyParams tys), p.2) ?_
    rw [Ty.substAll_eq_map, List.zip_map_left]
    exact List.mem_map.mpr ⟨p, hp, rfl⟩
  exact {
    tyArgs := hlength
    count := hcount
    fits := hparams
    accepts := by
      intro p hp hclosed
      rw [← Ty.compatible_of_hasGenerics p.2.ty hclosed true]
      exact hparams p hp
    ty := by
      rw [hclosed]
      exact subst_closeWith_ofArguments hlength f.ret }

/-- A quiet call of a function of the file with explicit type arguments. -/
theorem Quiet.explicitCall {e : Expr} {u : State} (hbuiltin : f.isBuiltin = false)
    (htyArgs : tyArgs ≠ [])
    (hcallee : Quiet Γ (Binding.fnCallee id f name tyArgs range) s callee s)
    (hfinish : Quiet Γ (finishCall callee args range) u e t) :
    ∃ tys, Written s tyArgs tys ∧ (∃ recorded, e.kind = .call id recorded args) ∧
      ObeysSig f tys args e := by
  obtain ⟨-, tys, hresolve, ⟨b, hspecial, -⟩ | ⟨-, ⟨rfl, -⟩ | ⟨-, hlength, rfl⟩⟩⟩ := hcallee.fnCallee
  · rw [hbuiltin] at hspecial
    cases hspecial
  · -- types are resolved one by one, so there are none only if none are written
    have hlength := length_resolveTypes tyArgs s
    rw [hresolve.out_eq] at hlength
    exact absurd (List.length_eq_zero_iff.mp hlength.symm) htyArgs
  · exact ⟨tys, hresolve.written, Quiet.obeysSig hlength hfinish⟩

/-- A name that is no variable but a function is called as that function. -/
theorem Quiet.fnCallee_of_namedCallee (hid : s.scopes.lookup .fn s.current name.text = some id)
    (hf : s.syms.sig? id = some f)
    (h : Quiet Γ (Binding.namedCallee expected name tyArgs range) s callee t) :
    Quiet Γ (Binding.fnCallee id f name tyArgs range) s callee t := by
  replace h := h.read rfl
  simp only [out_get, hid, Option.bind_eq_bind, Option.bind_some, hf] at h
  exact h

/-- A name that is neither a variable nor a function is called as a variant. Its type arguments are
dropped. -/
theorem bindExpr_call_of_variant {origin : Origin} {args : List Ast.Expr} {sum : SumDef}
    {d : VariantDef}
    (hvar : s.scopes.lookup .var s.current name.text = none)
    (hfn : s.scopes.lookup .fn s.current name.text = none)
    (hvariant : s.registry.variant? name.text = some (sum, d)) (expected : Option Ty)
    (tyArgs : List Ast.TyExpr) :
    (bindExpr expected (.call origin (.name name) tyArgs args)).run s =
      StateT.run (do
        let bound ← bindExprs
          [d.payload.bind fun ty => closedHint (ty.subst (expectedSumArgs expected sum))] args
        finishVariantCall sum name.text d (expectedSumArgs expected sum) bound origin.range) s := by
  have hcallee : (resolveCallee expected (.name name) tyArgs origin.range).run s =
      (some (.variant sum name.text d (expectedSumArgs expected sum)), s) := by
    have hnamed := run_namedCallee_of_variant expected tyArgs origin.range hfn hvariant
    obtain ⟨hout, hafter⟩ := resolveCallee_of_none expected tyArgs origin.range hvar
    exact Prod.ext (hout.trans (congrArg (fun r => some r.1) hnamed))
      (hafter.trans (congrArg Prod.snd hnamed))
  rw [bindExpr, StateT.run_bind, hcallee]
  rfl

/-- A call by name that reports nothing, with explicit type arguments. A function is called with its
type parameters replaced. A variant is constructed as it is without type arguments, whatever they
are. -/
theorem explicit_type_arguments_enter_signatures {origin : Origin} {args : List Ast.Expr}
    (hvar : s.scopes.lookup .var s.current name.text = none) (htyArgs : tyArgs ≠ [])
    (hsilent : (after (bindExpr expected (.call origin (.name name) tyArgs args)) s).findings =
      s.findings) :
    (∀ id f, s.scopes.lookup .fn s.current name.text = some id → s.syms.sig? id = some f →
      f.isBuiltin = false →
      ∃ tys bound, Written s tyArgs tys ∧
        (∃ recorded, (out (bindExpr expected (.call origin (.name name) tyArgs args)) s).kind =
          .call id recorded bound) ∧
        ObeysSig f tys bound (out (bindExpr expected (.call origin (.name name) tyArgs args)) s)) ∧
    ∀ sum d, s.scopes.lookup .fn s.current name.text = none → s.registry.variant? name.text =
      some (sum, d) →
      ∀ other, (bindExpr expected (.call origin (.name name) tyArgs args)).run s =
        (bindExpr expected (.call origin (.name name) other args)).run s := by
  refine ⟨?_, ?_⟩
  · intro id f hid hf hbuiltin
    have hquiet : Quiet (after (bindExpr expected (.call origin (.name name) tyArgs args)) s).syms
        (bindExpr expected (.call origin (.name name) tyArgs args)) s _ _ :=
      ⟨rfl, rfl, hsilent, Symbols.le_refl _⟩
    rcases hquiet.bindExpr_call with ⟨name', callee, bound, hname, -, hnamed, -, hfinish⟩ | ⟨_, _,
      _, _, hvalue, -⟩
    · cases hname
      have hcallee := Quiet.fnCallee_of_namedCallee hid hf hnamed
      obtain ⟨tys, hwritten, hkind, hobeys⟩ := Quiet.explicitCall hbuiltin htyArgs hcallee hfinish
      exact ⟨tys, bound, hwritten, hkind, hobeys⟩
    · exact absurd hvar (hvalue name rfl)
  · intro sum d hfn hvariant other
    rw [bindExpr_call_of_variant hvar hfn hvariant expected tyArgs,
      bindExpr_call_of_variant hvar hfn hvariant expected other]

/-- The file `fn id<T>(x: T) -> T { x }`. -/
def identityFile : Ast.SourceFile :=
  let placeholder : Ast.TyExpr := .named default ⟨default, "T"⟩ []
  ⟨default, default,
    [.fn default ⟨default, "id"⟩ [⟨default, "T"⟩] [⟨default, ⟨default, "x"⟩, placeholder⟩]
      (some placeholder)
      ⟨default, [.expr default (.name ⟨default, "x"⟩)]⟩],
    "identity", ""⟩

/-- The state behind that file. -/
def afterIdentity : State := ((Session.start {}).bind identityFile).2.state

/-- The signature of its function. -/
def identitySig : Sig := ⟨"id", [⟨"x", .generic "T"⟩], ["T"], .generic "T", false, true⟩

/-- `id<Int>(3)`. -/
def identityCall : Ast.Expr :=
  .call default (.name ⟨default, "id"⟩) [.named default ⟨default, "Int"⟩ []]
    [.literal default (.int 3)]

/-- A call of the generic identity with an explicit type argument obeys its signature. -/
theorem identity_call_obeys_signature :
    (after (bindExpr none identityCall) afterIdentity).findings = afterIdentity.findings ∧
      ∃ tys bound, Written afterIdentity [.named default ⟨default, "Int"⟩ []] tys ∧
        (∃ recorded, (out (bindExpr none identityCall) afterIdentity).kind = .call 11 recorded bound) ∧
        ObeysSig identitySig tys bound (out (bindExpr none identityCall) afterIdentity) := by
  have hsilent : (after (bindExpr none identityCall) afterIdentity).findings =
    afterIdentity.findings := by
    decide +kernel
  refine ⟨hsilent, ?_⟩
  exact (explicit_type_arguments_enter_signatures (by decide +kernel) (List.cons_ne_nil _ _)
    hsilent).1 11
    identitySig (by decide +kernel) (by decide +kernel) rfl

end Bindery.Binding
