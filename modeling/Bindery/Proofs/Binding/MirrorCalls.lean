import Bindery.Proofs.Binding.Mirror
import Bindery.Proofs.Binding.WellTyped
import Bindery.Proofs.Ty.Builtins

/-!
# Names, calls and records on poisoned parts

What the second of two runs makes of a name, a call or a record whose parts are poisoned forms of
what the first run has bound.

The type arguments of a call are read off its arguments, the first one winning. In the second run an
argument may be unknown, so that a later one decides, or none. This does no harm if all arguments
have exactly the types that the type arguments make of the parameters: whatever is then read off a
poisoned argument is a poisoned form of the type argument.
-/

namespace Bindery

/-- What is known of a variant that is found by its name. -/
theorem Registry.Recorded.of_variant? {r : Registry} {Γ : Symbols} {name : String} {sum : SumDef}
    {d : VariantDef}
    (hr : r.Recorded Γ) (h : r.variant? name = some (sum, d)) :
    r.sum? sum.name = some sum ∧ sum.variants.get? name = some d ∧
      Γ.get? d.symbol = some ⟨d.symbol, name, .variant sum.name d.payload, sum.selfTy, none, 0⟩ := by
  obtain ⟨owner, -, hsum, hd⟩ := Binding.variant?_eq_some_iff.mp h
  have hname : sum.name = owner := hr.sum_name hsum
  subst hname
  exact ⟨hsum, hd, hr.variant_symbol hsum hd⟩

namespace Binding

open Bindery.Bound

/-- What both runs know of the declared types: they are those of the symbol table, the names of
variants without payload are known, and neither a field nor a variable of the first run is
poisoned. -/
structure Ground (Γ : Symbols) (registry : Registry) (bare : String → Bool) : Prop where
  recorded : registry.Recorded Γ
  bare : ∀ sum d name v, registry.sum? sum = some d → d.variants.get? name = some v →
    v.payload = none → bare name = true
  fields : ∀ record d name f, registry.record? record = some d → d.fields.get? name = some f →
    f.ty.hasPoison = false
  locals : ∀ id sym, Γ.get? id = some sym → sym.kind.isLocal = true → sym.ty.hasPoison = false

section

variable {w : Setting} {Γ : Symbols} {s s' t : State} {range : Range} {expected expected' : Option Ty}

/-! ## Names -/

variable {name : Ast.Name} {id : SymId} {record : RecordDef} {f : Sig} {sum : SumDef} {type : Ast.Name}
    {explicit : Subst} {target : Callee} {d : VariantDef} {isExplicit : Bool}
    {tyArgs : List Ast.TyExpr}
    {bs' bs : List Expr} {n : Expr} {known known' : Subst} {args : List Ty}

variable {symbol : SymId} {τ : Subst} {target' : Callee} {values : List FieldValue}

/-- A variant used by name alone. -/
theorem bareVariantTy_below (h : Suits expected ⟨.variant symbol none, .sum sum.name args, range⟩)
    (hlength : args.length = sum.tyParams.length) :
    (bareVariantTy expected sum).Below (.sum sum.name args) := by
  unfold bareVariantTy
  split
  · next name args' =>
    split
    · next heq =>
      rcases h _ rfl with hunit | hbelow | hdiverges | ⟨b, hb⟩
      · cases hunit
      · rwa [heq] at hbelow ⊢
      · cases hdiverges
      · cases hb
    · rw [← hlength]
      exact .nominal _ _ (.replicate args)
  · rw [← hlength]
    exact .nominal _ _ (.replicate args)

/-- A name that stands for a function or a variant in both runs. -/
theorem repeats_nonVarExpr (h : Poisoned w s s') (hground : Ground Γ w.registry w.bare)
    (hexact : (Node.expr n).isExact Γ = true) (hsuits : Suits expected' n)
    (hq : Quiet Γ (nonVarExpr expected name) s n t) :
    ∃ n', ExprBelow n n' ∧ Repeats (nonVarExpr expected' name) s' n' := by
  have hread : ∀ space, Repeats (lookup space name.text) s'
    (s'.scopes.lookup space s'.current name.text) :=
    fun _ => ⟨rfl, rfl⟩
  obtain ⟨rfl, ⟨id, hlookup, rfl⟩ | ⟨sum, d, hvariant, hpayload, rfl⟩⟩ := hq.nonVarExpr
  · obtain ⟨c, sc, -, hsc, hid⟩ := Scopes.exists_of_lookup hlookup
    obtain ⟨sym, f, hsym, hkind⟩ := h.valid.fn_known c sc name.text id hsc hid
    obtain ⟨sym', ret, hsym', -, -, hty⟩ := h.sigs id sym f hsym hkind
    have hlookup' : s'.scopes.lookup .fn s'.current name.text = some id :=
      (h.fn' _).trans ((h.fn _).symm.trans hlookup)
    have htyOf : Repeats (tyOf id) s' sym'.ty := ⟨by rw [out_tyOf, hsym']; rfl, rfl⟩
    refine ⟨⟨.fnRef id, sym'.ty, name.range⟩, ?_, (hread .fn).seq ?_⟩
    · rw [hsym]
      exact ⟨hty, rfl, .some hty, fun hne => by cases hne⟩
    · rw [hlookup']
      exact htyOf.seq (.pure _ s')
  · obtain ⟨hsum, hd, hsymbol⟩ := hground.recorded.of_variant? (h.registry ▸ hvariant)
    obtain ⟨args, hargs⟩ := exists_bareVariantTy expected sum
    rw [hargs] at hexact hsuits ⊢
    obtain ⟨hlength, -⟩ := Node.payload_eq_of_isExact hexact hsymbol
    have hbelow := bareVariantTy_below hsuits hlength
    have hnone : s'.scopes.lookup .fn s'.current name.text = none := by
      rw [h.fn', ← h.fn]
      cases hlookup : t.scopes.lookup .fn t.current name.text with
      | none => rfl
      | some id =>
        have hout := hq.out_eq
        rw [nonVarExpr, out_bind, out_lookup, hlookup] at hout
        cases congrArg Expr.kind hout
    refine ⟨⟨.variant d.symbol none, bareVariantTy expected' sum, name.range⟩,
      ⟨hbelow, rfl, .some hbelow, fun _ => rfl⟩,
      (hread .fn).seq ?_⟩
    rw [hnone]
    refine (Repeats.get s').seq ?_
    rw [h.registry', ← h.registry, hvariant]
    dsimp only
    rw [hpayload]
    exact .pure _ s'

/-- A name that stands for a variable in the second run. -/
theorem ends_var {result : Option SymId} {id' : SymId} {sym' : Symbol} (h : Poisoned w s s')
    (hq : Quiet Γ (resolveVar name) s result t)
    (hlookup' : s'.scopes.lookup .var s'.current name.text = some id')
    (hsym' : s'.syms.get? id' = some sym') (hbelow : ExprBelow n ⟨.var id', sym'.ty, name.range⟩) :
    Ends w [] (nameExpr expected' name) s' t (ExprBelow n) := by
  obtain ⟨hpoisoned, hfindings⟩ := h.resolveVar hq
  have hout := (out_resolveVar h.valid' name).trans hlookup'
  have hresolve : Ends w [] (resolveVar name) s' t fun _ => True :=
    ⟨hpoisoned, .of_eq hfindings, trivial⟩
  refine hresolve.followed ?_
  have htyOf : Repeats (tyOf id') (after (resolveVar name) s') sym'.ty := by
    refine ⟨?_, rfl⟩
    rw [out_tyOf, (resolveVar_neutral h.valid' name).1, hsym']
    rfl
  rw [hout]
  exact .past htyOf (.pure hpoisoned hbelow)

theorem ends_nameExpr (h : Poisoned w s s') (hground : Ground Γ w.registry w.bare)
    (hexact : (Node.expr n).isExact Γ = true) (hsuits : Suits expected' n)
    (hq : Quiet Γ (nameExpr expected name) s n t) :
    Ends w [] (nameExpr expected' name) s' t (ExprBelow n) := by
  have hseen := h.seen name.text
  rcases hq.nameExpr h.valid with ⟨id, hresolve, rfl⟩ | ⟨hnone, hother⟩
  · have hgrows : Grows [] s t := hresolve.grows inferInstance
    rw [(hresolve.resolveVar h.valid).1] at hseen
    generalize hlookup' : s'.scopes.lookup .var s'.current name.text = result' at hseen
    cases hseen with
    | known hsym hsym' hname hkind hty hscope hscope' hc hc' hdepth =>
      refine ends_var h hresolve hlookup' hsym' ?_
      rw [hgrows.syms _ _ hsym]
      exact ⟨hty, rfl, .some hty, fun _ => rfl⟩
    | stray hbare hsym' hkind hty hscope' hc' =>
      refine ends_var h hresolve hlookup' hsym' ?_
      rw [hty]
      exact ⟨.error _, rfl, .some (.error _), fun _ => rfl⟩
  · obtain ⟨rfl, -⟩ := hother.nonVarExpr
    have hresolve : Quiet Γ (resolveVar name) t none t :=
      ⟨(out_resolveVar h.valid name).trans hnone, after_resolveVar_of_none hnone, rfl, hother.syms_le⟩
    rw [hnone] at hseen
    generalize hlookup' : s'.scopes.lookup .var s'.current name.text = result' at hseen
    cases hseen with
    | unknown =>
      obtain ⟨n', hbelow, hrepeats⟩ := repeats_nonVarExpr h hground hexact hsuits hother
      have hresolve' : Repeats (resolveVar name) s' none :=
        ⟨(out_resolveVar h.valid' name).trans hlookup', after_resolveVar_of_none hlookup'⟩
      exact .past hresolve' (.repeats h hrepeats hbelow)
    | stray hbare hsym' hkind hty hscope' hc' =>
      refine ends_var h hresolve hlookup' hsym' ?_
      rw [hty]
      obtain ⟨-, ⟨id, -, rfl⟩ | ⟨sum, d, -, -, rfl⟩⟩ := hother.nonVarExpr
      · exact ⟨.error _, rfl, .some (.error _), fun _ => rfl⟩
      · exact ⟨.error _, rfl, .some (.error _), fun _ => rfl⟩

/-! ## Arguments -/

/-- The expected types at their places suit the expressions. -/
def SuitsAll : List (Option Ty) → List Expr → Prop
  | _, [] => True
  | hints, b :: bs => Suits hints.head?.join b ∧ SuitsAll hints.tail bs

theorem suitsAll_nil (bs : List Expr) : SuitsAll [] bs := by
  induction bs with
  | nil => trivial
  | cons b bs ih => exact ⟨suits_none b, ih⟩

theorem suitsAll_map {α : Type} {hint : α → Option Ty} {params : List α}
    (h : ∀ p ∈ params.zip bs, Suits (hint p.1) p.2) : SuitsAll (params.map hint) bs := by
  induction bs generalizing params with
  | nil => trivial
  | cons b bs ih =>
    cases params with
    | nil => exact suitsAll_nil (b :: bs)
    | cons p params =>
      obtain ⟨hfirst, hrest⟩ := List.forall_mem_cons.mp h
      exact ⟨hfirst, ih hrest⟩

theorem suitsAll_replicate {hint : Option Ty} (h : ∀ b ∈ bs, Suits hint b) (n : Nat) :
    SuitsAll (List.replicate n hint) bs := by
  have hmap : (List.replicate n ()).map (fun _ => hint) = List.replicate n hint := List.map_replicate
  rw [← hmap]
  exact suitsAll_map fun p hp => h p.2 (List.of_mem_zip hp).2

/-- Expected types that are poisoned forms of the types of the expressions. -/
theorem suitsAll_of_belowAll {tys : List Ty} (h : Ty.BelowAll tys (bs.map Expr.ty)) :
    SuitsAll (tys.map some) bs := by
  induction bs generalizing tys with
  | nil => trivial
  | cons b bs ih =>
    cases h with
    | cons hfirst hrest => exact ⟨suits_of_below hfirst, ih hrest⟩

theorem repeats_checkArguments {callee : String} {loose : Bool} {params : List Ty} {args : List Expr}
    (h : Ty.compatibleAll loose params (args.map Expr.ty) = true) (index : Nat) (s' : State) :
    Repeats (checkArguments callee loose index params args) s' () := by
  induction params generalizing args index with
  | nil => exact .pure () s'
  | cons param params ih =>
    cases args with
    | nil => exact .pure () s'
    | cons arg args =>
      simp only [List.map_cons, Ty.compatibleAll, Bool.and_eq_true] at h
      exact (Repeats.reportUnless h.1 _ _ s').seq (ih h.2 _)

/-! ## Calls of functions -/

/-- The substitution of the explicit type arguments of a call, if there are any. -/
inductive Explicit (f : Sig) : Subst → Bool → Prop
  | none : Explicit f .empty false
  | some (args : List Ty) : Explicit f (.ofArguments f.tyParams args) true

/-- The type arguments that a call reads off its arguments. -/
def inferredArgs (f : Sig) (explicit : Subst) (isExplicit : Bool) (args : List Ty) : Subst :=
  if f.isGeneric && !isExplicit then Ty.inferAll f.paramTys args explicit else explicit

theorem get?_inferredArgs {n : String} (h : Explicit f explicit isExplicit)
    (hscoped : f.isGeneric = true → f.Scoped) (hn : n ∉ f.tyParams) (args : List Ty) :
    (inferredArgs f explicit isExplicit args).get? n = none := by
  unfold inferredArgs
  cases h with
  | none =>
    split
    · next hgeneric =>
      have hgeneric : f.isGeneric = true := by simpa using hgeneric
      rw [Ty.get?_inferAll, OrderedMap.get?_empty]
      intro hmem
      obtain ⟨ty, hty, hplaceholder⟩ := Ty.mem_allPlaceholders.mp hmem
      exact hn (hscoped hgeneric ty hty n hplaceholder)
    · rfl
  | some explicitArgs =>
    rw [Bool.not_true, Bool.and_false]
    exact Subst.get?_ofArguments_of_not_mem explicitArgs hn

theorem under_inferredArgs (h : explicit.Under τ) (hargs : Ty.BelowAll args (Ty.substAll τ f.paramTys))
    (isExplicit : Bool) : (inferredArgs f explicit isExplicit args).Under τ := by
  unfold inferredArgs
  split
  · exact Ty.under_inferAll hargs h
  · exact h

/-- The call of a function in the first run: its arguments have the types that the type arguments
make of the parameters, and its explicit type arguments are among the type arguments. -/
theorem exists_tyArgs (hexplicit : Explicit f explicit isExplicit) (hf : Γ.sig? id = some f)
    (hordinary : f.isBuiltin = true → Builtin.ofName? f.name = none)
    (hexact : (Node.expr n).isExact Γ = true)
    (hq : Quiet Γ (finishFnCall id f explicit isExplicit true bs range) s n t) :
    ∃ τ, explicit.Under τ ∧ bs.map Expr.ty = Ty.substAll τ f.paramTys ∧ bs.length = f.params.length ∧
      τ = .ofArguments f.tyParams
        (((inferredArgs f explicit isExplicit (bs.map Expr.ty)).closeWith f.tyParams).instantiate
        f.tyParams) ∧
      ∃ tyArgs, n = ⟨.call id tyArgs bs,
        f.ret.subst ((inferredArgs f explicit isExplicit (bs.map Expr.ty)).closeWith f.tyParams),
          range⟩ := by
  obtain ⟨-, hlength, -, closed, hclosed, rfl⟩ := hq.finishFnCall
  have hargs := Node.args_eq_of_isExact hexact hf hordinary
  rw [hclosed] at hargs
  refine ⟨_, ?_, hargs, hlength, rfl, _, by rw [hclosed]; rfl⟩
  cases hexplicit with
  | none => exact Subst.under_empty _
  | some args =>
    rw [Bool.not_true, Bool.and_false]
    exact Subst.under_closeWith rfl

/-- What a function expects of its arguments suits them. -/
theorem suitsAll_fn (hunder : explicit.Under τ) (hargs : bs.map Expr.ty = Ty.substAll τ f.paramTys) :
    SuitsAll (f.paramTys.map fun ty => closedHint (ty.subst explicit)) bs := by
  apply suitsAll_map
  generalize f.paramTys = params at hargs
  induction params generalizing bs with
  | nil => simp
  | cons param params ih =>
    cases bs with
    | nil => simp
    | cons b bs =>
      rw [List.map_cons, Ty.substAll, List.cons.injEq] at hargs
      rw [List.zip_cons_cons, List.forall_mem_cons]
      refine ⟨?_, ih hargs.2⟩
      unfold closedHint
      split
      · exact suits_none b
      · next hclosed =>
        apply suits_of_below
        rw [hargs.1]
        exact Ty.below_of_hasGenerics (by simpa using hclosed) hunder

theorem repeats_finishFnCall {ret' : Ty} (hexplicit : Explicit f explicit isExplicit)
    (hf : Γ.sig? id = some f) (hordinary : f.isBuiltin = true → Builtin.ofName? f.name = none)
    (hexact : (Node.expr n).isExact Γ = true) (hscoped : f.isGeneric = true → f.Scoped)
    (hret : ret'.Below f.ret)
    (hbs : List.Forall₂ ExprBelow bs bs')
    (hq : Quiet Γ (finishFnCall id f explicit isExplicit true bs range) s n t) (s' : State) :
    ∃ n', ExprBelow n n' ∧
      Repeats (finishFnCall id { f with ret := ret' } explicit isExplicit true bs' range) s' n' := by
  obtain ⟨τ, hunder, hargs, hlength, hτ, tyArgs, rfl⟩ := exists_tyArgs hexplicit hf hordinary hexact hq
  have hbelow : Ty.BelowAll (bs'.map Expr.ty) (Ty.substAll τ f.paramTys) := hargs ▸ belowAll_map_ty hbs
  have hunder' := under_inferredArgs hunder hbelow isExplicit
  obtain ⟨closed, hclosed⟩ : ∃ c,
    c = (inferredArgs f explicit isExplicit (bs'.map Expr.ty)).closeWith f.tyParams :=
    ⟨_, rfl⟩
  have hty : (ret'.subst closed).Below
      (f.ret.subst ((inferredArgs f explicit isExplicit (bs.map Expr.ty)).closeWith f.tyParams)) := by
    apply hret.subst
    intro m _
    rw [hclosed]
    exact Subst.below_closeWith (hτ ▸ hunder') (fun m hm => get?_inferredArgs hexplicit hscoped hm _)
      (fun m hm => get?_inferredArgs hexplicit hscoped hm _) m
  refine ⟨⟨.call id (closed.instantiate f.tyParams) bs', ret'.subst closed, range⟩,
    ⟨hty, rfl, .some hty, fun _ => rfl⟩, ?_⟩
  subst hclosed
  unfold finishFnCall
  rw [if_neg (by rw [← hbs.length_eq, hlength]; exact fun hne => hne rfl)]
  exact (repeats_checkArguments (Ty.acceptsArguments_of_under hbelow hunder) 1 s').seq (.pure _ s')

theorem repeats_finishBuiltinCall {name : String} {b : Builtin} (hbs : List.Forall₂ ExprBelow bs bs')
    (hq : Quiet Γ (finishBuiltinCall id name b bs range) s n t) (s' : State) :
    ∃ n', ExprBelow n n' ∧ Repeats (finishBuiltinCall id name b bs' range) s' n' := by
  obtain ⟨-, ty, hresolve, rfl⟩ := hq.finishBuiltinCall
  obtain ⟨ty', hresolve', hty⟩ := Builtin.resolve_mono hresolve (belowAll_map_ty hbs)
  refine ⟨⟨.call id [] bs', ty', range⟩, ⟨hty, rfl, .some hty, fun _ => rfl⟩, ?_⟩
  unfold finishBuiltinCall
  dsimp only
  rw [hresolve']
  exact .pure _ s'

/-! ## Calls of variants -/

/-- What the expected type says of the type arguments of a sum agrees with those of the
construction. -/
theorem under_expectedSumArgs {payload : Option Expr}
    (h : Suits expected ⟨.variant symbol payload, .sum sum.name args, range⟩) :
    (expectedSumArgs expected sum).Under (.ofArguments sum.tyParams args) := by
  unfold expectedSumArgs
  split
  · next name args' =>
    split
    · next heq =>
      rcases h _ rfl with hunit | hbelow | hdiverges | ⟨b, hb⟩
      · cases hunit
      · rw [heq] at hbelow
        cases hbelow with
        | nominal _ _ hargs => exact Subst.under_ofArguments hargs
      · cases hdiverges
      · cases hb
    · exact Subst.under_empty _
  · exact Subst.under_empty _

/-- The type of a construction whose type arguments are poisoned forms of the right ones. -/
theorem constructed_below
    (h : known'.Under (.ofArguments sum.tyParams (known.instantiate sum.tyParams))) :
    (Ty.sum sum.name (known'.instantiate sum.tyParams)).Below
      (.sum sum.name (known.instantiate sum.tyParams)) :=
  .nominal _ _ (h.instantiate fun _ hp => Subst.get?_ofArguments_map _ hp)

section

variable {name : String}
  (hsymbol : Γ.get? d.symbol = some ⟨d.symbol, name, .variant sum.name d.payload, sum.selfTy, none, 0⟩)
  (hexact : (Node.expr n).isExact Γ = true) (hsuits : Suits expected' n)

include hsymbol hexact hsuits

/-- What a variant expects of its payload suits it. -/
theorem suitsAll_variant (hq : Quiet Γ (finishVariantCall sum name d known bs range) s n t) :
    SuitsAll (Callee.variant sum name d (expectedSumArgs expected' sum)).hints bs := by
  obtain ⟨-, ⟨-, rfl, rfl⟩ | ⟨payload, arg, hpayload, rfl, -, rfl⟩⟩ := hq.finishVariantCall
  · trivial
  · obtain ⟨-, harg⟩ := Node.payload_eq_of_isExact hexact hsymbol
    rw [hpayload, Option.map_some, Option.map_some, Option.some.injEq] at harg
    refine ⟨?_, trivial⟩
    show Suits (d.payload.bind fun ty => closedHint (ty.subst (expectedSumArgs expected' sum))) arg
    rw [hpayload, Option.bind_some]
    unfold closedHint
    split
    · exact suits_none arg
    · next hclosed =>
      apply suits_of_below
      rw [harg]
      exact Ty.below_of_hasGenerics (by simpa using hclosed) (under_expectedSumArgs hsuits)

theorem repeats_finishVariantCall (hbs : List.Forall₂ ExprBelow bs bs')
    (hq : Quiet Γ (finishVariantCall sum name d known bs range) s n t) (s' : State) :
    ∃ n', ExprBelow n n' ∧
      Repeats (finishVariantCall sum name d (expectedSumArgs expected' sum) bs' range) s' n' := by
  unfold finishVariantCall
  obtain ⟨-, ⟨hpayload, rfl, rfl⟩ | ⟨payload, arg, hpayload, rfl, -, rfl⟩⟩ := hq.finishVariantCall
  · cases hbs
    have hty := constructed_below (under_expectedSumArgs hsuits)
    rw [hpayload]
    exact ⟨constructed sum d (expectedSumArgs expected' sum) none range,
      ⟨hty, rfl, .some hty, fun _ => rfl⟩, .pure _ s'⟩
  · obtain ⟨-, harg⟩ := Node.payload_eq_of_isExact hexact hsymbol
    rw [hpayload, Option.map_some, Option.map_some, Option.some.injEq] at harg
    obtain ⟨arg', _, hbelow, hnil, rfl⟩ := List.forall₂_cons_left_iff.mp hbs
    cases hnil
    have hle := hbelow.ty
    rw [harg] at hle
    have hunder := Ty.under_infer hle (under_expectedSumArgs hsuits)
    have hty := constructed_below hunder
    rw [hpayload]
    refine ⟨constructed sum d _ (some arg') range, ⟨hty, rfl, .some hty, fun _ => rfl⟩, ?_⟩
    exact (Repeats.reportUnless (Ty.acceptsArgument_of_under hle hunder) _ _ s').seq (.pure _ s')

end

/-! ## Calls of values -/

/-- The called value has the types of its arguments as parameters. -/
theorem ty_eq_of_valueCallTy {value : Expr} {name : String} {ty : Ty}
    (hvalue : value.ty.hasPoison = false)
    (hbs : ∀ b ∈ bs, b.ty.hasPoison = false) (hname : isFnRef value = false)
    (hq : Quiet Γ (valueCallTy value name bs range) s ty t) : value.ty = .fn (bs.map Expr.ty) ty := by
  obtain ⟨-, hcall⟩ := hq.valueCallTy
  obtain ⟨params, ret, hfn, hlength, hfit, hty⟩ := hcall (Ty.ne_error_of_hasPoison hvalue)
  obtain rfl := hty hname
  rw [hname] at hfit
  rw [hfn] at hvalue ⊢
  simp only [Ty.hasPoison, Bool.or_eq_false_iff] at hvalue
  rw [map_ty_eq hlength hfit fun p hp b hb hc =>
    Ty.eq_of_compatible (Ty.anyPoison_eq_false_iff.mp hvalue.1 p hp) (hbs b hb) (by simp) hc]

/-- What a called value expects of its arguments suits them. -/
theorem suitsAll_valueHints {ty' ret : Ty} (h : ty'.Below (.fn (bs.map Expr.ty) ret)) :
    SuitsAll (valueHints ty') bs := by
  cases h with
  | error => exact suitsAll_nil bs
  | fn hparams _ => exact suitsAll_of_belowAll hparams

theorem repeats_finishValueCall {value value' : Expr} {ret : Ty}
    (hvalue : value'.ty.Below (.fn (bs.map Expr.ty) ret)) (hname : isFnRef value' = false)
    (hbs : List.Forall₂ ExprBelow bs bs') (name : String) (range : Range) (s' : State) :
    ∃ n', ExprBelow ⟨.callValue value bs, ret, range⟩ n' ∧
      Repeats (finishValueCall value' name bs' range) s' n' := by
  have hcall : ∃ ty', ty'.Below ret ∧ Repeats (valueCallTy value' name bs' range) s' ty' := by
    unfold valueCallTy
    generalize hty : value'.ty = a at hvalue
    cases hvalue with
    | error => exact ⟨.error, .error _, .pure _ s'⟩
    | @fn params' _ ret' _ hparams hret =>
      refine ⟨ret', hret, ?_⟩
      have hlength : params'.length = bs'.length := by
        rw [hparams.length_eq, List.length_map, hbs.length_eq]
      have hfits : Ty.compatibleAll false params' (bs'.map Expr.ty) = true :=
        Ty.compatibleAll_mono (Ty.compatibleAll_self false _) hparams (belowAll_map_ty hbs)
      dsimp only
      rw [if_neg (fun hne => hne hlength), hname]
      exact (repeats_checkArguments hfits 1 s').seq (.pure _ s')
  obtain ⟨ty', hty, hrepeats⟩ := hcall
  exact ⟨⟨.callValue value' bs', ty', range⟩, ⟨hty, rfl, .some hty, fun _ => rfl⟩,
    hrepeats.seq (.pure _ s')⟩

/-- A value is not given type arguments. -/
theorem tyArgs_eq_nil {name : String} {u : Unit}
    (hq : Quiet Γ (checkValueTyArgs name tyArgs range) s u t) :
    tyArgs = [] := by
  cases tyArgs with
  | nil => rfl
  | cons e es =>
    obtain ⟨tys, _, hresolve, hcheck⟩ := Quiet.bind hq
    have hlength := hcheck.discard.checkTypeArity.2.2
    rw [← hresolve.out_eq] at hlength
    cases hlength

/-! ## Called names -/

/-- What a called name stands for in both runs. -/
inductive CalleeBelow (Γ : Symbols) (expected' : Option Ty) : Callee → Callee → Prop
  | fn {id : SymId} {f : Sig} {ret' : Ty} {explicit : Subst} {isExplicit : Bool}
    (hf : Γ.sig? id = some f) (hordinary : f.isBuiltin = true → Builtin.ofName? f.name = none)
    (hexplicit : Explicit f explicit isExplicit) (hscoped : f.isGeneric = true → f.Scoped)
    (hret : ret'.Below f.ret) :
    CalleeBelow Γ expected' (.fn id f explicit isExplicit true)
      (.fn id { f with ret := ret' } explicit isExplicit true)
  | builtin (id : SymId) (name : String) (b : Builtin) :
    CalleeBelow Γ expected' (.builtin id name b) (.builtin id name b)
  | variant {sum : SumDef} {name : String} {d : VariantDef} (known : Subst)
    (hsymbol : Γ.get? d.symbol = some ⟨d.symbol, name, .variant sum.name d.payload, sum.selfTy,
      none, 0⟩) :
    CalleeBelow Γ expected' (.variant sum name d known)
      (.variant sum name d (expectedSumArgs expected' sum))

theorem repeats_fnCallee {ret' : Ty} {callee : Ast.Name} (h : Poisoned w s s')
    (hf : Γ.sig? id = some f) (hscoped : f.isGeneric = true → f.Scoped) (hret : ret'.Below f.ret)
    (hq : Quiet Γ (fnCallee id f callee tyArgs range) s target t) :
    ∃ target', CalleeBelow Γ expected' target target' ∧
      Repeats (fnCallee id { f with ret := ret' } callee tyArgs range) s' target' := by
  obtain ⟨-, tys, htys, hcases⟩ := hq.fnCallee
  have hrepeats := repeats_resolveTypes tyArgs (h.registry'.trans h.registry.symm) h.generics htys
  have hspecial : (f.isBuiltin = true → Builtin.ofName? f.name = none) →
      (if f.isBuiltin then Builtin.ofName? f.name else none) = none := by
    intro hordinary
    split
    · next hbuiltin => exact hordinary hbuiltin
    · rfl
  rcases hcases with ⟨b, hbuiltin, hb, rfl, rfl⟩ | ⟨hordinary, ⟨rfl, rfl⟩ | ⟨hne, hlength, rfl⟩⟩
  · refine ⟨_, .builtin id f.name b, hrepeats.seq ?_⟩
    rw [if_pos hbuiltin, hb]
    exact .pure _ s'
  · refine ⟨_, .fn hf hordinary .none hscoped hret, hrepeats.seq ?_⟩
    rw [hspecial hordinary]
    exact .pure _ s'
  · refine ⟨_, .fn hf hordinary (.some tys) hscoped hret, hrepeats.seq ?_⟩
    rw [hspecial hordinary, if_neg (by simpa using hne)]
    exact (repeats_checkTypeArity hlength f.name callee.range s').seq (.pure _ s')

/-- A called name that stands for a variant is the name of no function. -/
theorem lookup_of_variant {variant : String} (hs : s.Valid)
    (hq : Quiet Γ (namedCallee expected name tyArgs range) s (.variant sum variant d known) t) :
    s.scopes.lookup .fn s.current name.text = none := by
  cases hlookup : s.scopes.lookup .fn s.current name.text with
  | none => rfl
  | some id =>
    obtain ⟨c, sc, -, hsc, hid⟩ := Scopes.exists_of_lookup hlookup
    obtain ⟨sym, f, hsym, hkind⟩ := hs.fn_known c sc name.text id hsc hid
    have hf := Symbols.sig?_eq_some_iff.mpr ⟨sym, hsym, hkind⟩
    replace hq := hq.read rfl
    simp only [out_get, hlookup, hf, Option.bind_eq_bind, Option.bind_some, Option.pure_def] at hq
    obtain ⟨-, _, -, ⟨b, -, -, -, hcallee⟩ | ⟨-, ⟨-, hcallee⟩ | ⟨-, -, hcallee⟩⟩⟩ := hq.fnCallee
    all_goals cases hcallee

theorem repeats_namedCallee (h : Poisoned w s s') (hground : Ground Γ w.registry w.bare)
    (hq : Quiet Γ (namedCallee expected name tyArgs range) s target t) :
    ∃ target', CalleeBelow Γ expected' target target' ∧
      Repeats (namedCallee expected' name tyArgs range) s' target' := by
  have hle := hq.syms_le
  rcases hq.namedCallee with ⟨id, f, hlookup, hf, hcallee⟩ | ⟨sum, d, hvariant, rfl, rfl⟩
  · obtain ⟨rfl, -⟩ := hcallee.fnCallee
    obtain ⟨sym, hsym, hkind⟩ := Symbols.sig?_eq_some_iff.mp hf
    obtain ⟨sym', ret', hsym', hkind', hret, -⟩ := h.sigs id sym f hsym hkind
    have hf' : s'.syms.sig? id = some { f with ret := ret' } :=
      Symbols.sig?_eq_some_iff.mpr ⟨sym', hsym', hkind'⟩
    have hlookup' : s'.scopes.lookup .fn s'.current name.text = some id :=
      (h.fn' _).trans ((h.fn _).symm.trans hlookup)
    have hΓ : Γ.sig? id = some f := Symbols.sig?_eq_some_iff.mpr ⟨sym, hle _ _ hsym, hkind⟩
    obtain ⟨target', hbelow, hrepeats⟩ := repeats_fnCallee h hΓ (h.closed id f hf) hret hcallee
    refine ⟨target', hbelow, (Repeats.get s').seq ?_⟩
    simp only [hlookup', hf', Option.bind_eq_bind, Option.bind_some, Option.pure_def]
    exact hrepeats
  · obtain ⟨-, -, hsymbol⟩ := hground.recorded.of_variant? (h.registry ▸ hvariant)
    have hnone : s'.scopes.lookup .fn s'.current name.text = none := by
      rw [h.fn', ← h.fn]
      exact lookup_of_variant h.valid hq
    refine ⟨_, .variant _ hsymbol, (Repeats.get s').seq ?_⟩
    simp only [hnone, Option.bind_eq_bind, Option.bind_none, h.registry']
    rw [← h.registry, hvariant]
    exact .pure _ s'

/-- What a called name expects of the arguments suits them. -/
theorem CalleeBelow.suitsAll (h : CalleeBelow Γ expected' target target')
    (hexact : (Node.expr n).isExact Γ = true)
    (hsuits : Suits expected' n) (hq : Quiet Γ (finishCall target bs range) s n t) :
    SuitsAll target'.hints bs := by
  cases h with
  | fn hf hordinary hexplicit hscoped hret =>
    obtain ⟨τ, hunder, hargs, -⟩ := exists_tyArgs hexplicit hf hordinary hexact hq
    exact suitsAll_fn hunder hargs
  | builtin => exact suitsAll_nil bs
  | variant known hsymbol => exact suitsAll_variant hsymbol hexact hsuits hq

theorem CalleeBelow.repeats_finishCall (h : CalleeBelow Γ expected' target target')
    (hexact : (Node.expr n).isExact Γ = true) (hsuits : Suits expected' n)
    (hbs : List.Forall₂ ExprBelow bs bs')
    (hq : Quiet Γ (finishCall target bs range) s n t) (s' : State) :
    ∃ n', ExprBelow n n' ∧ Repeats (finishCall target' bs' range) s' n' := by
  cases h with
  | fn hf hordinary hexplicit hscoped hret =>
    exact repeats_finishFnCall hexplicit hf hordinary hexact hscoped hret hbs hq s'
  | builtin id name b => exact repeats_finishBuiltinCall hbs hq s'
  | variant known hsymbol => exact repeats_finishVariantCall hsymbol hexact hsuits hbs hq s'

/-! ## Records -/

/-- The type arguments that a record starts with: the explicit ones, or what is expected. -/
theorem Quiet.recordArgs (hq : Quiet Γ (recordArgs expected record type tyArgs) s known t) :
    ∃ tys, Quiet Γ (resolveTypes tyArgs) s tys s ∧
      (tys = [] ∧ known = expectedRecordArgs expected record ∨
        tys ≠ [] ∧ tys.length = record.tyParams.length ∧ known = .ofArguments record.tyParams
          tys) := by
  obtain ⟨tys, _, hresolve, hrest⟩ := hq.bind
  obtain rfl := hresolve.checks.2
  refine ⟨tys, hresolve, ?_⟩
  split at hrest
  · next hempty =>
    obtain ⟨rfl, -⟩ := hrest.pure
    exact .inl ⟨List.isEmpty_iff.mp hempty, rfl⟩
  · next hne =>
    obtain ⟨ok, _, harity, hpure⟩ := hrest.bind
    obtain ⟨rfl, rfl, hlength⟩ := harity.checkTypeArity
    obtain ⟨rfl, -⟩ := hpure.pure
    exact .inr ⟨by simpa using hne, hlength, rfl⟩

/-- Only the type parameters of a record are known at the start. -/
theorem get?_recordArgs {n : String} (hq : Quiet Γ (recordArgs expected record type tyArgs) s known t)
    (hn : n ∉ record.tyParams) : known.get? n = none := by
  obtain ⟨tys, -, ⟨-, rfl⟩ | ⟨-, -, rfl⟩⟩ := hq.recordArgs
  · unfold expectedRecordArgs
    split
    · split
      · exact Subst.get?_ofArguments_of_not_mem _ hn
      · rfl
    · rfl
  · exact Subst.get?_ofArguments_of_not_mem _ hn

/-- What is known of a record at the start agrees with what the first run has found out in the
end. -/
theorem repeats_recordArgs (h : Poisoned w s s') (hkept : known.Kept known')
    (hsettled : ∀ p ∈ record.tyParams, (known'.get? p).isSome = true)
    (hsuits : Suits expected'
      ⟨.record values, .record record.name (known'.instantiate record.tyParams), range⟩)
    (hq : Quiet Γ (recordArgs expected record type tyArgs) s known t) :
    ∃ k, k.Under known' ∧ Repeats (Binding.recordArgs expected' record type tyArgs) s' k := by
  obtain ⟨tys, hresolve, hcases⟩ := hq.recordArgs
  have hrepeats := repeats_resolveTypes tyArgs (h.registry'.trans h.registry.symm) h.generics hresolve
  rcases hcases with ⟨rfl, -⟩ | ⟨hne, hlength, rfl⟩
  · refine ⟨expectedRecordArgs expected' record, ?_, hrepeats.seq (.pure _ s')⟩
    unfold expectedRecordArgs
    split
    · next name args =>
      split
      · next heq =>
        rcases hsuits _ rfl with hunit | hbelow | hdiverges | ⟨b, hb⟩
        · cases hunit
        · rw [heq] at hbelow
          cases hbelow with
          | nominal _ _ hargs =>
            intro n a ha
            have hunder := Subst.under_ofArguments hargs n a ha
            by_cases hn : n ∈ record.tyParams
            · obtain ⟨b, hb⟩ := Option.isSome_iff_exists.mp (hsettled n hn)
              rw [Subst.instantiate, Subst.get?_ofArguments_map _ hn, hb] at hunder
              rwa [hb]
            · rw [Subst.get?_ofArguments_of_not_mem _ hn] at ha
              cases ha
        · cases hdiverges
        · cases hb
      · exact Subst.under_empty _
    · exact Subst.under_empty _
  · refine ⟨.ofArguments record.tyParams tys, fun n a ha => ?_, hrepeats.seq ?_⟩
    · rw [hkept n a ha]
      exact Ty.below_refl a
    · rw [if_neg (by simpa using hne)]
      exact (repeats_checkTypeArity hlength _ _ s').seq (.pure _ s')

/-- The fields of a record only add to what is known of it. -/
theorem kept_bindFields {seen : List String} {fields : List Ast.FieldInit}
    (hq : Quiet Γ (bindFields record seen known fields) s (values, known') t) : known.Kept known' := by
  induction fields generalizing s seen known values with
  | nil =>
    obtain ⟨heq, -⟩ := hq.bindFields_nil
    cases heq
    exact Subst.kept_refl _
  | cons field fields ih =>
    obtain ⟨origin, name, value⟩ := field
    obtain ⟨-, d, v, values', known'', u, -, -, -, hrest, heq⟩ := hq.bindFields_cons
    cases heq
    exact (Ty.kept_infer _ _ _).trans (ih hrest)

end

end Binding

end Bindery
