import Bindery.Proofs.Ty.Below
import Bindery.Proofs.WellFormedTypes

/-!
# Construction and access

The type arguments of a record or variant that is constructed are read off its parts, one after the
other, and a part is checked against what is known when it is met. Later parts only add to that. A
type parameter that is still open when a part was checked stands where the part is poisoned, so
whatever is found out later, or poison in the end, fits there too (`Ty.compatible_of_kept`).

Hence an access to a field of a record literal finds a type that accepts the value of the field. The
payload of a variant is compared loosely. What a pattern finds accepts the payload if there is no
placeholder in it. A placeholder of the surrounding function accepts any payload.
-/

namespace Bindery

namespace Ty

/-- A type that fits what was read off it still fits when more is known. -/
theorem compatible_of_kept {loose : Bool} {s t u : Subst} (declared : Ty) {actual : Ty}
    (h : compatible loose (declared.subst t) actual = true) (hinfer : (declared.infer actual s).Kept t)
    (hkept : ∀ n ∈ declared.placeholders, ∀ a, t.get? n = some a → u.get? n = some a) :
    compatible loose (declared.subst u) actual = true := by
  induction declared using induction_parts generalizing actual s with
  | error | prim _ => exact h
  | generic n =>
    cases hactual : actual.isError with
    | true =>
      rw [isError_eq_true_iff.mp hactual]
      exact compatible_mono (compatible_self loose _) (below_refl _) (.error _)
    | false =>
      obtain ⟨a, ha⟩ := exists_get?_infer_generic hactual n s
      have hn := hinfer n a ha
      rw [subst, hn] at h
      rwa [subst, hkept n List.mem_cons_self a hn]
  | node d k hk ih =>
    rw [compatible_subst_iff hk] at h ⊢
    refine h.imp_right fun h => ⟨h.1, ?_⟩
    obtain ⟨hk', hparts⟩ := h
    rw [infer_eq_inferAll hk hk' hparts.length_eq] at hinfer
    refine List.forall₂_iff_zip.mpr ⟨hparts.length_eq, fun {c a} hp => ?_⟩
    obtain ⟨s', hs'⟩ := kept_of_inferAll hinfer _ hp
    have hc := (List.of_mem_zip hp).1
    exact ih c hc (List.forall₂_zip hparts hp) hs' fun n hn =>
      hkept n (mem_placeholders_of_mem hk hc hn)

end Ty

/-- What is known of the type parameters in the end stands in the type arguments. -/
theorem Subst.kept_instantiate {s t : Subst} {params : List String} (h : s.Kept t) {ty : Ty}
    (hparams : ∀ n ∈ ty.placeholders, n ∈ params) :
    ∀ n ∈ ty.placeholders, ∀ a, s.get? n = some a → (ofArguments params (t.instantiate params)).get?
      n = some a := by
  intro n hn a ha
  rw [instantiate, get?_ofArguments_map _ (hparams n hn), h n a ha]
  rfl

namespace Binding

open Bindery.Bound

variable {Γ : Symbols} {s t : State} {D : Declarations}

/-! ## Records -/

/-- An initialiser and its value: an access to the field finds a type that accepts the value. -/
def Accessed (registry : Registry) (record : String) (args : List Ty) (init : Ast.FieldInit)
    (value : FieldValue) :
    Prop :=
  ∃ ty, fieldOf? registry record init.name.text args = some (value.field, ty) ∧
    ty.accepts value.value.ty = true

theorem accessed_of_bindFields {record : RecordDef} {n : String} (hrecord : record.Formed D n)
    {registry : Registry}
    (hregistry : registry.record? n = some record) {seen : List String} {known known' : Subst}
    {fields : List Ast.FieldInit} {values : List FieldValue}
    (h : Quiet Γ (bindFields record seen known fields) s (values, known') t) :
    known.Kept known' ∧ List.Forall₂ (Accessed registry n (known'.instantiate record.tyParams))
      fields values := by
  induction fields generalizing seen known values s with
  | nil =>
    obtain ⟨heq, -⟩ := h.bindFields_nil
    cases heq
    exact ⟨Subst.kept_refl _, .nil⟩
  | cons init fields ih =>
    obtain ⟨origin, name, value⟩ := init
    obtain ⟨-, d, v, values', known'', u, hd, -, haccepts, hrest, heq⟩ := h.bindFields_cons
    cases heq
    obtain ⟨hkept, hvalues⟩ := ih hrest
    have hfield : fieldOf? registry n name.text (known'.instantiate record.tyParams) =
        some (d.symbol,
        d.ty.subst (.ofArguments record.tyParams (known'.instantiate record.tyParams))) :=
      fieldOf?_eq_some_iff.mpr ⟨record, d, hregistry, hd, rfl, rfl⟩
    refine ⟨(Ty.kept_infer _ _ _).trans hkept, .cons ⟨_, hfield, ?_⟩ hvalues⟩
    exact Ty.compatible_of_kept d.ty haccepts (Subst.kept_refl _)
      (Subst.kept_instantiate hkept (hrecord.own _ d hd))

end Binding

open Binding Bindery.Bound

variable {s : State} {expected : Option Ty} {origin : Origin}

/-- An access to a field of a record literal finds a type that accepts the value of the field, if
nothing is reported about the literal. The literal may stand anywhere, once the types of its file
are declared. -/
theorem accesses_accept_field_values (session : Session) (file : Ast.SourceFile)
    (hs : s.registry = (session.bind file).2.state.registry) {type : Ast.Name}
    {tyArgs : List Ast.TyExpr}
    {fields : List Ast.FieldInit}
    (hsilent : (after (bindExpr expected (.record origin type tyArgs fields)) s).findings =
      s.findings) :
    ∃ values args, out (bindExpr expected (.record origin type tyArgs fields)) s =
        ⟨.record values, .record type.text args, origin.range⟩ ∧
      List.Forall₂ (Accessed s.registry type.text args) fields values := by
  obtain ⟨p, -, -, -, -, -, hformed, -⟩ := session.formed_bind file
  have hquiet : Quiet (after (bindExpr expected (.record origin type tyArgs fields)) s).syms
      (bindExpr expected (.record origin type tyArgs fields)) s _ _ :=
        ⟨rfl, rfl, hsilent, Symbols.le_refl _⟩
  obtain ⟨record, known, values, known', hrecord, -, hfields, -, hout⟩ := hquiet.bindExpr_record
  have hrecord' := (hformed type.text record (hs ▸ hrecord)).1
  rw [hrecord'.name] at hout
  obtain ⟨-, hvalues⟩ := accessed_of_bindFields hrecord' hrecord hfields
  exact ⟨values, _, hout, hvalues⟩

/-- The file `record Pair<A, B> { first: A, rest: List<A>, other: B }  sum Opt<T> { Some(T), None
}`. -/
def pairFile : Ast.SourceFile :=
  let name (text : String) : Ast.Name := ⟨default, text⟩
  let named (text : String) (args : List Ast.TyExpr) : Ast.TyExpr := .named default (name text) args
  ⟨default, default,
    [.record default (name "Pair") [name "A", name "B"]
        [⟨default, name "first", named "A" []⟩, ⟨default, name "rest", named "List" [named "A" []]⟩,
          ⟨default, name "other", named "B" []⟩],
      .sum default (name "Opt") [name "T"] [⟨default, name "Some", some (named "T" [])⟩,
      ⟨default, name "None", none⟩]],
    "pair", ""⟩

/-- The state behind that file. -/
def afterPair : State := ((Session.start {}).bind pairFile).2.state

/-- `Pair { rest: [1], other: "x", first: 2 }`. -/
def pairFields : List Ast.FieldInit :=
  [⟨default, ⟨default, "rest"⟩, .list default [.literal default (.int 1)]⟩,
    ⟨default, ⟨default, "other"⟩, .literal default (.string "x")⟩,
    ⟨default, ⟨default, "first"⟩, .literal default (.int 2)⟩]

theorem accesses_accept_pairFields :
    (after (bindExpr none (.record default ⟨default, "Pair"⟩ [] pairFields)) afterPair).findings =
      afterPair.findings ∧
      ∃ values args, out (bindExpr none (.record default ⟨default, "Pair"⟩ [] pairFields)) afterPair =
          ⟨.record values, .record "Pair" args, default⟩ ∧
        List.Forall₂ (Accessed afterPair.registry "Pair" args) pairFields values := by
  have hsilent : (after (bindExpr none (.record default ⟨default, "Pair"⟩ [] pairFields))
    afterPair).findings =
      afterPair.findings := by decide +kernel
  exact ⟨hsilent, accesses_accept_field_values (.start {}) pairFile (by rw [afterPair]) hsilent⟩

/-- A call that constructs a variant with a payload, if nothing is reported about it: a pattern for
the variant finds a type for the payload that accepts it, up to placeholders. -/
theorem patterns_accept_payloads (session : Session) (file : Ast.SourceFile)
    (hs : s.registry = (session.bind file).2.state.registry) {name : Ast.Name}
    {tyArgs : List Ast.TyExpr}
    {args : List Ast.Expr} {sum : SumDef} {d : VariantDef} {payload : Ty}
    (hvar : s.scopes.lookup .var s.current name.text = none)
    (hfn : s.scopes.lookup .fn s.current name.text = none)
    (hvariant : s.registry.variant? name.text = some (sum, d)) (hpayload : d.payload = some payload)
    (hsilent : (after (bindExpr expected (.call origin (.name name) tyArgs args)) s).findings =
      s.findings) :
    ∃ arg tys ty, out (bindExpr expected (.call origin (.name name) tyArgs args)) s =
        ⟨.variant d.symbol (some arg), .sum sum.name tys, origin.range⟩ ∧
      (∀ range, out (resolveVariant (.sum sum.name tys) name range) s = some (d.symbol, some ty)) ∧
      ty.acceptsArgument arg.ty = true ∧ (ty.hasGenerics = false → ty.accepts arg.ty = true) := by
  obtain ⟨p, -, -, -, -, -, -, hformed⟩ := session.formed_bind file
  obtain ⟨owner, -, hsum⟩ := Option.bind_eq_some_iff.mp hvariant
  obtain ⟨sum', hsum, hd⟩ := Option.bind_eq_some_iff.mp hsum
  obtain ⟨d', hd, heq⟩ := Option.bind_eq_some_iff.mp hd
  cases heq
  have hsum' := (hformed owner sum (hs ▸ hsum)).1
  rw [← hsum'.name] at hsum
  have hquiet : Quiet (after (bindExpr expected (.call origin (.name name) tyArgs args)) s).syms
      (bindExpr expected (.call origin (.name name) tyArgs args)) s _ _ :=
        ⟨rfl, rfl, hsilent, Symbols.le_refl _⟩
  rcases hquiet.bindExpr_call with ⟨name', callee, bound, hname, -, hnamed, -, hfinish⟩ | ⟨_, _, _,
    _, hvalue, -⟩
  · cases hname
    rcases hnamed.namedCallee with ⟨id, f, hid, -⟩ | ⟨sum', d', hvariant', -, rfl⟩
    · rw [hfn] at hid
      cases hid
    · cases hvariant.symm.trans hvariant'
      obtain ⟨-, ⟨hnone, -⟩ | ⟨payload', arg, hpayload', rfl, haccepts, hout⟩⟩ :=
        Quiet.finishVariantCall hfinish
      · rw [hpayload] at hnone
        cases hnone
      · cases hpayload.symm.trans hpayload'
        have hty : (payload.subst _).acceptsArgument arg.ty = true :=
          Ty.compatible_of_kept payload haccepts (Subst.kept_refl _)
            (Subst.kept_instantiate (Subst.kept_refl _) (hsum'.own _ d hd payload hpayload))
        refine ⟨arg, _, _, hout, fun range => ?_, hty, fun hgenerics => ?_⟩
        · simp only [resolveVariant, out_bind, out_get, out_pure]
          simp [hsum, hd, hpayload, SumDef.payloadTy?]
        · rwa [← Ty.compatible_of_hasGenerics arg.ty hgenerics true]
  · exact absurd hvar (hvalue name rfl)

/-- `Some(3)`. -/
def someCall : Ast.Expr := .call default (.name ⟨default, "Some"⟩) [] [.literal default (.int 3)]

theorem patterns_accept_someCall :
    ∃ sum d, afterPair.registry.variant? "Some" = some (sum, d) ∧
      (after (bindExpr none someCall) afterPair).findings = afterPair.findings ∧
      ∃ arg tys ty, out (bindExpr none someCall) afterPair =
          ⟨.variant d.symbol (some arg), .sum sum.name tys, default⟩ ∧
        (∀ range, out (resolveVariant (.sum sum.name tys) ⟨default, "Some"⟩ range) afterPair =
          some (d.symbol, some ty)) ∧
        ty.acceptsArgument arg.ty = true ∧ (ty.hasGenerics = false → ty.accepts arg.ty = true) := by
  have hvariant : (afterPair.registry.variant? "Some").any
    (fun v => decide (v.2.payload = some (.generic "T"))) =
      true := by decide +kernel
  obtain ⟨⟨sum, d⟩, hd, hpayload⟩ := (Option.any_eq_true _ _).mp hvariant
  have hsilent : (after (bindExpr none someCall) afterPair).findings = afterPair.findings := by
    decide +kernel
  exact ⟨sum, d, hd, hsilent, patterns_accept_payloads (.start {}) pairFile (by rw [afterPair])
    (by decide +kernel) (by decide +kernel) hd (of_decide_eq_true hpayload) hsilent⟩

end Bindery
