import Mathlib.Data.List.Nodup
import Bindery.Proofs.Binding.Parts
import Bindery.Proofs.Binding.Sane
import Bindery.Proofs.Bound.Typing

/-!
# Nodes that are properly typed

A node is proper if the types that it carries are sound and it obeys its typing rule. The lemmas
below take one rule of binding each: what it makes quietly from parts of sound types is proper. Two
arguments come back in them. A type that was written down admits only values of the very same type,
and a function value whose parameters are open admits no value at all.
-/

namespace Bindery

open Bindery.Bound

/-- The registry and the symbol table describe the same types, and these have no type parameters. -/
structure Registry.Describes (r : Registry) (Γ : Symbols) : Prop where
  recorded : r.Recorded Γ
  plain : r.Plain

/-- The node carries and returns sound types and obeys its typing rule. -/
structure Bound.Node.Proper (Γ : Symbols) (n : Node) : Prop where
  types : ∀ ty ∈ n.types, ty.Sound
  returned : ∀ v ∈ n.returned, v.1.Sound
  typed : n.Typed Γ

namespace Bound

variable {Γ : Symbols}

theorem Block.rule_ofStatements (stmts : List Stmt) (range : Range) :
    BlockRule (.ofStatements stmts range) where
  value e he := by
    have hlast : Block.lastExpr? stmts = some e := he
    simp [Block.ofStatements, hlast]
  unit h := by
    have hlast : Block.lastExpr? stmts = none := h
    simp [Block.ofStatements, hlast]
  diverges := rfl

variable {stmts : List Stmt}

theorem Block.sound_ofStatements (range : Range)
    (h : ∀ s ∈ stmts, ∀ e, s.kind = .expr e → e.ty.Sound) :
    (Block.ofStatements stmts range).ty.Sound := by
  show (((Block.lastExpr? stmts).map Expr.ty).getD .unit).Sound
  unfold Block.lastExpr?
  split
  · next e range hlast => exact h _ (List.mem_of_getLast? hlast) e rfl
  · exact .prim _

theorem Node.Proper.expr {e : Expr} (hty : e.ty.Sound) (htypes : (Node.expr e).types = [e.ty])
    (hrule : ExprRule Γ e.kind e.ty) : (Node.expr e).Proper Γ :=
  ⟨by simpa [htypes] using hty, by simp [Node.returned], hrule⟩

theorem Node.Proper.pattern {p : Pattern} (hty : p.ty.Sound) (hrule : PatternRule Γ p.kind p.ty) :
    (Node.pattern p).Proper Γ := ⟨by simpa [Node.types] using hty, by simp [Node.returned], hrule⟩

theorem Node.Proper.stmt {s : Stmt} (hreturned : (Node.stmt s).returned = [])
    (hrule : StmtRule Γ s.kind) :
    (Node.stmt s).Proper Γ := ⟨by simp [Node.types], by simp [hreturned], hrule⟩

theorem Node.Proper.block {range : Range} (hty : (Block.ofStatements stmts range).ty.Sound) :
    (Node.block (.ofStatements stmts range)).Proper Γ :=
  ⟨by simpa [Node.types] using hty, by simp [Node.returned], Block.rule_ofStatements stmts range⟩

end Bound

theorem BinaryOp.Takes.sound {op : BinaryOp} {operand result : Ty} (h : op.Takes operand result) :
    result.Sound := by
  cases h with
  | arithmetic _ ht => rcases ht with rfl | rfl <;> exact .prim _
  | concatenation | comparison | equality | logical => exact .prim _

theorem UnaryOp.Takes.sound {op : UnaryOp} {operand result : Ty} (h : op.Takes operand result) :
    result.Sound := by
  cases h with
  | not => exact .prim _
  | sign _ ht => rcases ht with rfl | rfl <;> exact .prim _

namespace Registry.Describes

variable {Γ : Symbols} {r : Registry}

variable {name : String}

theorem record (hr : r.Describes Γ) {rd : RecordDef} (hrd : r.record? name = some rd) :
    rd.name = name ∧ rd.tyParams = [] ∧ ∀ {f d}, rd.fields.get? f = some d →
      Γ.get? d.symbol = some ⟨d.symbol, f, .field name, d.ty, none, 0⟩ ∧ d.ty.Plain :=
  ⟨hr.recorded.record_name hrd, (hr.plain.record hrd).1, fun hd =>
    ⟨hr.recorded.field_symbol hrd hd, (hr.plain.record hrd).2 hd⟩⟩

theorem sum (hr : r.Describes Γ) {sd : SumDef} (hsd : r.sum? name = some sd) :
    sd.name = name ∧ sd.tyParams = [] ∧ ∀ {v d}, sd.variants.get? v = some d →
      Γ.get? d.symbol = some ⟨d.symbol, v, .variant name d.payload, sd.selfTy, none, 0⟩ ∧
        ∀ ty ∈ d.payload, ty.Plain :=
  ⟨hr.recorded.sum_name hsd, (hr.plain.sum hsd).1, fun hd =>
    ⟨hr.recorded.variant_symbol hsd hd, (hr.plain.sum hsd).2 hd⟩⟩

theorem variant (hr : r.Describes Γ) {sd : SumDef} {d : VariantDef}
    (h : r.variant? name = some (sd, d)) :
    sd.tyParams = [] ∧
      Γ.get? d.symbol = some ⟨d.symbol, name, .variant sd.name d.payload, sd.selfTy, none, 0⟩ ∧
      ∀ ty ∈ d.payload, ty.Plain := by
  obtain ⟨owner, -, hsd, hd⟩ := Binding.variant?_eq_some_iff.mp h
  obtain ⟨rfl, htyParams, hvariants⟩ := hr.sum hsd
  exact ⟨htyParams, hvariants hd⟩

end Registry.Describes

namespace Binding

variable {Γ : Symbols} {r : Registry} {s t : State} {range : Range}

/-! ## Arguments -/

variable {expected hint : Option Ty} {name : Ast.Name} {body : Expr} {callee : Callee}
    {args : List Expr}
    {e : Expr} {id : SymId} {ty : Ty}

/-- Arguments that fit their parameters have the types of the parameters, if fitting means
equality. -/
theorem map_ty_eq {params : List Ty} {loose : Bool} (hlength : params.length = args.length)
    (h : ∀ p ∈ params.zip args, p.1.compatible loose p.2.ty = true)
    (heq : ∀ p ∈ params, ∀ a ∈ args, p.compatible loose a.ty = true → p = a.ty) :
    args.map Expr.ty = params := by
  induction params generalizing args with
  | nil =>
    obtain rfl := List.length_eq_zero_iff.mp hlength.symm
    rfl
  | cons p params ih =>
    match args, hlength with
    | a :: args, hlength =>
      rw [List.zip_cons_cons, List.forall_mem_cons] at h
      have hp := heq p (by simp) a (by simp) h.1
      have hrest := ih (Nat.succ.inj hlength) h.2 fun p hp a ha =>
        heq p (List.mem_cons_of_mem _ hp) a (List.mem_cons_of_mem _ ha)
      rw [List.map_cons, hrest, ← hp]

/-- A value of sound type that is called has exactly the types of its arguments as parameters. -/
theorem proper_callValue {callee : Expr} {name : String} (hcallee : callee.ty.Sound)
    (hargs : ∀ a ∈ args, a.ty.Sound) (hvalue : isFnRef callee = false)
    (h : Quiet Γ (valueCallTy callee name args range) s ty t) :
    ty.Sound ∧ (Node.expr ⟨.callValue callee args, ty, range⟩).Proper Γ := by
  obtain ⟨-, hcall⟩ := h.valueCallTy
  obtain ⟨params, ret, hfn, hlength, hfit, hty⟩ := hcall hcallee.ne_error
  obtain rfl := hty hvalue
  rw [hvalue] at hfit
  rw [hfn] at hcallee
  have hpoison := hcallee.hasPoison
  simp only [Ty.hasPoison, Bool.or_eq_false_iff] at hpoison
  -- an open parameter would have to equal the type of its argument, which is sound
  have htys : args.map Expr.ty = params := map_ty_eq hlength hfit fun p hp a ha hc =>
    Ty.eq_of_compatible (Ty.anyPoison_eq_false_iff.mp hpoison.1 p hp) (hargs a ha).hasPoison
      (by simp) hc
  have hparams : ∀ p ∈ params, p.Sound := by
    rw [← htys]
    simpa using hargs
  have hret := hcallee.ret hparams
  exact ⟨hret, .expr hret rfl (.callValue (htys ▸ hfn))⟩

/-! ## Names -/

/-- A variable that is found has a sound type. -/
theorem sound_resolveVar (hs : s.Sane r) (h : Quiet Γ (resolveVar name) s (some id) t) :
    t.Sane r ∧ ∃ sym, t.syms.get? id = some sym ∧ Γ.get? id = some sym ∧ sym.kind.isLocal = true ∧
      sym.ty.Sound := by
  have hgrows : Grows [] s t := h.grows inferInstance
  have hle := h.syms_le
  obtain ⟨-, ⟨hnone, -⟩ | ⟨_, sym, c, hsome, -, hsym, hlocal, -, -, rfl⟩⟩ := h.resolveVar hs.valid
  · cases hnone
  · cases hsome
    exact ⟨hs.capturing (hgrows.valid hs.valid), sym, hsym, hle _ _ hsym, hlocal, (hs.syms hsym).ty⟩

theorem proper_nameExpr (hr : r.Describes Γ) (hs : s.Sane r) (hexpected : ∀ ty ∈ expected, ty.Usable)
    (h : Quiet Γ (nameExpr expected name) s e t) :
    t.Sane r ∧ e.ty.Sound ∧ (Node.expr e).Proper Γ ∧ ∀ deep, e.nodes deep = [.expr e] := by
  rcases h.nameExpr hs.valid with ⟨id, hresolve, rfl⟩ | ⟨-, hname⟩
  · -- a variable
    obtain ⟨ht, sym, hsym, hΓ, hlocal, hsound⟩ := sound_resolveVar hs hresolve
    rw [hsym]
    exact ⟨ht, hsound, .expr hsound rfl (.var hΓ hlocal), fun _ => rfl⟩
  · have hle := hname.syms_le
    obtain ⟨rfl, ⟨id, hlookup, rfl⟩ | ⟨sum, d, hvariant, hpayload, rfl⟩⟩ := hname.nonVarExpr
    · -- a function used as a value
      obtain ⟨c, sc, -, hsc, hid⟩ := Scopes.exists_of_lookup hlookup
      obtain ⟨sym, f, hsym, hkind⟩ := hs.valid.fn_known c sc name.text id hsc hid
      have hsound := hs.syms hsym
      have hf : Γ.sig? id = some f := Symbols.sig?_eq_some_iff.mpr ⟨sym, hle _ _ hsym, hkind⟩
      rw [hsym]
      refine ⟨hs, hsound.ty, .expr hsound.ty rfl ?_, fun _ => rfl⟩
      show ExprRule Γ (.fnRef id) sym.ty
      rw [(hsound.sig hkind).2]
      exact .fnRef hf
    · -- a variant without payload
      rw [hs.registry] at hvariant
      obtain ⟨htyParams, hsym, -⟩ := hr.variant hvariant
      rw [bareVariantTy_eq hexpected htyParams]
      exact ⟨hs, .nominal _ _, .expr (.nominal _ _) rfl (.variant hsym rfl hpayload.symm), fun _ =>
        rfl⟩

/-! ## Calls by name -/

/-- What a called name can stand for in a file without type parameters. -/
inductive Known (Γ : Symbols) : Callee → Prop
  | fn {id : SymId} {f : Sig} (hf : Γ.sig? id = some f)
    (hordinary : f.isBuiltin = true → Builtin.ofName? f.name = none) (htyParams : f.tyParams = [])
    (hparams : ∀ ty ∈ f.paramTys, ty.Plain) (hret : f.ret.Plain) : Known Γ (.fn id f .empty false true)
  | builtin {id : SymId} {f : Sig} {b : Builtin} (hf : Γ.sig? id = some f)
    (hbuiltin : f.isBuiltin = true) (hb : Builtin.ofName? f.name = some b) :
    Known Γ (.builtin id f.name b)
  | variant {sum : SumDef} {name : String} {d : VariantDef} (htyParams : sum.tyParams = [])
    (hsym : Γ.get? d.symbol = some ⟨d.symbol, name, .variant sum.name d.payload, sum.selfTy, none, 0⟩)
    (hpayload : ∀ ty ∈ d.payload, ty.Plain) : Known Γ (.variant sum name d .empty)

variable {tyArgs : List Ast.TyExpr} {record : RecordDef}

theorem known_namedCallee (hr : r.Describes Γ) (hs : s.Sane r)
    (h : Quiet Γ (namedCallee expected name tyArgs range) s callee t) : Known Γ callee := by
  have hle := h.syms_le
  rcases h.namedCallee with ⟨id, f, -, hf, hcallee⟩ | ⟨sum, d, hvariant, -, rfl⟩
  · have hclosed := hs.closed hf
    obtain ⟨rfl, explicit, -, hcases⟩ := hcallee.fnCallee
    have hΓ := Symbols.sig?_of_le hle hf
    rcases hcases with ⟨b, hbuiltin, hb, -, rfl⟩ | ⟨hordinary, hcases⟩
    · exact .builtin hΓ hbuiltin hb
    · obtain ⟨htyParams, hparams, hret⟩ := hclosed.ordinary hordinary
      rcases hcases with ⟨-, rfl⟩ | ⟨hexplicit, hlength, -⟩
      · exact .fn hΓ hordinary htyParams hparams hret
      · -- there are no type parameters that type arguments could be given for
        rw [htyParams] at hlength
        exact absurd (List.length_eq_zero_iff.mp hlength) hexplicit
  · rw [hs.registry] at hvariant
    obtain ⟨htyParams, hsym, hpayload⟩ := hr.variant hvariant
    rw [expectedSumArgs_eq htyParams]
    exact .variant htyParams hsym hpayload

theorem Known.usable_hints (h : Known Γ callee) : ∀ hint ∈ callee.hints, ∀ ty ∈ hint, ty.Usable := by
  intro hint hhint ty hty
  cases h with
  | fn _ _ _ hparams _ =>
    obtain ⟨p, hp, rfl⟩ := List.mem_map.mp hhint
    rw [Ty.subst_empty, (hparams p hp).closedHint] at hty
    cases hty
    exact (hparams _ hp).sound.usable
  | builtin => cases hhint
  | @variant _ _ d _ _ hpayload =>
    obtain rfl := List.mem_singleton.mp hhint
    obtain ⟨p, hp, hclosed⟩ := Option.bind_eq_some_iff.mp hty
    rw [Ty.subst_empty, (hpayload p hp).closedHint] at hclosed
    cases hclosed
    exact (hpayload _ hp).sound.usable

theorem Known.proper_finishCall (hcallee : Known Γ callee) (hargs : ∀ a ∈ args, a.ty.Sound)
    (h : Quiet Γ (finishCall callee args range) s e t) : e.ty.Sound ∧ (Node.expr e).Proper Γ := by
  cases hcallee with
  | @fn id f hf hordinary htyParams hparams hret =>
    obtain ⟨-, hlength, hfit, closed, hclosed, rfl⟩ := Quiet.finishFnCall h
    have hgeneric : f.isGeneric = false := by simp [Sig.isGeneric, htyParams]
    have hempty : closed = .empty := by
      rw [hclosed, hgeneric, htyParams]
      rfl
    rw [Ty.substAll_empty] at hfit
    have htys : args.map Expr.ty = f.paramTys :=
      map_ty_eq (by simp [Sig.paramTys, hlength]) hfit fun p hp a ha =>
        (hparams p hp).eq_of_compatible (hargs a ha)
    rw [htyParams, hempty, Ty.subst_empty]
    exact ⟨hret.sound, .expr hret.sound rfl (.call hf hordinary htys)⟩
  | builtin hf hbuiltin hb =>
    obtain ⟨-, ty, hresolve, rfl⟩ := Quiet.finishBuiltinCall h
    have hty := Builtin.sound_of_resolve (by simpa using hargs) hresolve
    exact ⟨hty, .expr hty rfl (.builtinCall hf hbuiltin hb hresolve)⟩
  | @variant sum name d htyParams hsym hpayload =>
    obtain ⟨-, ⟨hnone, rfl, rfl⟩ | ⟨payload, arg, hsome, rfl, hfit, rfl⟩⟩ := Quiet.finishVariantCall h
    · rw [constructed, htyParams]
      exact ⟨.nominal _ _, .expr (.nominal _ _) rfl (.variant hsym rfl hnone.symm)⟩
    · have hplain := hpayload payload hsome
      rw [hplain.infer, Ty.subst_empty] at hfit
      have harg := hplain.eq_of_compatible (hargs arg (by simp)) hfit
      rw [constructed, htyParams]
      refine ⟨.nominal _ _, .expr (.nominal _ _) rfl (.variant hsym rfl ?_)⟩
      rw [hsome, harg]
      rfl

/-! ## Records -/

/-- The fields of a record expression, given by name: each is a field of the record and has its
type. -/
structure GivesFields (Γ : Symbols) (record : RecordDef) (names : List String)
    (values : List FieldValue) : Prop where
  names_eq : values.map (fun v => (Γ.get? v.field).map Symbol.name) = names.map some
  field : ∀ v ∈ values, ∃ n d, record.fields.get? n = some d ∧ v.field = d.symbol ∧ v.value.ty = d.ty

theorem recordArgs_eq {type : Ast.Name} {known : Subst} (hrecord : record.tyParams = [])
    (h : Quiet Γ (recordArgs expected record type tyArgs) s known t) : known = .empty := by
  obtain ⟨explicit, u, -, hrest⟩ := h.bind
  split at hrest
  · obtain ⟨rfl, -⟩ := hrest.pure
    exact expectedRecordArgs_eq hrecord
  · obtain ⟨ok, v, -, hargs⟩ := hrest.bind
    rw [hrecord] at hargs
    split at hargs
    · exact hargs.pure.1
    · exact hargs.pure.1

theorem proper_record {name : String} {names : List String} {values : List FieldValue}
    (hr : r.Describes Γ)
    (hrecord : r.record? name = some record) (hgives : GivesFields Γ record names values)
    (hdistinct : names.Nodup)
    (hall : ∀ field ∈ record.fields.keys, field ∈ names) :
    (Node.expr ⟨.record values, .record record.name [], range⟩).Proper Γ := by
  obtain ⟨rfl, -, hfields⟩ := hr.record hrecord
  refine .expr (.nominal _ _) rfl (.record ?_ ?_ ?_)
  · -- different names have different symbols
    have hnodup : (values.map fun v => (Γ.get? v.field).map Symbol.name).Nodup := by
      rw [hgives.names_eq]
      exact hdistinct.map fun _ _ h => Option.some.inj h
    refine List.Nodup.of_map (fun id => (Γ.get? id).map Symbol.name) ?_
    rwa [List.map_map]
  · intro id
    rw [List.mem_map]
    constructor
    · rintro ⟨v, hv, rfl⟩
      obtain ⟨n, d, hd, hsymbol, -⟩ := hgives.field v hv
      exact ⟨_, hsymbol ▸ (hfields hd).1, rfl⟩
    · rintro ⟨sym, hsym, hkind⟩
      obtain ⟨rd, hrd, hd⟩ := hr.recorded.symbol_field hsym hkind
      obtain rfl : record = rd := Option.some.inj (hrecord.symm.trans hrd)
      have hkey : sym.name ∈ record.fields.keys :=
        (OrderedMap.contains_iff_mem_keys _ _).mp (by simp [OrderedMap.contains, hd])
      have hgiven : some sym.name ∈ values.map fun v => (Γ.get? v.field).map Symbol.name := by
        rw [hgives.names_eq]
        exact List.mem_map_of_mem (hall _ hkey)
      obtain ⟨v, hv, hname⟩ := List.mem_map.mp hgiven
      obtain ⟨n, d, hd', hsymbol, -⟩ := hgives.field v hv
      rw [hsymbol, (hfields hd').1] at hname
      obtain rfl : n = sym.name := Option.some.inj hname
      obtain rfl : d = ⟨id, sym.ty⟩ := Option.some.inj (hd'.symm.trans hd)
      exact ⟨v, hv, hsymbol⟩
  · intro v hv sym hsym
    obtain ⟨n, d, hd, hsymbol, hty⟩ := hgives.field v hv
    rw [hsymbol, (hfields hd).1] at hsym
    obtain rfl := Option.some.inj hsym
    exact hty

theorem proper_field {target : Expr} {name record : String} {args : List Ty} {symbol : SymId}
    (hr : r.Describes Γ) (htarget : target.ty.Sound) (hty : target.ty = .record record args)
    (h : fieldOf? r record name args = some (symbol, ty)) :
    ty.Sound ∧ (Node.expr ⟨.field target (some symbol), ty, range⟩).Proper Γ := by
  rw [hty] at htarget
  obtain rfl := htarget.args_eq_nil
  obtain ⟨rd, d, hrd, hd, rfl, rfl⟩ := fieldOf?_eq_some_iff.mp h
  obtain ⟨-, htyParams, hfields⟩ := hr.record hrd
  obtain ⟨hsym, hplain⟩ := hfields hd
  have hsubst : d.ty.subst (.ofArguments rd.tyParams []) = d.ty := by
    rw [htyParams]
    exact Ty.subst_empty _
  rw [hsubst]
  exact ⟨hplain.sound, .expr hplain.sound rfl (.field hsym rfl hty)⟩

/-! ## Collections -/

/-- The elements that settle an element type have that type. -/
theorem eq_of_settled {tys : List Ty} {element : Ty} (hhint : ∀ ty ∈ hint, ty.Sound)
    (htys : ∀ ty ∈ tys, ty.Sound)
    (haccepts : ∀ ty ∈ tys, element.accepts ty = true)
    (h : hint = some element ∨ hint = none ∧ tys ≠ [] ∧
      element = (tys.find? fun ty => !ty.isError).getD .error) :
    element.Sound ∧ ∀ ty ∈ tys, ty = element := by
  have hsound : element.Sound := by
    rcases h with hsome | ⟨-, hne, rfl⟩
    · exact hhint element hsome
    · obtain ⟨ty, rest, rfl⟩ := List.exists_cons_of_ne_nil hne
      have hty := htys ty (by simp)
      have herror : (!ty.isError) = true := by
        simpa [Ty.isError_eq_false_iff] using hty.ne_error
      simpa [List.find?_cons, herror] using hty
  exact ⟨hsound, fun ty hty => (hsound.eq_of_accepts (htys ty hty) (haccepts ty hty)).symm⟩

theorem proper_list {es : List Expr} (hhint : ∀ ty ∈ hint, ty.Sound) (hes : ∀ e ∈ es, e.ty.Sound)
    (h : Quiet Γ (listExpr hint es range) s e t) :
    e.ty.Sound ∧ (Node.expr e).Proper Γ ∧ ∀ deep, e.nodes deep = .expr e :: Expr.allNodes deep es := by
  obtain ⟨-, element, rfl, haccepts, hsettled⟩ := h.listExpr
  obtain ⟨hsound, heq⟩ := @eq_of_settled hint (es.map Expr.ty) element hhint (by simpa using hes)
    (by simpa using haccepts) (by simpa using hsettled)
  exact ⟨.container _ hsound, .expr (.container _ hsound) rfl (.list (by simpa using heq)), fun _ =>
    rfl⟩

theorem proper_map {entries : List Entry} (hhint : ∀ ty ∈ hint, ty.Sound)
    (hkeys : ∀ e ∈ entries, e.key.ty = .string) (hvalues : ∀ e ∈ entries, e.value.ty.Sound)
    (h : Quiet Γ (mapExpr hint entries range) s e t) :
    e.ty.Sound ∧ (Node.expr e).Proper Γ ∧ ∀ deep, e.nodes deep = .expr e :: Entry.allNodes deep
      entries := by
  obtain ⟨-, value, rfl, haccepts, hsettled⟩ := h.mapExpr
  obtain ⟨hsound, heq⟩ := @eq_of_settled hint ((entries.map Entry.value).map Expr.ty) value hhint
    (by simpa using hvalues) (by simpa using haccepts) (by simpa using hsettled)
  exact ⟨.container _ hsound, .expr (.container _ hsound) rfl (.map hkeys (by simpa using heq)),
    fun _ => rfl⟩

theorem proper_index {target index : Expr} (htarget : target.ty.Sound)
    (h : indexedTy? target.ty index.ty = some ty) :
    ty.Sound ∧ (Node.expr ⟨.index target index, ty, range⟩).Proper Γ := by
  have hsound := sound_indexedTy? htarget h
  refine ⟨hsound, .expr hsound rfl ?_⟩
  unfold indexedTy? at h
  split at h
  · next hlist hint =>
    cases h
    exact .listIndex hlist hint
  · next hmap hstring =>
    cases h
    exact .mapIndex hmap hstring
  · cases h

/-! ## Branches -/

theorem proper_ifElse {cond elseBranch : Expr} {thenBranch : Block} (hcond : cond.ty = .bool)
    (hthen : thenBranch.ty.Sound) (helse : elseBranch.ty.Sound)
    (h : Quiet Γ (branchTy thenBranch elseBranch range) s ty t) :
    ty.Sound ∧ (Node.expr ⟨.ifElse cond thenBranch (some elseBranch), ty, range⟩).Proper Γ := by
  obtain ⟨-, hbranches⟩ := h.branchTy
  obtain ⟨hdiverges, hvalue⟩ := hbranches hthen.ne_error helse.ne_error
  cases hd : thenBranch.diverges with
  | true =>
    obtain rfl := hdiverges hd
    exact ⟨helse, .expr helse rfl (.ifElse hcond (by simp [hd]) fun _ => rfl)⟩
  | false =>
    obtain ⟨rfl, haccepts⟩ := hvalue hd
    refine ⟨hthen, .expr hthen rfl (.ifElse hcond (fun _ => rfl) ?_)⟩
    rintro (hd' | hd')
    · rw [hd] at hd'
      cases hd'
    · exact (hthen.eq_of_accepts helse (haccepts hd')).symm

/-! ## Matches -/

/-- No arm so far was poisoned or of another type than the first. -/
structure ArmTypes.Sound (a : ArmTypes) : Prop where
  poisoned : a.poisoned = false
  mismatched : a.mismatched = false
  result : ∀ ty ∈ a.result, ty.Sound

/-- The bodies between `a` and `a'` that do not diverge agree on one type. -/
structure Agree (a : ArmTypes) (bodies : List Expr) (a' : ArmTypes) : Prop where
  result : ∀ b ∈ bodies, b.diverges = false → a'.result = some b.ty
  keeps : ∀ {ty}, a.result = some ty → a'.result = some ty
  diverge : (∀ b ∈ bodies, b.diverges = true) → a'.result = a.result

theorem Agree.nil (a : ArmTypes) : Agree a [] a := ⟨by simp, id, fun _ => rfl⟩

theorem Agree.cons {a a' a'' : ArmTypes} {b : Expr} {bs : List Expr} (h : Agree a [b] a')
    (h' : Agree a' bs a'') : Agree a (b :: bs) a'' := by
  refine ⟨?_, fun hty => h'.keeps (h.keeps hty), fun hd => ?_⟩
  · rintro c hc hdiverges
    rcases List.mem_cons.mp hc with rfl | hc
    · exact h'.keeps (h.result c (by simp) hdiverges)
    · exact h'.result c hc hdiverges
  · rw [List.forall_mem_cons] at hd
    rw [h'.diverge hd.2, h.diverge (by simpa using hd.1)]

theorem agree_noteArm {a a' : ArmTypes} (ha : a.Sound) (hbody : body.ty.Sound)
    (h : Quiet Γ (noteArm a body) s a' t) :
    a'.Sound ∧ Agree a [body] a' := by
  obtain ⟨-, hcases⟩ := h.noteArm
  rcases hcases hbody.ne_error with ⟨hd, rfl⟩ | ⟨hd, hnone, rfl⟩ | ⟨hd, rfl, first, hfirst, haccepts⟩
  · exact ⟨ha, by simp [hd], id, fun _ => rfl⟩
  · refine ⟨⟨ha.poisoned, ha.mismatched, ?_⟩, by simp, by simp [hnone], by simp [hd]⟩
    rintro ty ⟨⟩
    exact hbody
  · have hty := (ha.result first hfirst).eq_of_accepts hbody haccepts
    exact ⟨ha, by simp [hfirst, hty], id, fun _ => rfl⟩

theorem proper_match {scrutinee : Expr} {arms : List Arm} {agreed : ArmTypes} (hsound : agreed.Sound)
    (hagree : Agree .initial (arms.map Arm.body) agreed)
    (hpatterns : ∀ arm ∈ arms, arm.pattern.ty = scrutinee.ty) :
    agreed.ty.Sound ∧ (Node.expr ⟨.matchOn scrutinee arms, agreed.ty, range⟩).Proper Γ := by
  have hty : agreed.ty = agreed.result.getD .unit := by
    simp only [ArmTypes.ty, hsound.mismatched, hsound.poisoned]
    cases agreed.result <;> rfl
  have htySound : agreed.ty.Sound := by
    rw [hty]
    cases hresult : agreed.result with
    | none => exact .prim _
    | some ty => exact hsound.result ty hresult
  refine ⟨htySound, .expr htySound rfl (.matchOn hpatterns ?_ ?_)⟩
  · intro arm harm hdiverges
    have hresult := hagree.result arm.body (List.mem_map_of_mem harm) hdiverges
    rw [hty, hresult]
    rfl
  · intro hall
    have hresult := hagree.diverge (by simpa using hall)
    rw [hty, hresult]
    rfl

/-! ## Declarations -/

theorem sound_declareLocal {kind : SymKind} (hlocal : kind.isLocal = true) (hs : s.Sane r)
    (hty : ty.Sound)
    (h : Quiet Γ (declareLocal name kind ty) s id t) :
    t.Sane r ∧ ∃ sym, Γ.get? id = some sym ∧ sym.name = name.text ∧ sym.kind = kind ∧ sym.ty = ty := by
  have hgrows := h.grows (keeps_declareLocal name ty hlocal)
  have hle := h.syms_le
  obtain ⟨rfl, rfl⟩ := h.declareLocal
  have hget := Symbols.get?_add s.syms name.text kind ty (some s.current)
    (s.scopes.depth s.current) s.syms.size
  rw [if_pos rfl] at hget
  refine ⟨hs.grows hgrows fun id sym hsym => ?_, _, hle _ _ hget, rfl, rfl, rfl⟩
  rcases Symbols.get?_add_cases hsym with ⟨-, rfl⟩ | hold
  · exact .inr hty
  · exact .inl hold

theorem sound_declareLocals {params : List (Ast.Name × Ty)} {ids : List SymId} (hs : s.Sane r)
    (hparams : ∀ p ∈ params, p.2.Sound) (h : Quiet Γ (declareLocals .parameter params) s ids t) :
    t.Sane r ∧ Γ.HasParams ids (params.map Prod.snd) := by
  induction params generalizing s ids with
  | nil =>
    obtain ⟨rfl, rfl⟩ := h.pure
    exact ⟨hs, .nil⟩
  | cons p params ih =>
    obtain ⟨id, u, hfirst, hrest⟩ := Quiet.bind h
    obtain ⟨ids', htail, rfl⟩ := hrest.bind_pure
    rw [List.forall_mem_cons] at hparams
    obtain ⟨hu, sym, hsym, -, hkind, hty⟩ := sound_declareLocal rfl hs hparams.1 hfirst
    obtain ⟨ht, hids⟩ := ih hu hparams.2 htail
    exact ⟨ht, .cons ⟨sym, hsym, hkind, hty⟩ hids⟩

theorem forLoop_rule {iterable : Expr} {body : Block} {sym : Symbol} (hiterable : iterable.ty.Sound)
    (hsym : Γ.get? id = some sym) (hkind : sym.kind = .var false)
    (h : iteratedTy? iterable.ty = some sym.ty) :
    StmtRule Γ (.forLoop id iterable body) := by
  unfold iteratedTy? at h
  split at h
  · next hlist => exact .forList hsym hkind (Option.some.inj h ▸ hlist)
  · next hmap => exact .forMap hsym hkind hmap (Option.some.inj h).symm
  · next herror => exact absurd herror hiterable.ne_error
  · cases h

theorem kind_of_isMutable {sym : Symbol} (h : sym.isMutable = true) : sym.kind = .var true := by
  unfold Symbol.isMutable at h
  split at h
  · next hkind => rw [hkind, h]
  · cases h

/-! ## Returns -/

/-- The return type of the innermost function can be expected of what it returns. -/
theorem usable_declared (hs : s.Sane r) : ∀ ty ∈ s.fns.head?.bind FnFrame.declared, ty.Usable := by
  intro ty hty
  obtain ⟨f, hf, hdeclared⟩ := Option.bind_eq_some_iff.mp hty
  exact (hs.frames f (List.mem_of_head? hf) ty hdeclared).usable

theorem sane_finishReturn {candidate : Range} {u : Unit} (hs : s.Sane r)
    (h : Quiet Γ (finishReturn ty candidate range) s u t) : t.Sane r := by
  have hgrows : Grows [] s t := h.grows inferInstance
  obtain ⟨-, rfl⟩ := h.finishReturn
  exact hs.grows hgrows fun _ _ hsym => .inl hsym

theorem sound_returnedBy {nodes : List Node} (h : ∀ n ∈ nodes, n.Proper Γ) :
    ∀ v ∈ returnedBy nodes, v.1.Sound := by
  intro v hv
  obtain ⟨n, hn, hreturned⟩ := List.mem_flatMap.mp hv
  exact (h n hn).returned v hreturned

theorem blockCandidate_eq {b : Block} (he : e ∈ b.value?) (hdiverges : e.diverges = false) :
    blockCandidate b = some (e.ty, e.range) := by
  rw [blockCandidate, Option.mem_def.mp he]
  simp [hdiverges]

theorem bodyCandidate_eq (he : e ∈ body.value?) (hdiverges : e.diverges = false) :
    bodyCandidate body = some (e.ty, e.range) := by
  obtain ⟨kind, ty, range⟩ := body
  cases kind with
  | block b => exact blockCandidate_eq he hdiverges
  | _ =>
    obtain rfl := Option.some.inj he
    simp [bodyCandidate, hdiverges]

theorem sound_blockCandidate {b : Block} (hrule : BlockRule b) (hty : b.ty.Sound) :
    ∀ v ∈ blockCandidate b, v.1.Sound := by
  intro v hv
  obtain ⟨e, he, -, rfl⟩ := exists_of_blockCandidate hv
  exact hrule.value e he ▸ hty

theorem sound_bodyCandidate (hty : body.ty.Sound) (hnodes : ∀ n ∈ body.nodes false, n.Proper Γ) :
    ∀ v ∈ bodyCandidate body, v.1.Sound := by
  obtain ⟨kind, ty, range⟩ := body
  intro v hv
  rcases bodyCandidate_cases hv with ⟨b, rfl, hv⟩ | ⟨-, rfl⟩
  · have hblock : (Node.block b).Proper Γ := hnodes _ (by
      simp [Expr.nodes, ExprKind.nodes, b.mem_nodes])
    exact sound_blockCandidate hblock.typed (hblock.types _ (by simp [Node.types])) v hv
  · exact hty

/-- What a body returns fits the return type on which it settles. -/
theorem returnsFit_settleReturn {frame : FnFrame} {trailing : Option (Ty × Range)} {ret : Ty}
    {value? : Option Expr} (hdeclared : ∀ ty ∈ frame.declared, ty.Sound)
    (hreturns : ∀ v ∈ frame.returns, v.1.Sound) (htrailing : ∀ v ∈ trailing, v.1.Sound)
    (hvalue : ∀ e ∈ value?, e.diverges = false → trailing = some (e.ty, e.range))
    (h : Quiet Γ (settleReturn frame trailing) s ret t) :
    ret.Sound ∧ ReturnsFit ret frame.returns value? := by
  cases hframe : frame.declared with
  | some declared =>
    obtain ⟨-, rfl, haccepts, htrail⟩ := h.settleReturn_of_declared hframe
    have hret := hdeclared ret hframe
    refine ⟨hret, fun v hv => (hret.eq_of_accepts (hreturns v hv) (haccepts v hv)).symm,
      fun e he hd => ?_⟩
    by_cases hunit : ret = .unit
    · exact .inl hunit
    · have hcandidate := hvalue e he hd
      exact .inr (hret.eq_of_accepts (htrailing _ hcandidate) (htrail hunit _ hcandidate)).symm
  | none =>
    have hsound : ∀ v ∈ frame.returns ++ trailing.toList, v.1.Sound := by
      intro v hv
      rcases List.mem_append.mp hv with hv | hv
      · exact hreturns v hv
      · exact htrailing v (Option.mem_toList.mp hv)
    obtain ⟨-, hall, hempty⟩ := h.settleReturn_of_inferred hframe fun v hv => (hsound v hv).ne_error
    refine ⟨?_, fun v hv => hall v (List.mem_append_left _ hv), fun e he hd => .inr ?_⟩
    · cases hcandidates : frame.returns ++ trailing.toList with
      | nil => exact hempty hcandidates ▸ .prim _
      | cons v vs =>
        have hv : v ∈ frame.returns ++ trailing.toList := by simp [hcandidates]
        exact hall v hv ▸ hsound v hv
    · exact hall (e.ty, e.range) (List.mem_append_right _ (by simp [hvalue e he hd]))

end Binding

end Bindery
