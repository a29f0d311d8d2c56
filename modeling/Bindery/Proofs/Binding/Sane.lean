import Bindery.Proofs.Binding.Rules
import Bindery.Proofs.Binding.TopLevel
import Bindery.Proofs.Ty.Sound

/-!
# States without type parameters

`State.Sane` is what holds while a file without type parameters is bound: no declared type has type
parameters, every symbol has a sound type, and every function is built in or has a signature that is
written out. In such a state every type that is written down is plain.
-/

namespace Bindery

open Bindery.Bound

/-- The declared types have no type parameters, and the types of their members are plain. -/
structure Registry.Plain (r : Registry) : Prop where
  record : ∀ {n rd}, r.record? n = some rd → rd.tyParams = [] ∧ ∀ {f d}, rd.fields.get? f = some d →
    d.ty.Plain
  sum : ∀ {n sd}, r.sum? n = some sd →
    sd.tyParams = [] ∧ ∀ {v d}, sd.variants.get? v = some d → ∀ ty ∈ d.payload, ty.Plain

/-- The signature of a function without type parameters: built in, or written with its return
type. -/
inductive Sig.Closed (f : Sig) : Prop
  | builtin (hf : f ∈ Builtin.sigs)
  | written (hbuiltin : f.isBuiltin = false) (hfinal : f.isFinal = true) (htyParams : f.tyParams = [])
    (hparams : ∀ t ∈ f.paramTys, t.Plain) (hret : f.ret.Plain)

/-- The symbol has a sound type, and a signature without type parameters if it is a function. -/
structure Symbol.Sound (sym : Symbol) : Prop where
  ty : sym.ty.Sound
  sig : ∀ {f}, sym.kind = .fn f → f.Closed ∧ sym.ty = f.ty

theorem Builtin.isBuiltin_sigs : ∀ f ∈ sigs, f.isBuiltin = true := by decide

namespace Sig.Closed

variable {f : Sig}

theorem sound_ty (h : f.Closed) : f.ty.Sound := by
  cases h with
  | builtin hf => exact .builtin hf
  | written _ _ _ hparams hret => exact .fn (fun t ht => (hparams t ht).sound) hret.sound

/-- A function that is not typed from its arguments has a plain type. -/
theorem ordinary (h : f.Closed) (hordinary : f.isBuiltin = true → Builtin.ofName? f.name = none) :
    f.tyParams = [] ∧ (∀ t ∈ f.paramTys, t.Plain) ∧ f.ret.Plain := by
  cases h with
  | builtin hf =>
    obtain ⟨htyParams, hparams, hret⟩ :=
      Builtin.isPrim_sigs f hf (hordinary (Builtin.isBuiltin_sigs f hf))
    exact ⟨htyParams, fun t ht => Ty.plain_of_isPrim (hparams t ht), Ty.plain_of_isPrim hret⟩
  | written _ _ htyParams hparams hret => exact ⟨htyParams, hparams, hret⟩

/-- A function of the file has its final signature. -/
theorem isFinal (h : f.Closed) (hbuiltin : f.isBuiltin = false) :
    f.isFinal = true ∧ f.tyParams = [] ∧ (∀ t ∈ f.paramTys, t.Plain) ∧ f.ret.Plain := by
  cases h with
  | builtin hf => simp [Builtin.isBuiltin_sigs f hf] at hbuiltin
  | written _ hfinal htyParams hparams hret => exact ⟨hfinal, htyParams, hparams, hret⟩

end Sig.Closed

namespace Binding

/-- What holds while a file without type parameters is bound, with the declared types `r`. -/
structure State.Sane (r : Registry) (s : State) : Prop where
  valid : s.Valid
  registry : s.registry = r
  generics : s.generics = []
  syms : ∀ {id sym}, s.syms.get? id = some sym → sym.Sound
  frames : ∀ f ∈ s.fns, ∀ ty ∈ f.declared, ty.Sound

namespace State.Sane

variable {r : Registry} {s t : State}

/-- The same in a state that differs in where it stands and what it has met. -/
theorem congr (h : s.Sane r) (hvalid : t.Valid) (hsyms : t.syms = s.syms)
    (hregistry : t.registry = s.registry) (hgenerics : t.generics = s.generics)
    (hfns : ∀ f ∈ t.fns, ∀ ty ∈ f.declared, ty.Sound) : t.Sane r where
  valid := hvalid
  registry := hregistry.trans h.registry
  generics := hgenerics.trans h.generics
  syms hsym := h.syms (hsyms ▸ hsym)
  frames := hfns

/-- A step that adds symbols with sound types keeps a state sane. -/
theorem grows {own : List String} (h : s.Sane r) (hgrows : Grows own s t)
    (hnew : ∀ id sym, t.syms.get? id = some sym → s.syms.get? id = some sym ∨ sym.ty.Sound) :
    t.Sane r where
  valid := hgrows.valid h.valid
  registry := hgrows.registry.trans h.registry
  generics := hgrows.generics.trans h.generics
  syms := by
    intro id sym hsym
    rcases hnew id sym hsym with hold | hsound
    · exact h.syms hold
    · rcases hgrows.added id sym hsym with hold | hlocal
      · exact h.syms hold
      · refine ⟨hsound, fun hf => ?_⟩
        simp [hf, SymKind.isLocal] at hlocal
  frames := by
    obtain ⟨returns, hreturns⟩ := hgrows.fns
    rw [hreturns]
    intro f hf ty hty
    cases hs : s.fns with
    | nil => simp [hs] at hf
    | cons g gs =>
      simp only [hs, List.modifyHead_cons, List.mem_cons] at hf
      rcases hf with rfl | hf
      · exact h.frames g (by simp [hs]) ty hty
      · exact h.frames f (by simp [hs, hf]) ty hty

theorem opened (h : s.Sane r) (kind : ScopeKind) : (s.opened kind).Sane r :=
  h.congr (h.valid.opened kind) rfl rfl rfl h.frames

/-- Leaving the scope that was opened. -/
theorem inScope {own : List String} {kind : ScopeKind} (hs : s.Sane r)
    (hgrows : Grows own (s.opened kind) t)
    (ht : t.Sane r) : (t.at s.current).Sane r :=
  ht.congr (hgrows.inScope.valid hs.valid) rfl rfl rfl ht.frames

theorem inLoops (h : s.Sane r) (depth : Nat) : (s.inLoops depth).Sane r :=
  h.congr (h.valid.congr rfl rfl rfl rfl) rfl rfl rfl h.frames

theorem inScopeBlocks (h : s.Sane r) (depth : Nat) : (s.inScopeBlocks depth).Sane r :=
  h.congr (h.valid.congr rfl rfl rfl rfl) rfl rfl rfl h.frames

theorem capturing (h : s.Sane r) {captures : Captures} (hvalid : (s.capturing captures).Valid) :
    (s.capturing captures).Sane r := h.congr hvalid rfl rfl rfl h.frames

theorem enteringLambda (h : s.Sane r) : s.enteringLambda.Sane r :=
  h.congr (h.valid.opened .lambda).entering rfl rfl rfl h.frames

theorem enteringBody (h : s.Sane r) {frame : FnFrame} (hframe : ∀ ty ∈ frame.declared, ty.Sound) :
    (s.enteringBody frame).Sane r := by
  refine h.congr (h.valid.congr rfl rfl rfl rfl) rfl rfl rfl fun f hf => ?_
  rcases List.mem_cons.mp hf with rfl | hf
  · exact hframe
  · exact h.frames f hf

/-- The signature of a function symbol. -/
theorem closed (h : s.Sane r) {id : SymId} {f : Sig} (hf : s.syms.sig? id = some f) : f.Closed := by
  obtain ⟨sym, hsym, hkind⟩ := Symbols.sig?_eq_some_iff.mp hf
  exact ((h.syms hsym).sig hkind).1

end State.Sane

/-! ## Written types -/

section

variable {Γ : Symbols} {s t : State}

theorem Quiet.applyTypeName {name : Ast.Name} {args : List Ty} {range : Range} {ty : Ty}
    (h : Quiet Γ (applyTypeName name args range) s ty t) :
    t = s ∧ ∃ head, s.typeHead? name.text = some head ∧ args.length = head.arity ∧
      ty = head.apply args := by
  have h' := h.read (m := get) rfl
  split at h'
  · exact absurd h' not_report_bind
  · next head hhead =>
    obtain ⟨ok, u, hcheck, hrest⟩ := h'.bind
    obtain ⟨rfl, rfl, hlength⟩ := hcheck.checkTypeArity
    obtain ⟨rfl, rfl⟩ := Quiet.pure hrest
    exact ⟨rfl, head, hhead, hlength, rfl⟩

/-- Without type parameters, the head of a written type is no placeholder and a declared type takes
no arguments. -/
theorem typeHead?_cases {head : TypeHead} {name : String} (hr : s.registry.Plain)
    (hgenerics : s.generics = []) (h : s.typeHead? name = some head) :
    (∃ kind, head = .nominal kind name 0) ∨ (∃ p, head = .prim p) ∨ (∃ c, head = .container c) ∨
      head = .result := by
  simp only [State.typeHead?, hgenerics, List.contains_nil, Bool.false_eq_true, if_false] at h
  split at h
  · next rd hrd =>
    cases h
    exact .inl ⟨.record, by rw [(hr.record hrd).1]; rfl⟩
  · split at h
    · next sd hsd =>
      cases h
      exact .inl ⟨.sum, by rw [(hr.sum hsd).1]; rfl⟩
    · simp only [TypeHead.builtin?] at h
      split at h
      · cases h
        exact .inr (.inl ⟨_, rfl⟩)
      · split at h
        · cases h
          exact .inr (.inr (.inl ⟨_, rfl⟩))
        · split at h
          · cases h
            exact .inr (.inr (.inr rfl))
          · cases h

/-- Without type parameters, the head of a written type makes plain types from plain arguments. -/
theorem plain_apply {head : TypeHead} {name : String} {args : List Ty} (hr : s.registry.Plain)
    (hgenerics : s.generics = []) (hhead : s.typeHead? name = some head)
    (hlength : args.length = head.arity)
    (hargs : ∀ t ∈ args, t.Plain) : (head.apply args).Plain := by
  rcases typeHead?_cases hr hgenerics hhead with ⟨kind, rfl⟩ | ⟨p, rfl⟩ | ⟨c, rfl⟩ | rfl
  · obtain rfl := List.length_eq_zero_iff.mp hlength
    exact ⟨.nominal kind name, rfl⟩
  · exact ⟨.prim p, rfl⟩
  · obtain ⟨t, rfl⟩ := List.length_eq_one_iff.mp hlength
    have ht := hargs t (by simp)
    exact ⟨.container c ht.sound, ht.closed⟩
  · match args, hlength with
    | [v, e], _ =>
      have hv := hargs v (by simp)
      have he := hargs e (by simp)
      exact ⟨.result hv.sound he.sound, by simp [TypeHead.apply, Ty.hasGenerics, hv.closed, he.closed]⟩

/-- A property of types that passes from the arguments of a head in scope to the type that it makes
of them, and from the parts of a function or a tuple to the whole. -/
structure TypeLaw (s : State) (P : Ty → Prop) : Prop where
  apply {name : String} {head : TypeHead} {args : List Ty} (hhead : s.typeHead? name = some head)
    (hlength : args.length = head.arity) (hargs : ∀ t ∈ args, P t) : P (head.apply args)
  fn {params : List Ty} {ret : Ty} (hparams : ∀ t ∈ params, P t) (hret : P ret) : P (.fn params ret)
  tuple {elems : List Ty} (helems : ∀ t ∈ elems, P t) : P (.tuple elems)

namespace TypeLaw

variable {P : Ty → Prop}

mutual

/-- A law holds of every type that is written down without a finding. -/
theorem of_resolveType (w : TypeLaw s P) (e : Ast.TyExpr) {ty : Ty} {t : State}
    (h : Quiet Γ (resolveType e) s ty t) : P ty := by
  match e with
  | .named origin name args =>
    obtain ⟨tys, u, hargs, happly⟩ := h.bind
    rw [hargs.checks.2] at happly
    obtain ⟨-, head, hhead, hlength, rfl⟩ := happly.applyTypeName
    exact w.apply hhead hlength (of_resolveTypes w args hargs)
  | .fn origin params ret =>
    obtain ⟨tys, u, hparams, hrest⟩ := h.bind
    rw [hparams.checks.2] at hrest
    obtain ⟨ty, hret, rfl⟩ := hrest.bind_pure
    exact w.fn (of_resolveTypes w params hparams) (of_resolveType w ret hret)
  | .tuple origin elems =>
    obtain ⟨tys, helems, rfl⟩ := h.bind_pure
    exact w.tuple (of_resolveTypes w elems helems)

theorem of_resolveTypes (w : TypeLaw s P) (es : List Ast.TyExpr) {tys : List Ty} {t : State}
    (h : Quiet Γ (resolveTypes es) s tys t) : ∀ ty ∈ tys, P ty := by
  match es with
  | [] =>
    obtain ⟨rfl, -⟩ := h.pure
    simp
  | e :: es =>
    obtain ⟨ty, u, hfirst, hrest⟩ := h.bind
    rw [hfirst.checks.2] at hrest
    obtain ⟨tys, htail, rfl⟩ := hrest.bind_pure
    exact List.forall_mem_cons.mpr ⟨of_resolveType w e hfirst, of_resolveTypes w es htail⟩

end

theorem of_resolveType? (w : TypeLaw s P) (e : Option Ast.TyExpr) {ty : Option Ty}
    (h : Quiet Γ (resolveType? e) s ty t) : ty.isSome = e.isSome ∧ ∀ t ∈ ty, P t := by
  cases e with
  | none =>
    obtain ⟨rfl, -⟩ := Quiet.pure h
    simp
  | some e =>
    obtain ⟨ty, u, hresolve, hpure⟩ := Quiet.bind h
    obtain ⟨rfl, -⟩ := hpure.pure
    simpa using w.of_resolveType e hresolve

end TypeLaw

/-- Without type parameters, the types that are written down are plain. -/
theorem typeLaw_plain (hr : s.registry.Plain) (hgenerics : s.generics = []) : TypeLaw s Ty.Plain where
  apply := plain_apply hr hgenerics
  fn {params ret} hparams hret := by
    refine ⟨.fn (fun t ht => (hparams t ht).sound) hret.sound, ?_⟩
    simp [Ty.hasGenerics, hret.closed, Ty.anyGenerics_eq_false_iff.mpr fun t ht =>
      (hparams t ht).closed]
  tuple h :=
    ⟨.tuple fun t ht => (h t ht).sound, Ty.anyGenerics_eq_false_iff.mpr fun t ht => (h t ht).closed⟩

end

end Binding

end Bindery
