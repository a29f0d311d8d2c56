import Bindery.Proofs.Binding.FormedTypes
import Bindery.Proofs.Binding.Signatures

/-!
# Well-formed types in bound files

All types in a bound file are well formed, whatever the file is and whatever is reported: each
record and each sum in them is declared by the file and has as many arguments as its declaration has
type parameters. The types of fields and payloads mention the type parameters of their own
declaration only, so a member read at type arguments mentions what the arguments mention.

The types are declared before anything is written with them, so the registry of a later pass only
knows more types (`Step.params?`), and what is well formed for the types declared so far stays so.
-/

namespace Bindery

open Ast (Name TyExpr Param)

/-- The file declares the type, with that many type parameters. -/
def Bound.Program.Declares (p : Bound.Program) : Declarations
  | .record, n, count =>
    (∃ d ∈ p.records, d.name = n) ∧ ∀ d ∈ p.records, d.name = n → d.tyParams.length = count
  | .sum, n, count => (∃ d ∈ p.sums, d.name = n) ∧ ∀ d ∈ p.sums, d.name = n → d.tyParams.length = count

/-! ## Members at type arguments -/

variable {args : List Ty}

namespace Ty

/-- A type whose placeholders are all replaced mentions what the replacements mention. -/
theorem placeholders_subst {σ : Subst} {names : List String} (t : Ty)
    (h : ∀ n ∈ t.placeholders, ∃ u, σ.get? n = some u ∧ ∀ m ∈ u.placeholders, m ∈ names) :
    ∀ m ∈ (t.subst σ).placeholders, m ∈ names := by
  induction t using induction_parts with
  | error | prim _ => exact fun m hm => by cases hm
  | generic n =>
    obtain ⟨u, hu, hnames⟩ := h n List.mem_cons_self
    rw [subst, hu]
    exact hnames
  | node t k hk ih =>
    rw [placeholders_eq (head?_subst σ hk), parts_subst σ hk, List.flatMap_map]
    intro m hm
    obtain ⟨u, hu, hm⟩ := List.mem_flatMap.mp hm
    exact ih u hu (fun n hn => h n (mem_placeholders_of_mem hk hu hn)) m hm

/-- A type that mentions the type parameters only, read at as many arguments, mentions what the
arguments mention. -/
theorem placeholders_subst_ofArguments {t : Ty} {params : List String}
    (hparams : ∀ n ∈ t.placeholders, n ∈ params) (hlength : args.length = params.length) :
    ∀ m ∈ (t.subst (.ofArguments params args)).placeholders, m ∈ allPlaceholders args := by
  refine placeholders_subst t fun n hn => ?_
  obtain ⟨u, hu⟩ := Option.isSome_iff_exists.mp (Subst.isSome_get?_ofArguments hlength (hparams n hn))
  exact ⟨u, hu, fun m hm => mem_allPlaceholders.mpr ⟨u, Subst.mem_of_get?_ofArguments hu, hm⟩⟩

end Ty

variable {D : Declarations}

theorem RecordDef.Formed.placeholders_of_fieldTy? {n field : String} {d : RecordDef} (h : d.Formed D n)
    (hlength : args.length = d.tyParams.length) {t : Ty} (ht : d.fieldTy? field args = some t) :
    ∀ m ∈ t.placeholders, m ∈ Ty.allPlaceholders args := by
  obtain ⟨fd, hfd, rfl⟩ := Option.map_eq_some_iff.mp ht
  exact Ty.placeholders_subst_ofArguments (h.own field fd hfd) hlength

theorem SumDef.Formed.placeholders_of_payloadTy? {n variant : String} {d : SumDef} (h : d.Formed D n)
    (hlength : args.length = d.tyParams.length) {t : Ty}
    (ht : d.payloadTy? variant args = some (some t)) :
    ∀ m ∈ t.placeholders, m ∈ Ty.allPlaceholders args := by
  obtain ⟨vd, hvd, hpayload⟩ := Option.map_eq_some_iff.mp ht
  obtain ⟨p, hp, rfl⟩ := Option.map_eq_some_iff.mp hpayload
  exact Ty.placeholders_subst_ofArguments (h.own variant vd hvd p hp) hlength

theorem Builtin.formed_sigs : ∀ f ∈ Builtin.sigs, f.Formed D := by
  have htys : ∀ f ∈ Builtin.sigs, ∀ t ∈ f.ret :: f.paramTys, t.Formed D := by
    simp [Builtin.sigs, Builtin.sig, Sig.paramTys, Ty.Formed.generic, Ty.Formed.prim,
      Ty.Formed.container]
  exact fun f hf => ⟨fun t ht => htys f hf t (List.mem_cons_of_mem _ ht),
    htys f hf _ List.mem_cons_self⟩

namespace Binding

open Bindery.Bound

variable {s t u : State} {all : List Ast.Stmt}

/-! ## Declarations -/

/-- Every known type is declared with as many parameters as it has. -/
def State.Within (s : State) (D : Declarations) :
    Prop := ∀ k n ps, s.registry.params? k n = some ps → D k n ps.length

theorem registry_declareSig (hs : s.Top) (name : Name) (tyParams : List Name)
    (params : List Param) (ret : Option TyExpr) :
    (after (declareSig name tyParams params ret) s).registry = s.registry := by
  obtain ⟨u, f, rfl, -, -, hafter⟩ := declareSig_cases name tyParams params ret hs
  have hregistry := (Keeps.grows [] (writtenSig name tyParams params ret) s).registry
  rcases hafter with ⟨-, hafter⟩ | ⟨-, hafter⟩ <;> rw [hafter] <;> exact hregistry

/-- A step may declare a type, and keeps the type parameters of the types that there are. -/
theorem Step.params? (h : Step all s t) (hs : s.Top) {k : Nominal} {n : String} {ps : List String}
    (hps : s.registry.params? k n = some ps) : t.registry.params? k n = some ps := by
  cases h with
  | checks m => rwa [(Keeps.grows [] m s).registry]
  | naming => exact hps
  | @type _ kind name tyParams r _ hr =>
    show r.params? k n = some ps
    obtain ⟨hfree, hparams⟩ := Registry.params?_declareType (k := k) (n := n) hr
    rw [hparams, if_neg, hps]
    rintro ⟨-, rfl⟩
    rw [hfree] at hps
    cases hps
  | @field _ u _ _ field hu hd =>
    have hregistry : u.registry = s.registry :=
      hu ▸ (Keeps.grows [] (resolveType field.annot) s).registry
    show (Registry.addingField _ _ _ _ _).params? k n = some ps
    rw [Registry.params?_addingField hd, hregistry, hps]
  | @variant _ u _ _ variant hu hd =>
    have hregistry : u.registry = s.registry :=
      hu ▸ (Keeps.grows [] (resolveType? variant.payload) s).registry
    show (Registry.addingVariant _ _ _ _ _).params? k n = some ps
    rw [Registry.params?_addingVariant hd, hregistry, hps]
  | builtin => exact hps
  | @sig _ name tyParams params ret => rwa [registry_declareSig hs]

variable {f : Sig}

namespace State.Formed

theorem registering (h : s.Formed D) {r : Registry} (hr : r.Formed D) : (s.registering r).Formed D :=
  ⟨h.syms, hr, h.fns⟩

theorem addingField (h : s.Formed D) {record : String} {d : RecordDef}
    (hd : s.registry.record? record = some d)
    {ty : Ty} (hty : ty.Formed D) (hown : ∀ m ∈ ty.placeholders, m ∈ d.tyParams) (name : String) :
    (s.addingField record d name ty).Formed D := by
  have hformed := h.registry.record record d hd
  have hkind : SymKind.Formed D (.field record) := trivial
  refine (h.adding hkind hty name none 0).registering ⟨fun n d' hd' => ?_, h.registry.sum⟩
  rw [Registry.addingField, Registry.record?_insertRecord] at hd'
  split at hd'
  · next hn =>
    subst hn
    cases hd'
    refine ⟨hformed.name, hformed.declared, fun f fd hfd => ?_, fun f fd hfd => ?_⟩
    · rw [OrderedMap.get?_insert] at hfd
      split at hfd
      · exact Option.some.inj hfd ▸ hty
      · exact hformed.ty f fd hfd
    · rw [OrderedMap.get?_insert] at hfd
      split at hfd
      · exact Option.some.inj hfd ▸ hown
      · exact hformed.own f fd hfd
  · exact h.registry.record n d' hd'

theorem addingVariant (h : s.Formed D) {sum : String} {d : SumDef} (hd : s.registry.sum? sum = some d)
    {payload : Option Ty} (hpayload : ∀ ty ∈ payload, ty.Formed D)
    (hown : ∀ ty ∈ payload, ∀ m ∈ ty.placeholders, m ∈ d.tyParams) (name : String) :
    (s.addingVariant sum d name payload).Formed D := by
  have hformed := h.registry.sum sum d hd
  have hself : d.selfTy.Formed D := by
    refine .nominal ?_ fun ty hty => ?_
    · rw [List.length_map, hformed.name]
      exact hformed.declared
    · obtain ⟨n, -, rfl⟩ := List.mem_map.mp hty
      exact .generic n
  have hkind : SymKind.Formed D (.variant sum payload) := hpayload
  refine (h.adding hkind hself name none 0).registering ⟨h.registry.record, fun n d' hd' => ?_⟩
  rw [Registry.addingVariant, Registry.sum?_insertSum] at hd'
  split at hd'
  · next hn =>
    subst hn
    cases hd'
    refine ⟨hformed.name, hformed.declared, fun v vd hvd => ?_, fun v vd hvd => ?_⟩
    · rw [OrderedMap.get?_insert] at hvd
      split at hvd
      · exact Option.some.inj hvd ▸ hpayload
      · exact hformed.payload v vd hvd
    · rw [OrderedMap.get?_insert] at hvd
      split at hvd
      · exact Option.some.inj hvd ▸ hown
      · exact hformed.own v vd hvd
  · exact h.registry.sum n d' hd'

/-- A type that was just declared has no members yet. -/
theorem declareType (h : s.Formed D) {kind : Nominal} {name : String} {tyParams : List String}
    {r : Registry}
    (hr : s.registry.declareType kind name tyParams = (true, r)) (hD : D kind name tyParams.length) :
    (s.registering r).Formed D := by
  cases kind with
  | record =>
    obtain ⟨-, -, rfl⟩ := Registry.eq_of_declareRecord hr
    refine h.registering ⟨fun n d hd => ?_, h.registry.sum⟩
    rw [Registry.record?_insertRecord] at hd
    split at hd
    · next hn =>
      subst hn
      cases hd
      exact ⟨rfl, hD, fun _ _ hfd => (by cases hfd), fun _ _ hfd => (by cases hfd)⟩
    · exact h.registry.record n d hd
  | sum =>
    obtain ⟨-, -, rfl⟩ := Registry.eq_of_declareSum hr
    refine h.registering ⟨h.registry.record, fun n d hd => ?_⟩
    rw [Registry.sum?_insertSum] at hd
    split at hd
    · next hn =>
      subst hn
      cases hd
      exact ⟨rfl, hD, fun _ _ hvd => (by cases hvd), fun _ _ hvd => (by cases hvd)⟩
    · exact h.registry.sum n d hd

theorem addingFn (h : s.Formed D) (hf : f.Formed D) : (s.addingFn f).Formed D := by
  have hkind : SymKind.Formed D (.fn f) := hf
  exact h.adding hkind (.fn hf.params hf.ret) f.name _ 0

end State.Formed

theorem forms_writtenSig (name : Name) (tyParams : List Name) (params : List Param)
    (ret : Option TyExpr) :
    Forms D (writtenSig name tyParams params ret) (Sig.Formed D) := by
  refine .seq (.check _) fun names _ => .withGenerics _ (.seq (forms_resolveTypes _) fun tys htys =>
    .seq (forms_resolveType? ret) fun declared hdeclared => .pure ⟨?_, ?_⟩)
  · intro t ht
    simp only [Sig.paramTys, List.map_map] at ht
    obtain ⟨p, hp, rfl⟩ := List.mem_map.mp ht
    exact htys p.2 (List.of_mem_zip hp).2
  · cases declared with
    | none => exact .prim _
    | some ty => exact hdeclared ty rfl

theorem placeholders_resolveType? (e : Option TyExpr) (s : State) :
    ∀ t ∈ out (resolveType? e) s, ∀ n ∈ t.placeholders, n ∈ s.generics := by
  cases e with
  | none => exact fun t ht => by cases ht
  | some e =>
    rintro t ⟨⟩
    exact placeholders_resolveType e s

/-- What is well formed stays so if the types known after a step are declared. -/
theorem Step.formed (h : Step all s t) (hs : s.Top) (hD : t.Within D) (hf : s.Formed D) :
    t.Formed D := by
  cases h with
  | checks m =>
    obtain ⟨fs, hfs⟩ := Checks.exists_reporting m s
    rw [hfs]
    exact hf.congr rfl rfl rfl
  | naming => exact hf.congr rfl rfl rfl
  | @type _ kind name tyParams r _ hr =>
    refine hf.declareType hr (hD kind name tyParams ?_)
    show r.params? kind name = some tyParams
    rw [(Registry.params?_declareType hr).2, if_pos ⟨rfl, rfl⟩]
  | field field hu hd _ hown =>
    obtain ⟨hformed, hty⟩ := forms_resolveType field.annot s hf
    rw [← hu] at hformed
    refine hformed.addingField hd hty ?_ _
    rw [← hown]
    exact placeholders_resolveType field.annot s
  | variant variant hu hd _ hown =>
    obtain ⟨hformed, hpayload⟩ := forms_resolveType? variant.payload s hf
    rw [← hu] at hformed
    refine hformed.addingVariant hd hpayload ?_ _
    rw [← hown]
    exact placeholders_resolveType? variant.payload s
  | @builtin f hf' => exact (hf.addingFn (Builtin.formed_sigs f hf')).congr rfl rfl rfl
  | @sig _ name tyParams params ret =>
    obtain ⟨hformed, hsig⟩ := forms_writtenSig name tyParams params ret s hf
    obtain ⟨u, f, rfl, rfl, -, hafter⟩ := declareSig_cases name tyParams params ret hs
    rcases hafter with ⟨-, hafter⟩ | ⟨-, hafter⟩ <;> rw [hafter] <;>
      exact (hformed.addingFn hsig).congr rfl rfl rfl

theorem Prepares.formed (h : Prepares all s t) (hs : s.Top) (hD : t.Within D) (hf : s.Formed D) :
    t.Formed D := by
  refine h.keeps (C := fun u => u.Within D → u.Formed D) hs (fun htop hstep hu hwithin => ?_)
    (fun _ => hf) hD
  -- every type known before the step is known after it
  exact hstep.formed htop hwithin (hu fun k n ps hps => hwithin k n ps (hstep.params? htop hps))

theorem formed_initial : (State.initial : State).Formed D where
  syms _ _ h := by cases h
  registry := ⟨fun _ _ h => (by cases h), fun _ _ h => (by cases h)⟩
  fns _ h := by cases h

/-! ## Bodies of functions -/

theorem forms_bindFnScope (hf : f.Formed D) (name : Name) (params : List Param)
    (body : Ast.Block) :
    Forms D (bindFnScope f name params body) fun r => r.2.1.Formed D ∧ ∀ frame ∈ r.2.2,
      frame.Formed D := by
  have hframe : FnFrame.Formed D (bodyFrame f name) := by
    refine ⟨fun t ht => ?_, fun e he => by cases he⟩
    rw [bodyFrame] at ht
    split at ht
    · cases ht
      exact hf.ret
    · cases ht
  refine .inScope _ (.withGenerics _ (.seq (.declareLocals rfl _ (formed_zip hf.params)) fun syms _ =>
    .seq (.withFn hframe (.withLoopDepth _ (.withScopeDepth _ (forms_bindStmts body.stmts))))
      fun r hr => .pure ⟨Block.formed_ofStatements _ hr.1, hr.2⟩))

theorem formed_settled (hs : s.Formed D) {id : SymId} (hf : f.Formed D) {frame : FnFrame}
    (hframe : frame.Formed D) {trailing : Option (Ty × Range)}
    (htrailing : ∀ e ∈ trailing, e.1.Formed D) :
    (s.settled id f frame trailing).Formed D := by
  obtain ⟨hformed, hret⟩ := forms_settleReturn hframe htrailing s hs
  rw [State.settled]
  split
  · exact hformed
  · refine ⟨fun j sym hsym => ?_, hformed.registry, hformed.fns⟩
    rw [State.resigning, Symbols.get?_setSig] at hsym
    split at hsym
    · obtain ⟨sym', -, rfl⟩ := Option.map_eq_some_iff.mp hsym
      exact ⟨.fn hf.params hret, hf.params, hret⟩
    · exact hformed.syms j sym hsym

theorem Bodies.formed {sigs : List (Nat × SymId)} {index : Nat} {stmts : List Ast.Stmt}
    {fns : List FnDecl} (h : Bodies sigs index stmts s fns t) (hs : s.Formed D) :
    t.Formed D ∧ ∀ f ∈ fns, f.body.Formed D := by
  induction h with
  | nil => exact ⟨hs, by simp⟩
  | skip _ _ ih => exact ih hs
  | @body _ _ name _ params _ body _ s _ _ id f _ block returns _ _ hf _ _ hscope _ ih =>
    obtain ⟨sym, hsym, hkind⟩ := Symbols.sig?_eq_some_iff.mp hf
    have hsig : f.Formed D := by
      have hformed := (hs.syms id sym hsym).kind
      rwa [hkind] at hformed
    obtain ⟨hafter, hbody⟩ := forms_bindFnScope hsig name params body s hs
    rw [hscope] at hbody
    obtain ⟨ht, hfns⟩ :=
      ih (formed_settled hafter hsig (hbody.2 _ rfl) (formed_blockCandidate hbody.1))
    exact ⟨ht, List.forall_mem_cons.mpr ⟨hbody.1, hfns⟩⟩

/-! ## Files -/

theorem registry_declareSigs (index : Nat) (stmts : List Ast.Stmt) (hs : s.Top) :
    (after (declareSigs index stmts) s).registry = s.registry := by
  induction stmts generalizing index s with
  | nil => rfl
  | cons stmt stmts ih =>
    cases hfn : stmt.isFn with
    | false =>
      rw [declareSigs_of_skip hfn]
      exact ih (index + 1) hs
    | true =>
      cases stmt with
      | fn origin name tyParams params ret body =>
        have hstep : Step [.fn origin name tyParams params ret body] s
          (after (declareSig name tyParams params ret) s) := .sig List.mem_cons_self s
        rw [declareSigs_fn, after_bind, after_bind, after_pure, ih (index + 1) (hstep.sound hs).1,
          registry_declareSig hs]
      | _ => cases hfn

namespace Phases

variable {stmts : List Ast.Stmt} (ph : Phases stmts)

theorem registry_final : ph.final.registry = ph.start.registry :=
  ph.grows_final.registry.trans ph.bodies.later.2

/-- The types that the bind knows in the end are those that the bound file declares. -/
theorem declares_iff (k : Nominal) (n : String) (count : Nat) :
    ph.program.Declares k n count ↔ ∃ ps, ph.final.registry.params? k n = some ps ∧
      ps.length = count := by
  obtain ⟨u, hu, hran, -, hstart⟩ := ph.declares
  have hregistry : ph.final.registry = u.registry := by
    rw [registry_final, hstart]
    exact registry_declareSigs 0 stmts hu
  obtain ⟨⟨hrecord, hbound⟩, hsum, hbound'⟩ := (TypePasses.of_ran hran).params?
  rw [hregistry]
  cases k with
  | record =>
    constructor
    · rintro ⟨⟨d, hd, rfl⟩, hall⟩
      exact ⟨d.tyParams, hrecord d hd, hall d hd rfl⟩
    · rintro ⟨ps, hps, rfl⟩
      refine ⟨hbound n ps hps, ?_⟩
      rintro d hd rfl
      rw [Option.some.inj ((hrecord d hd).symm.trans hps)]
  | sum =>
    constructor
    · rintro ⟨⟨d, hd, rfl⟩, hall⟩
      exact ⟨d.tyParams, hsum d hd, hall d hd rfl⟩
    · rintro ⟨ps, hps, rfl⟩
      refine ⟨hbound' n ps hps, ?_⟩
      rintro d hd rfl
      rw [Option.some.inj ((hsum d hd).symm.trans hps)]

/-- All types that a bind meets are well formed. -/
theorem formed : ph.final.Formed ph.program.Declares ∧ ∀ n ∈ ph.program.nodes true,
    n.Formed ph.program.Declares := by
  have hwithin : ph.start.Within ph.program.Declares := by
    intro k n ps hps
    refine (ph.declares_iff k n _).mpr ⟨ps, ?_, rfl⟩
    rw [registry_final, hps]
  have hstart := ph.prepares.formed top_initial hwithin formed_initial
  obtain ⟨hbound, hfns⟩ := ph.bodies.formed hstart
  obtain ⟨hfinal, hstatements⟩ := forms_bindStmts (topStatements stmts) ph.bound hbound
  refine ⟨hfinal, List.forall_mem_append.mpr ⟨fun n hn => ?_, hstatements⟩⟩
  obtain ⟨f, hf, hn⟩ := List.mem_flatMap.mp hn
  exact hfns f hf n hn

end Phases

end Binding

open Binding

/-- All types in a bound file are well formed, also if something is reported: those of its nodes,
with type arguments, return types of lambdas and element types of channels, and those of its
symbols. The known types are those that the file declares. Their members mention the type parameters
of their own declaration only, and so at type arguments only what these mention. -/
theorem Session.formed_bind (session : Session) (file : Ast.SourceFile) :
    ∃ p diagnostics, (session.bind file).1 = .ok ⟨p, diagnostics⟩ ∧
      (∀ n ∈ p.nodes true, n.Formed p.Declares) ∧
      (∀ id sym, p.syms.get? id = some sym → sym.Formed p.Declares) ∧
      (∀ k n count, p.Declares k n count ↔
        ∃ ps, (session.bind file).2.state.registry.params? k n = some ps ∧ ps.length = count) ∧
      (∀ n d, (session.bind file).2.state.registry.record? n = some d → d.Formed p.Declares n ∧
        ∀ field args t, args.length = d.tyParams.length → d.fieldTy? field args = some t →
          ∀ m ∈ t.placeholders, m ∈ Ty.allPlaceholders args) ∧
      ∀ n d, (session.bind file).2.state.registry.sum? n = some d → d.Formed p.Declares n ∧
        ∀ variant args t, args.length = d.tyParams.length → d.payloadTy? variant args = some (some t) →
          ∀ m ∈ t.placeholders, m ∈ Ty.allPlaceholders args := by
  obtain ⟨ph, hran⟩ := exists_phases file.stmts session.state
  obtain ⟨hfinal, hnodes⟩ := ph.formed
  rw [Session.bind_eq_of_ran hran]
  refine ⟨ph.program, _, rfl, hnodes, hfinal.syms, ph.declares_iff, fun n d hd => ?_, fun n d hd => ?_⟩
  · have hd' := hfinal.registry.record n d hd
    exact ⟨hd', fun _ _ _ hlength => hd'.placeholders_of_fieldTy? hlength⟩
  · have hd' := hfinal.registry.sum n d hd
    exact ⟨hd', fun _ _ _ hlength => hd'.placeholders_of_payloadTy? hlength⟩

end Bindery
