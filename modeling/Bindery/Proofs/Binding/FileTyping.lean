import Bindery.Proofs.Binding.File
import Bindery.Proofs.Binding.WellTyped

/-!
# Files without type parameters

The passes of a bind keep a state ready: it stands at the top level, no type parameter is in scope,
the declared types have none, and every symbol is sound. A silent step of the passes over the
declarations keeps this, so all of them do, and then the bodies of the functions and the statements
of the file are bound in sane states. No signature is ever replaced, since each has its return type
written.
-/

namespace Bindery

open Bindery.Bound

/-- Whether a statement declares no type parameters, and a return type if it declares a function. -/
def Ast.Stmt.isMonomorphic : Ast.Stmt → Bool
  | .record _ _ tyParams _ | .sum _ _ tyParams _ => tyParams.isEmpty
  | .fn _ _ tyParams _ annotation _ => tyParams.isEmpty && annotation.isSome
  | _ => true

theorem Ast.Stmt.tyParams_eq_nil {stmt : Ast.Stmt} (h : stmt.isMonomorphic = true) :
    stmt.tyParams = [] := by
  cases stmt <;> simp_all [isMonomorphic, tyParams]

namespace Registry.Plain

variable {r r' : Registry} {name : String}

theorem empty : Registry.empty.Plain :=
  ⟨by simp [Registry.empty, record?], by simp [Registry.empty, sum?]⟩

theorem hasTyParams (h : r.Plain) {names : List String} (hnames : r.HasTyParams names) :
    names = [] := by
  rcases hnames with ⟨_, d, hd, rfl⟩ | ⟨_, d, hd, rfl⟩
  · exact (h.record hd).1
  · exact (h.sum hd).1

theorem declareType (h : r.Plain) {kind : Nominal} (hr : r.declareType kind name [] = (true, r')) :
    r'.Plain := by
  cases kind with
  | record =>
    obtain ⟨-, -, rfl⟩ := eq_of_declareRecord hr
    refine ⟨fun {n rd} hrd => ?_, h.sum⟩
    rw [record?_insertRecord] at hrd
    split at hrd
    · cases hrd
      exact ⟨rfl, fun hd => nomatch hd⟩
    · exact h.record hrd
  | sum =>
    obtain ⟨-, -, rfl⟩ := eq_of_declareSum hr
    refine ⟨h.record, fun {n sd} hsd => ?_⟩
    rw [sum?_insertSum] at hsd
    split at hsd
    · cases hsd
      exact ⟨rfl, fun hd => nomatch hd⟩
    · exact h.sum hsd

theorem addingField (h : r.Plain) {rd : RecordDef} {field : String} {d : FieldDef}
    (hrd : r.record? name = some rd) (hd : d.ty.Plain) : (r.addingField name field rd d).Plain := by
  obtain ⟨htyParams, hfields⟩ := h.record hrd
  refine ⟨fun {n rd'} hrd' => ?_, h.sum⟩
  rw [Registry.addingField, record?_insertRecord] at hrd'
  split at hrd'
  · cases hrd'
    refine ⟨htyParams, fun {f d'} hd' => ?_⟩
    rw [OrderedMap.get?_insert] at hd'
    split at hd'
    · cases hd'
      exact hd
    · exact hfields hd'
  · exact h.record hrd'

theorem addingVariant (h : r.Plain) {sd : SumDef} {variant : String} {d : VariantDef}
    (hsd : r.sum? name = some sd) (hd : ∀ ty ∈ d.payload, ty.Plain) :
    (r.addingVariant name variant sd d).Plain := by
  obtain ⟨htyParams, hvariants⟩ := h.sum hsd
  refine ⟨h.record, fun {n sd'} hsd' => ?_⟩
  rw [Registry.addingVariant, sum?_insertSum] at hsd'
  split at hsd'
  · cases hsd'
    refine ⟨htyParams, fun {v d'} hd' => ?_⟩
    rw [OrderedMap.get?_insert] at hd'
    split at hd'
    · cases hd'
      exact hd
    · exact hvariants hd'
  · exact h.sum hsd'

end Registry.Plain

namespace Binding

variable {s t : State} {all : List Ast.Stmt}

/-! ## Declarations -/

/-- What holds between the passes over a file without type parameters. -/
structure State.Ready (s : State) : Prop where
  top : s.Top
  generics : s.generics = []
  plain : s.registry.Plain
  syms : ∀ {id sym}, s.syms.get? id = some sym → sym.Sound

variable {f : Sig} {id : SymId} {params : List Ast.Param} {Γ : Symbols} {syms : List SymId}
  {body : Ast.Block} {sigs : List (Nat × SymId)} {fns : List FnDecl}

namespace State.Ready

theorem sane (h : s.Ready) : s.Sane s.registry where
  valid := h.top.valid
  registry := rfl
  generics := h.generics
  syms := h.syms
  frames := by simp [h.top.fns]

theorem initial : State.initial.Ready where
  top := top_initial
  generics := rfl
  plain := .empty
  syms hsym := nomatch hsym

/-- A new symbol of sound type. -/
theorem syms_adding (h : s.Ready) {name : String} {kind : SymKind} {ty : Ty} {scope : Option ScopeId}
    {depth : Nat} (hty : ty.Sound) (hkind : ∀ {f}, kind = .fn f → f.Closed ∧ ty = f.ty) {sym : Symbol}
    (hsym : (s.syms.add name kind ty scope depth).2.get? id = some sym) : sym.Sound := by
  rcases Symbols.get?_add_cases hsym with ⟨-, rfl⟩ | hold
  · exact ⟨hty, hkind⟩
  · exact h.syms hold

theorem addingFn (h : s.Ready) (hf : f.Closed) (htop : (s.addingFn f).Top) :
    (s.addingFn f).Ready where
  top := htop
  generics := h.generics
  plain := h.plain
  syms := h.syms_adding hf.sound_ty fun hg => by
    cases hg
    exact ⟨hf, rfl⟩

end State.Ready

/-- The signature that is written without type parameters and with a return type. -/
theorem closed_writtenSig {name : Ast.Name} {ret : Option Ast.TyExpr} (hs : s.Ready)
    (hret : ret.isSome = true) (h : Quiet Γ (writtenSig name [] params ret) s f t) : f.Closed := by
  obtain ⟨names, u, hnames, hscope⟩ := h.bind
  obtain ⟨rfl, rfl⟩ := Quiet.pure hnames
  obtain ⟨v, hquiet, -⟩ := hscope.withGenerics
  obtain ⟨tys, w, htys, hrest⟩ := hquiet.bind
  obtain ⟨-, rfl⟩ := htys.checks
  obtain ⟨declared, hdeclared, rfl⟩ := hrest.bind_pure
  have hlaw : TypeLaw (u.naming []) Ty.Plain := typeLaw_plain hs.plain rfl
  have hplain := hlaw.of_resolveTypes _ htys
  obtain ⟨hsome, hdeclaredPlain⟩ := hlaw.of_resolveType? _ hdeclared
  rw [hret] at hsome
  obtain ⟨ty, rfl⟩ := Option.isSome_iff_exists.mp hsome
  refine .written rfl rfl rfl ?_ (hdeclaredPlain ty rfl)
  simp only [Sig.paramTys, List.map_map]
  intro ty hty
  obtain ⟨p, hp, rfl⟩ := List.mem_map.mp hty
  exact hplain _ (List.of_mem_zip hp).2

/-- A silent step of the passes over the declarations keeps a state ready. -/
theorem Step.ready (h : Step all s t) (hall : ∀ stmt ∈ all, stmt.isMonomorphic = true)
    (hs : s.Ready) (hsilent : t.findings = s.findings) : t.Ready := by
  have htop := (h.sound hs.top).1
  cases h with
  | checks m =>
    have hquiet : Quiet (after m s).syms m s (out m s) (after m s) :=
      ⟨rfl, rfl, hsilent, Symbols.le_refl _⟩
    rw [hquiet.checks.2]
    exact hs
  | @naming _ names hnames =>
    have hnil : names = [] := hnames.elim id hs.plain.hasTyParams
    exact ⟨htop, hnil, hs.plain, hs.syms⟩
  | type hplain hr =>
    obtain rfl := hplain fun stmt hmem => Ast.Stmt.tyParams_eq_nil (hall stmt hmem)
    exact ⟨htop, hs.generics, hs.plain.declareType hr, hs.syms⟩
  | @field _ u record d field hu hd hnew =>
    have hquiet : Quiet u.syms (resolveType field.annot) s _ u :=
      ⟨rfl, hu.symm, hsilent, Symbols.le_refl _⟩
    obtain ⟨-, rfl⟩ := hquiet.checks
    have hty := (typeLaw_plain hs.plain hs.generics).of_resolveType _ hquiet
    exact ⟨htop, hs.generics, hs.plain.addingField hd hty, hs.syms_adding hty.sound (by simp)⟩
  | @variant _ u sum d variant hu hd hnew =>
    have hquiet : Quiet u.syms (resolveType? variant.payload) s _ u :=
      ⟨rfl, hu.symm, hsilent, Symbols.le_refl _⟩
    obtain ⟨-, rfl⟩ := hquiet.checks
    have hpayload := ((typeLaw_plain hs.plain hs.generics).of_resolveType? _ hquiet).2
    have hself : d.selfTy.Sound := by
      rw [SumDef.selfTy, (hs.plain.sum hd).1]
      exact .nominal _ _
    exact ⟨htop, hs.generics, hs.plain.addingVariant hd hpayload, hs.syms_adding hself (by simp)⟩
  | @builtin f hf =>
    have hadded := hs.addingFn (.builtin hf) (hs.top.addingFn f)
    exact ⟨htop, hs.generics, hs.plain, hadded.syms⟩
  | @sig origin name tyParams params ret body hmem =>
    have hmono := hall _ hmem
    simp only [Ast.Stmt.isMonomorphic, Bool.and_eq_true, List.isEmpty_iff] at hmono
    obtain ⟨rfl, hret⟩ := hmono
    obtain ⟨u, f, hu, hf, -, ⟨-, hafter⟩ | ⟨-, hafter⟩⟩ := declareSig_cases name [] params ret hs.top
    · rw [hafter] at hsilent htop ⊢
      have hquiet : Quiet u.syms (writtenSig name [] params ret) s f u :=
        ⟨hf.symm, hu.symm, hsilent, Symbols.le_refl _⟩
      have hclosed := closed_writtenSig hs hret hquiet
      obtain ⟨-, rfl⟩ := hquiet.checks
      have hadded := hs.addingFn hclosed (hs.top.addingFn f)
      exact ⟨htop, hs.generics, hs.plain, hadded.syms⟩
    · -- a name that is taken is reported
      have hsize : u.findings.size + 1 = s.findings.size := by
        rw [← hsilent, hafter]
        simp [State.reporting, State.addingFn, State.adding]
      have hlength := (Keeps.grows [] (writtenSig name [] params ret) s).findings.length_le
      rw [← hu, Array.length_toList, Array.length_toList] at hlength
      omega

/-- Passes over the declarations that find nothing leave a ready state behind. -/
theorem Prepares.ready (h : Prepares all s t) (hall : ∀ stmt ∈ all, stmt.isMonomorphic = true)
    (hs : s.Ready) (hsilent : t.findings = #[]) : t.Ready := by
  obtain ⟨hsteps, -⟩ := h
  induction hsteps with
  | refl => exact hs
  | @tail u v hfirst hstep ih =>
    -- what comes before a silent state is silent
    have htop := (Step.sound_of_steps hfirst hs.top).1
    have hfindings := (hstep.sound htop).2.findings
    rw [hsilent] at hfindings
    have hbefore : u.findings = #[] := Array.toList_inj.mp (List.prefix_nil.mp hfindings)
    exact hstep.ready hall (ih hbefore) (hsilent.trans hbefore.symm)

/-! ## Functions -/

/-- The body of a function that is bound quietly is properly typed, and its results fit. -/
theorem typed_bindFnScope {name : Ast.Name} {block : Block} {frame : Option FnFrame}
    (hr : s.registry.Describes Γ) (hs : s.Ready) (hf : s.syms.sig? id = some f)
    (hb : f.isBuiltin = false)
    (hlength : f.params.length = params.length)
    (h : Quiet Γ (bindFnScope f name params body) s (syms, block, frame) t) :
    t.Ready ∧ Γ.HasParams syms f.paramTys ∧ block.ty.Sound ∧
      (∀ deep, ∀ n ∈ block.nodes deep, n.Proper Γ) := by
  have hgrows : Grows [] s t := h.grows inferInstance
  obtain ⟨hfinal, htyParams, hparams, hret⟩ := (hs.sane.closed hf).isFinal hb
  obtain ⟨u, stmts, v, hdeclare, hstmts, rfl, -, hsyms⟩ := h.bindFnScope
  have henter : (s.enteringFn f).Sane s.registry :=
    (hs.sane.opened .fn).congr ((hs.top.valid.opened .fn).congr rfl rfl rfl rfl) rfl rfl
      (htyParams.trans hs.generics.symm) hs.sane.frames
  obtain ⟨hu, hids⟩ :=
    sound_declareLocals henter (fun p hp => (hparams _ (List.of_mem_zip hp).2).sound) hdeclare
  have hbody : (u.enteringStatements (bodyFrame f name)).Sane s.registry := by
    refine hu.congr (hu.valid.congr rfl rfl rfl rfl) rfl rfl rfl fun g hg => ?_
    rcases List.mem_cons.mp hg with rfl | hg
    · simpa [bodyFrame, hfinal] using hret.sound
    · exact hu.frames g hg
  obtain ⟨-, hvalues, hmakes⟩ := typed_bindStmts body.stmts hr hbody hstmts
  have hty := Block.sound_ofStatements body.range hvalues
  refine ⟨⟨hs.top.grows hgrows, hgrows.generics.trans hs.generics, ?_, ?_⟩, ?_, hty, ?_⟩
  · rw [hgrows.registry]
    exact hs.plain
  · rw [hsyms]
    exact hmakes.sane.syms
  · rwa [List.map_snd_zip (by simp [Sig.paramTys, hlength])] at hids
  · exact fun deep => List.forall_mem_cons.mpr ⟨.block hty, hmakes.proper deep⟩

/-- A function whose body and return type are settled silently: nothing is replaced, the state stays
ready, and the declaration obeys its rule. -/
theorem typed_fn {u : State} {name : Ast.Name} {block : Block} {returns : List (Ty × Range)}
    (hs : s.Ready)
    (hf : s.syms.sig? id = some f) (hb : f.isBuiltin = false)
    (hlength : f.params.length = params.length)
    (hscope : out (bindFnScope f name params body) s =
      (syms, block, some ((bodyFrame f name).noting returns)))
    (hu : after (bindFnScope f name params body) s = u) (hbody : u.findings = s.findings)
    (hsettled : (u.settled id f ((bodyFrame f name).noting returns) (blockCandidate block)).findings
      = u.findings) :
    u.settled id f ((bodyFrame f name).noting returns) (blockCandidate block) = u ∧ u.Ready ∧
      ∀ Γ, u.syms ≤ Γ → s.registry.Describes Γ →
        (∀ range, (⟨id, syms, block, range⟩ : FnDecl).Typed Γ f) ∧ ∀ n ∈ block.nodes true,
          n.Proper Γ := by
  have hgrows : Grows [] s u := hu ▸ Keeps.grows [] (bindFnScope f name params body) s
  have hquiet : ∀ Γ, u.syms ≤ Γ → Quiet Γ (bindFnScope f name params body) s
      (syms, block, some ((bodyFrame f name).noting returns)) u :=
    fun Γ hΓ => ⟨hscope, hu, hbody, hΓ⟩
  obtain ⟨hfinal, -, -, hret⟩ := (hs.sane.closed hf).isFinal hb
  rw [State.settled, if_pos hfinal] at hsettled ⊢
  -- the symbols of the body alone suffice to see that the state stays ready
  have hdescribes : s.registry.Describes u.syms :=
    ⟨hgrows.registry ▸ (hs.top.grows hgrows).recorded, hs.plain⟩
  have hready := (typed_bindFnScope hdescribes hs hf hb hlength (hquiet _ (Symbols.le_refl _))).1
  have hsettle : Quiet
    (after (settleReturn ((bodyFrame f name).noting returns) (blockCandidate block)) u).syms
      (settleReturn ((bodyFrame f name).noting returns) (blockCandidate block)) u _ _ :=
    ⟨rfl, rfl, hsettled, Symbols.le_refl _⟩
  refine ⟨hsettle.checks.2, hready, fun Γ hΓ hr => ?_⟩
  obtain ⟨-, hids, hty, hproper⟩ := typed_bindFnScope hr hs hf hb hlength (hquiet Γ hΓ)
  obtain rfl : returns = returnedBy (block.nodes false) := by
    have hframe := ((hquiet Γ hΓ).lawful_bindFnScope hs.top.valid).2
    simpa [FnFrame.noting, bodyFrame] using hframe
  have hdeclared : ((bodyFrame f name).noting (returnedBy (block.nodes false))).declared =
    some f.ret := by
    simp [FnFrame.noting, bodyFrame, hfinal]
  have hrule : BlockRule block := (hproper false _ (block.mem_nodes false)).typed
  obtain ⟨-, hfit⟩ := returnsFit_settleReturn (by simpa [hdeclared] using hret.sound)
    (sound_returnedBy (hproper false)) (sound_blockCandidate hrule hty)
    (fun _ => blockCandidate_eq) hsettle
  rw [(hsettle.settleReturn_of_declared hdeclared).2.1] at hfit
  refine ⟨fun range => ⟨Symbols.sig?_of_le (Symbols.le_trans hgrows.syms hΓ) hf, hids, ?_⟩,
    hproper true⟩
  simpa [FnFrame.noting, bodyFrame] using hfit

/-- Function bodies that find nothing keep a state ready and are properly typed. -/
theorem Bodies.typed {index : Nat} {stmts : List Ast.Stmt}
    (h : Bodies sigs index stmts s fns t) (hs : s.Ready) (hsilent : t.findings = s.findings) :
    t.Ready ∧ s.syms ≤ t.syms ∧ ∀ Γ, t.syms ≤ Γ → s.registry.Describes Γ →
      ∀ d ∈ fns, (∃ f, d.Typed Γ f) ∧ ∀ n ∈ d.body.nodes true, n.Proper Γ := by
  induction h with
  | nil => exact ⟨hs, Symbols.le_refl _, by simp⟩
  | skip _ _ ih => exact ih hs hsilent
  | @body _ origin name _ params _ body _ s t fns id f syms block returns htop _ hf hb hlength hscope
      hrest ih =>
    have hgrows := Keeps.grows [] (bindFnScope f name params body) s
    have hregistry :=
      (later_settled htop hgrows hf hb ((bodyFrame f name).noting returns) (blockCandidate block)).2
    obtain ⟨hbody, hsettled⟩ := hrest.silent htop hgrows hf hb hsilent
    obtain ⟨hsame, hready, htyped⟩ :=
      typed_fn hs hf hb hlength hscope rfl hbody (hsettled.trans hbody.symm)
    rw [hsame] at hrest ih hsettled hregistry
    obtain ⟨ht, hle, hfns⟩ := ih hready (hsilent.trans hsettled.symm)
    refine ⟨ht, Symbols.le_trans hgrows.syms hle, fun Γ hΓ hr => ?_⟩
    obtain ⟨hdecl, hnodes⟩ := htyped Γ (Symbols.le_trans hle hΓ) hr
    exact List.forall_mem_cons.mpr ⟨⟨⟨f, hdecl _⟩, hnodes⟩, hfns Γ hΓ (hregistry ▸ hr)⟩

theorem Bodies.length_eq {index : Nat} {stmts : List Ast.Stmt}
    (h : Bodies sigs index stmts s fns t) :
    fns.length = (stmts.filter Ast.Stmt.isFn).length := by
  induction h with
  | nil => rfl
  | skip hskip _ ih => rw [ih, List.filter_cons_of_neg (by simp [hskip])]
  | body _ _ _ _ _ _ _ ih => rw [List.filter_cons_of_pos rfl, List.length_cons, List.length_cons, ih]

/-! ## Files -/

namespace Phases

variable {stmts : List Ast.Stmt} (ph : Phases stmts)

/-- A file without type parameters and without findings is bound to proper nodes and sound
symbols. -/
theorem typed (hmono : ∀ stmt ∈ stmts, stmt.isMonomorphic = true)
    (hsilent : ph.final.findings = #[]) :
    ph.final.Ready ∧
      (∀ d ∈ ph.program.fns, ∃ f, d.Typed ph.program.syms f) ∧
      (∀ n ∈ ph.program.nodes true, n.Proper ph.program.syms) ∧
      returnedBy (Stmt.allNodes false ph.program.stmts) = [] ∧
      ph.program.stmts.length = (topStatements stmts).length := by
  have hgrows := ph.grows_final
  have hbound := ph.silent_bound hsilent
  have hstart := ph.silent_start hsilent
  have hready := ph.prepares.ready hmono .initial hstart
  obtain ⟨hboundReady, -, hfns⟩ := ph.bodies.typed hready (hbound.trans hstart.symm)
  have hquiet : Quiet ph.final.syms (bindStmts (topStatements stmts)) ph.bound _ ph.final :=
    ⟨rfl, rfl, hsilent.trans hbound.symm, Symbols.le_refl _⟩
  have hdescribes : ph.bound.registry.Describes ph.final.syms :=
    ⟨hgrows.registry ▸ ph.top_final.recorded, hboundReady.plain⟩
  obtain ⟨hlength, -, hmakes⟩ := typed_bindStmts _ hdescribes hboundReady.sane hquiet
  have hfinal : ph.final.Ready := by
    refine ⟨ph.top_final, hgrows.generics.trans hboundReady.generics, ?_, hmakes.sane.syms⟩
    rw [hgrows.registry]
    exact hboundReady.plain
  have hregistry : ph.start.registry.Describes ph.final.syms := ph.bodies.later.2 ▸ hdescribes
  have htyped := hfns ph.final.syms hgrows.syms hregistry
  refine ⟨hfinal, fun d hd => (htyped d hd).1, fun n hn => ?_, ?_, hlength⟩
  · rcases List.mem_append.mp hn with hn | hn
    · obtain ⟨d, hd, hn⟩ := List.mem_flatMap.mp hn
      exact (htyped d hd).2 n hn
    · exact hmakes.proper true n hn
  · exact (Accounts.traversal.bindStmts _ ph.top_bound.valid hquiet).outside ph.top_bound.fns

end Phases

end Binding

end Bindery
