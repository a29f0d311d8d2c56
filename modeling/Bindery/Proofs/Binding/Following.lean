import Bindery.Proofs.Binding.Resolution
import Bindery.Proofs.Binding.Scoping

/-!
# Binding follows the resolver

Every step of binding stays in step with the resolver, whatever else it reports: where it looks up a
name, where it declares one, and through all expressions and statements.
-/

namespace Bindery.Binding

open Resolver
open Ast (Name TyExpr)

variable {α β : Type} {g : Globals} {env : Env} {s : State}

/-! ## Names -/

/-- Resolving a variable adds no symbol and finds no undefined name. -/
theorem resolveVar_neutral (hs : s.Valid) (name : Name) :
    (after (resolveVar name) s).syms = s.syms ∧
      (after (resolveVar name) s).undefinedFindings = s.undefinedFindings := by
  cases h : s.scopes.lookup .var s.current name.text with
  | none =>
    rw [after_resolveVar_of_none h]
    exact ⟨rfl, rfl⟩
  | some id =>
    obtain ⟨c, sc, -, hsc, hid⟩ := Scopes.exists_of_lookup h
    obtain ⟨sym, hsym, -, hscope⟩ := hs.var_known c sc name.text id hsc hid
    rw [after_resolveVar_of_some h hsym hscope, after_reportUnless]
    refine ⟨rfl, ?_⟩
    rw [State.undefinedFindings_reporting]
    split
    · exact List.append_nil _
    · exact List.append_nil _

theorem Sees.declared?_eq (h : Sees g env s) (name : String) :
    env.declared? name = (s.scopes.lookup .var s.current name).map .var := by
  rw [Env.declared?, h.lookup_eq]

theorem Sees.declaration?_eq (h : Sees g env s) (name : String) :
    g.declaration? name = ((s.scopes.lookup .fn s.current name).map .fn).or
      ((s.registry.variant? name).map fun p => .variant p.2.symbol) := by
  rw [Globals.declaration?, ← h.fns, ← h.variants, Option.map_map]
  rfl

variable {past : List Visit} {rest : List (List String)} {name : Name} {events : List Event}
  {q : Env → Resolving Unit} {body : Binding Bound.Expr}

/-- A name that is no variable is used for its value. -/
theorem InStep.nonVar {n : Progress} (h : InStep g env past rest s n) (expected : Option Ty)
    (hvar : s.scopes.lookup .var s.current name.text = none) :
    InStep g env (past ++ [⟨.value expected name, s⟩]) rest (after (nameExpr expected name) s)
      ((Resolver.refer .value name (g.declaration? name.text)).run n).2 := by
  have hrun : (nameExpr expected name).run s = (nonVarExpr expected name).run s := by
    have hout := out_resolveVar h.valid name
    have hafter := after_resolveVar_of_none hvar
    rw [hvar] at hout
    show (out (nameExpr expected name) s, after (nameExpr expected name) s) = _
    rw [nameExpr, out_bind, after_bind, hout, hafter]
    rfl
  have hout : out (nameExpr expected name) s = out (nonVarExpr expected name) s :=
    congrArg Prod.fst hrun
  have hafter : after (nameExpr expected name) s = after (nonVarExpr expected name) s :=
    congrArg Prod.snd hrun
  have hgrows : Grows [] s (after (nameExpr expected name) s) := Keeps.grows [] _ s
  have hsize : (after (nameExpr expected name) s).syms.size = s.syms.size := by
    rw [hafter, Checks.syms_eq]
  rw [h.sees.declaration?_eq]
  rw [nonVarExpr, out_bind, out_lookup, after_lookup] at hout
  rw [nonVarExpr, after_bind, out_lookup, after_lookup] at hafter
  cases hfn : s.scopes.lookup .fn s.current name.text with
  | some id =>
    rw [hfn] at hout hafter
    refine h.refer (.fn (congrArg Bound.Expr.kind hout)) hgrows hsize ?_
    rw [hafter]
    exact (List.append_nil _).symm
  | none =>
    rw [hfn] at hout hafter
    rw [out_bind, out_get] at hout
    rw [after_bind, out_get] at hafter
    cases hvariant : s.registry.variant? name.text with
    | none =>
      rw [hvariant] at hout hafter
      have hreport : after (nameExpr expected name) s =
        s.reporting [⟨name.range, .undefinedVar name.text⟩] := by
        rw [hafter, after_bind]
        rfl
      refine h.refer (.undefined hreport) hgrows hsize ?_
      rw [hreport, State.undefinedFindings_reporting]
      rfl
    | some p =>
      obtain ⟨sum, d⟩ := p
      rw [hvariant] at hout hafter
      dsimp only at hout hafter
      cases hpayload : d.payload with
      | some ty =>
        rw [hpayload] at hafter
        have hreport : after (nameExpr expected name) s =
            s.reporting [⟨name.range, .payloadRequired name.text ty⟩] := by
          rw [hafter, after_bind]
          rfl
        refine h.refer (.payload hvariant hpayload hreport) hgrows hsize ?_
        rw [hreport, State.undefinedFindings_reporting]
        rfl
      | none =>
        rw [hpayload] at hout hafter
        refine h.refer (.variant (congrArg Bound.Expr.kind hout)) hgrows hsize ?_
        rw [hafter]
        exact (List.append_nil _).symm

theorem follows_nameExpr (expected : Option Ty) (name : Name) :
    Follows g env (resolveName g env name) (fun _ => env) (nameExpr expected name)
      [.visit ⟨.value expected name, s⟩] s := by
  intro n past rest h
  rw [resolveName, h.sees.declared?_eq]
  cases hvar : s.scopes.lookup .var s.current name.text with
  | none => exact h.nonVar expected hvar
  | some id =>
    obtain ⟨hsyms, hundefined⟩ := resolveVar_neutral h.valid name
    have hout : out (nameExpr expected name) s =
        ⟨.var id, out (tyOf id) (after (resolveVar name) s), name.range⟩ := by
      rw [nameExpr, out_bind, out_resolveVar h.valid, hvar]
      rfl
    have hafter : after (nameExpr expected name) s = after (resolveVar name) s := by
      rw [nameExpr, after_bind, out_resolveVar h.valid, hvar]
      rfl
    refine h.refer (.var (congrArg Bound.Expr.kind hout)) (Keeps.grows [] _ s) ?_ ?_
    · rw [hafter, hsyms]
    · rw [hafter, hundefined]
      exact (List.append_nil _).symm

/-! ## Calls by name -/

theorem calleeDeclaration?_fnCallee (id : SymId) (f : Sig) (name : Name)
    (tyArgs : List TyExpr) (range : Range) (s : State) :
    calleeDeclaration? (out (fnCallee id f name tyArgs range) s) = some (.fn id) := by
  rw [fnCallee, out_bind]
  dsimp only
  split
  · split <;> rfl
  · split
    · rfl
    · rw [out_bind]
      split <;> rfl

/-- A name that is no variable is called. -/
theorem follows_resolveCallee (expected : Option Ty) (tyArgs : List TyExpr) (range : Range)
    (hvar : s.scopes.lookup .var s.current name.text = none) :
    Follows g env (refer .callee name (g.declaration? name.text)) (fun _ => env)
      (resolveCallee expected (.name name) tyArgs range)
      [.visit ⟨.callee expected (.name name) tyArgs range, s⟩] s := by
  intro n past rest h
  obtain ⟨hout, hafter⟩ := resolveCallee_of_none expected tyArgs range hvar
  have hgrows : Grows [] s (after (resolveCallee expected (.name name) tyArgs range) s) :=
    Keeps.grows [] _ s
  have hsize : (after (resolveCallee expected (.name name) tyArgs range) s).syms.size =
    s.syms.size := by
    rw [Checks.syms_eq]
  rw [h.sees.declaration?_eq]
  cases hfn : s.scopes.lookup .fn s.current name.text with
  | some id =>
    obtain ⟨c, sc, -, hsc, hid⟩ := Scopes.exists_of_lookup hfn
    obtain ⟨sym, f, hsym, hkind⟩ := h.valid.fn_known c sc name.text id hsc hid
    have hf : s.syms.sig? id = some f := Symbols.sig?_eq_some_iff.mpr ⟨sym, hsym, hkind⟩
    have hnamed := run_namedCallee_of_fn expected tyArgs range hfn hf
    refine h.refer (.callee hout ?_) hgrows hsize ?_
    · rw [show out (namedCallee expected name tyArgs range) s =
        out (fnCallee id f name tyArgs range) s from
        congrArg Prod.fst hnamed]
      exact calleeDeclaration?_fnCallee id f name tyArgs range s
    · rw [hafter, show after (namedCallee expected name tyArgs range) s =
        after (fnCallee id f name tyArgs range) s from congrArg Prod.snd hnamed,
        Neutral.undefinedFindings_eq]
      exact (List.append_nil _).symm
  | none =>
    cases hvariant : s.registry.variant? name.text with
    | some p =>
      obtain ⟨sum, d⟩ := p
      have hnamed := run_namedCallee_of_variant expected tyArgs range hfn hvariant
      refine h.refer (.callee hout ?_) hgrows hsize ?_
      · rw [show out (namedCallee expected name tyArgs range) s = _ from congrArg Prod.fst hnamed]
        rfl
      · rw [hafter, show after (namedCallee expected name tyArgs range) s = _ from congrArg Prod.snd
          hnamed]
        exact (List.append_nil _).symm
    | none =>
      have hnamed : (namedCallee expected name tyArgs range).run s =
          (.undefined, s.reporting [⟨name.range, .undefinedFn name.text⟩]) := by
        rw [namedCallee, StateT.run_bind]
        simp only [StateT.run_get, hfn, hvariant, pure_bind, Option.bind_eq_bind, Option.bind_none]
        refine Prod.ext rfl ?_
        exact after_report name.range (.undefinedFn name.text) s
      have hreport : after (resolveCallee expected (.name name) tyArgs range) s =
          s.reporting [⟨name.range, .undefinedFn name.text⟩] := hafter.trans (congrArg Prod.snd hnamed)
      refine h.refer (.undefinedCallee ?_ hreport) hgrows hsize ?_
      · rw [hout]
        exact congrArg some (congrArg Prod.fst hnamed)
      · rw [hreport, State.undefinedFindings_reporting]
        rfl

/-! ## Assignments -/

theorem undefinedFindings_finishAssign (name : Name) (target : Option (Ty × Bool)) (value : Bound.Expr)
    (s : State) :
    (after (finishAssign name target value) s).undefinedFindings =
      s.undefinedFindings ++ if target.isSome then []
        else [⟨name.range, .undefinedVar name.text⟩] := by
  cases target with
  | none =>
    rw [finishAssign, after_report, State.undefinedFindings_reporting]
    rfl
  | some target =>
    have hneutral : Neutral (finishAssign name (some target) value) :=
      .seq (.reportUnless _ _ rfl) fun _ => .reportUnless _ _ rfl
    rw [Neutral.undefinedFindings_eq]
    exact (List.append_nil _).symm

/-- An assignment looks up its target before its value is bound and reports it after that. -/
theorem follows_assign (origin : Origin) (name : Name) {value : Ast.Expr} {r : Resolving Unit}
    (h : Follows g env r (fun _ => env) (bindExpr ((out (assignTarget name) s).2.map Prod.fst)
      value) events
      (after (assignTarget name) s)) :
    Follows g env (r >>= fun _ => refer .target name (env.declared? name.text)) (fun _ => env)
      (bindStmt (.assign origin name value)) (events ++ [.visit ⟨.target name, s⟩]) s := by
  intro n past rest hn
  rw [patterns_append, List.append_assoc] at hn
  rw [visits_append, ← List.append_assoc, hn.sees.declared?_eq name.text]
  obtain ⟨hsyms, hundefined⟩ := resolveVar_neutral hn.valid name
  have hvalue := h n past rest
    (hn.leaving hn.valid hn.sees (Keeps.grows [] (resolveVar name) s) hsyms hundefined)
  have htarget : (out (assignTarget name) s).1 = s.scopes.lookup .var s.current name.text :=
    out_resolveVar hn.valid name
  have hinfo : (out (assignTarget name) s).2 = ((out (assignTarget name) s).1.bind s.syms.get?).map
      fun sym => (sym.ty, sym.isMutable) := by
    rw [← hsyms]
    rfl
  generalize hvalueState : after (bindExpr ((out (assignTarget name) s).2.map Prod.fst) value)
    (after (assignTarget name) s) = u at hvalue
  generalize hvalueExpr : out (bindExpr ((out (assignTarget name) s).2.map Prod.fst) value)
    (after (assignTarget name) s) = e
  have hafter : after (bindStmt (.assign origin name value)) s =
      after (finishAssign name (out (assignTarget name) s).2 e) u := by
    rw [← hvalueState, ← hvalueExpr]
    rfl
  have hgrows : Grows [] u (after (finishAssign name (out (assignTarget name) s).2 e) u) :=
    Keeps.grows [] _ u
  have hsize : (after (finishAssign name (out (assignTarget name) s).2 e) u).syms.size =
    u.syms.size := by
    rw [Checks.syms_eq]
  have hreport := undefinedFindings_finishAssign name (out (assignTarget name) s).2 e u
  rw [hafter]
  cases hlookup : s.scopes.lookup .var s.current name.text with
  | none =>
    rw [htarget, hlookup] at hinfo
    refine hvalue.refer (.undefinedTarget (Prod.ext (htarget.trans hlookup) hinfo)) hgrows hsize ?_
    rw [hreport, hinfo]
    rfl
  | some id =>
    obtain ⟨c, sc, -, hsc, hid⟩ := Scopes.exists_of_lookup hlookup
    obtain ⟨sym, hsym, -, -⟩ := hn.valid.var_known c sc name.text id hsc hid
    rw [htarget, hlookup, Option.bind_some, hsym] at hinfo
    refine hvalue.refer (.target (htarget.trans hlookup)) hgrows hsize ?_
    rw [hreport, hinfo]
    rfl

/-! ## Declarations -/

theorem follows_declareLocal (name : Name) {kind : SymKind} (ty : Ty) (hlocal : kind.isLocal = true) :
    Follows g env (declare env name.text) id (declareLocal name kind ty) [] s := by
  intro n past rest h
  exact (List.append_nil past).symm ▸ h.declaring name ty hlocal

theorem follows_declareLocals (params : List (Name × Ty)) :
    Follows g env (declareAll env (params.map (·.1.text))) id (declareLocals .parameter params) []
      s := by
  induction params generalizing env s with
  | nil => exact .checks (pure []) rfl
  | cons p params ih =>
    obtain ⟨name, ty⟩ := p
    exact (follows_declareLocal name ty rfl).seq fun inner => ih.thenChecks

theorem declareAll_append (env : Env) (names names' : List String) :
    declareAll env (names ++ names') = declareAll env names >>= fun inner =>
      declareAll inner names' := by
  induction names generalizing env with
  | nil => rfl
  | cons name names ih =>
    show (declare env name >>= fun inner => declareAll inner (names ++ names')) = _
    simp only [ih]
    rfl

mutual

/-- Binding a pattern declares the variables of the bound pattern. -/
theorem follows_bindPattern {env : Env} {s : State} (target : Ty) (p : Ast.Pattern) :
    Follows g env (declareAll env (out (bindPattern target p) s).names) id (bindPattern target p) []
      s := by
  match p with
  | .literal .. | .wildcard _ =>
    rw [bindPattern]
    exact .checks _ rfl
  | .name name =>
    rw [bindPattern, namePattern, out_bind]
    refine .past ?_
    rw [after_get]
    split
    · exact .checks _ rfl
    · refine Follows.thenChecks ?_
      exact follows_declareLocal name target rfl
  | .tuple _ elems => exact .past ((follows_bindPatterns _ elems).thenChecks)
  | .variant _ _ none => exact .past (.past (.checks _ rfl))
  | .variant _ _ (some payload) => exact .past (.past ((follows_bindPattern _ payload).thenChecks))

theorem follows_bindPatterns {env : Env} {s : State} (tys : List Ty) (ps : List Ast.Pattern) :
    Follows g env (declareAll env (Bound.Pattern.allNames (out (bindPatterns tys ps) s))) id
      (bindPatterns tys ps) []
      s := by
  match tys, ps with
  | [], _ | _ :: _, [] =>
    rw [bindPatterns]
    · exact .checks _ rfl
    · simp
  | ty :: tys, p :: ps =>
    rw [bindPatterns, out_bind, out_bind, out_pure, Bound.Pattern.allNames, declareAll_append]
    exact (follows_bindPattern ty p).seq fun inner => (follows_bindPatterns tys ps).thenChecks

end

/-! ## Lambdas and arms -/

theorem follows_lambdaExpr {params : List (Name × Ty)} (declared : Option Ty) (range : Range)
    (hkeeps : Keeps [] body)
    (h : ∀ inner, Follows g inner (q inner) (fun _ => inner) body events
      ((after (declareLocals .parameter params) s.enteringLambda).enteringBody
      ⟨"<lambda>", declared, [], range⟩)) :
    Follows g env (declareAll env.opened (params.map (·.1.text)) >>= q) (fun _ => env)
      (lambdaExpr params declared body range) events s := by
  have hparams : Follows g env.opened (declareAll env.opened (params.map (·.1.text))) id
      (declareLocals .parameter params) [] s.enteringLambda := follows_declareLocals params
  have hinner : Leads g env.opened (declareAll env.opened (params.map (·.1.text)) >>= q)
      (declareLocals .parameter params >>= fun syms =>
        withFn ⟨"<lambda>", declared, [], range⟩ (withLoopDepth (fun _ => 0) body) >>= fun result =>
          pure (syms, result.1, result.2)) events s.enteringLambda :=
    hparams.leadsTo fun inner => (h inner).withLoopDepth.withFn.thenChecks.leads
  refine Follows.thenChecks' (Follows.within hinner ?_ (fun hn => hn.enteringLambda) rfl rfl) ?_
  · exact keeps_inScope .lambda (keeps_withLambda (.seq (keeps_declareLocals rfl params) fun _ =>
      .seq (keeps_withFn _ (keeps_withLoopDepth _ hkeeps)).of_nil fun _ => inferInstance))
  · rintro ⟨⟨syms, body, frame⟩, captures⟩
    cases frame <;> infer_instance

/-- An arm is resolved in a frame with the variables of its pattern. -/
theorem follows_bindArm (target : Ty) (p : Ast.Pattern) (range : Range) (hkeeps : Keeps [] body)
    (h : ∀ inner, Follows g inner (q inner) (fun _ => inner) body events
      (after (bindPattern target p) (s.opened .matchArm))) :
    Follows g env (nextPattern >>= fun names => declareAll env.opened names >>= q) (fun _ => env)
      (bindArm target p body range)
      (.pattern (out (bindPattern target p) (s.opened .matchArm)).names :: events) s := by
  generalize hnames : (out (bindPattern target p) (s.opened .matchArm)).names = names
  have hpattern : Follows g env.opened (declareAll env.opened names) id (bindPattern target p) []
      (s.opened .matchArm) := by
    rw [← hnames]
    exact follows_bindPattern target p
  have hinner : Leads g env.opened (declareAll env.opened names >>= q)
      (bindPattern target p >>= fun pattern => body >>= fun body =>
      pure (⟨pattern, body, range⟩ : Bound.Arm))
      events (s.opened .matchArm) := hpattern.leadsTo fun inner => (h inner).thenChecks.leads
  have harm : Follows g env (declareAll env.opened names >>= q) (fun _ => env)
    (bindArm target p body range) events s :=
    .inScope hinner (.seq (keeps_bindPattern target p) fun _ => .seq hkeeps.of_nil fun _ =>
      inferInstance)
  intro n past rest hn
  -- the resolver takes the variables of the pattern from the front of those that are given
  have hpatterns : n.patterns = names :: (patterns events ++ rest) := hn.patterns
  have hnext : nextPattern.run n = (names, { n with patterns := patterns events ++ rest }) := by
    show (n.patterns.headD [], { n with patterns := n.patterns.tail }) = _
    rw [hpatterns]
    rfl
  have hstep :=
    harm { n with patterns := patterns events ++ rest } past rest { hn with patterns := rfl }
  rw [StateT.run_bind, hnext]
  exact hstep

/-- The body of a `for` is resolved in a frame with the loop variable. -/
theorem follows_item (item : Name) (ty : Ty) {body : Binding Bound.Block} (hkeeps : Keeps [] body)
    (h : ∀ inner, Follows g inner (q inner) (fun _ => inner) body events
      (after (declareLocal item (.var false) ty) (s.opened .block))) :
    Follows g env (declare env.opened item.text >>= q) (fun _ => env) (inScope .block do
      let symbol ← declareLocal item (.var false) ty
      let body ← body
      return (symbol, body)) events s := by
  have hitem : Follows g env.opened (declare env.opened item.text) id
    (declareLocal item (.var false) ty) []
      (s.opened .block) := follows_declareLocal item ty rfl
  have hinner : Leads g env.opened (declare env.opened item.text >>= q)
      (declareLocal item (.var false) ty >>= fun symbol => body >>= fun body => pure (symbol, body))
        events
      (s.opened .block) := hitem.leadsTo fun inner => (h inner).thenChecks.leads
  exact .inScope hinner (.seq (keeps_declareLocal item ty rfl) fun _ => .seq hkeeps.of_nil fun _ =>
    inferInstance)

/-! ## Trees -/

theorem follows_finishLet (name : Name) (isMutable : Bool) (annot : Option Ty) (init : Bound.Expr) :
    Follows g env (declare env name.text) id (finishLet name isMutable annot init) [] s := by
  unfold finishLet
  split
  · next ty =>
    have hneutral : Neutral
      (reportUnless (ty.accepts init.ty) init.range (.notAssignable init.ty ty)) :=
      .reportUnless _ _ rfl
    exact .past (follows_declareLocal name _ rfl).thenChecks
  · exact (follows_declareLocal name _ rfl).thenChecks

theorem follows_finishReturn (ty : Ty) (candidate range : Range) :
    Follows g env (pure env) id (finishReturn ty candidate range) [] s := by
  intro n past rest h
  have hneutral : ∀ inside, Neutral (reportUnless inside range .returnOutsideFn) :=
    fun inside => .reportUnless _ _ rfl
  have hnote : InStep g env past rest (after (noteReturn ty candidate) s) n := by
    rw [after_noteReturn]
    exact h.congr rfl rfl rfl rfl rfl rfl
  have hcheck := hnote.checks (reportUnless (out (noteReturn ty candidate) s) range .returnOutsideFn)
  exact (List.append_nil past).symm ▸ hcheck

/-- The name of a call is looked up among the variables first. -/
theorem resolveCalled_eq {n : Progress} (h : InStep g env past rest s n) (name : Name) :
    resolveCalled g env name =
      if (s.scopes.lookup .var s.current name.text).isSome then resolveName g env name
      else refer .callee name (g.declaration? name.text) := by
  rw [resolveCalled, resolveName, h.sees.declared?_eq]
  cases s.scopes.lookup .var s.current name.text <;> rfl

/-- A call: the arguments are bound after the callee, whether that is looked up or bound as a
value. -/
theorem follows_call (origin : Origin) {callee : Ast.Expr} (tyArgs : List TyExpr)
    {args : List Ast.Expr} (expected : Option Ty)
    (hcallee : Follows g env (resolveExpr g env callee) (fun _ => env) (bindExpr none callee)
      (eventsExpr none callee s) s)
    (hargs : ∀ hints u, Follows g env (resolveExprs g env args) (fun _ => env) (bindExprs hints args)
      (eventsExprs hints args u) u) :
    Follows g env (resolveExpr g env (.call origin callee tyArgs args)) (fun _ => env)
      (bindExpr expected (.call origin callee tyArgs args))
      (eventsExpr expected (.call origin callee tyArgs args) s) s := by
  -- the callee is bound as a value
  have hvalue : out (resolveCallee expected callee tyArgs origin.range) s = none →
      after (resolveCallee expected callee tyArgs origin.range) s = s →
      Follows g env (resolveExpr g env callee >>= fun _ => resolveExprs g env args) (fun _ => env)
        (bindExpr expected (.call origin callee tyArgs args))
        (eventsExpr expected (.call origin callee tyArgs args) s) s := by
    intro hout hafter
    have hboth : Follows g env (resolveExpr g env callee >>= fun _ => resolveExprs g env args)
      (fun _ => env) (do
        let value ← bindExpr none callee
        checkValueTyArgs (calleeName callee value.ty) tyArgs origin.range
        let args ← bindExprs (valueHints value.ty) args
        finishValueCall value (calleeName callee value.ty) args origin.range) _ s :=
      hcallee.seq fun _ => .past (hargs _ _).thenChecks
    rw [eventsExpr]
    dsimp only
    rw [hout]
    intro n past rest hn
    rw [bindExpr, after_bind, hout, hafter]
    exact hboth n past rest hn
  by_cases hname : ∃ name, callee = .name name
  · obtain ⟨name, rfl⟩ := hname
    rw [show resolveExpr g env (.call origin (.name name) tyArgs args) =
      resolveCalled g env name >>= fun _ => resolveExprs g env args by rw [resolveExpr]]
    intro n past rest hn
    rw [resolveCalled_eq hn]
    cases hvar : s.scopes.lookup .var s.current name.text with
    | some id =>
      obtain ⟨hout, hafter⟩ := resolveCallee_of_var expected tyArgs origin.range hvar
      exact hvalue hout hafter n past rest hn
    | none =>
      have hout := (resolveCallee_of_none expected tyArgs origin.range hvar).1
      have hboth : Follows g env (refer .callee name (g.declaration? name.text) >>= fun _ =>
        resolveExprs g env args)
          (fun _ => env) (resolveCallee expected (.name name) tyArgs origin.range >>= fun _ => do
            let args ← bindExprs
              (Callee.hints (out (namedCallee expected name tyArgs origin.range) s)) args
            finishCall (out (namedCallee expected name tyArgs origin.range) s) args origin.range) _
              s :=
        (follows_resolveCallee expected tyArgs origin.range hvar).seq fun _ => (hargs _ _).thenChecks
      have hrun : after (bindExpr expected (.call origin (.name name) tyArgs args)) s =
          after (resolveCallee expected (.name name) tyArgs origin.range >>= fun _ => do
            let args ← bindExprs
              (Callee.hints (out (namedCallee expected name tyArgs origin.range) s)) args
            finishCall (out (namedCallee expected name tyArgs origin.range) s) args origin.range)
              s := by
        rw [bindExpr, after_bind, hout]
        rfl
      rw [hrun]
      rw [eventsExpr] at hn ⊢
      dsimp only at hn ⊢
      rw [hout] at hn ⊢
      exact hboth n past rest hn
  · rw [show resolveExpr g env (.call origin callee tyArgs args) =
      resolveExpr g env callee >>= fun _ => resolveExprs g env args by
        rw [resolveExpr]
        exact fun name h => hname ⟨name, h⟩]
    refine hvalue ?_ ?_
    · cases callee with
      | name name => exact absurd ⟨name, rfl⟩ hname
      | _ => rfl
    · cases callee with
      | name name => exact absurd ⟨name, rfl⟩ hname
      | _ => rfl

mutual

/-- Binding an expression resolves its names as the resolver does. -/
theorem follows_bindExpr {env : Env} {s : State} (expected : Option Ty) (e : Ast.Expr) :
    Follows g env (resolveExpr g env e) (fun _ => env) (bindExpr expected e)
      (eventsExpr expected e s) s := by
  match e with
  | .literal .. | .channel .. =>
    rw [bindExpr]
    exact .checks _ rfl
  | .name name => exact follows_nameExpr expected name
  | .binary _ _ left right | .index _ left right =>
    exact (follows_bindExpr none left).seq fun _ => (follows_bindExpr none right).thenChecks
  | .unary _ _ operand | .field _ operand _ => exact (follows_bindExpr none operand).thenChecks
  | .call origin callee tyArgs args =>
    exact follows_call origin tyArgs expected (follows_bindExpr none callee) fun hints u =>
      follows_bindExprs hints args
  | .lambda origin params ret body =>
    rw [resolveExpr]
    refine .past (.past ?_)
    have hlength : (out (resolveTypes (params.map Ast.Param.annot)) s).length = params.length := by
      rw [length_resolveTypes, List.length_map]
    rw [← map_text_zip hlength]
    exact follows_lambdaExpr _ origin.range (keeps_bindExpr _ body) fun inner =>
      follows_bindExpr _ body
  | .record _ type _ fields =>
    rw [eventsExpr]
    refine .past ?_
    rw [out_get]
    dsimp only
    cases s.registry.record? type.text with
    | none => exact .past ((follows_bindUnused fields).thenChecks)
    | some record => exact .past ((follows_bindFields record [] _ fields).thenChecks)
  | .tuple _ elems => exact (follows_bindExprs _ elems).thenChecks
  | .list _ elems => exact (follows_bindEach _ elems).thenChecks
  | .map _ entries => exact (follows_bindEntries _ entries).thenChecks
  | .ifElse _ cond thenBranch none =>
    exact (follows_bindExpr none cond).seq fun _ => .past (follows_bindBlock thenBranch).thenChecks
  | .ifElse _ cond thenBranch (some elseBranch) =>
    exact (follows_bindExpr none cond).seq fun _ => .past ((follows_bindBlock thenBranch).seq fun _ =>
      (follows_bindExpr expected elseBranch).thenChecks)
  | .block block => exact (follows_bindBlock block).thenChecks
  | .matchOn _ scrutinee arms =>
    exact (follows_bindExpr none scrutinee).seq fun _ =>
      (follows_bindArms _ expected .initial arms).thenChecks
  | .spawn _ body => exact .past (follows_bindBlock body).thenChecks
  | .scope _ body =>
    rw [bindExpr_scope_eq]
    exact (follows_bindBlock body).withScopeDepth.thenChecks
  | .par _ inner => exact (follows_bindExpr expected inner).thenChecks

theorem follows_bindExprs {env : Env} {s : State} (hints : List (Option Ty)) (es : List Ast.Expr) :
    Follows g env (resolveExprs g env es) (fun _ => env) (bindExprs hints es)
      (eventsExprs hints es s) s := by
  match es with
  | [] =>
    rw [bindExprs]
    exact .checks _ rfl
  | e :: es => exact (follows_bindExpr _ e).seq fun _ => (follows_bindExprs _ es).thenChecks

theorem follows_bindEach {env : Env} {s : State} (hint : Option Ty) (es : List Ast.Expr) :
    Follows g env (resolveExprs g env es) (fun _ => env) (bindEach hint es) (eventsEach hint es s)
      s := by
  match es with
  | [] =>
    rw [bindEach]
    exact .checks _ rfl
  | e :: es => exact (follows_bindExpr _ e).seq fun _ => (follows_bindEach _ es).thenChecks

theorem follows_bindEntries {env : Env} {s : State} (hint : Option Ty) (entries : List Ast.MapEntry) :
    Follows g env (resolveEntries g env entries) (fun _ => env) (bindEntries hint entries)
      (eventsEntries hint entries s) s := by
  match entries with
  | [] =>
    rw [bindEntries]
    exact .checks _ rfl
  | ⟨_, key, value⟩ :: entries =>
    exact (follows_bindExpr _ key).seq fun _ => .past ((follows_bindExpr _ value).seq fun _ =>
      (follows_bindEntries hint entries).thenChecks)

theorem follows_bindUnused {env : Env} {s : State} (fields : List Ast.FieldInit) :
    Follows g env (resolveFields g env fields) (fun _ => env) (bindUnused fields)
      (eventsUnused fields s) s := by
  match fields with
  | [] =>
    rw [bindUnused]
    exact .checks _ rfl
  | ⟨_, _, value⟩ :: fields =>
    exact (follows_bindExpr none value).seq fun _ => follows_bindUnused fields

theorem follows_bindFields {env : Env} {s : State} (record : RecordDef) (seen : List String)
    (known : Subst)
    (fields : List Ast.FieldInit) :
    Follows g env (resolveFields g env fields) (fun _ => env) (bindFields record seen known fields)
      (eventsFields record seen known fields s) s := by
  match fields with
  | [] =>
    rw [bindFields, resolveFields, eventsFields]
    exact .checks _ rfl
  | ⟨_, name, value⟩ :: fields =>
    rw [bindFields, resolveFields, eventsFields]
    by_cases hseen : seen.contains name.text = true
    · have hneutral : Neutral (report name.range (.fieldRepeated name.text)) := .report _ rfl
      rw [if_pos hseen, if_pos hseen]
      exact .past ((follows_bindExpr none value).seq fun _ => follows_bindFields _ _ _ fields)
    · rw [if_neg hseen, if_neg hseen]
      cases record.fields.get? name.text with
      | none =>
        have hneutral : Neutral (report name.range (.noSuchField record.name name.text)) :=
          .report _ rfl
        exact .past ((follows_bindExpr none value).seq fun _ => follows_bindFields _ _ _ fields)
      | some d =>
        exact (follows_bindExpr _ value).seq fun _ =>
          .past (follows_bindFields _ _ _ fields).thenChecks

theorem follows_bindArms {env : Env} {s : State} (target : Ty) (expected : Option Ty)
    (agreed : ArmTypes)
    (arms : List Ast.Arm) :
    Follows g env (resolveArms g env arms) (fun _ => env) (bindArms target expected agreed arms)
      (eventsArms target expected agreed arms s) s := by
  match arms with
  | [] =>
    rw [bindArms]
    exact .checks _ rfl
  | ⟨origin, pattern, body⟩ :: arms =>
    have harm : Follows g env
        (nextPattern >>= fun names => declareAll env.opened names >>= fun inner =>
        resolveExpr g inner body)
        (fun _ => env)
        (bindArm target pattern (bindExpr (expected <|> agreed.result) body) origin.range) _ s :=
      follows_bindArm target pattern origin.range (keeps_bindExpr _ body) fun inner =>
        follows_bindExpr _ body
    show Follows g env (_ >>= fun _ => resolveArms g env arms) _
      (bindArm target pattern (bindExpr (expected <|> agreed.result) body) origin.range >>= _) _ s
    exact harm.seq fun _ => .past (follows_bindArms target expected _ arms).thenChecks

theorem follows_bindBlock {env : Env} {s : State} (block : Ast.Block) :
    Follows g env (resolveBlock g env block) (fun _ => env) (bindBlock block) (eventsBlock block s)
      s := by
  match block with
  | ⟨_, stmts⟩ =>
    exact (Follows.inScope (follows_bindStmts stmts).leads
      (keeps_bindStmts stmts)).discarding.thenChecks

theorem follows_bindStmts {env : Env} {s : State} (stmts : List Ast.Stmt) :
    Follows g env (resolveStmts g env stmts) id (bindStmts stmts) (eventsStmts stmts s) s := by
  match stmts with
  | [] =>
    rw [bindStmts]
    exact .checks _ rfl
  | stmt :: stmts => exact (follows_bindStmt stmt).seq fun _ => (follows_bindStmts stmts).thenChecks

theorem follows_bindStmt {env : Env} {s : State} (stmt : Ast.Stmt) :
    Follows g env (resolveStmt g env stmt) id (bindStmt stmt) (eventsStmt stmt s) s := by
  match stmt with
  | .bindName _ name isMutable _ init =>
    exact .past ((follows_bindExpr _ init).seqSilent fun _ =>
      (follows_finishLet name isMutable _ _).thenChecks)
  | .assign origin name value =>
    exact (follows_assign origin name (follows_bindExpr _ value)).returning
  | .expr _ value | .print _ value => exact (follows_bindExpr none value).returning.thenChecks
  | .ret _ none => exact (follows_finishReturn _ _ _).thenChecks
  | .ret _ (some value) =>
    exact .past ((follows_bindExpr _ value).seqSilent fun _ => (follows_finishReturn _ _ _).thenChecks)
  | .block block => exact (follows_bindBlock block).returning.thenChecks
  | .whileLoop _ cond body =>
    rw [bindStmt_whileLoop_eq]
    exact (follows_bindExpr none cond).seq fun _ =>
      .past (follows_bindBlock body).withLoopDepth.returning.thenChecks
  | .forLoop _ item iterable body =>
    rw [bindStmt_forLoop_eq]
    exact (follows_bindExpr none iterable).seq fun _ => .past
      (follows_item item _ (keeps_withLoopDepth _ (keeps_bindBlock body)) fun inner =>
        (follows_bindBlock body).withLoopDepth).returning.thenChecks
  | .breakLoop _ | .continueLoop _ | .fn .. | .record .. | .sum .. =>
    rw [bindStmt]
    exact .checks _ rfl

end

end Bindery.Binding
