import Bindery.Proofs.Binding.InSight

/-!
# Binding resolves names by lexical scope

Every step of binding tracks the walk through the tree it binds, whether it reports anything else or
not.
-/

namespace Bindery.Binding

open Lexical

variable {α β : Type}

/-! ## Declarations -/

/-- The step opens no scope, finds no capture and declares no mutable variable. -/
class Declares (m : Binding α) : Prop where
  size (m) : ∀ s, (after m s).scopes.size = s.scopes.size
  findings (m) : ∀ s, (after m s).captureFindings = s.captureFindings
  immutable (m) : ∀ s id sym, (after m s).syms.get? id = some sym →
    s.syms.get? id = some sym ∨ sym.isMutable = false

namespace Declares

instance checks (m : Binding α) [hm : Checks m] : Declares m where
  size s := by
    obtain ⟨fs, -, hs⟩ := hm.after_eq s
    rw [hs]
    rfl
  findings := Checks.captureFindings_eq m
  immutable s id sym h := by
    obtain ⟨fs, -, hs⟩ := hm.after_eq s
    rw [hs] at h
    exact .inl h

theorem seq {m : Binding α} {f : α → Binding β} (hm : Declares m) (hf : ∀ x, Declares (f x)) :
    Declares (m >>= f) where
  size s := ((hf _).size _).trans (hm.size s)
  findings s := ((hf _).findings _).trans (hm.findings s)
  immutable s id sym h := ((hf _).immutable _ id sym h).elim (hm.immutable s id sym) .inr

theorem walks {m : Binding α} (hm : Declares m) (s : State) : Walks .nothing s (after m s) :=
  ⟨(hm.size s).symm, by simp [hm.findings s, Walk.nothing]⟩

end Declares

variable (name : Ast.Name) (kind : SymKind) (ty : Ty)

theorem size_declareLocal (s : State) :
    (after (declareLocal name kind ty) s).scopes.size = s.scopes.size := by
  rw [after_declareLocal]
  split
  · next scopes hdeclare =>
    obtain ⟨sc, -, -, rfl⟩ := Scopes.exists_of_declare_eq_ok hdeclare
    exact Array.size_modify
  · rfl

theorem captureFindings_declareLocal (s : State) :
    (after (declareLocal name kind ty) s).captureFindings = s.captureFindings := by
  rw [after_declareLocal]
  split
  · rfl
  · rw [State.captureFindings_reporting]
    exact List.append_nil _

instance declares_declareLocal : Declares (declareLocal name (.var false) ty) where
  size := size_declareLocal name _ ty
  findings := captureFindings_declareLocal name _ ty
  immutable s id sym h := by
    rw [syms_declareLocal] at h
    rcases Symbols.get?_add_cases h with ⟨-, rfl⟩ | h
    · exact .inr rfl
    · exact .inl h

mutual

theorem declares_bindPattern (target : Ty) (p : Ast.Pattern) : Declares (bindPattern target p) := by
  match p with
  | .literal .. | .wildcard _ | .variant _ _ none =>
    rw [bindPattern]
    infer_instance
  | .name name =>
    refine .seq inferInstance fun s => ?_
    split
    · infer_instance
    · exact .seq inferInstance fun _ => inferInstance
  | .tuple _ elems =>
    exact .seq inferInstance fun tys => .seq (declares_bindPatterns tys elems) inferInstance
  | .variant _ _ (some payload) =>
    exact .seq inferInstance fun resolved => .seq inferInstance fun ty =>
      .seq (declares_bindPattern ty payload) inferInstance

theorem declares_bindPatterns (tys : List Ty) (ps : List Ast.Pattern) :
    Declares (bindPatterns tys ps) := by
  match tys, ps with
  | [], _ | _ :: _, [] =>
    rw [bindPatterns]
    · infer_instance
    · simp
  | ty :: tys, p :: ps =>
    exact .seq (declares_bindPattern ty p) fun p' => .seq (declares_bindPatterns tys ps) inferInstance

end

variable {a : Scopes} {env : Env}

theorem tracks_declareLocal {kind : SymKind} (hlocal : kind.isLocal = true) {isMutable : Bool}
    (hmutable : ∀ id name scope depth, (⟨id, name, kind, ty, scope, depth⟩ : Symbol).isMutable =
      isMutable) :
    Tracks a env .nothing (env.declare isMutable name.text) (declareLocal name kind ty) where
  grows s := ⟨_, (keeps_declareLocal name ty hlocal).grows s⟩
  step s hs hmodels _ := by
    refine ⟨⟨(size_declareLocal name kind ty s).symm, ?_⟩, hmodels.declaring hs name ty hlocal
      hmutable⟩
    simp [captureFindings_declareLocal, Walk.nothing]

theorem tracks_declareLocals (params : List (Ast.Name × Ty)) :
    Tracks a env .nothing (env.declareAll (params.map (·.1.text)))
      (declareLocals .parameter params) := by
  induction params generalizing env with
  | nil => exact .checks (pure [])
  | cons p params ih =>
    obtain ⟨name, ty⟩ := p
    exact (tracks_declareLocal name ty rfl fun _ _ _ _ => rfl).seq fun id => ih.thenChecks

/-! ## Lambdas and arms -/

variable {body : Binding Bound.Expr}

theorem tracks_lambdaExpr {w : Walk} {params : List (Ast.Name × Ty)} (declared : Option Ty)
    (range : Range)
    (h : Tracks a (env.entered.declareAll (params.map (·.1.text))) w
      (env.entered.declareAll (params.map (·.1.text))) body) :
    Tracks a env (.inScope fun _ => w) env (lambdaExpr params declared body range) := by
  have hinner : Tracks a env.entered w (env.entered.declareAll (params.map (·.1.text)))
      (declareLocals .parameter params >>= fun syms =>
        withFn ⟨"<lambda>", declared, [], range⟩ (withLoopDepth (fun _ => 0) body) >>= fun result =>
          pure (syms, result.1, result.2)) :=
    (tracks_declareLocals params).seq fun syms => ((h.withLoopDepth _).withFn _).thenChecks
  refine Tracks.thenChecks' (.inScope_of ⟨fun s => ?_⟩ fun s hs hmodels hsettled => ?_) ?_
  · obtain ⟨own, hg⟩ := hinner.grows s.enteringLambda
    exact hg.withLambda.inScope
  · have henter : s.enteringLambda.Valid := (hs.opened .lambda).entering
    have hsize : s.enteringLambda.scopes.size = s.scopes.size + 1 := Scopes.size_push _ _ _
    obtain ⟨⟨hnext, hfindings⟩, -⟩ := hinner.step s.enteringLambda henter (hmodels.entering hs)
      fun k hk hk' => hsettled k (by omega) hk'
    exact ⟨hnext, hfindings⟩
  · rintro ⟨⟨syms, body, frame⟩, captures⟩
    cases frame <;> infer_instance

/-- The variables of a pattern are in sight from its arm. -/
theorem Models.matching {s : State} (h : Models env s) (hs : s.Valid) (target : Ty) (p : Ast.Pattern)
    (hscope : a.get? s.scopes.size = (after (bindPattern target p) (s.opened .matchArm)).scopes.get?
      s.scopes.size) :
    Models (env.opened.declareAll (patternVars a s.scopes.size p))
      (after (bindPattern target p) (s.opened .matchArm)) := by
  have hopened := hs.opened .matchArm
  have hg := (keeps_bindPattern target p).grows (s.opened .matchArm)
  have himmutable := (declares_bindPattern target p).immutable (s.opened .matchArm)
  have hvalid := hg.valid hopened
  have hchain := hs.chain_opened .matchArm
  have hchain' := Scopes.chain_eq_of_agrees hopened.nested hvalid.nested hg.scopes.agrees
    hopened.current_lt
  generalize after (bindPattern target p) (s.opened .matchArm) = t at *
  obtain ⟨frame, hframe, hlookup⟩ :=
    Env.exists_declareAll (patternVars a s.scopes.size p) [] env.frames env.depth
  rw [show env.opened = ⟨[] :: env.frames, env.depth⟩ from rfl, hframe]
  refine ⟨h.depth.trans (congrArg List.length hg.boundaries.symm), ?_⟩
  rw [hg.current, hchain', hchain]
  refine .cons ?_ ?_
  · obtain ⟨sc, hsc, hgrows⟩ := hg.scopes _ _ (Scopes.get?_push_size s.scopes s.current .matchArm)
    obtain ⟨added, hadded, hentries⟩ := hgrows.varNames
    refine ⟨sc, hsc, fun x => ?_⟩
    rw [hlookup]
    cases hid : sc.varNames.get? x with
    | none =>
      have hx : x ∉ patternVars a s.scopes.size p := by
        simp [patternVars, hscope, hsc, OrderedMap.contains, hid]
      simp [hx]
    | some id =>
      obtain ⟨hown, hnew⟩ :=
        hadded _ ((OrderedMap.get?_append hentries hid).resolve_left (by intro h; cases h))
      have hx : x ∈ patternVars a s.scopes.size p := by
        rw [if_pos (show s.scopes.size = (s.opened .matchArm).current from rfl)] at hown
        exact List.mem_filter.mpr ⟨hown, by simp [hscope, hsc, OrderedMap.contains, hid]⟩
      obtain ⟨sym, hsym, -, hsymScope⟩ := hvalid.var_known _ sc x id hsc hid
      have hmutable : sym.isMutable = false :=
        (himmutable id sym hsym).resolve_left fun hold =>
          absurd (Symbols.get?_eq_some_lt hold) (Nat.not_lt.mpr hnew)
      have hvar : t.localOf? id = some ⟨false, env.depth⟩ := by
        rw [State.localOf?, hsym, Option.bind_some, hsymScope, Option.map_some, hmutable,
          hg.boundaries]
        exact congrArg (fun n => some (Variable.mk false n))
          (hopened.countP_boundaries.trans h.depth.symm)
      simp [hx, hvar]
  · refine h.frames.imp fun frame c hshows => hshows.of_get? hs (fun sc hsc => ?_) ?_
    · have hlt := Scopes.get?_eq_some_lt hsc
      refine hg.scopes.get?_of_ne ?_ (Nat.ne_of_lt hlt)
      exact (Scopes.get?_push_of_lt s.current .matchArm hlt).trans hsc
    · exact fun id sym hsym _ => State.localOf?_eq hg.syms hg.boundaries hsym

theorem tracks_arm (target : Ty) (p : Ast.Pattern) (range : Range) {w : Nat → Walk}
    (hkeeps : Keeps [] body)
    (h : ∀ scope, Tracks a (env.opened.declareAll (patternVars a scope p)) (w scope)
      (env.opened.declareAll (patternVars a scope p)) body) :
    Tracks a env (.inScope w) env (inScope .matchArm do
      let pattern ← bindPattern target p
      let body ← body
      return (⟨pattern, body, range⟩ : Bound.Arm)) := by
  refine .inScope_of ?_ fun s hs hmodels hsettled => ?_
  · exact keeps_inScope .matchArm (.seq (keeps_bindPattern target p) fun _ => .seq hkeeps.of_nil
      fun _ => inferInstance)
  · have hopened := hs.opened .matchArm
    have hp := (keeps_bindPattern target p).grows (s.opened .matchArm)
    have hb := hkeeps.grows (after (bindPattern target p) (s.opened .matchArm))
    have hsize : (s.opened .matchArm).scopes.size = s.scopes.size + 1 := Scopes.size_push _ _ _
    have hle := hp.scopes.size_le
    have hle' := hb.scopes.size_le
    have hscope : a.get? s.scopes.size =
        (after (bindPattern target p) (s.opened .matchArm)).scopes.get? s.scopes.size := by
      obtain ⟨sc, hsc⟩ := Scopes.exists_get?_of_lt (Nat.lt_of_succ_le (hsize ▸ hle))
      rw [hsc, hsettled _ (Nat.le_refl _) (Nat.lt_of_lt_of_le (Scopes.get?_eq_some_lt hsc) hle')]
      exact hb.scopes.get?_of_nil hsc
    have hwalks := (declares_bindPattern target p).walks (s.opened .matchArm)
    have hbody := (h s.scopes.size).step _ (hp.valid hopened) (hmodels.matching hs target p hscope)
      fun k hk hk' => hsettled k (by omega) hk'
    exact hwalks.andThen hbody.1

theorem map_text_zip {params : List Ast.Param} {tys : List Ty} (h : tys.length = params.length) :
    ((params.map Ast.Param.name).zip tys).map (·.1.text) = params.map (·.name.text) := by
  induction params generalizing tys with
  | nil => rfl
  | cons param params ih =>
    cases tys with
    | nil => cases h
    | cons ty tys => simpa using ih (Nat.succ.inj h)

/-! ## Trees -/

theorem tracks_nameExpr (expected : Option Ty) (name : Ast.Name) :
    Tracks a env (.refer env name) env (nameExpr expected name) :=
  (tracks_resolveVar name).thenChecks' fun result => by cases result <;> infer_instance

theorem tracks_finishReturn (candidate range : Range) :
    Tracks a env .nothing env (finishReturn ty candidate range) := by
  have hnote : Tracks a env .nothing env (noteReturn ty candidate) :=
    .of_keeps inferInstance fun s _ _ _ => by
      rw [after_noteReturn]
      exact ⟨rfl, (List.append_nil _).symm⟩
  exact hnote.thenChecks' fun inside => .reportUnless _ _ rfl

theorem tracks_finishLet (isMutable : Bool) (annot : Option Ty) (init : Bound.Expr) :
    Tracks a env .nothing (env.declare isMutable name.text) (finishLet name isMutable annot init) := by
  unfold finishLet
  split
  · have hcheck : ∀ ty : Ty, Checks (reportUnless (ty.accepts init.ty) init.range
        (.notAssignable init.ty ty)) := fun ty => .reportUnless _ _ rfl
    exact .checksThen fun _ => (tracks_declareLocal name _ rfl fun _ _ _ _ => rfl).thenChecks
  · exact (tracks_declareLocal name _ rfl fun _ _ _ _ => rfl).thenChecks

theorem tracks_assignTarget :
    Tracks a env (.refer env name) env (assignTarget name) := (tracks_resolveVar name).thenChecks

mutual

/-- Binding an expression finds the mutable captures of the walk through it. -/
theorem tracks_bindExpr {env : Env} (expected : Option Ty) (e : Ast.Expr) :
    Tracks a env (walkExpr a env e) env (bindExpr expected e) := by
  match e with
  | .literal .. | .channel .. =>
    rw [bindExpr]
    exact .checks _
  | .name name => exact tracks_nameExpr expected name
  | .binary _ _ left right | .index _ left right =>
    exact (tracks_bindExpr none left).seq fun _ => (tracks_bindExpr none right).thenChecks
  | .unary _ _ operand | .field _ operand _ => exact (tracks_bindExpr none operand).thenChecks
  | .call origin callee tyArgs args =>
    rw [walkExpr]
    have hvalue : Tracks a env ((walkExpr a env callee).andThen (walkExprs a env args)) env (do
        let value ← bindExpr none callee
        let name := calleeName callee value.ty
        checkValueTyArgs name tyArgs origin.range
        let args ← bindExprs (valueHints value.ty) args
        finishValueCall value name args origin.range) :=
      (tracks_bindExpr none callee).seq fun _ => .checksThen fun _ =>
        (tracks_bindExprs _ args).thenChecks
    have hnamed : ∀ target, Tracks a env (walkExprs a env args) env (do
        let args ← bindExprs (Callee.hints target) args
        finishCall target args origin.range) := fun target => (tracks_bindExprs _ args).thenChecks
    refine .checksBind (fun result => ?_) fun s hs hmodels => ?_
    · cases result with
      | none => exact hvalue.grows
      | some target => exact (hnamed target).grows
    · cases hresult : out (resolveCallee expected callee tyArgs origin.range) s with
      | none => exact hvalue
      | some target =>
        -- The walk through a name that is no variable meets nothing.
        obtain ⟨name, rfl, hlookup⟩ := exists_of_resolveCallee hresult
        have hnothing : walkExpr a env (.name name) = .nothing := by
          rw [walkExpr, Walk.refer_of_none]
          rw [hmodels.lookup_eq hs, hlookup]
          rfl
        rw [hnothing]
        exact hnamed target
  | .lambda origin params ret body =>
    refine .checksBind (fun tys s => ⟨[], ?_⟩) fun s _ _ => .checksThen fun declared => ?_
    · exact (Keeps.seq inferInstance fun declared =>
        keeps_lambdaExpr _ _ _ (keeps_bindExpr declared body)).grows s
    · have hlength : (out (resolveTypes (params.map Ast.Param.annot)) s).length = params.length := by
        rw [length_resolveTypes, List.length_map]
      refine tracks_lambdaExpr declared origin.range ?_
      rw [map_text_zip hlength]
      exact tracks_bindExpr declared body
  | .record _ _ _ fields =>
    refine .checksThen fun s => ?_
    split
    · exact .checksThen fun _ => (tracks_bindUnused fields).thenChecks
    · next record _ =>
      exact .checksThen fun known => (tracks_bindFields record [] known fields).thenChecks
  | .tuple _ elems => exact (tracks_bindExprs _ elems).thenChecks
  | .list _ elems =>
    rw [bindExpr_list]
    exact (tracks_bindExprs _ elems).thenChecks
  | .map _ entries => exact (tracks_bindEntries _ entries).thenChecks
  | .ifElse _ cond thenBranch none =>
    exact (tracks_bindExpr none cond).seq fun _ => .checksThen fun _ =>
      (tracks_bindBlock thenBranch).thenChecks
  | .ifElse _ cond thenBranch (some elseBranch) =>
    exact (tracks_bindExpr none cond).seq fun _ => .checksThen fun _ =>
      (tracks_bindBlock thenBranch).seq fun _ => (tracks_bindExpr expected elseBranch).thenChecks
  | .block block => exact (tracks_bindBlock block).thenChecks
  | .matchOn _ scrutinee arms =>
    exact (tracks_bindExpr none scrutinee).seq fun e =>
      (tracks_bindArms e.ty expected .initial arms).thenChecks
  | .spawn _ body => exact .checksThen fun _ => (tracks_bindBlock body).thenChecks
  | .scope _ body =>
    rw [bindExpr_scope_eq]
    exact ((tracks_bindBlock body).withScopeDepth _).thenChecks
  | .par _ inner => exact (tracks_bindExpr expected inner).thenChecks

theorem tracks_bindExprs {env : Env} (hints : List (Option Ty)) (es : List Ast.Expr) :
    Tracks a env (walkExprs a env es) env (bindExprs hints es) := by
  match es with
  | [] =>
    rw [bindExprs]
    exact .checks _
  | e :: es => exact (tracks_bindExpr _ e).seq fun _ => (tracks_bindExprs _ es).thenChecks

theorem tracks_bindEntries {env : Env} (hint : Option Ty) (entries : List Ast.MapEntry) :
    Tracks a env (walkEntries a env entries) env (bindEntries hint entries) := by
  match entries with
  | [] =>
    rw [bindEntries]
    exact .checks _
  | ⟨_, key, value⟩ :: entries =>
    exact (tracks_bindExpr _ key).seq fun _ => .checksThen fun _ => (tracks_bindExpr _ value).seq
      fun _ =>
      (tracks_bindEntries hint entries).thenChecks

theorem tracks_bindUnused {env : Env} (fields : List Ast.FieldInit) :
    Tracks a env (walkFields a env fields) env (bindUnused fields) := by
  match fields with
  | [] =>
    rw [bindUnused]
    exact .checks _
  | ⟨_, _, value⟩ :: fields => exact (tracks_bindExpr none value).seq fun _ => tracks_bindUnused fields

theorem tracks_bindFields {env : Env} (record : RecordDef) (seen : List String) (known : Subst)
    (fields : List Ast.FieldInit) :
    Tracks a env (walkFields a env fields) env (bindFields record seen known fields) := by
  match fields with
  | [] =>
    rw [bindFields]
    exact .checks _
  | ⟨_, _, value⟩ :: fields =>
    rw [bindFields]
    split
    · exact .reportThen rfl fun _ => (tracks_bindExpr none value).seq fun _ =>
        tracks_bindFields _ _ _ fields
    · split
      · exact .reportThen rfl fun _ => (tracks_bindExpr none value).seq fun _ =>
          tracks_bindFields _ _ _ fields
      · exact (tracks_bindExpr _ value).seq fun _ => .checksThen fun _ =>
          (tracks_bindFields _ _ _ fields).thenChecks

theorem tracks_bindArms {env : Env} (target : Ty) (expected : Option Ty) (agreed : ArmTypes)
    (arms : List Ast.Arm) :
    Tracks a env (walkArms a env arms) env (bindArms target expected agreed arms) := by
  match arms with
  | [] =>
    rw [bindArms]
    exact .checks _
  | ⟨origin, pattern, body⟩ :: arms =>
    exact (tracks_arm target pattern origin.range (keeps_bindExpr _ body) fun scope =>
      tracks_bindExpr _ body).seq fun arm => .checksThen fun agreed =>
        (tracks_bindArms target expected agreed arms).thenChecks

theorem tracks_bindBlock {env : Env} (block : Ast.Block) :
    Tracks a env (walkBlock a env block) env (bindBlock block) := by
  match block with
  | ⟨_, stmts⟩ =>
    obtain ⟨env', h⟩ := tracks_bindStmts stmts
    exact (h.inScope .block).thenChecks

theorem tracks_bindStmts {env : Env} (stmts : List Ast.Stmt) :
    ∃ env', Tracks a env (walkStmts a env stmts) env' (bindStmts stmts) := by
  match stmts with
  | [] =>
    rw [bindStmts]
    exact ⟨env, .checks _⟩
  | stmt :: stmts =>
    obtain ⟨env', h⟩ := tracks_bindStmts stmts
    exact ⟨env', (tracks_bindStmt stmt).seq fun _ => h.thenChecks⟩

theorem tracks_bindStmt {env : Env} (stmt : Ast.Stmt) :
    Tracks a env (walkStmt a env stmt) (env.after stmt) (bindStmt stmt) := by
  match stmt with
  | .bindName _ name isMutable _ init =>
    rw [walkStmt, ← Walk.andThen_nothing (walkExpr a env init)]
    exact .checksThen fun declared => (tracks_bindExpr declared init).seq fun e =>
      (tracks_finishLet name isMutable declared e).thenChecks
  | .assign _ name value =>
    exact (tracks_assignTarget name).seq fun _ => (tracks_bindExpr _ value).thenChecks
  | .expr _ value | .print _ value => exact (tracks_bindExpr none value).thenChecks
  | .ret _ none => exact (tracks_finishReturn _ _ _).thenChecks
  | .ret origin (some value) =>
    rw [walkStmt, ← Walk.andThen_nothing (walkExpr a env value)]
    exact .checksThen fun declared => (tracks_bindExpr declared value).seq fun e =>
      (tracks_finishReturn e.ty e.range origin.range).thenChecks
  | .block block => exact (tracks_bindBlock block).thenChecks
  | .whileLoop _ cond body =>
    rw [bindStmt_whileLoop_eq]
    exact (tracks_bindExpr none cond).seq fun _ => .checksThen fun _ =>
      ((tracks_bindBlock body).withLoopDepth _).thenChecks
  | .forLoop _ item iterable body =>
    rw [bindStmt_forLoop_eq]
    refine (tracks_bindExpr none iterable).seq fun e => .checksThen fun ty => ?_
    exact ((tracks_declareLocal item ty rfl fun _ _ _ _ => rfl).seq fun symbol =>
      ((tracks_bindBlock body).withLoopDepth (· + 1)).thenChecks).inScope .block |>.thenChecks
  | .breakLoop _ | .continueLoop _ | .fn .. | .record .. | .sum .. =>
    rw [bindStmt]
    exact .checks _

end

end Bindery.Binding
