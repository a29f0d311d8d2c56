import Bindery.Proofs.Binding.Rules

/-!
# The parts of a quiet node

One inversion lemma for each kind of node of the syntax tree. It names the bound parts of the node,
the quiet steps that bound them and the states between those steps, and what the rule for that kind
of node has checked. Inductions over the syntax tree take a node apart with these lemmas and never
unfold binding.
-/

namespace Bindery.Binding.Quiet

open Bindery.Bound
open Ast (Name TyExpr Param)

variable {Γ : Symbols} {s t : State} {expected : Option Ty} {origin : Origin}

/-! ## Lists of nodes -/

variable {hint : Option Ty} {cond : Ast.Expr} {name : Name} {body : Ast.Block} {value : Ast.Expr}
    {result : Option Stmt} {b : Expr} {bs : List Expr}

variable {hints : List (Option Ty)} {entries : List Ast.MapEntry} {record : RecordDef} {known : Subst}
  {seen : List String} {fields : List Ast.FieldInit} {agreed : ArmTypes} {arms : List Ast.Arm}
  {stmts : List Ast.Stmt} {stmt : Ast.Stmt} {tyArgs : List TyExpr}
  {elems : List Ast.Expr} {thenBranch block : Ast.Block}

theorem bindExprs_nil (h : Quiet Γ (bindExprs hints []) s bs t) : bs = [] ∧ t = s := h.pure

theorem bindExprs_cons {e : Ast.Expr} {es : List Ast.Expr}
    (h : Quiet Γ (bindExprs hints (e :: es)) s bs t) :
    ∃ b bs' u, Quiet Γ (bindExpr hints.head?.join e) s b u ∧ Quiet Γ (bindExprs hints.tail es) u bs'
      t ∧
      bs = b :: bs' := by
  obtain ⟨b, u, hfirst, hrest⟩ := h.bind
  obtain ⟨bs', htail, rfl⟩ := hrest.bind_pure
  exact ⟨b, bs', u, hfirst, htail, rfl⟩

theorem bindEntries_nil {bs : List Entry} (h : Quiet Γ (bindEntries hint []) s bs t) :
    bs = [] ∧ t = s := h.pure

theorem bindEntries_cons {key : Ast.Expr} {bs : List Entry}
    (h : Quiet Γ (bindEntries hint (⟨origin, key, value⟩ :: entries)) s bs t) :
    ∃ k v bs' u w, Quiet Γ (bindExpr (some .string) key) s k u ∧ Quiet Γ (bindExpr hint value) u v w ∧
      Quiet Γ (bindEntries hint entries) w bs' t ∧ bs = ⟨k, v⟩ :: bs' ∧
      (k.ty ≠ .error → k.ty = .string) := by
  obtain ⟨k, u, hkey, hrest⟩ := h.bind
  obtain ⟨_, _, hcheck, hrest'⟩ := hrest.bind
  obtain ⟨rfl, hstring⟩ := hcheck.checkKey
  obtain ⟨v, w, hvalue, hrest''⟩ := hrest'.bind
  obtain ⟨bs', htail, rfl⟩ := hrest''.bind_pure
  exact ⟨k, v, bs', _, w, hkey, hvalue, htail, rfl, hstring⟩

theorem bindFields_nil {result : List FieldValue × Subst}
    (h : Quiet Γ (bindFields record seen known []) s result t) : result = ([], known) ∧ t = s := h.pure

theorem bindFields_cons {result : List FieldValue × Subst}
    (h : Quiet Γ (bindFields record seen known (⟨origin, name, value⟩ :: fields)) s result t) :
    name.text ∉ seen ∧ ∃ d v values known' u, record.fields.get? name.text = some d ∧
      Quiet Γ (bindExpr (closedHint (d.ty.subst known)) value) s v u ∧
      (d.ty.subst (d.ty.infer v.ty known)).accepts v.ty = true ∧
      Quiet Γ (bindFields record (name.text :: seen) (d.ty.infer v.ty known) fields) u
        (values, known') t ∧
      result = (⟨d.symbol, v⟩ :: values, known') := by
  rw [Binding.bindFields] at h
  split at h
  · exact absurd h not_report_bind
  · next hseen =>
    refine ⟨by simpa using hseen, ?_⟩
    split at h
    · exact absurd h not_report_bind
    · next d hd =>
      obtain ⟨v, u, hvalue, hrest⟩ := h.bind
      obtain ⟨_, _, hcheck, hrest'⟩ := hrest.bind
      obtain ⟨rfl, rfl, haccepts⟩ := hcheck.checkField
      obtain ⟨⟨values, known'⟩, htail, rfl⟩ := hrest'.bind_pure
      exact ⟨d, v, values, known', _, hd, hvalue, haccepts, htail, rfl⟩

theorem bindArms_nil {target : Ty} {result : List Arm × ArmTypes}
    (h : Quiet Γ (bindArms target expected agreed []) s result t) : result = ([], agreed) ∧ t = s :=
      h.pure

theorem bindArms_cons {target : Ty} {pattern : Ast.Pattern} {body : Ast.Expr}
    {result : List Arm × ArmTypes}
    (h : Quiet Γ (bindArms target expected agreed (⟨origin, pattern, body⟩ :: arms)) s result t) :
    ∃ p b u v agreed' arms' agreed'', Quiet Γ (bindPattern target pattern) (s.opened .matchArm) p u ∧
      Quiet Γ (bindExpr (expected <|> agreed.result) body) u b v ∧
      Quiet Γ (Binding.noteArm agreed b) (v.at s.current) agreed' (v.at s.current) ∧
      Quiet Γ (bindArms target expected agreed' arms) (v.at s.current) (arms', agreed'') t ∧
      result = (⟨p, b, origin.range⟩ :: arms', agreed'') := by
  obtain ⟨arm, _, hscope, hrest⟩ := h.bind
  obtain ⟨v, harm, rfl⟩ := hscope.inScope
  obtain ⟨p, u, hpattern, harm⟩ := harm.bind
  obtain ⟨b, hbody, rfl⟩ := harm.bind_pure
  obtain ⟨agreed', _, hnote, hrest'⟩ := hrest.bind
  obtain ⟨rfl, -⟩ := hnote.noteArm
  obtain ⟨⟨arms', agreed''⟩, htail, rfl⟩ := hrest'.bind_pure
  exact ⟨p, b, u, _, agreed', arms', agreed'', hpattern, hbody, hnote, htail, rfl⟩

theorem bindStmts_nil {bs : List Stmt} (h : Quiet Γ (bindStmts []) s bs t) : bs = [] ∧ t = s := h.pure

theorem bindStmts_cons {bs : List Stmt} (h : Quiet Γ (bindStmts (stmt :: stmts)) s bs t) :
    ∃ b bs' u, Quiet Γ (bindStmt stmt) s b u ∧ Quiet Γ (bindStmts stmts) u bs' t ∧ bs = b.toList ++
      bs' := by
  obtain ⟨b, u, hfirst, hrest⟩ := h.bind
  obtain ⟨bs', htail, rfl⟩ := hrest.bind_pure
  exact ⟨b, bs', u, hfirst, htail, rfl⟩

theorem bindBlock_mk {b : Block} (h : Quiet Γ (bindBlock ⟨origin, stmts⟩) s b t) :
    ∃ bs u, Quiet Γ (bindStmts stmts) (s.opened .block) bs u ∧ t = u.at s.current ∧
      b = .ofStatements bs origin.range := by
  obtain ⟨bs, hscope, rfl⟩ := h.bind_pure
  obtain ⟨u, hstmts, rfl⟩ := hscope.inScope
  exact ⟨bs, u, hstmts, rfl, rfl⟩

/-! ## Expressions -/

theorem bindExpr_literal {value : Literal}
    (h : Quiet Γ (bindExpr expected (.literal origin value)) s b t) :
    b = ⟨.literal value, value.ty, origin.range⟩ ∧ t = s := h.pure

theorem bindExpr_name (h : Quiet Γ (bindExpr expected (.name name)) s b t) :
    Quiet Γ (Binding.nameExpr expected name) s b t := h

theorem bindExpr_binary {op : BinaryOp} {left right : Ast.Expr}
    (h : Quiet Γ (bindExpr expected (.binary origin op left right)) s b t) :
    ∃ l r u ty, Quiet Γ (bindExpr none left) s l u ∧ Quiet Γ (bindExpr none right) u r t ∧
      b = ⟨.binary op l r, ty, origin.range⟩ ∧
      (l.ty ≠ .error → r.ty ≠ .error → op.resultTy? l.ty r.ty = some ty) := by
  obtain ⟨l, u, hleft, hrest⟩ := h.bind
  obtain ⟨r, _, hright, hfinish⟩ := hrest.bind
  obtain ⟨rfl, ty, rfl, hty⟩ := hfinish.binaryExpr
  exact ⟨l, r, u, ty, hleft, hright, rfl, hty⟩

theorem bindExpr_unary {op : UnaryOp} {operand : Ast.Expr}
    (h : Quiet Γ (bindExpr expected (.unary origin op operand)) s b t) :
    ∃ e ty, Quiet Γ (bindExpr none operand) s e t ∧ b = ⟨.unary op e, ty, origin.range⟩ ∧
      (e.ty ≠ .error → op.resultTy? e.ty = some ty) := by
  obtain ⟨e, _, hoperand, hfinish⟩ := h.bind
  obtain ⟨rfl, ty, rfl, hty⟩ := hfinish.unaryExpr
  exact ⟨e, ty, hoperand, rfl, hty⟩

/-- A call by a name that is no variable, or a call of a value. -/
theorem bindExpr_call {callee : Ast.Expr} {args : List Ast.Expr}
    (h : Quiet Γ (bindExpr expected (.call origin callee tyArgs args)) s b t) :
    (∃ name target bs, callee = .name name ∧
        s.scopes.lookup .var s.current name.text = none ∧
        Quiet Γ (Binding.namedCallee expected name tyArgs origin.range) s target s ∧
        Quiet Γ (bindExprs target.hints args) s bs t ∧
        Quiet Γ (finishCall target bs origin.range) t b t) ∨
      ∃ value u bs ty, (∀ name, callee = .name name → s.scopes.lookup .var s.current name.text ≠
      none) ∧
        Quiet Γ (bindExpr none callee) s value u ∧
        Quiet Γ (bindExprs (valueHints value.ty) args) u bs t ∧
        Quiet Γ (Binding.valueCallTy value (calleeName callee value.ty) bs origin.range) t ty t ∧
        b = ⟨.callValue value bs, ty, origin.range⟩ := by
  obtain ⟨target, u, hresolve, hrest⟩ := h.seq (by intro target; cases target <;> infer_instance)
  rcases hresolve.resolveCallee with ⟨name, target, rfl, hvar, hnamed, rfl⟩ | ⟨rfl, hu, hvalue⟩
  · left
    obtain ⟨bs, _, hargs, hfinish⟩ := hrest.bind
    obtain rfl := hnamed.checks.2
    obtain rfl := hfinish.checks.2
    exact ⟨name, target, bs, rfl, hvar, hnamed, hargs, hfinish⟩
  · right
    subst hu
    obtain ⟨value, u, hcallee, hrest'⟩ := hrest.bind
    obtain ⟨_, _, hcheck, hrest''⟩ := hrest'.bind
    obtain rfl := hcheck.checkValueTyArgs
    obtain ⟨bs, _, hargs, hfinish⟩ := hrest''.bind
    obtain ⟨ty, hty, rfl⟩ := hfinish.finishValueCall
    obtain rfl := hty.checks.2
    exact ⟨value, _, bs, ty, hvalue, hcallee, hargs, hty, rfl⟩

theorem bindExpr_lambda {params : List Param} {ret : Option TyExpr} {body : Ast.Expr}
    (h : Quiet Γ (bindExpr expected (.lambda origin params ret body)) s b t) :
    ∃ tys declared, Quiet Γ (resolveTypes (params.map Param.annot)) s tys s ∧
      Quiet Γ (resolveType? ret) s declared s ∧
      Quiet Γ (Binding.lambdaExpr ((params.map Param.name).zip tys) declared
        (bindExpr declared body) origin.range) s b t := by
  obtain ⟨tys, _, htys, hrest⟩ := h.bind
  obtain rfl := htys.checks.2
  obtain ⟨declared, _, hdeclared, hlambda⟩ := hrest.bind
  obtain rfl := hdeclared.checks.2
  exact ⟨tys, declared, htys, hdeclared, hlambda⟩

theorem bindExpr_record {type : Name}
    (h : Quiet Γ (bindExpr expected (.record origin type tyArgs fields)) s b t) :
    ∃ record known values known', s.registry.record? type.text = some record ∧
      Quiet Γ (recordArgs expected record type tyArgs) s known s ∧
      Quiet Γ (bindFields record [] known fields) s (values, known') t ∧
      (∀ field ∈ record.fields.keys, field ∈ fields.map fun f => f.name.text) ∧
      b = ⟨.record values, .record record.name (known'.instantiate record.tyParams),
      origin.range⟩ := by
  have h' := h.read rfl
  split at h'
  · next hnone =>
    obtain ⟨_, _, hreport, -⟩ := h'.bind
    exact absurd hreport not_reportNotARecord
  · next record hrecord =>
    obtain ⟨known, _, hargs, hrest⟩ := h'.bind
    obtain rfl := hargs.checks.2
    obtain ⟨⟨values, known'⟩, _, hfields, hrest'⟩ := hrest.bind
    obtain ⟨_, hmissing, rfl⟩ := hrest'.bind_pure
    obtain ⟨rfl, hgiven⟩ := hmissing.checkMissing
    exact ⟨record, known, values, known', hrecord, hargs, hfields, hgiven, rfl⟩

theorem bindExpr_field {target : Ast.Expr}
    (h : Quiet Γ (bindExpr expected (.field origin target name)) s b t) :
    ∃ e field ty, Quiet Γ (bindExpr none target) s e t ∧ b = ⟨.field e field, ty, origin.range⟩ ∧
      (e.ty ≠ .error → ∃ record args symbol, e.ty = .record record args ∧
        fieldOf? t.registry record name.text args = some (symbol, ty) ∧ field = some symbol) := by
  obtain ⟨e, _, htarget, hfinish⟩ := h.bind
  obtain ⟨rfl, field, ty, rfl, hty⟩ := hfinish.fieldExpr
  exact ⟨e, field, ty, htarget, rfl, hty⟩

theorem bindExpr_tuple (h : Quiet Γ (bindExpr expected (.tuple origin elems)) s b t) :
    ∃ bs, Quiet Γ (bindExprs (tupleHints expected elems.length) elems) s bs t ∧
      b = ⟨.tuple bs, .tuple (bs.map Expr.ty), origin.range⟩ := by
  obtain ⟨bs, helems, rfl⟩ := h.bind_pure
  exact ⟨bs, helems, rfl⟩

theorem bindExpr_list (h : Quiet Γ (bindExpr expected (.list origin elems)) s b t) :
    ∃ bs, Quiet Γ (bindExprs (List.replicate elems.length (elementHint .list expected)) elems) s bs t ∧
      Quiet Γ (Binding.listExpr (elementHint .list expected) bs origin.range) t b t := by
  rw [Binding.bindExpr_list] at h
  obtain ⟨bs, _, helems, hfinish⟩ := h.bind
  obtain rfl := hfinish.checks.2
  exact ⟨bs, helems, hfinish⟩

theorem bindExpr_map (h : Quiet Γ (bindExpr expected (.map origin entries)) s b t) :
    ∃ bs, Quiet Γ (bindEntries (elementHint .map expected) entries) s bs t ∧
      Quiet Γ (Binding.mapExpr (elementHint .map expected) bs origin.range) t b t := by
  obtain ⟨bs, _, hentries, hfinish⟩ := h.bind
  obtain rfl := hfinish.checks.2
  exact ⟨bs, hentries, hfinish⟩

theorem bindExpr_index {target index : Ast.Expr}
    (h : Quiet Γ (bindExpr expected (.index origin target index)) s b t) :
    ∃ e i u ty, Quiet Γ (bindExpr none target) s e u ∧ Quiet Γ (bindExpr none index) u i t ∧
      b = ⟨.index e i, ty, origin.range⟩ ∧
      (e.ty ≠ .error → i.ty ≠ .error → indexedTy? e.ty i.ty = some ty) := by
  obtain ⟨e, u, htarget, hrest⟩ := h.bind
  obtain ⟨i, _, hindex, hfinish⟩ := hrest.bind
  obtain ⟨rfl, ty, rfl, hty⟩ := hfinish.indexExpr
  exact ⟨e, i, u, ty, htarget, hindex, rfl, hty⟩

theorem bindExpr_if (h : Quiet Γ (bindExpr expected (.ifElse origin cond thenBranch none)) s b t) :
    ∃ c block u, Quiet Γ (bindExpr none cond) s c u ∧ (c.ty ≠ .error → c.ty = .bool) ∧
      Quiet Γ (bindBlock thenBranch) u block t ∧ b = ⟨.ifElse c block none, .unit, origin.range⟩ := by
  obtain ⟨c, u, hcond, hrest⟩ := h.bind
  obtain ⟨_, _, hcheck, hrest'⟩ := hrest.bind
  obtain ⟨rfl, hbool⟩ := hcheck.checkCondition
  obtain ⟨block, _, hthen, hfinish⟩ := hrest'.bind
  obtain ⟨rfl, ty, rfl, hunit, -⟩ := hfinish.ifExpr
  obtain rfl := hunit rfl
  exact ⟨c, block, _, hcond, hbool, hthen, rfl⟩

theorem bindExpr_ifElse {elseBranch : Ast.Expr}
    (h : Quiet Γ (bindExpr expected (.ifElse origin cond thenBranch (some elseBranch))) s b t) :
    ∃ c block e u v ty, Quiet Γ (bindExpr none cond) s c u ∧ (c.ty ≠ .error → c.ty = .bool) ∧
      Quiet Γ (bindBlock thenBranch) u block v ∧ Quiet Γ (bindExpr expected elseBranch) v e t ∧
      Quiet Γ (Binding.branchTy block e origin.range) t ty t ∧
      b = ⟨.ifElse c block (some e), ty, origin.range⟩ := by
  obtain ⟨c, u, hcond, hrest⟩ := h.bind
  obtain ⟨_, _, hcheck, hrest'⟩ := hrest.bind
  obtain ⟨rfl, hbool⟩ := hcheck.checkCondition
  obtain ⟨block, v, hthen, hrest''⟩ := hrest'.bind
  obtain ⟨e, _, helse, hfinish⟩ := hrest''.bind
  obtain ⟨rfl, ty, rfl, -, hty⟩ := hfinish.ifExpr
  exact ⟨c, block, e, _, v, ty, hcond, hbool, hthen, helse, hty e rfl, rfl⟩

theorem bindExpr_block (h : Quiet Γ (bindExpr expected (.block block)) s b t) :
    ∃ b', Quiet Γ (bindBlock block) s b' t ∧ b = ⟨.block b', b'.ty, block.range⟩ := by
  obtain ⟨b', hblock, rfl⟩ := h.bind_pure
  exact ⟨b', hblock, rfl⟩

theorem bindExpr_matchOn {scrutinee : Ast.Expr}
    (h : Quiet Γ (bindExpr expected (.matchOn origin scrutinee arms)) s b t) :
    ∃ e arms' agreed u, Quiet Γ (bindExpr none scrutinee) s e u ∧
      Quiet Γ (bindArms e.ty expected .initial arms) u (arms', agreed) t ∧
      b = ⟨.matchOn e arms', agreed.ty, origin.range⟩ ∧
      checkMatch t.registry e.ty (arms'.map Arm.pattern) origin.range = [] := by
  obtain ⟨e, u, hscrutinee, hrest⟩ := h.bind
  obtain ⟨⟨arms', agreed⟩, _, harms, hfinish⟩ := hrest.bind
  obtain ⟨rfl, rfl, hcheck⟩ := hfinish.matchExpr
  exact ⟨e, arms', agreed, u, hscrutinee, harms, rfl, hcheck⟩

theorem bindExpr_spawn (h : Quiet Γ (bindExpr expected (.spawn origin body)) s b t) :
    ∃ b', Quiet Γ (bindBlock body) s b' t ∧ b = ⟨.spawn b', .task b'.ty, origin.range⟩ := by
  obtain ⟨_, _, hcheck, hrest⟩ := h.bind
  obtain rfl := hcheck.checks.2
  obtain ⟨b', hbody, rfl⟩ := hrest.bind_pure
  exact ⟨b', hbody, rfl⟩

theorem bindExpr_scope (h : Quiet Γ (bindExpr expected (.scope origin body)) s b t) :
    ∃ b' u, Quiet Γ (bindBlock body) (s.inScopeBlocks (s.scopeDepth + 1)) b' u ∧
      t = u.inScopeBlocks s.scopeDepth ∧ b = ⟨.scope b', b'.ty, origin.range⟩ := by
  rw [bindExpr_scope_eq] at h
  obtain ⟨b', hscope, rfl⟩ := h.bind_pure
  obtain ⟨u, hbody, rfl⟩ := hscope.withScopeDepth
  exact ⟨b', u, hbody, rfl, rfl⟩

theorem bindExpr_channel {element : TyExpr}
    (h : Quiet Γ (bindExpr expected (.channel origin element)) s b t) :
    ∃ ty, Quiet Γ (resolveType element) s ty s ∧ t = s ∧
      b = ⟨.channel ty, .tuple [.sender ty, .receiver ty], origin.range⟩ := by
  obtain ⟨ty, helement, rfl⟩ := h.bind_pure
  obtain rfl := helement.checks.2
  exact ⟨ty, helement, rfl, rfl⟩

theorem bindExpr_par {inner : Ast.Expr} (h : Quiet Γ (bindExpr expected (.par origin inner)) s b t) :
    ∃ e, Quiet Γ (bindExpr expected inner) s e t ∧ b = ⟨.par e, e.ty, origin.range⟩ := by
  obtain ⟨e, hinner, rfl⟩ := h.bind_pure
  exact ⟨e, hinner, rfl⟩

/-! ## Statements -/

theorem bindStmt_bindName {isMutable : Bool} {annot : Option TyExpr} {init : Ast.Expr}
    (h : Quiet Γ (bindStmt (.bindName origin name isMutable annot init)) s result t) :
    ∃ declared e symbol u, Quiet Γ (resolveType? annot) s declared s ∧
      Quiet Γ (bindExpr declared init) s e u ∧
      Quiet Γ (Binding.declareLocal name (.var isMutable) (declared.getD e.ty)) u symbol t ∧
      (∀ ty, declared = some ty → ty.accepts e.ty = true) ∧
      result = some ⟨.bindName symbol e, origin.range⟩ := by
  obtain ⟨declared, _, hdeclared, hrest⟩ := h.bind
  obtain rfl := hdeclared.checks.2
  obtain ⟨e, u, hinit, hrest'⟩ := hrest.bind
  obtain ⟨kind, hfinish, rfl⟩ := hrest'.bind_pure
  obtain ⟨symbol, hlocal, rfl, haccepts⟩ := hfinish.finishLet
  exact ⟨declared, e, symbol, u, hdeclared, hinit, hlocal, haccepts, rfl⟩

theorem bindStmt_assign (h : Quiet Γ (bindStmt (.assign origin name value)) s result t) :
    ∃ symbol sym e u, Quiet Γ (Binding.resolveVar name) s (some symbol) u ∧
      u.syms.get? symbol = some sym ∧ sym.isMutable = true ∧
      Quiet Γ (bindExpr (some sym.ty) value) u e t ∧ sym.ty.accepts e.ty = true ∧
      result = some ⟨.assign (some symbol) e, origin.range⟩ := by
  obtain ⟨⟨symbol, target⟩, u, htarget, hrest⟩ := h.bind
  obtain ⟨e, _, hvalue, hrest'⟩ := hrest.bind
  obtain ⟨_, hfinish, rfl⟩ := hrest'.bind_pure
  obtain ⟨hresolve, htarget⟩ := htarget.assignTarget
  obtain ⟨rfl, ty, rfl, haccepts⟩ := hfinish.finishAssign
  obtain ⟨sym, hsym, heq⟩ := Option.map_eq_some_iff.mp htarget.symm
  obtain ⟨symbol, rfl, hget⟩ := Option.bind_eq_some_iff.mp hsym
  obtain ⟨rfl, hmutable⟩ := Prod.mk.inj heq
  exact ⟨symbol, sym, e, u, hresolve, hget, hmutable, hvalue, haccepts, rfl⟩

theorem bindStmt_expr (h : Quiet Γ (bindStmt (.expr origin value)) s result t) :
    ∃ e, Quiet Γ (bindExpr none value) s e t ∧ result = some ⟨.expr e, origin.range⟩ := by
  obtain ⟨e, hvalue, rfl⟩ := h.bind_pure
  exact ⟨e, hvalue, rfl⟩

theorem bindStmt_print (h : Quiet Γ (bindStmt (.print origin value)) s result t) :
    ∃ e, Quiet Γ (bindExpr none value) s e t ∧ result = some ⟨.print e, origin.range⟩ := by
  obtain ⟨e, hvalue, rfl⟩ := h.bind_pure
  exact ⟨e, hvalue, rfl⟩

theorem bindStmt_ret (h : Quiet Γ (bindStmt (.ret origin none)) s result t) :
    (∃ u, Quiet Γ (Binding.finishReturn .unit origin.range origin.range) s u t) ∧
      result = some ⟨.ret none, origin.range⟩ := by
  obtain ⟨u, hreturn, rfl⟩ := h.bind_pure
  exact ⟨⟨u, hreturn⟩, rfl⟩

theorem bindStmt_retValue (h : Quiet Γ (bindStmt (.ret origin (some value))) s result t) :
    ∃ e u v, Quiet Γ (bindExpr (s.fns.head?.bind FnFrame.declared) value) s e u ∧
      Quiet Γ (Binding.finishReturn e.ty e.range origin.range) u v t ∧
      result = some ⟨.ret (some e), origin.range⟩ := by
  have h' := h.read rfl
  obtain ⟨e, u, hvalue, hrest⟩ := h'.bind
  obtain ⟨v, hreturn, rfl⟩ := hrest.bind_pure
  exact ⟨e, u, v, hvalue, hreturn, rfl⟩

theorem bindStmt_block (h : Quiet Γ (bindStmt (.block block)) s result t) :
    ∃ b, Quiet Γ (bindBlock block) s b t ∧ result = some ⟨.block b, block.range⟩ := by
  obtain ⟨b, hblock, rfl⟩ := h.bind_pure
  exact ⟨b, hblock, rfl⟩

theorem bindStmt_whileLoop (h : Quiet Γ (bindStmt (.whileLoop origin cond body)) s result t) :
    ∃ c b u v, Quiet Γ (bindExpr none cond) s c u ∧ (c.ty ≠ .error → c.ty = .bool) ∧
      Quiet Γ (bindBlock body) (u.inLoops (u.loopDepth + 1)) b v ∧ t = v.inLoops u.loopDepth ∧
      result = some ⟨.whileLoop c b, origin.range⟩ := by
  rw [bindStmt_whileLoop_eq] at h
  obtain ⟨c, u, hcond, hrest⟩ := h.bind
  obtain ⟨_, _, hcheck, hrest'⟩ := hrest.bind
  obtain ⟨rfl, hbool⟩ := hcheck.checkCondition
  obtain ⟨b, hloop, rfl⟩ := hrest'.bind_pure
  obtain ⟨v, hbody, rfl⟩ := hloop.withLoopDepth
  exact ⟨c, b, _, v, hcond, hbool, hbody, rfl, rfl⟩

/-- A loop over a collection: the item is declared in the scope around the body. -/
theorem bindStmt_forLoop {item : Name} {iterable : Ast.Expr}
    (h : Quiet Γ (bindStmt (.forLoop origin item iterable body)) s result t) :
    ∃ e ty symbol b u v w, Quiet Γ (bindExpr none iterable) s e u ∧ iteratedTy? e.ty = some ty ∧
      Quiet Γ (Binding.declareLocal item (.var false) ty) (u.opened .block) symbol v ∧
      Quiet Γ (bindBlock body) (v.inLoops (v.loopDepth + 1)) b w ∧
      t = (w.inLoops v.loopDepth).at u.current ∧
      result = some ⟨.forLoop symbol e b, origin.range⟩ := by
  rw [bindStmt_forLoop_eq] at h
  obtain ⟨e, u, hiterable, hrest⟩ := h.bind
  obtain ⟨ty, _, hitem, hrest'⟩ := hrest.bind
  obtain ⟨rfl, hty⟩ := hitem.itemTy
  obtain ⟨⟨symbol, b⟩, hscope, rfl⟩ := hrest'.bind_pure
  obtain ⟨x, hinner, rfl⟩ := hscope.inScope
  obtain ⟨symbol', v, hdeclare, hinner'⟩ := hinner.bind
  obtain ⟨b', hloop, heq⟩ := hinner'.bind_pure
  cases heq
  obtain ⟨w, hbody, rfl⟩ := hloop.withLoopDepth
  exact ⟨e, ty, symbol, b, _, v, w, hiterable, hty, hdeclare, hbody, rfl, rfl⟩

theorem bindStmt_breakLoop (h : Quiet Γ (bindStmt (.breakLoop origin)) s result t) :
    t = s ∧ result = some ⟨.breakLoop, origin.range⟩ := by
  obtain ⟨_, hcheck, rfl⟩ := h.bind_pure
  exact ⟨hcheck.checks.2, rfl⟩

theorem bindStmt_continueLoop (h : Quiet Γ (bindStmt (.continueLoop origin)) s result t) :
    t = s ∧ result = some ⟨.continueLoop, origin.range⟩ := by
  obtain ⟨_, hcheck, rfl⟩ := h.bind_pure
  exact ⟨hcheck.checks.2, rfl⟩

/-- Declarations are not bound quietly inside a body. -/
theorem not_bindStmt_of_isDeclaration (hdeclaration : stmt.isDeclaration = true) :
    ¬ Quiet Γ (bindStmt stmt) s result t := by
  intro h
  cases stmt with
  | fn | record | sum => exact rejectDeclaration h
  | _ => cases hdeclaration

end Bindery.Binding.Quiet
