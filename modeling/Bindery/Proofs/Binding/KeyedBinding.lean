import Bindery.Proofs.Binding.Keys
import Bindery.Proofs.Ast.Parts
import Bindery.Session

/-!
# Binding with other keys

Every rule, every tree and every pass is bound over other keys as over names that are their own
keys. The induction follows the tree; each case puts together what is bound before and after, part
by part. So a session with any keys gives the results of one that has none
(`Session.bind_eq_bindFile`).
-/

namespace Bindery

namespace Binding

open Bindery.Bound

variable {κ : Type} [Keyed κ] [DecidableEq κ] {w : Vocabulary κ} (expected hint : Option Ty)
    (target : Ty) (range : Range)
  (name : Ast.Name) (text : String) (e e' : Expr) (es : List Expr)

/-! ## Written types -/

instance alike_checkTypeArity (count : Nat) (args : List Ty) :
    Uniform w fun _ => checkTypeArity text count args range := by
  unfold checkTypeArity
  infer_instance

instance alike_applyTypeName (args : List Ty) : Uniform w fun _ => applyTypeName name args range := by
  refine .reading fun s a _ => ?_
  -- what a type is called is found in the registry, which has no keys
  have hhead : (s.over a).typeHead? name.text = s.typeHead? name.text := rfl
  rw [hhead]
  cases s.typeHead? name.text <;> infer_instance

mutual

instance alike_resolveType (t : Ast.TyExpr) : Uniform w fun _ => resolveType t := by
  match t with
  | .named _ _ args =>
    have := alike_resolveTypes args
    simp only [resolveType]
    infer_instance
  | .fn _ params ret =>
    have := alike_resolveTypes params
    have := alike_resolveType ret
    simp only [resolveType]
    infer_instance
  | .tuple _ elems =>
    have := alike_resolveTypes elems
    simp only [resolveType]
    infer_instance

instance alike_resolveTypes (ts : List Ast.TyExpr) : Uniform w fun _ => resolveTypes ts := by
  match ts with
  | [] =>
    simp only [resolveTypes]
    infer_instance
  | t :: ts =>
    have := alike_resolveType t
    have := alike_resolveTypes ts
    simp only [resolveTypes]
    infer_instance

end

instance alike_resolveType? (t : Option Ast.TyExpr) : Uniform w fun _ => resolveType? t := by
  cases t <;>
  · simp only [resolveType?]
    infer_instance

/-! ## Names -/

theorem alike_nonVarExpr (hname : name.text ∈ w.names) :
    Uniform w fun _ => nonVarExpr expected name := by
  refine .seq (.lookup .fn hname) fun found => ?_
  cases found with
  | some id => infer_instance
  | none =>
    refine .reading fun s a _ => ?_
    dsimp only
    split
    · infer_instance
    · split <;> infer_instance

theorem alike_nameExpr (hname : name.text ∈ w.names) : Uniform w fun _ => nameExpr expected name := by
  have := alike_nonVarExpr expected name hname
  refine .seq (.resolveVar hname) fun found => ?_
  cases found <;> infer_instance

/-! ## Operators, fields and collections -/

instance alike_binaryExpr (op : BinaryOp) : Uniform w fun _ => binaryExpr op e e' range := by
  unfold binaryExpr
  cases op.resultTy? e.ty e'.ty <;> infer_instance

instance alike_unaryExpr (op : UnaryOp) : Uniform w fun _ => unaryExpr op e range := by
  unfold unaryExpr
  cases op.resultTy? e.ty <;> infer_instance

instance alike_checkCondition : Uniform w fun _ => checkCondition e := by
  unfold checkCondition
  infer_instance

instance alike_fieldExpr : Uniform w fun _ => fieldExpr e name range := by
  unfold fieldExpr
  split
  · infer_instance
  · refine .reading fun s a _ => ?_
    dsimp only
    split <;> infer_instance
  · infer_instance

instance alike_indexExpr : Uniform w fun _ => indexExpr e e' range := by
  unfold indexExpr
  cases indexedTy? e.ty e'.ty <;> infer_instance

instance alike_itemTy : Uniform w fun _ => itemTy e := by
  unfold itemTy
  cases iteratedTy? e.ty <;> infer_instance

instance alike_checkElements (element : Ty) : Uniform w fun _ => checkElements element es := by
  induction es with
  | nil => exact .pure ()
  | cons e es ih => exact .seq (.reportUnless _ _ _) fun _ => ih

instance alike_settleElements : Uniform w fun _ => settleElements hint es := by
  unfold settleElements
  infer_instance

instance alike_emptyCollectionTy (c : Container) :
    Uniform w fun _ => emptyCollectionTy c hint text range := by
  unfold emptyCollectionTy
  cases hint <;> infer_instance

instance alike_listExpr : Uniform w fun _ => listExpr hint es range := by
  unfold listExpr
  cases es <;> infer_instance

instance alike_checkKey : Uniform w fun _ => checkKey e := by
  unfold checkKey
  infer_instance

instance alike_mapExpr (entries : List Entry) : Uniform w fun _ => mapExpr hint entries range := by
  unfold mapExpr
  cases entries <;> infer_instance

instance alike_checkMissing (given fields : List String) :
    Uniform w fun _ => checkMissing text given range fields := by
  induction fields with
  | nil => exact .pure ()
  | cons field fields ih => exact .seq (.reportUnless _ _ _) fun _ => ih

instance alike_checkField (known : Subst) : Uniform w fun _ => checkField text target e known := by
  unfold checkField
  infer_instance

instance alike_reportNotARecord : Uniform w fun _ => reportNotARecord name := by
  refine .reading fun s a _ => ?_
  dsimp only
  split <;> infer_instance

instance alike_recordArgs (record : RecordDef) (tyArgs : List Ast.TyExpr) :
    Uniform w fun _ => recordArgs expected record name tyArgs := by
  unfold recordArgs
  infer_instance

/-! ## Branches and returns -/

instance alike_branchTy (b : Block) : Uniform w fun _ => branchTy b e range := by
  unfold branchTy
  infer_instance

instance alike_ifExpr (b : Block) (elseBranch : Option Expr) :
    Uniform w fun _ => ifExpr e b elseBranch range := by
  unfold ifExpr
  cases elseBranch <;> infer_instance

instance alike_noteArm (agreed : ArmTypes) : Uniform w fun _ => noteArm agreed e := by
  unfold noteArm
  cases agreed.result <;> infer_instance

instance alike_reportIssues (issues : List MatchIssue) : Uniform w fun _ => reportIssues issues := by
  induction issues with
  | nil => exact .pure ()
  | cons issue issues ih => exact .seq (.report _ _) fun _ => ih

instance alike_matchExpr (arms : List Arm) (agreed : ArmTypes) :
    Uniform w fun _ => matchExpr e arms agreed range := by
  unfold matchExpr
  infer_instance

instance alike_noteReturn (ty : Ty) : Uniform w fun _ => noteReturn ty range := by
  refine .of_eq (fun s a => ?_) (fun s => ?_) fun s a => ?_
  all_goals
    simp only [noteReturn, after_modifyGet, out_modifyGet]
    cases s.fns <;> rfl

instance alike_declaredReturn : Uniform w fun _ => declaredReturn := by
  unfold declaredReturn
  infer_instance

instance alike_checkReturns (declared : Ty) (returns : List (Ty × Range)) :
    Uniform w fun _ => checkReturns text declared returns := by
  induction returns with
  | nil => exact .pure ()
  | cons r returns ih => exact .seq (.reportUnless _ _ _) fun _ => ih

instance alike_settleReturn (frame : FnFrame) (trailing : Option (Ty × Range)) :
    Uniform w fun _ => settleReturn frame trailing := by
  unfold settleReturn
  cases frame.declared with
  | some declared => infer_instance
  | none =>
    dsimp only
    split
    · infer_instance
    · split <;> infer_instance

/-! ## Calls -/

variable (symbol : SymId) (owned : List Nat) (index : Nat)

instance alike_fnCallee (f : Sig) (tyArgs : List Ast.TyExpr) :
    Alike w (fnCallee symbol f name tyArgs range) (fnCallee symbol f name tyArgs range) := by
  refine .seq (alike_resolveTypes tyArgs) fun explicit => ?_
  dsimp only
  split <;> infer_instance

theorem alike_namedCallee (hname : name.text ∈ w.names) (tyArgs : List Ast.TyExpr) :
    Uniform w fun _ => namedCallee expected name tyArgs range := by
  refine .reading fun s a ha => ?_
  -- here the rule looks into the arena itself
  simp only [ha.lookup .fn s.current hname]
  split
  · infer_instance
  · split <;> infer_instance

theorem alike_resolveCallee (callee : Ast.Expr) (hnames : Ast.AllAmong w.names callee.parts)
    (tyArgs : List Ast.TyExpr) :
    Uniform w fun _ => resolveCallee expected callee tyArgs range := by
  cases callee with
  | name n =>
    have := alike_namedCallee expected range n hnames.head tyArgs
    refine .seq (.lookup .var hnames.head) fun found => ?_
    cases found <;> infer_instance
  | _ => exact .pure none

instance alike_checkArguments (loose : Bool) (index : Nat) (params : List Ty) :
    Uniform w fun _ => checkArguments text loose index params es := by
  induction es generalizing index params with
  | nil => cases params <;> exact .pure ()
  | cons e es ih =>
    cases params with
    | nil => exact .pure ()
    | cons param params => exact .seq (.reportUnless _ _ _) fun _ => ih _ _

instance alike_finishFnCall (f : Sig) (explicit : Subst) (isExplicit agrees : Bool) :
    Uniform w fun _ => finishFnCall symbol f explicit isExplicit agrees es range := by
  unfold finishFnCall
  infer_instance

instance alike_finishBuiltinCall (builtin : Builtin) :
    Uniform w fun _ => finishBuiltinCall symbol text builtin es range := by
  unfold finishBuiltinCall
  dsimp only
  split <;> infer_instance

instance alike_finishVariantCall (sum : SumDef) (d : VariantDef) (known : Subst) :
    Uniform w fun _ => finishVariantCall sum text d known es range := by
  unfold finishVariantCall
  split <;> infer_instance

instance alike_finishCall (callee : Callee) : Uniform w fun _ => finishCall callee es range := by
  cases callee <;>
  · unfold finishCall
    infer_instance

instance alike_checkValueTyArgs (tyArgs : List Ast.TyExpr) :
    Uniform w fun _ => checkValueTyArgs text tyArgs range := by
  unfold checkValueTyArgs
  infer_instance

instance alike_finishValueCall : Uniform w fun _ => finishValueCall e text es range := by
  have : Uniform w fun _ => valueCallTy e text es range := by
    unfold valueCallTy
    split <;> infer_instance
  unfold finishValueCall
  infer_instance

/-! ## Patterns -/

theorem alike_namePattern (hname : name.text ∈ w.names) :
    Uniform w fun _ => namePattern target name := by
  have := Alike.declareLocal hname (.var false) target
  refine .reading fun s a _ => ?_
  dsimp only
  split <;> infer_instance

instance alike_tupleTargets (count : Nat) : Uniform w fun _ => tupleTargets target count range := by
  unfold tupleTargets
  split <;> infer_instance

instance alike_resolveVariant : Uniform w fun _ => resolveVariant target name range := by
  refine .reading fun s a _ => ?_
  split <;> infer_instance

mutual

theorem alike_bindPattern (target : Ty) (p : Ast.Pattern) (h : Ast.AllAmong w.names p.parts) :
    Uniform w fun _ => bindPattern target p := by
  match p with
  | .literal _ _ =>
    simp only [bindPattern, literalPattern]
    infer_instance
  | .wildcard _ =>
    simp only [bindPattern]
    infer_instance
  | .name n => exact alike_namePattern target n h.head
  | .tuple _ elems =>
    have := fun tys => alike_bindPatterns tys elems h.tail
    simp only [bindPattern]
    infer_instance
  | .variant _ _ none =>
    refine .seq (alike_resolveVariant _ _ _) fun resolved => ?_
    unfold checkNoPayload
    split <;> infer_instance
  | .variant _ _ (some payload) =>
    have := fun ty => alike_bindPattern ty payload h.tail.tail
    refine .seq (alike_resolveVariant _ _ _) fun resolved => ?_
    unfold payloadTarget
    split <;> infer_instance

theorem alike_bindPatterns (tys : List Ty) (ps : List Ast.Pattern)
    (h : Ast.AllAmong w.names (Ast.Pattern.allParts ps)) :
    Uniform w fun _ => bindPatterns tys ps := by
  match tys, ps with
  | [], _ | _ :: _, [] =>
    simp only [bindPatterns]
    infer_instance
  | ty :: tys, p :: ps =>
    have := alike_bindPattern ty p h.left
    have := alike_bindPatterns tys ps h.right
    simp only [bindPatterns]
    infer_instance

end

/-! ## Expressions and statements -/

instance alike_rejectDeclaration : Uniform w fun _ => rejectDeclaration name text := by
  unfold rejectDeclaration
  infer_instance

instance alike_checkInLoop : Uniform w fun _ => checkInLoop text range := by
  unfold checkInLoop
  infer_instance

instance alike_checkSpawn : Uniform w fun _ => checkSpawn range := by
  unfold checkSpawn
  infer_instance

theorem alike_finishLet (hname : name.text ∈ w.names) (isMutable : Bool) (annot : Option Ty) :
    Uniform w fun _ => finishLet name isMutable annot e := by
  have := fun ty => Alike.declareLocal hname (.var isMutable) ty
  unfold finishLet
  cases annot <;> infer_instance

theorem alike_assignTarget (hname : name.text ∈ w.names) : Uniform w fun _ => assignTarget name := by
  have := Alike.resolveVar hname
  unfold assignTarget
  infer_instance

instance alike_finishAssign (assigned : Option (Ty × Bool)) :
    Uniform w fun _ => finishAssign name assigned e := by
  unfold finishAssign
  cases assigned <;> infer_instance

instance alike_finishReturn (ty : Ty) (candidate : Range) :
    Uniform w fun _ => finishReturn ty candidate range := by
  unfold finishReturn
  infer_instance

theorem alike_lambdaExpr {params : List (Ast.Name × Ty)}
    (hnames : ∀ entry ∈ params, entry.1.text ∈ w.names)
    (declared : Option Ty) {body : Binding Expr} {body' : BindingOver κ Expr}
    (hbody : Alike w body body') :
    Alike w (lambdaExpr params declared body range) (lambdaExpr params declared body' range) := by
  have := Alike.declareLocals .parameter hnames
  refine .seq inferInstance fun found => ?_
  dsimp only
  split <;> infer_instance

mutual

theorem alike_bindExpr (expected : Option Ty) (e : Ast.Expr) (h : Ast.AllAmong w.names e.parts) :
    Uniform w fun _ => bindExpr expected e := by
  match e with
  | .literal _ _ | .channel _ _ =>
    simp only [bindExpr]
    infer_instance
  | .name n => exact alike_nameExpr expected n h.head
  | .binary _ _ left right | .index _ left right =>
    have := alike_bindExpr none left h.tail.left
    have := alike_bindExpr none right h.tail.right
    simp only [bindExpr]
    infer_instance
  | .unary _ _ operand =>
    have := alike_bindExpr none operand h.tail
    simp only [bindExpr]
    infer_instance
  | .call _ callee tyArgs args =>
    have := alike_bindExpr none callee h.tail.left.left
    have := fun hints => alike_bindExprs hints args h.tail.right
    refine .seq (alike_resolveCallee expected _ callee h.tail.left.left tyArgs) fun found => ?_
    cases found <;> infer_instance
  | .lambda _ params ret body =>
    exact .seq (alike_resolveTypes _) fun tys => .seq (alike_resolveType? ret) fun declared =>
      alike_lambdaExpr _ (Ast.Param.among_zip h.tail.left.left) declared
        (alike_bindExpr declared body h.tail.right)
  | .record _ type tyArgs fields =>
    have := alike_bindUnused fields h.tail.tail.right
    have := fun record known => alike_bindFields record [] known fields h.tail.tail.right
    refine .reading fun s a _ => ?_
    dsimp only
    split <;> infer_instance
  | .field _ target _ =>
    have := alike_bindExpr none target h.tail.tail
    simp only [bindExpr]
    infer_instance
  | .tuple _ elems =>
    have := fun hints => alike_bindExprs hints elems h.tail
    simp only [bindExpr]
    infer_instance
  | .list _ elems =>
    have := fun hints => alike_bindExprs hints elems h.tail
    simp only [bindExpr_list]
    infer_instance
  | .map _ entries =>
    have := fun hint => alike_bindEntries hint entries h.tail
    simp only [bindExpr]
    infer_instance
  | .ifElse _ cond thenBranch none =>
    have := alike_bindExpr none cond h.tail.left
    have := alike_bindBlock thenBranch h.tail.right
    simp only [bindExpr]
    infer_instance
  | .ifElse _ cond thenBranch (some elseBranch) =>
    have := alike_bindExpr none cond h.tail.left.left
    have := alike_bindBlock thenBranch h.tail.left.right
    have := alike_bindExpr expected elseBranch h.tail.right
    simp only [bindExpr]
    infer_instance
  | .block block =>
    have := alike_bindBlock block h
    simp only [bindExpr]
    infer_instance
  | .matchOn _ scrutinee arms =>
    have := alike_bindExpr none scrutinee h.tail.left
    have := fun target => alike_bindArms target expected .initial arms h.tail.right
    simp only [bindExpr]
    infer_instance
  | .spawn _ body | .scope _ body =>
    have := alike_bindBlock body h.tail
    simp only [bindExpr]
    infer_instance
  | .par _ inner =>
    have := alike_bindExpr expected inner h.tail
    simp only [bindExpr]
    infer_instance

theorem alike_bindExprs (hints : List (Option Ty)) (es : List Ast.Expr)
    (h : Ast.AllAmong w.names (Ast.Expr.allParts es)) : Uniform w fun _ => bindExprs hints es := by
  match es with
  | [] =>
    simp only [bindExprs]
    infer_instance
  | e :: es =>
    have := fun hint => alike_bindExpr hint e h.left
    have := fun hints => alike_bindExprs hints es h.right
    simp only [bindExprs]
    infer_instance

theorem alike_bindEntries (hint : Option Ty) (entries : List Ast.MapEntry)
    (h : Ast.AllAmong w.names (Ast.MapEntry.allParts entries)) :
    Uniform w fun _ => bindEntries hint entries := by
  match entries with
  | [] =>
    simp only [bindEntries]
    infer_instance
  | ⟨_, key, value⟩ :: entries =>
    have := fun expected => alike_bindExpr expected key h.tail.left.left
    have := alike_bindExpr hint value h.tail.left.right
    have := alike_bindEntries hint entries h.tail.right
    simp only [bindEntries]
    infer_instance

theorem alike_bindUnused (fields : List Ast.FieldInit)
    (h : Ast.AllAmong w.names (Ast.FieldInit.allParts fields)) :
    Uniform w fun _ => bindUnused fields := by
  match fields with
  | [] =>
    simp only [bindUnused]
    infer_instance
  | ⟨_, _, value⟩ :: fields =>
    have := alike_bindExpr none value h.tail.tail.left
    have := alike_bindUnused fields h.tail.tail.right
    simp only [bindUnused]
    infer_instance

theorem alike_bindFields (record : RecordDef) (seen : List String) (known : Subst)
    (fields : List Ast.FieldInit) (h : Ast.AllAmong w.names (Ast.FieldInit.allParts fields)) :
    Uniform w fun _ => bindFields record seen known fields := by
  match fields with
  | [] =>
    simp only [bindFields]
    infer_instance
  | ⟨_, name, value⟩ :: fields =>
    have := fun expected => alike_bindExpr expected value h.tail.tail.left
    have := fun seen known => alike_bindFields record seen known fields h.tail.tail.right
    simp only [bindFields]
    cases record.fields.get? name.text <;> infer_instance

theorem alike_bindArms (target : Ty) (expected : Option Ty) (agreed : ArmTypes) (arms : List Ast.Arm)
    (h : Ast.AllAmong w.names (Ast.Arm.allParts arms)) :
    Uniform w fun _ => bindArms target expected agreed arms := by
  match arms with
  | [] =>
    simp only [bindArms]
    infer_instance
  | ⟨origin, pattern, body⟩ :: arms =>
    have := alike_bindPattern target pattern h.tail.left.left
    have := fun expected => alike_bindExpr expected body h.tail.left.right
    have := fun agreed => alike_bindArms target expected agreed arms h.tail.right
    simp only [bindArms]
    infer_instance

theorem alike_bindBlock (b : Ast.Block) (h : Ast.AllAmong w.names b.parts) :
    Uniform w fun _ => bindBlock b := by
  match b with
  | ⟨_, stmts⟩ =>
    have := alike_bindStmts stmts h.tail
    simp only [bindBlock]
    infer_instance

theorem alike_bindStmts (ss : List Ast.Stmt) (h : Ast.AllAmong w.names (Ast.Stmt.allParts ss)) :
    Uniform w fun _ => bindStmts ss := by
  match ss with
  | [] =>
    simp only [bindStmts]
    infer_instance
  | s :: ss =>
    have := alike_bindStmt s h.left
    have := alike_bindStmts ss h.right
    simp only [bindStmts]
    infer_instance

theorem alike_bindStmt (s : Ast.Stmt) (h : Ast.AllAmong w.names s.parts) :
    Uniform w fun _ => bindStmt s := by
  match s with
  | .bindName _ name isMutable _ init =>
    have := fun expected => alike_bindExpr expected init h.tail.tail.right
    have := fun annot init => alike_finishLet name init h.tail.head isMutable annot
    simp only [bindStmt]
    infer_instance
  | .assign _ name value =>
    have := alike_assignTarget name h.tail.head
    have := fun expected => alike_bindExpr expected value h.tail.tail
    simp only [bindStmt]
    infer_instance
  | .expr _ value | .print _ value =>
    have := alike_bindExpr none value h.tail
    simp only [bindStmt]
    infer_instance
  | .ret _ (some value) =>
    have := fun declared => alike_bindExpr declared value h.tail
    simp only [bindStmt]
    infer_instance
  | .block block =>
    have := alike_bindBlock block h
    simp only [bindStmt]
    infer_instance
  | .whileLoop _ cond body =>
    have := alike_bindExpr none cond h.tail.left
    have := alike_bindBlock body h.tail.right
    simp only [bindStmt]
    infer_instance
  | .forLoop _ item iterable body =>
    have := alike_bindExpr none iterable h.tail.tail.left
    have := fun ty => Alike.declareLocal h.tail.head (.var false) ty
    have := alike_bindBlock body h.tail.tail.right
    simp only [bindStmt]
    infer_instance
  | .ret _ none | .breakLoop _ | .continueLoop _ | .fn .. | .record .. | .sum .. =>
    simp only [bindStmt]
    infer_instance

end

/-! ## Passes -/

theorem alike_declareBuiltins {fs : List Sig} (h : ∀ f ∈ fs, f.name ∈ w.names) :
    Uniform w fun _ => (declareBuiltins fs).run := by
  induction fs with
  | nil => exact .pass_pure ()
  | cons f fs ih =>
    rw [List.forall_mem_cons] at h
    have := ih h.2
    have := fun id => Alike.declareName .fn Scopes.rootId h.1 id
    unfold declareBuiltins
    infer_instance

instance alike_tyParamNames (seen : List String) (params : List Ast.Name) :
    Uniform w fun _ => tyParamNames seen params := by
  induction params generalizing seen with
  | nil => exact .pure seen
  | cons name params ih =>
    unfold tyParamNames
    infer_instance

instance alike_declareTypeName (kind : Nominal) (tyParams : List String) :
    Uniform w fun _ => declareTypeName kind name tyParams := by
  refine .reading fun s a ha => ?_
  have := fun registry => Alike.set (s := { s with registry }) ha
  dsimp only
  refine .seq (this _) fun _ => ?_
  split <;> infer_instance

instance alike_declareTypeNames (stmts : List Ast.Stmt) :
    Uniform w fun _ => declareTypeNames index stmts := by
  induction stmts generalizing index with
  | nil => exact .pure []
  | cons stmt stmts ih =>
    unfold declareTypeNames
    cases stmt <;> infer_instance

instance alike_bindFieldDecls (fields : List Ast.FieldDecl) :
    Uniform w fun _ => (bindFieldDecls text fields).run := by
  induction fields with
  | nil => exact .pass_pure []
  | cons field fields ih =>
    refine .pass_seq inferInstance fun ty => .pass_reading fun s a => ?_
    dsimp only
    split
    · split
      · infer_instance
      · refine .pass_seq inferInstance fun symbol => .pass_reading fun s a => ?_
        dsimp only
        split <;> infer_instance
    · infer_instance

instance alike_bindVariantDecls (selfTy : Ty) (variants : List Ast.VariantDecl) :
    Uniform w fun _ => (bindVariantDecls text selfTy variants).run := by
  induction variants with
  | nil => exact .pass_pure []
  | cons variant variants ih =>
    refine .pass_seq inferInstance fun payload => .pass_reading fun s a => ?_
    dsimp only
    split
    · infer_instance
    · refine .pass_seq inferInstance fun symbol => .pass_reading fun s a => ?_
      dsimp only
      split <;> infer_instance

instance alike_bindRecord? (stmt : Ast.Stmt) : Uniform w fun _ => (bindRecord? stmt).run := by
  cases stmt with
  | record origin name tyParams fields =>
    refine .pass_reading fun s a => ?_
    dsimp only
    split <;> infer_instance
  | _ => exact .pass_pure none

instance alike_bindSum? (stmt : Ast.Stmt) : Uniform w fun _ => (bindSum? stmt).run := by
  cases stmt with
  | sum origin name tyParams variants =>
    refine .pass_reading fun s a => ?_
    dsimp only
    split <;> infer_instance
  | _ => exact .pass_pure none

instance alike_bindOwned {δ : Type} (bindOne? : ∀ κ, Ast.Stmt → PassOver κ (Option δ))
    [∀ stmt, Uniform w fun κ => (bindOne? κ stmt).run] (stmts : List Ast.Stmt) :
    Uniform w fun κ => (bindOwned (bindOne? κ) owned index stmts).run := by
  induction stmts generalizing index with
  | nil => exact .pass_pure []
  | cons stmt stmts ih =>
    unfold bindOwned
    split <;> infer_instance

instance alike_writtenSig (tyParams : List Ast.Name) (params : List Ast.Param)
    (ret : Option Ast.TyExpr) :
    Uniform w fun _ => writtenSig name tyParams params ret := by
  unfold writtenSig
  infer_instance

variable {stmts : List Ast.Stmt}

theorem alike_declareSigs (h : Ast.AllAmong w.names (Ast.Stmt.allParts stmts)) :
    Uniform w fun _ => declareSigs index stmts := by
  induction stmts generalizing index with
  | nil => exact .pure []
  | cons stmt stmts ih =>
    have := fun index => ih index h.right
    unfold declareSigs
    cases stmt with
    | fn origin name tyParams params ret body =>
      have := fun id => Alike.declareName .fn Scopes.rootId h.left.tail.head id
      infer_instance
    | _ => infer_instance

instance alike_finalizeFn (id : SymId) (provisional : Sig) (ret : Ty) :
    Uniform w fun _ => (finalizeFn id provisional ret).run := by
  refine .pass_reading fun s a => ?_
  dsimp only
  split
  · infer_instance
  · split
    · infer_instance
    · exact .of_eq (fun _ _ => rfl) (fun _ => rfl) fun _ _ => rfl

theorem alike_bindFnBody (id : SymId) (origin : Origin) {params : List Ast.Param} {body : Ast.Block}
    (hparams : Ast.AllAmong w.names (params.flatMap Ast.Param.parts))
    (hbody : Ast.AllAmong w.names body.parts) :
    Uniform w fun _ => (bindFnBody id origin name params body).run := by
  obtain ⟨blockOrigin, stmts⟩ := body
  have := alike_bindStmts stmts hbody.tail
  have := fun tys => Alike.declareLocals .parameter (@Ast.Param.among_zip _ _ tys hparams)
  have : ∀ f, Uniform w fun _ => bindFnScope f name params ⟨blockOrigin, stmts⟩ := by
    intro f
    unfold bindFnScope
    infer_instance
  refine .pass_reading fun s a => ?_
  dsimp only
  split
  · refine .pass_seq inferInstance fun found => ?_
    obtain ⟨syms, block, frame⟩ := found
    cases frame <;> infer_instance
  · infer_instance

theorem alike_bindFns (sigs : List (Nat × SymId)) (index : Nat)
    (h : Ast.AllAmong w.names (Ast.Stmt.allParts stmts)) :
    Uniform w fun _ => (bindFns sigs index stmts).run := by
  induction stmts generalizing index with
  | nil => exact .pass_pure []
  | cons stmt stmts ih =>
    have := fun index => ih index h.right
    unfold bindFns
    cases stmt with
    | fn origin name tyParams params ret body =>
      have := fun id => alike_bindFnBody name id origin h.left.tail.tail.left.left.right
        h.left.tail.tail.right
      dsimp only
      cases sigs.lookup index <;> infer_instance
    | _ => infer_instance

instance alike_checkBalanced : Uniform w fun _ => checkBalanced.run := by
  unfold checkBalanced
  infer_instance

/-- A file is bound as with names as their own keys. -/
theorem alike_bindProgram (hbuiltins : ∀ f ∈ Builtin.sigs, f.name ∈ w.names)
    (h : Ast.AllAmong w.names (Ast.Stmt.allParts stmts)) :
    Uniform w fun _ => (bindProgram stmts).run := by
  -- the statements that are no declarations have no other names
  have htop : Ast.AllAmong w.names (Ast.Stmt.allParts (stmts.filter fun s => !s.isDeclaration)) := by
    intro part hpart
    obtain ⟨s, hs, hpart⟩ := Ast.Stmt.mem_allParts.mp hpart
    exact h part (Ast.Stmt.mem_allParts.mpr ⟨s, (List.mem_filter.mp hs).1, hpart⟩)
  have := alike_declareSigs 0 h
  have := alike_bindStmts _ htop
  have hset : Alike w (ExceptT.run (set (State.initial : State) : Pass Unit))
      (ExceptT.run (set (State.initial : State κ) : PassOver κ Unit)) :=
    ⟨fun _ _ _ => ⟨.initial, Scopes.rekeyed_initial, rfl, rfl⟩⟩
  -- too deep for one search, so the passes are put together one by one
  exact .pass_seq hset fun _ => .pass_seq (alike_declareBuiltins hbuiltins) fun _ =>
    .pass_seq inferInstance fun _ =>
    .pass_seq inferInstance fun _ => .pass_seq inferInstance fun _ => .pass_seq inferInstance
      fun sigs =>
    .pass_seq (alike_bindFns sigs 0 h) fun _ => inferInstance

end Binding

theorem Session.fst_bind {κ : Type} [Keyed κ] [DecidableEq κ] (session : Session κ)
    (file : Ast.SourceFile) :
    (session.bind file).1 =
      (Binding.out (Binding.bindProgram file.stmts).run session.state).map fun program =>
        ⟨program, session.options.limit
          ((Binding.after (Binding.bindProgram file.stmts).run session.state).diagnostics file)⟩ := rfl

/-- A session with any keys that tell the names of a file apart binds it as if names were their own
keys and nothing had been bound before. -/
theorem Session.bind_eq_bindFile {κ : Type} [Keyed κ] [DecidableEq κ] (session : Session κ)
    (file : Ast.SourceFile)
    {names : Set String} (hinj : Set.InjOn (Keyed.key : String → κ) names)
    (hbuiltins : ∀ f ∈ Builtin.sigs, f.name ∈ names) (hnames : ∀ n ∈ file.names, n ∈ names) :
    (session.bind file).1 = bindFile session.options file := by
  obtain ⟨b, -, hout, hafter⟩ := (Binding.alike_bindProgram (w := ⟨names, hinj⟩) hbuiltins
    (Ast.SourceFile.among_names hnames)).run .initial .initial Scopes.rekeyed_initial
  -- a bind starts from nothing, whatever the session did before
  have hstart : (Binding.bindProgram file.stmts).run session.state =
      (Binding.bindProgram file.stmts).run (Binding.State.initial.over .initial) := rfl
  have hout' : Binding.out (Binding.bindProgram file.stmts).run session.state = _ :=
    (congrArg Prod.fst hstart).trans hout
  have hafter' : Binding.after (Binding.bindProgram file.stmts).run session.state = _ :=
    (congrArg Prod.snd hstart).trans hafter
  have hdiagnostics : ∀ t : Binding.State, (t.over b).diagnostics file = t.diagnostics file :=
    fun _ => rfl
  rw [bindFile, start, fst_bind, fst_bind, hout', hafter', hdiagnostics]

end Bindery
