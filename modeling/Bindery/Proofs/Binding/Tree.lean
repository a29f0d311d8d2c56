import Bindery.Proofs.Binding.Frame

/-!
# What binding a tree leaves alone

Every expression, pattern and statement is bound by steps that keep what is around them. Only a
`let` and the identifiers of a pattern add names to the scope they stand in; every other name goes
to a scope that the step opens itself.
-/

namespace Bindery

namespace Ast

mutual

/-- The names that a pattern consists of, from left to right. -/
def Pattern.names : Pattern → List Name
  | .literal .. | .wildcard _ | .variant _ _ none => []
  | .name n => [n]
  | .tuple _ elems => Pattern.allNames elems
  | .variant _ _ (some payload) => payload.names

/-- The names of all patterns. -/
def Pattern.allNames : List Pattern → List Name
  | [] => []
  | p :: ps => p.names ++ Pattern.allNames ps

end

/-- The identifiers of a pattern, from left to right. -/
def Pattern.identifiers (p : Pattern) : List String := p.names.map Name.text

/-- The name that a statement adds to the scope it stands in. -/
def Stmt.identifiers : Stmt → List String
  | .bindName _ name _ _ _ => [name.text]
  | _ => []

end Ast

namespace Binding

instance keeps_namePattern (target : Ty) (name : Ast.Name) :
    Keeps [name.text] (namePattern target name) := by
  refine .seq inferInstance fun s => ?_
  split <;> infer_instance

mutual

theorem keeps_bindPattern (target : Ty) (p : Ast.Pattern) :
    Keeps p.identifiers (bindPattern target p) := by
  match p with
  | .literal .. | .wildcard _ | .variant _ _ none =>
    rw [bindPattern]
    infer_instance
  | .name name => exact keeps_namePattern target name
  | .tuple _ elems =>
    exact .seq inferInstance fun tys => .seq (keeps_bindPatterns tys elems) inferInstance
  | .variant _ _ (some payload) =>
    exact .seq inferInstance fun resolved => .seq inferInstance fun ty =>
      .seq (keeps_bindPattern ty payload) inferInstance

theorem keeps_bindPatterns (tys : List Ty) (ps : List Ast.Pattern) :
    Keeps ((Ast.Pattern.allNames ps).map Ast.Name.text) (bindPatterns tys ps) := by
  match tys, ps with
  | [], _ | _ :: _, [] =>
    rw [bindPatterns]
    · infer_instance
    · simp
  | ty :: tys, p :: ps =>
    rw [Ast.Pattern.allNames, List.map_append]
    exact .seq ((keeps_bindPattern ty p).mono fun _ => List.mem_append_left _) fun p' =>
      .seq ((keeps_bindPatterns tys ps).mono fun _ => List.mem_append_right _) inferInstance

end

instance keeps_finishLet (name : Ast.Name) (isMutable : Bool) (annot : Option Ty)
    (init : Bound.Expr) : Keeps [name.text] (finishLet name isMutable annot init) := by
  unfold finishLet
  split
  · exact .seq (keeps_reportUnless _ _ _).of_nil fun _ => inferInstance
  · infer_instance

instance keeps_assignTarget (name : Ast.Name) : Keeps [] (assignTarget name) := by
  unfold assignTarget
  infer_instance

theorem keeps_lambdaExpr (params : List (Ast.Name × Ty)) (declared : Option Ty)
    {body : Binding Bound.Expr} (range : Range) (h : Keeps [] body) :
    Keeps [] (lambdaExpr params declared body range) := by
  refine .seq (keeps_inScope .lambda (keeps_withLambda (.seq (keeps_declareLocals rfl params) fun _ =>
    .seq (keeps_withFn _ (keeps_withLoopDepth _ h)).of_nil fun _ => inferInstance))) ?_
  rintro ⟨⟨_, _, frame⟩, _⟩
  cases frame <;> infer_instance

mutual

theorem keeps_bindExpr (expected : Option Ty) (e : Ast.Expr) : Keeps [] (bindExpr expected e) := by
  match e with
  | .literal .. | .name _ | .channel .. => rw [bindExpr]; infer_instance
  | .binary _ _ left right | .index _ left right =>
    exact .seq (keeps_bindExpr none left) fun _ => .seq (keeps_bindExpr none right) inferInstance
  | .unary _ _ operand | .field _ operand _ => exact .seq (keeps_bindExpr none operand) inferInstance
  | .call _ callee _ args =>
    refine .seq inferInstance fun target => ?_
    cases target with
    | some target => exact .seq (keeps_bindExprs _ args) inferInstance
    | none =>
      exact .seq (keeps_bindExpr none callee) fun value => .seq inferInstance fun _ =>
        .seq (keeps_bindExprs _ args) inferInstance
  | .lambda _ _ _ body =>
    exact .seq inferInstance fun tys => .seq inferInstance fun declared =>
      keeps_lambdaExpr _ _ _ (keeps_bindExpr declared body)
  | .record _ _ _ fields =>
    refine .seq inferInstance fun s => ?_
    split
    · exact .seq inferInstance fun _ => .seq (keeps_bindUnused fields) inferInstance
    · exact .seq inferInstance fun known => .seq (keeps_bindFields _ _ _ fields) fun _ => inferInstance
  | .tuple _ elems => exact .seq (keeps_bindExprs _ elems) inferInstance
  | .list _ elems =>
    rw [bindExpr_list]
    exact .seq (keeps_bindExprs _ elems) inferInstance
  | .map _ entries => exact .seq (keeps_bindEntries _ entries) inferInstance
  | .ifElse _ cond thenBranch none =>
    exact .seq (keeps_bindExpr none cond) fun _ => .seq inferInstance fun _ =>
      .seq (keeps_bindBlock thenBranch) inferInstance
  | .ifElse _ cond thenBranch (some elseBranch) =>
    exact .seq (keeps_bindExpr none cond) fun _ => .seq inferInstance fun _ =>
      .seq (keeps_bindBlock thenBranch) fun _ => .seq (keeps_bindExpr expected elseBranch)
        inferInstance
  | .block block => exact .seq (keeps_bindBlock block) inferInstance
  | .matchOn _ scrutinee arms =>
    exact .seq (keeps_bindExpr none scrutinee) fun _ => .seq (keeps_bindArms _ _ _ arms) inferInstance
  | .spawn _ body => exact .seq inferInstance fun _ => .seq (keeps_bindBlock body) inferInstance
  | .scope _ body => exact .seq (keeps_inScopeBlock (keeps_bindBlock body)) inferInstance
  | .par _ inner => exact .seq (keeps_bindExpr expected inner) inferInstance

theorem keeps_bindExprs (hints : List (Option Ty)) (es : List Ast.Expr) :
    Keeps [] (bindExprs hints es) := by
  match es with
  | [] => rw [bindExprs]; infer_instance
  | e :: es => exact .seq (keeps_bindExpr _ e) fun _ => .seq (keeps_bindExprs _ es) inferInstance

theorem keeps_bindEntries (hint : Option Ty) (entries : List Ast.MapEntry) :
    Keeps [] (bindEntries hint entries) := by
  match entries with
  | [] => rw [bindEntries]; infer_instance
  | ⟨_, key, value⟩ :: entries =>
    exact .seq (keeps_bindExpr _ key) fun _ => .seq inferInstance fun _ =>
      .seq (keeps_bindExpr _ value) fun _ => .seq (keeps_bindEntries _ entries) inferInstance

theorem keeps_bindUnused (fields : List Ast.FieldInit) : Keeps [] (bindUnused fields) := by
  match fields with
  | [] => rw [bindUnused]; infer_instance
  | ⟨_, _, value⟩ :: fields => exact .seq (keeps_bindExpr _ value) fun _ => keeps_bindUnused fields

theorem keeps_bindFields (record : RecordDef) (seen : List String) (known : Subst)
    (fields : List Ast.FieldInit) : Keeps [] (bindFields record seen known fields) := by
  match fields with
  | [] => rw [bindFields]; infer_instance
  | ⟨_, name, value⟩ :: fields =>
    rw [bindFields]
    split
    · exact .seq (keeps_report _ _) fun _ => .seq (keeps_bindExpr none value) fun _ =>
        keeps_bindFields _ _ _ fields
    · split
      · exact .seq (keeps_report _ _) fun _ => .seq (keeps_bindExpr none value) fun _ =>
          keeps_bindFields _ _ _ fields
      · exact .seq (keeps_bindExpr _ value) fun _ => .seq inferInstance fun _ =>
          .seq (keeps_bindFields _ _ _ fields) inferInstance

theorem keeps_bindArms (target : Ty) (expected : Option Ty) (agreed : ArmTypes)
    (arms : List Ast.Arm) : Keeps [] (bindArms target expected agreed arms) := by
  match arms with
  | [] => rw [bindArms]; infer_instance
  | ⟨_, pattern, body⟩ :: arms =>
    exact .seq (keeps_inScope .matchArm (.seq (keeps_bindPattern target pattern) fun _ =>
        .seq (keeps_bindExpr _ body).of_nil fun _ => inferInstance)) fun _ =>
      .seq inferInstance fun _ => .seq (keeps_bindArms _ _ _ arms) inferInstance

theorem keeps_bindBlock (block : Ast.Block) : Keeps [] (bindBlock block) := by
  match block with
  | ⟨_, stmts⟩ => exact .seq (keeps_inScope .block (keeps_bindStmts stmts)) inferInstance

theorem keeps_bindStmts (stmts : List Ast.Stmt) :
    Keeps (stmts.flatMap Ast.Stmt.identifiers) (bindStmts stmts) := by
  match stmts with
  | [] => rw [bindStmts]; infer_instance
  | stmt :: stmts =>
    exact .seq ((keeps_bindStmt stmt).mono fun _ => List.mem_append_left _) fun _ =>
      .seq ((keeps_bindStmts stmts).mono fun _ => List.mem_append_right _) inferInstance

theorem keeps_bindStmt (stmt : Ast.Stmt) : Keeps stmt.identifiers (bindStmt stmt) := by
  match stmt with
  | .bindName _ _ _ _ init =>
    exact .seq inferInstance fun annot => .seq (keeps_bindExpr annot init).of_nil fun _ =>
      .seq (keeps_finishLet _ _ _ _) inferInstance
  | .assign _ _ value =>
    exact .seq inferInstance fun _ => .seq (keeps_bindExpr _ value) fun _ => inferInstance
  | .expr _ value | .print _ value => exact .seq (keeps_bindExpr none value) inferInstance
  | .ret _ (some value) =>
    exact .seq inferInstance fun declared => .seq (keeps_bindExpr declared value) inferInstance
  | .block block => exact .seq (keeps_bindBlock block) inferInstance
  | .whileLoop _ cond body =>
    exact .seq (keeps_bindExpr none cond) fun _ => .seq inferInstance fun _ =>
      .seq (keeps_inLoop (keeps_bindBlock body)) inferInstance
  | .forLoop _ _ iterable body =>
    exact .seq (keeps_bindExpr none iterable) fun _ => .seq inferInstance fun _ =>
      .seq (keeps_inScope .block (.seq (keeps_declareVar _ _ _) fun _ =>
        .seq (keeps_inLoop (keeps_bindBlock body)).of_nil fun _ => inferInstance)) inferInstance
  | .ret _ none | .breakLoop _ | .continueLoop _ | .fn .. | .record .. | .sum .. =>
    rw [bindStmt]
    infer_instance

end

attribute [instance] keeps_bindExpr keeps_bindExprs keeps_bindEntries keeps_bindUnused
    keeps_bindFields keeps_bindArms
  keeps_bindBlock

/-! ## Loops and scopes

The counters of loops and `scope` blocks are kept, so counting down puts back what was found.
-/

theorem bindExpr_scope_eq (expected : Option Ty) (origin : Origin) (body : Ast.Block) :
    (bindExpr expected (.scope origin body) : Binding _) = do
      let body ← withScopeDepth (· + 1) (bindBlock body)
      return ⟨.scope body, body.ty, origin.range⟩ := by
  rw [bindExpr, inScopeBlock_eq (keeps_bindBlock body)]

theorem bindStmt_whileLoop_eq (origin : Origin) (cond : Ast.Expr) (body : Ast.Block) :
    (bindStmt (.whileLoop origin cond body) : Binding _) = do
      let cond ← bindExpr none cond
      checkCondition cond
      let body ← withLoopDepth (· + 1) (bindBlock body)
      return some ⟨.whileLoop cond body, origin.range⟩ := by
  rw [bindStmt, inLoop_eq (keeps_bindBlock body)]

theorem bindStmt_forLoop_eq (origin : Origin) (item : Ast.Name) (iterable : Ast.Expr)
    (body : Ast.Block) :
    (bindStmt (.forLoop origin item iterable body) : Binding _) = do
      let iterable ← bindExpr none iterable
      let ty ← itemTy iterable
      let (symbol, body) ← inScope .block do
        let symbol ← declareLocal item (.var false) ty
        let body ← withLoopDepth (· + 1) (bindBlock body)
        return (symbol, body)
      return some ⟨.forLoop symbol iterable body, origin.range⟩ := by
  rw [bindStmt, inLoop_eq (keeps_bindBlock body)]

end Binding

end Bindery
