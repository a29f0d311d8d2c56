import Bindery.Proofs.Binding.Kinds
import Bindery.Proofs.Binding.Passes
import Bindery.Proofs.Bound.Nodes
import Bindery.Proofs.Ty.Below

/-!
# Laws of bound nodes

A property of nodes holds of all nodes of a bound file if each rule of binding gives it to the node
that it makes, where the parts of that node have it already. Nothing is asked of what is reported,
and of the state only that it is valid, so that a variable which is found is resolved. `NodeLaw`
lists what a property has to be shown of; the rest is the recursion over the syntax, done once.
-/

namespace Bindery

/-- Whether the expression has several branches or calls a value: its type is then settled from
those of its parts. -/
def Bound.ExprKind.isSettled : Bound.ExprKind → Bool
  | .ifElse _ _ (some _) | .matchOn .. | .callValue .. => true
  | _ => false

namespace Binding

open Bindery.Bound

variable {α β : Type} {P : Node → Prop} {range : Range}

/-! ## Answers -/

/-- In every valid state the step gives an answer with the property. -/
def Gives (m : Binding α) (Q : α → Prop) : Prop := ∀ s : State, s.Valid → Q (out m s)

namespace Gives

variable {m : Binding α} {f : α → Binding β} {Q : α → Prop} {R : β → Prop} {own : List String}

theorem pure {a : α} (h : Q a) : Gives (pure a) Q := fun _ _ => h

theorem seqOf (hkeeps : Keeps own m) (hm : Gives m Q) (hf : ∀ a, Q a → Gives (f a) R) :
    Gives (m >>= f) R :=
  fun s hs => hf _ (hm s hs) _ ((hkeeps.grows s).valid hs)

theorem seq [hkeeps : Keeps [] m] (hm : Gives m Q) (hf : ∀ a, Q a → Gives (f a) R) :
    Gives (m >>= f) R :=
  seqOf hkeeps hm hf

/-- The answer of the first step does not matter. -/
theorem pastOf (hkeeps : Keeps own m) (hf : ∀ a, Gives (f a) R) : Gives (m >>= f) R :=
  fun s hs => hf _ _ ((hkeeps.grows s).valid hs)

theorem past (m : Binding α) [hkeeps : Keeps [] m] (hf : ∀ a, Gives (f a) R) : Gives (m >>= f) R :=
  pastOf hkeeps hf

theorem map {g : α → β} (hm : Gives m Q) (hg : ∀ a, Q a → R (g a)) :
    Gives (m >>= fun a => Pure.pure (g a)) R :=
  fun s hs => hg _ (hm s hs)

theorem inScope (kind : ScopeKind) (hm : Gives m Q) : Gives (inScope kind m) Q :=
  fun _ hs => hm _ (hs.opened kind)

theorem withLoopDepth (depth : Nat → Nat) (hm : Gives m Q) : Gives (withLoopDepth depth m) Q :=
  fun s hs => hm (s.inLoops _) (hs.congr rfl rfl rfl rfl)

theorem withScopeDepth (depth : Nat → Nat) (hm : Gives m Q) : Gives (withScopeDepth depth m) Q :=
  fun s hs => hm (s.inScopeBlocks _) (hs.congr rfl rfl rfl rfl)

end Gives

/-! ## The type of a match -/

theorem accepts_error (t : Ty) : t.accepts .error = true := by cases t <;> rfl

/-- The body of an arm is among those that the arms have agreed on, as far as it has a value. -/
def ArmTypes.Covers (a : ArmTypes) (body : Expr) : Prop :=
  a.mismatched = true ∨ body.diverges = true ∨ body.ty = .error ∨
    ∃ first, a.result = some first ∧ first.accepts body.ty = true

theorem covers_noteArm (a : ArmTypes) (body : Expr) :
    Gives (noteArm a body) fun a' => a'.Covers body ∧ ∀ b, a.Covers b → a'.Covers b := by
  intro s _
  unfold noteArm
  split
  · next herror => exact ⟨.inr (.inr (.inl (Ty.isError_eq_true_iff.mp herror))), fun _ h => h⟩
  · split
    · next hdiverges => exact ⟨.inr (.inl hdiverges), fun _ h => h⟩
    · split
      · next hnone =>
        -- The first body with a value: those before it diverge or are poisoned, since there was no
        -- type to fit.
        refine ⟨.inr (.inr (.inr ⟨_, rfl, Ty.compatible_self false _⟩)), fun b h => ?_⟩
        rcases h with h | h | h | ⟨first, hfirst, -⟩
        · exact .inl h
        · exact .inr (.inl h)
        · exact .inr (.inr (.inl h))
        · rw [hnone] at hfirst
          cases hfirst
      · next first hfirst =>
        split
        · next haccepts => exact ⟨.inr (.inr (.inr ⟨first, hfirst, haccepts⟩)), fun _ h => h⟩
        · exact ⟨.inl rfl, fun _ _ => .inl rfl⟩

theorem ArmTypes.Covers.accepts {a : ArmTypes} {body : Expr} (h : a.Covers body)
    (hd : body.diverges = false) :
    a.ty.accepts body.ty = true := by
  unfold ArmTypes.ty
  split
  · rfl
  · next hmatched =>
    rcases h with h | h | h | ⟨first, hfirst, haccepts⟩
    · exact absurd h hmatched
    · rw [hd] at h
      cases h
    · rw [h]
      exact accepts_error _
    · rw [hfirst]
      exact haccepts

/-! ## Laws -/

/-- All nodes have the property. -/
abbrev Obey (P : Node → Prop) (nodes : List Node) : Prop := ∀ n ∈ nodes, P n

/-- A property that each rule of binding gives to the node it makes, if the nodes below that one
have it. -/
structure NodeLaw (P : Node → Prop) : Prop where
  pattern (p : Pattern) : P (.pattern p)
  stmt {b : Stmt} : (∀ n ∈ b.nodes true, n = .stmt b ∨ P n) → P (.stmt b)
  block {bs : List Stmt} {range : Range} : Obey P (Stmt.allNodes true bs) →
    P (.block (.ofStatements bs range))
  ifElse {cond e : Expr} {b : Block} {range : Range} (s : State) : Obey P (b.nodes true) →
    Obey P (e.nodes true) →
    P (.expr (out (ifExpr cond b (some e) range) s))
  matchOn {scrutinee : Expr} {arms : List Arm} {agreed : ArmTypes} {range : Range} : Obey P
    (Arm.allNodes true arms) →
    (∀ arm ∈ arms, agreed.Covers arm.body) → P (.expr ⟨.matchOn scrutinee arms, agreed.ty, range⟩)
  callValue {callee : Expr} {name : String} {args : List Expr} {range : Range} (s : State) :
    isFnRef callee = false → Obey P (callee.nodes true) → Obey P (Expr.allNodes true args) →
    P (.expr (out (finishValueCall callee name args range) s))
  other {e : Expr} : e.kind.isSettled = false → Obey P (e.kind.nodes true) → P (.expr e)

namespace NodeLaw

theorem obey_expr {e : Expr} (he : P (.expr e)) (h : Obey P (e.kind.nodes true)) :
    Obey P (e.nodes true) := by
  cases e
  exact List.forall_mem_cons.mpr ⟨he, h⟩

/-- An expression without branches, known by its kind. -/
theorem plain (w : NodeLaw P) {e : Expr} {kind : ExprKind} (hkind : e.kind = kind)
    (hplain : kind.isSettled = false)
    (h : Obey P (kind.nodes true)) : Obey P (e.nodes true) := by
  subst hkind
  exact obey_expr (w.other hplain h) h

/-- A statement with its own node between those of its parts. -/
theorem among (w : NodeLaw P) {b : Stmt} {ns ms : List Node}
    (hnodes : b.nodes true = ns ++ .stmt b :: ms)
    (hns : Obey P ns) (hms : Obey P ms) : Obey P (b.nodes true) := by
  have hparts : ∀ n ∈ b.nodes true, n = .stmt b ∨ P n := by
    intro n hn
    rw [hnodes, List.mem_append, List.mem_cons] at hn
    rcases hn with hn | rfl | hn
    · exact .inr (hns n hn)
    · exact .inl rfl
    · exact .inr (hms n hn)
  intro n hn
  rcases hparts n hn with rfl | hn
  · exact w.stmt hparts
  · exact hn

theorem obey_nameExpr (w : NodeLaw P) (expected : Option Ty) (name : Ast.Name) :
    Gives (nameExpr expected name) fun b => Obey P (b.nodes true) := by
  intro s _
  have hleaf : ∀ kind, (out (nameExpr expected name) s).kind = kind → kind.isSettled = false →
      kind.nodes true = [] → Obey P ((out (nameExpr expected name) s).nodes true) :=
        fun kind hkind hplain hnil =>
    w.plain hkind hplain (hnil ▸ List.forall_mem_nil _)
  rcases kind_nameExpr s expected name with ⟨id, hkind⟩ | ⟨id, hkind⟩ | ⟨id, hkind⟩ | hkind
  all_goals exact hleaf _ hkind rfl rfl

theorem obey_finishCall (w : NodeLaw P) (callee : Callee) {args : List Expr}
    (hargs : Obey P (Expr.allNodes true args)) :
    Gives (finishCall callee args range) fun b => Obey P (b.nodes true) := by
  intro s _
  cases callee with
  | fn id f explicit isExplicit agrees =>
    obtain ⟨_, hkind⟩ := kind_finishFnCall s id f explicit isExplicit agrees args
    exact w.plain hkind rfl hargs
  | builtin id name b =>
    obtain ⟨_, hkind⟩ := kind_finishBuiltinCall s id name b args
    exact w.plain hkind rfl hargs
  | variant sum name d known =>
    obtain ⟨payload, _, hkind, hpayload, -⟩ := kind_finishVariantCall s sum name d known args
    refine w.plain hkind rfl ?_
    cases payload with
    | none => exact List.forall_mem_nil _
    | some arg =>
      rcases hpayload with h | rfl
      · cases h
      · exact (List.forall_mem_append.mp hargs).1
  | undefined => exact w.plain rfl rfl (List.forall_mem_nil _)

mutual

theorem bindExpr (w : NodeLaw P) (expected : Option Ty) (e : Ast.Expr) :
    Gives (bindExpr expected e) fun b => Obey P (b.nodes true) := by
  have hnil : Obey P [] := List.forall_mem_nil _
  match e with
  | .literal _ value => exact .pure (w.plain rfl rfl hnil)
  | .name name => exact w.obey_nameExpr expected name
  | .binary _ op left right =>
    exact (w.bindExpr none left).seq fun l hl => (w.bindExpr none right).seq fun r hr s _ =>
      w.plain (kind_binaryExpr s op l r) rfl (List.forall_mem_append.mpr ⟨hl, hr⟩)
  | .unary _ op operand =>
    exact (w.bindExpr none operand).seq fun b hb s _ => w.plain (kind_unaryExpr s op b) rfl hb
  | .call origin callee tyArgs args =>
    rw [Binding.bindExpr]
    intro s hs
    have hresolved := (Keeps.grows [] (resolveCallee expected callee tyArgs origin.range) s).valid hs
    rw [out_bind]
    cases hfound : out (resolveCallee expected callee tyArgs origin.range) s with
    | some target =>
      exact ((w.bindExprs target.hints args).seq fun bs hbs => w.obey_finishCall target hbs) _
        hresolved
    | none =>
      have hvalue := w.bindExpr none callee _ hresolved
      rw [out_bind]
      refine Gives.past (R := fun b => Obey P (Expr.nodes true b)) (checkValueTyArgs _ tyArgs _)
        (fun _ => ?_) _
        ((Keeps.grows [] (Binding.bindExpr none callee) _).valid hresolved)
      exact (w.bindExprs _ args).seq fun bs hbs u _ =>
        obey_expr (w.callValue u (isFnRef_callee hs hfound) hvalue hbs)
          (List.forall_mem_append.mpr ⟨hvalue, hbs⟩)
  | .lambda _ params ret body =>
    refine .past _ fun tys => .past _ fun declared s hs => ?_
    obtain ⟨_, _, _, u, hkind, hu⟩ :=
      kind_lambdaExpr s ((params.map Ast.Param.name).zip tys) declared (Binding.bindExpr declared body)
    exact w.plain hkind rfl (w.bindExpr declared body u (hu hs))
  | .record _ type tyArgs fields =>
    refine .past _ fun s => ?_
    cases s.registry.record? type.text with
    | none => exact .past _ fun _ => .past _ fun _ => .pure (w.plain rfl rfl hnil)
    | some record =>
      exact .past _ fun known => (w.bindFields record [] known fields).seq fun r hr => .past _ fun _ =>
        .pure (w.plain rfl rfl hr)
  | .field _ target name =>
    refine (w.bindExpr none target).seq fun b hb s _ => ?_
    obtain ⟨_, hkind⟩ := kind_fieldExpr s b name
    exact w.plain hkind rfl hb
  | .tuple _ elems => exact (w.bindExprs _ elems).seq fun bs hbs => .pure (w.plain rfl rfl hbs)
  | .list _ elems =>
    rw [bindExpr_list]
    exact (w.bindExprs _ elems).seq fun bs hbs s _ => w.plain (kind_listExpr s _ bs) rfl hbs
  | .map _ entries =>
    exact (w.bindEntries _ entries).seq fun bs hbs s _ => w.plain (kind_mapExpr s _ bs) rfl hbs
  | .index _ target index =>
    exact (w.bindExpr none target).seq fun b hb => (w.bindExpr none index).seq fun i hi s _ =>
      w.plain (kind_indexExpr s b i) rfl (List.forall_mem_append.mpr ⟨hb, hi⟩)
  | .ifElse _ cond thenBranch none =>
    exact (w.bindExpr none cond).seq fun c hc => .past _ fun _ => (w.bindBlock thenBranch).seq
      fun b hb s _ =>
      w.plain (kind_ifExpr s c b none) rfl (List.forall_mem_append.mpr ⟨hc, hb⟩)
  | .ifElse _ cond thenBranch (some elseBranch) =>
    refine (w.bindExpr none cond).seq fun c hc => .past _ fun _ => (w.bindBlock thenBranch).seq
      fun b hb =>
      (w.bindExpr expected elseBranch).seq fun e he s _ => obey_expr (w.ifElse s hb he) ?_
    exact List.forall_mem_append.mpr ⟨List.forall_mem_append.mpr ⟨hc, hb⟩, he⟩
  | .block block => exact (w.bindBlock block).seq fun b hb => .pure (w.plain rfl rfl hb)
  | .matchOn _ scrutinee arms =>
    exact (w.bindExpr none scrutinee).seq fun e he => (w.bindArms e.ty expected .initial arms).seq
      fun r hr =>
      fun _ _ => obey_expr (w.matchOn hr.1 hr.2.1) (List.forall_mem_append.mpr ⟨he, hr.1⟩)
  | .spawn _ body =>
    exact .past _ fun _ => (w.bindBlock body).seq fun b hb => .pure (w.plain rfl rfl hb)
  | .scope _ body =>
    rw [bindExpr_scope_eq]
    exact (Gives.withScopeDepth _ (w.bindBlock body)).map fun b hb => w.plain rfl rfl hb
  | .channel _ element => exact .past _ fun _ => .pure (w.plain rfl rfl hnil)
  | .par _ inner => exact (w.bindExpr expected inner).seq fun b hb => .pure (w.plain rfl rfl hb)

theorem bindExprs (w : NodeLaw P) (hints : List (Option Ty)) (es : List Ast.Expr) :
    Gives (bindExprs hints es) fun bs => Obey P (Expr.allNodes true bs) := by
  match es with
  | [] => exact .pure (List.forall_mem_nil _)
  | e :: es =>
    exact (w.bindExpr _ e).seq fun b hb => (w.bindExprs hints.tail es).seq fun bs hbs =>
      .pure (List.forall_mem_append.mpr ⟨hb, hbs⟩)

theorem bindEntries (w : NodeLaw P) (hint : Option Ty) (entries : List Ast.MapEntry) :
    Gives (bindEntries hint entries) fun bs => Obey P (Entry.allNodes true bs) := by
  match entries with
  | [] => exact .pure (List.forall_mem_nil _)
  | ⟨_, key, value⟩ :: entries =>
    exact (w.bindExpr _ key).seq fun k hk => .past _ fun _ => (w.bindExpr hint value).seq fun v hv =>
      (w.bindEntries hint entries).seq fun bs hbs =>
        .pure (List.forall_mem_append.mpr ⟨List.forall_mem_append.mpr ⟨hk, hv⟩, hbs⟩)

theorem bindFields (w : NodeLaw P) (record : RecordDef) (seen : List String) (known : Subst)
    (fields : List Ast.FieldInit) :
    Gives (bindFields record seen known fields) fun r => Obey P (FieldValue.allNodes true r.1) := by
  match fields with
  | [] => exact .pure (List.forall_mem_nil _)
  | ⟨_, name, value⟩ :: fields =>
    rw [Binding.bindFields]
    split
    · exact .past _ fun _ => .past _ fun _ => w.bindFields record seen known fields
    · split
      · exact .past _ fun _ => .past _ fun _ => w.bindFields record _ known fields
      · exact (w.bindExpr _ value).seq fun v hv => .past _ fun known =>
          (w.bindFields record _ known fields).seq fun r hr =>
          .pure (List.forall_mem_append.mpr ⟨hv, hr⟩)

/-- The arms, each of which is among those that they agree on in the end. -/
theorem bindArms (w : NodeLaw P) (target : Ty) (expected : Option Ty) (agreed : ArmTypes)
    (arms : List Ast.Arm) :
    Gives (bindArms target expected agreed arms) fun r => Obey P (Arm.allNodes true r.1) ∧
      (∀ arm ∈ r.1, r.2.Covers arm.body) ∧ ∀ body, agreed.Covers body → r.2.Covers body := by
  match arms with
  | [] => exact .pure ⟨List.forall_mem_nil _, List.forall_mem_nil _, fun _ h => h⟩
  | ⟨_, pattern, body⟩ :: arms =>
    refine .seqOf (keeps_inScope .matchArm (.seq (keeps_bindPattern target pattern) inferInstance))
      (.inScope .matchArm (.pastOf (keeps_bindPattern target pattern) fun p =>
      (w.bindExpr _ body).map fun b hb => ?_))
      (Q := fun arm => Obey P (arm.pattern.nodes ++ arm.body.nodes true)) fun arm harm => ?_
    · exact List.forall_mem_append.mpr ⟨forall_nodes_pattern w.pattern _, hb⟩
    refine (covers_noteArm agreed arm.body).seq fun agreed' hagreed =>
      (w.bindArms target expected agreed' arms).seq fun r hr => .pure ?_
    obtain ⟨hnodes, hcovers, hkept⟩ := hr
    obtain ⟨_, _, _⟩ := arm
    exact ⟨List.forall_mem_append.mpr ⟨harm, hnodes⟩,
      List.forall_mem_cons.mpr ⟨hkept _ hagreed.1, hcovers⟩,
      fun b hb => hkept b (hagreed.2 b hb)⟩

theorem bindBlock (w : NodeLaw P) (block : Ast.Block) :
    Gives (bindBlock block) fun b => Obey P (b.nodes true) := by
  match block with
  | ⟨_, stmts⟩ =>
    exact (Gives.inScope .block (w.bindStmts stmts)).map fun bs hbs =>
      List.forall_mem_cons.mpr ⟨w.block hbs, hbs⟩

theorem bindStmts (w : NodeLaw P) (stmts : List Ast.Stmt) :
    Gives (bindStmts stmts) fun bs => Obey P (Stmt.allNodes true bs) := by
  match stmts with
  | [] => exact .pure (List.forall_mem_nil _)
  | stmt :: stmts =>
    refine .seqOf (keeps_bindStmt stmt) (w.bindStmt stmt) fun o ho => (w.bindStmts stmts).map
      fun bs hbs => ?_
    cases o with
    | none => exact hbs
    | some b => exact List.forall_mem_append.mpr ⟨ho b rfl, hbs⟩

theorem bindStmt (w : NodeLaw P) (stmt : Ast.Stmt) :
    Gives (bindStmt stmt) fun o => ∀ b ∈ o, Obey P (b.nodes true) := by
  have hnil : Obey P [] := List.forall_mem_nil _
  have hsome : ∀ {b : Stmt}, Obey P (b.nodes true) → ∀ c ∈ some b, Obey P (c.nodes true) :=
    fun h _ hc =>
    Option.some.inj hc ▸ h
  match stmt with
  | .bindName _ name isMutable annot init =>
    refine .past _ fun annot => (w.bindExpr annot init).seq fun e he =>
      Gives.map (Q := fun kind => ∃ id, kind = .bindName id e) (fun _ _ => ?_) fun kind hkind => ?_
    · cases annot <;> exact ⟨_, rfl⟩
    · obtain ⟨id, rfl⟩ := hkind
      exact hsome (w.among rfl he hnil)
  | .assign _ name value =>
    exact .past _ fun target => (w.bindExpr _ value).seq fun e he => .past _ fun _ =>
      .pure (hsome (w.among (List.nil_append _).symm hnil he))
  | .expr _ value =>
    exact (w.bindExpr none value).seq fun e he =>
      .pure (hsome (w.among (List.nil_append _).symm hnil he))
  | .print _ value =>
    exact (w.bindExpr none value).seq fun e he =>
      .pure (hsome (w.among (List.nil_append _).symm hnil he))
  | .ret _ none => exact .past _ fun _ => .pure (hsome (w.among (List.nil_append _).symm hnil hnil))
  | .ret _ (some value) =>
    exact .past _ fun declared => (w.bindExpr declared value).seq fun e he => .past _ fun _ =>
      .pure (hsome (w.among rfl he hnil))
  | .block block =>
    exact (w.bindBlock block).seq fun b hb =>
      .pure (hsome (w.among (List.nil_append _).symm hnil hb))
  | .whileLoop _ cond body =>
    rw [bindStmt_whileLoop_eq]
    exact (w.bindExpr none cond).seq fun c hc => .past _ fun _ =>
      (Gives.withLoopDepth _ (w.bindBlock body)).map fun b hb =>
        hsome (w.among (List.nil_append _).symm hnil (List.forall_mem_append.mpr ⟨hc, hb⟩))
  | .forLoop _ item iterable body =>
    rw [bindStmt_forLoop_eq]
    exact (w.bindExpr none iterable).seq fun e he => .past _ fun ty =>
      Gives.map (.inScope .block (.pastOf (keeps_declareVar item false ty) fun id =>
        (Gives.withLoopDepth _ (w.bindBlock body)).map fun b hb => hb))
          (Q := fun r => Obey P (r.2.nodes true)) fun r hr =>
        hsome (w.among rfl he hr)
  | .breakLoop _ | .continueLoop _ =>
    exact .past _ fun _ => .pure (hsome (w.among (List.nil_append _).symm hnil hnil))
  | .fn .. | .record .. | .sum .. => exact .past _ fun _ => .pure fun _ h => by cases h

end

/-! ## Files -/

theorem bindFnScope (w : NodeLaw P) (f : Sig) (name : Ast.Name) (params : List Ast.Param)
    (body : Ast.Block) :
    Gives (bindFnScope f name params body) fun r => Obey P (r.2.1.nodes true) := by
  intro s hs
  have hparams :=
    ((@keeps_declareLocals .parameter rfl ((params.map Ast.Param.name).zip f.paramTys)).grows
    ((s.opened .fn).naming f.tyParams)).valid ((hs.opened .fn).congr rfl rfl rfl rfl)
  refine List.forall_mem_cons.mpr ⟨w.block ?_, ?_⟩ <;>
    exact w.bindStmts body.stmts _ (by exact hparams.congr rfl rfl rfl rfl)

theorem bodies (w : NodeLaw P) {sigs : List (Nat × SymId)} {index : Nat} {stmts : List Ast.Stmt}
    {s t : State} {fns : List FnDecl} (h : Bodies sigs index stmts s fns t) :
    ∀ f ∈ fns, Obey P (f.body.nodes true) := by
  induction h with
  | nil => exact List.forall_mem_nil _
  | skip _ _ ih => exact ih
  | @body _ _ name _ params _ body _ s _ _ _ f _ _ _ htop _ _ _ _ hscope _ ih =>
    have hbody := w.bindFnScope f name params body s htop.valid
    rw [hscope] at hbody
    exact List.forall_mem_cons.mpr ⟨hbody, ih⟩

/-- A law holds of all nodes of a bound file. -/
theorem exists_bind (w : NodeLaw P) (session : Session) (file : Ast.SourceFile) :
    ∃ p ds, (session.bind file).1 = .ok ⟨p, ds⟩ ∧ Obey P (p.nodes true) := by
  obtain ⟨ph, hran⟩ := exists_phases file.stmts session.state
  rw [Session.bind_eq_of_ran hran]
  refine ⟨ph.program, _, rfl,
    List.forall_mem_append.mpr ⟨fun n hn => ?_, w.bindStmts _ _ ph.top_bound.valid⟩⟩
  obtain ⟨f, hf, hn⟩ := List.mem_flatMap.mp hn
  exact w.bodies ph.bodies f hf n hn

end NodeLaw

end Binding

end Bindery
