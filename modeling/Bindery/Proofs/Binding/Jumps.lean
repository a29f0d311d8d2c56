import Bindery.Proofs.Binding.Account
import Bindery.Proofs.Ast.Replacement

/-!
# Trees that do not jump

The jumps of a bound tree are those of its source. So a tree without a `return` of its own leaves
the functions around it as they are, and a tree without any jump of its own does not diverge. What
happens in the body of a lambda stays there.
-/

namespace Bindery.Binding

open Bindery.Bound

variable {Γ : Symbols} {s t : State}

/-- A reference leaves the functions as they are. -/
theorem Quiet.fns_resolveVar {name : Ast.Name} {result : Option SymId} (hs : s.Valid)
    (h : Quiet Γ (Binding.resolveVar name) s result t) : t.fns = s.fns := by
  obtain ⟨-, ⟨-, rfl⟩ | ⟨_, _, _, -, -, -, -, -, -, rfl⟩⟩ := h.resolveVar hs
  · rfl
  · rfl

/-- A call by name does not diverge. -/
theorem Quiet.diverges_finishCall {callee : Callee} {args : List Expr} {range : Range} {b : Expr}
    (h : Quiet Γ (Binding.finishCall callee args range) s b t) : b.diverges = false := by
  cases callee with
  | fn symbol f explicit isExplicit agrees =>
    obtain ⟨-, -, -, closed, -, rfl⟩ := Quiet.finishFnCall h
    rfl
  | builtin symbol name builtin =>
    obtain ⟨-, ty, -, rfl⟩ := Quiet.finishBuiltinCall h
    rfl
  | variant sum name d known =>
    obtain ⟨-, ⟨-, -, rfl⟩ | ⟨payload, arg, -, -, -, rfl⟩⟩ := Quiet.finishVariantCall h
    · rfl
    · rfl
  | undefined =>
    obtain ⟨rfl, -⟩ := h.pure
    rfl

/-! ## Divergence -/

/-- The node does not jump, and a block diverges exactly if one of its statements does. -/
def Steady : Node → Prop
  | .block b => b.diverges = b.stmts.any Stmt.diverges
  | n => n.isJump = false

mutual

theorem diverges_expr (b : Expr) (h : ∀ n ∈ b.nodes false, Steady n) : b.diverges = false := by
  match b with
  | ⟨.block block, ty, range⟩ => exact diverges_block block (List.forall_mem_cons.mp h).2
  | ⟨.ifElse cond thenBranch (some elseBranch), ty, range⟩ =>
    have hparts := (List.forall_mem_cons.mp h).2
    have hthen :=
      diverges_block thenBranch (List.forall_mem_append.mp (List.forall_mem_append.mp hparts).1).2
    simp [Expr.diverges, hthen]
  | ⟨.ifElse _ _ none, _, _⟩ | ⟨.literal _, _, _⟩ | ⟨.var _, _, _⟩ | ⟨.fnRef _, _, _⟩ | ⟨.channel _,
    _, _⟩
  | ⟨.error, _, _⟩ | ⟨.variant .., _, _⟩ | ⟨.unary .., _, _⟩ | ⟨.field .., _, _⟩ | ⟨.par _, _,
    _⟩ | ⟨.binary .., _, _⟩
  | ⟨.index .., _, _⟩ | ⟨.call .., _, _⟩ | ⟨.tuple _, _, _⟩ | ⟨.list _, _, _⟩ | ⟨.callValue .., _, _⟩
  | ⟨.lambda .., _, _⟩ | ⟨.record _, _, _⟩ | ⟨.map _, _, _⟩ | ⟨.spawn _, _, _⟩ | ⟨.scope _, _, _⟩
  | ⟨.matchOn .., _, _⟩ => rfl

theorem diverges_block (b : Block) (h : ∀ n ∈ b.nodes false, Steady n) : b.diverges = false := by
  match b with
  | ⟨stmts, ty, diverges, range⟩ =>
    obtain ⟨hblock, hstmts⟩ := List.forall_mem_cons.mp h
    exact hblock.trans (diverges_stmts stmts hstmts)

theorem diverges_stmts (bs : List Stmt) (h : ∀ n ∈ Stmt.allNodes false bs, Steady n) :
    bs.any Stmt.diverges = false := by
  match bs with
  | [] => rfl
  | b :: bs =>
    obtain ⟨hfirst, hrest⟩ := List.forall_mem_append.mp h
    rw [List.any_cons, diverges_stmt b hfirst, diverges_stmts bs hrest]
    rfl

theorem diverges_stmt (b : Stmt) (h : ∀ n ∈ b.nodes false, Steady n) : b.diverges = false := by
  match b with
  | ⟨.expr value, range⟩ => exact diverges_expr value (List.forall_mem_cons.mp h).2
  | ⟨.block block, range⟩ => exact diverges_block block (List.forall_mem_cons.mp h).2
  | ⟨.ret none, range⟩ | ⟨.breakLoop, range⟩ | ⟨.continueLoop, range⟩ =>
    exact absurd (List.forall_mem_cons.mp h).1 (by simp [Steady, Node.isJump])
  | ⟨.ret (some value), range⟩ =>
    exact absurd ((List.forall_mem_append.mp h).2 _ (List.mem_singleton.mpr rfl))
      (by simp [Steady, Node.isJump])
  | ⟨.bindName .., _⟩ | ⟨.assign .., _⟩ | ⟨.print _, _⟩ | ⟨.whileLoop .., _⟩ | ⟨.forLoop .., _⟩ => rfl

end

/-! ## Jumps of the source -/

/-- The bound nodes return and jump only where the source does. -/
structure Jumps (source : List Ast.Node) (bound : List Node) : Prop where
  returned : Ast.returns source = false → returnedBy bound = []
  steady : Ast.jumps source = false → ∀ n ∈ bound, Steady n

namespace Jumps

variable {source source' : List Ast.Node} {bound bound' : List Node}

theorem nil : Jumps source [] := ⟨fun _ => rfl, fun _ _ h => nomatch h⟩

theorem append (h : Jumps source bound) (h' : Jumps source' bound') :
    Jumps (source ++ source') (bound ++ bound') where
  returned hsource := by
    rw [Ast.returns_append, Bool.or_eq_false_iff] at hsource
    rw [returnedBy_append, h.returned hsource.1, h'.returned hsource.2, List.append_nil]
  steady hsource := by
    rw [Ast.jumps_append, Bool.or_eq_false_iff] at hsource
    exact List.forall_mem_append.mpr ⟨h.steady hsource.1, h'.steady hsource.2⟩

/-- A node of the source that makes no node. -/
theorem left {n : Ast.Node} (h : Jumps source bound) : Jumps (n :: source) bound where
  returned hsource := h.returned (Bool.or_eq_false_iff.mp hsource).2
  steady hsource := h.steady (Bool.or_eq_false_iff.mp hsource).2

/-- A bound node that is no return. -/
theorem right {n : Node} (h : Jumps source bound) (hreturned : n.returned = [])
    (hn : Ast.jumps source = false → Steady n) : Jumps source (n :: bound) where
  returned hsource := by rw [returnedBy_cons, hreturned, h.returned hsource, List.append_nil]
  steady hsource := List.forall_mem_cons.mpr ⟨hn hsource, h.steady hsource⟩

theorem pattern (p : Pattern) : Jumps source p.nodes where
  returned _ := List.flatMap_eq_nil_iff.mpr (forall_nodes_pattern (fun _ => rfl) p)
  steady _ := forall_nodes_pattern (fun _ => rfl) p

/-- A tree that is bound quietly jumps only where its source does. -/
theorem traversal : Traversal Γ fun source _ bound _ => Jumps (source false) (bound false) where
  nil := nil
  trans _ h h' := h.append h'
  inScope _ h := h
  withLoopDepth h := h
  withScopeDepth h := h
  pattern _ _ := pattern _
  name _ _ _ := nil.right rfl fun _ => rfl
  callee := nil
  lambda _ h _ := by
    obtain ⟨tys, declared, -, -, hlambda⟩ := h.bindExpr_lambda
    obtain ⟨_, _, _, _, _, _, -, -, -, -, -, rfl⟩ := hlambda.lambdaExpr (keeps_bindExpr _ _)
    exact nil.right rfl fun _ => rfl
  expr _ _ _ h := h.left.right rfl fun _ => rfl
  block _ h := h.right rfl fun _ => rfl
  stmt _ hb hjump h :=
    h.left.right hb.2.2 fun hsource => hjump.trans (Bool.or_eq_false_iff.mp hsource).1
  started h := h.left
  declaring _ _ _ hreturned hb := nil.right hreturned fun _ => hb
  assigning _ _ := nil.right rfl fun _ => rfl
  returning _ _ _ _ _ _ :=
    ⟨fun h => by simp [Ast.Node.isReturn] at h, fun h => by simp [Ast.Node.isJump] at h⟩

end Jumps

/-- An expression that is bound quietly: without a `return` it notes none, and without a jump it
does not diverge. -/
theorem stays_bindExpr (e : Ast.Expr) {expected : Option Ty} {b : Expr} (hs : s.Valid)
    (h : Quiet Γ (bindExpr expected e) s b t) :
    (Ast.returns (e.nodes false) = false → t.fns = s.fns) ∧
      (Ast.jumps (e.nodes false) = false → b.diverges = false) := by
  have hjumps := Jumps.traversal.bindExpr e hs h
  refine ⟨fun hsource => ?_, fun hsource => diverges_expr b (hjumps.steady hsource)⟩
  rw [(Accounts.traversal.bindExpr e hs h).returned, hjumps.returned hsource, modifyHead_noting_nil]

theorem stays_bindStmts (stmts : List Ast.Stmt) {bs : List Stmt} (hs : s.Valid)
    (h : Quiet Γ (bindStmts stmts) s bs t)
    (hsource : Ast.returns (Ast.Stmt.allNodes false stmts) = false) :
    t.fns = s.fns := by
  rw [(Accounts.traversal.bindStmts stmts hs h).returned,
    (Jumps.traversal.bindStmts stmts hs h).returned hsource,
    modifyHead_noting_nil]

end Bindery.Binding
