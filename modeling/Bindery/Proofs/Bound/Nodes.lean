import Bindery.Bound.Tree

/-!
# The nodes of a bound tree

`nodes` lists everything below a bound tree, itself included, in the order in which binding makes
it: a part before what stands to its right, the value of a `let` before the name it declares, the
target of an assignment before its value. A shallow list leaves out the bodies of lambdas.

Each node declares some symbols, refers to some and returns some values by itself; what a tree
declares, refers to and returns is what its nodes do.
-/

namespace Bindery.Bound

/-- A part of a bound tree. -/
inductive Node where
  | expr (e : Expr)
  | pattern (p : Pattern)
  | stmt (s : Stmt)
  | block (b : Block)

mutual

/-- The nodes of a pattern. -/
def Pattern.nodes : Pattern → List Node
  | ⟨.tuple elems, ty, range⟩ => .pattern ⟨.tuple elems, ty, range⟩ :: Pattern.allNodes elems
  | ⟨.variant name symbol (some payload) bare, ty, range⟩ =>
    .pattern ⟨.variant name symbol (some payload) bare, ty, range⟩ :: payload.nodes
  | p => [.pattern p]

/-- The nodes of patterns. -/
def Pattern.allNodes : List Pattern → List Node
  | [] => []
  | p :: ps => p.nodes ++ Pattern.allNodes ps

end

mutual

/-- The nodes of an expression; those in the bodies of lambdas only if `deep`. -/
def Expr.nodes (deep : Bool) : Expr → List Node
  | ⟨kind, ty, range⟩ => .expr ⟨kind, ty, range⟩ :: kind.nodes deep

/-- The nodes below an expression. -/
def ExprKind.nodes (deep : Bool) : ExprKind → List Node
  | .literal _ | .var _ | .fnRef _ | .channel _ | .error | .variant _ none => []
  | .unary _ e | .field e _ | .par e | .variant _ (some e) => e.nodes deep
  | .binary _ left right | .index left right => left.nodes deep ++ right.nodes deep
  | .call _ _ es | .tuple es | .list es => Expr.allNodes deep es
  | .callValue callee args => callee.nodes deep ++ Expr.allNodes deep args
  | .lambda _ _ _ body => if deep then body.nodes deep else []
  | .record fields => FieldValue.allNodes deep fields
  | .map entries => Entry.allNodes deep entries
  | .ifElse cond thenBranch none => cond.nodes deep ++ thenBranch.nodes deep
  | .ifElse cond thenBranch (some elseBranch) =>
    cond.nodes deep ++ thenBranch.nodes deep ++ elseBranch.nodes deep
  | .block b | .spawn b | .scope b => b.nodes deep
  | .matchOn scrutinee arms => scrutinee.nodes deep ++ Arm.allNodes deep arms

/-- The nodes of expressions. -/
def Expr.allNodes (deep : Bool) : List Expr → List Node
  | [] => []
  | e :: es => e.nodes deep ++ Expr.allNodes deep es

/-- The nodes of the fields of a record expression. -/
def FieldValue.allNodes (deep : Bool) : List FieldValue → List Node
  | [] => []
  | ⟨_, value⟩ :: fields => value.nodes deep ++ FieldValue.allNodes deep fields

/-- The nodes of the entries of a map expression. -/
def Entry.allNodes (deep : Bool) : List Entry → List Node
  | [] => []
  | ⟨key, value⟩ :: entries => key.nodes deep ++ value.nodes deep ++ Entry.allNodes deep entries

/-- The nodes of the arms of a match. -/
def Arm.allNodes (deep : Bool) : List Arm → List Node
  | [] => []
  | ⟨pattern, body, _⟩ :: arms => pattern.nodes ++ body.nodes deep ++ Arm.allNodes deep arms

/-- The nodes of a block. -/
def Block.nodes (deep : Bool) : Block → List Node
  | ⟨stmts, ty, diverges, range⟩ => .block ⟨stmts, ty, diverges, range⟩ :: Stmt.allNodes deep stmts

/-- The nodes of a statement. -/
def Stmt.nodes (deep : Bool) : Stmt → List Node
  | ⟨.bindName symbol init, range⟩ => init.nodes deep ++ [.stmt ⟨.bindName symbol init, range⟩]
  | ⟨.assign symbol value, range⟩ => .stmt ⟨.assign symbol value, range⟩ :: value.nodes deep
  | ⟨.expr value, range⟩ => .stmt ⟨.expr value, range⟩ :: value.nodes deep
  | ⟨.print value, range⟩ => .stmt ⟨.print value, range⟩ :: value.nodes deep
  | ⟨.ret none, range⟩ => [.stmt ⟨.ret none, range⟩]
  | ⟨.ret (some value), range⟩ => value.nodes deep ++ [.stmt ⟨.ret (some value), range⟩]
  | ⟨.block b, range⟩ => .stmt ⟨.block b, range⟩ :: b.nodes deep
  | ⟨.whileLoop cond body, range⟩ =>
    .stmt ⟨.whileLoop cond body, range⟩ :: (cond.nodes deep ++ body.nodes deep)
  | ⟨.forLoop item iterable body, range⟩ =>
    iterable.nodes deep ++ .stmt ⟨.forLoop item iterable body, range⟩ :: body.nodes deep
  | ⟨.breakLoop, range⟩ => [.stmt ⟨.breakLoop, range⟩]
  | ⟨.continueLoop, range⟩ => [.stmt ⟨.continueLoop, range⟩]

/-- The nodes of statements. -/
def Stmt.allNodes (deep : Bool) : List Stmt → List Node
  | [] => []
  | s :: ss => s.nodes deep ++ Stmt.allNodes deep ss

end

/-! ## What nodes do -/

namespace Node

/-- The symbols that a node declares. -/
def declared : Node → List SymId
  | .expr ⟨.lambda params _ _ _, _, _⟩ => params
  | .pattern ⟨.binding symbol _, _, _⟩ => [symbol]
  | .stmt ⟨.bindName symbol _, _⟩ => [symbol]
  | .stmt ⟨.forLoop item _ _, _⟩ => [item]
  | _ => []

/-- The symbols that a node refers to: the variable that an expression names and the one that a
statement assigns. -/
def referred : Node → List SymId
  | .expr ⟨.var symbol, _, _⟩ => [symbol]
  | .stmt ⟨.assign (some symbol) _, _⟩ => [symbol]
  | _ => []

/-- The type and place of the value that a node returns. -/
def returned : Node → List (Ty × Range)
  | .stmt ⟨.ret none, range⟩ => [(.unit, range)]
  | .stmt ⟨.ret (some value), _⟩ => [(value.ty, value.range)]
  | _ => []

/-- The return type and the body of a bound lambda. -/
def lambdas : Node → List (Ty × Expr)
  | .expr ⟨.lambda _ ret _ body, _, _⟩ => [(ret, body)]
  | _ => []

/-- Whether the node is a `return`, `break` or `continue`. -/
def isJump : Node → Bool
  | .stmt ⟨.ret _, _⟩ | .stmt ⟨.breakLoop, _⟩ | .stmt ⟨.continueLoop, _⟩ => true
  | _ => false

/-- The node by itself neither declares nor refers to nor returns anything. -/
def IsPlain (n : Node) : Prop := n.declared = [] ∧ n.referred = [] ∧ n.returned = []

end Node

/-- The symbols that nodes declare, in order. -/
def declaredBy (nodes : List Node) : List SymId := nodes.flatMap Node.declared

/-- The symbols that nodes refer to, in order. -/
def referredBy (nodes : List Node) : List SymId := nodes.flatMap Node.referred

/-- What nodes return, in order. -/
def returnedBy (nodes : List Node) : List (Ty × Range) := nodes.flatMap Node.returned

/-- The symbols that a lambda refers to and that are declared outside it: without repetitions, in
the order of first reference in the body. -/
def freeVars (params : List SymId) (body : Expr) : List SymId :=
  ((referredBy (body.nodes true)).filter fun symbol =>
    !(params ++ declaredBy (body.nodes true)).contains symbol).eraseDups

/-- The nodes of all functions and statements of a bound file. -/
def Program.nodes (deep : Bool) (p : Program) : List Node :=
  p.fns.flatMap (fun f => f.body.nodes deep) ++ Stmt.allNodes deep p.stmts

variable (n : Node) (ns ms : List Node)

@[simp]
theorem declaredBy_nil : declaredBy [] = [] := rfl

@[simp]
theorem declaredBy_cons : declaredBy (n :: ns) = n.declared ++ declaredBy ns := List.flatMap_cons

@[simp]
theorem declaredBy_append : declaredBy (ns ++ ms) = declaredBy ns ++ declaredBy ms :=
  List.flatMap_append

@[simp]
theorem referredBy_nil : referredBy [] = [] := rfl

@[simp]
theorem referredBy_cons : referredBy (n :: ns) = n.referred ++ referredBy ns := List.flatMap_cons

@[simp]
theorem referredBy_append : referredBy (ns ++ ms) = referredBy ns ++ referredBy ms :=
  List.flatMap_append

@[simp]
theorem returnedBy_nil : returnedBy [] = [] := rfl

@[simp]
theorem returnedBy_cons : returnedBy (n :: ns) = n.returned ++ returnedBy ns := List.flatMap_cons

@[simp]
theorem returnedBy_append : returnedBy (ns ++ ms) = returnedBy ns ++ returnedBy ms :=
  List.flatMap_append

/-! ## What is among the nodes -/

mutual

theorem forall_nodes_pattern {P : Node → Prop} (hP : ∀ p, P (.pattern p)) (p : Pattern) :
    ∀ n ∈ p.nodes, P n := by
  match p with
  | ⟨.tuple elems, ty, range⟩ => exact List.forall_mem_cons.mpr ⟨hP _, forall_nodes_patterns hP elems⟩
  | ⟨.variant name symbol (some payload) bare, ty, range⟩ =>
    exact List.forall_mem_cons.mpr ⟨hP _, forall_nodes_pattern hP payload⟩
  | ⟨.variant name symbol none bare, ty, range⟩ => simpa [Pattern.nodes] using hP _
  | ⟨.literal value, ty, range⟩ => simpa [Pattern.nodes] using hP _
  | ⟨.wildcard, ty, range⟩ => simpa [Pattern.nodes] using hP _
  | ⟨.binding symbol name, ty, range⟩ => simpa [Pattern.nodes] using hP _

theorem forall_nodes_patterns {P : Node → Prop} (hP : ∀ p, P (.pattern p)) (ps : List Pattern) :
    ∀ n ∈ Pattern.allNodes ps, P n := by
  match ps with
  | [] => simp [Pattern.allNodes]
  | p :: ps =>
    exact List.forall_mem_append.mpr ⟨forall_nodes_pattern hP p, forall_nodes_patterns hP ps⟩

end

theorem Expr.mem_nodes (e : Expr) (deep : Bool) : .expr e ∈ e.nodes deep := by
  cases e
  exact List.mem_cons_self

theorem Block.mem_nodes (b : Block) (deep : Bool) : .block b ∈ b.nodes deep := by
  cases b
  exact List.mem_cons_self

theorem Stmt.mem_nodes (b : Stmt) (deep : Bool) : .stmt b ∈ b.nodes deep := by
  obtain ⟨kind, range⟩ := b
  cases kind with
  | ret value => cases value <;> simp [Stmt.nodes]
  | _ => simp [Stmt.nodes]

theorem Expr.mem_allNodes {e : Expr} {es : List Expr} (deep : Bool) (h : e ∈ es) :
    .expr e ∈ Expr.allNodes deep es := by
  induction h with
  | head => exact List.mem_append_left _ (e.mem_nodes deep)
  | tail _ _ ih => exact List.mem_append_right _ ih

theorem Stmt.mem_allNodes {b : Stmt} {bs : List Stmt} (deep : Bool) (h : b ∈ bs) :
    .stmt b ∈ Stmt.allNodes deep bs := by
  induction h with
  | head => exact List.mem_append_left _ (b.mem_nodes deep)
  | tail _ _ ih => exact List.mem_append_right _ ih

theorem Arm.mem_allNodes {arm : Arm} {arms : List Arm} (deep : Bool) (h : arm ∈ arms) :
    .expr arm.body ∈ Arm.allNodes deep arms := by
  induction h with
  | head =>
    cases arm
    exact List.mem_append_left _ (List.mem_append_right _ (Expr.mem_nodes _ deep))
  | tail other _ ih =>
    cases other
    exact List.mem_append_right _ ih

end Bindery.Bound
