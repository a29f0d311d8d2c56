import Bindery.Builtin
import Bindery.Proofs.Bound.Nodes
import Bindery.Proofs.Scope.Growth

/-!
# Typing rules of bound trees

The rules that a bound tree without type parameters obeys, one for each kind of node. They compare
types by plain equality and mention neither hints nor inference nor poison. A rule speaks of one
node and the types of its immediate parts, so a tree is well typed if each of its nodes is.

There is no rule for the placeholder of an expression that was reported, and none for a field, a
variant or a variable that was not found.
-/

namespace Bindery

/-- The table of binary operators. Both operands have the type `operand`. -/
inductive BinaryOp.Takes : BinaryOp → (operand result : Ty) → Prop
  | arithmetic {op : BinaryOp} {t : Ty} (hop : op.isArithmetic = true)
    (ht : t = .int ∨ t = .float) : Takes op t t
  | concatenation : Takes .add .string .string
  | comparison {op : BinaryOp} {t : Ty} (hop : op.isComparison = true)
    (ht : t = .int ∨ t = .float) : Takes op t .bool
  | equality {op : BinaryOp} {t : Ty} (hop : op.isEquality = true)
    (ht : t = .bool ∨ t = .int ∨ t = .float ∨ t = .string) : Takes op t .bool
  | logical {op : BinaryOp} (hop : op.isLogical = true) : Takes op .bool .bool

/-- The table of unary operators. -/
inductive UnaryOp.Takes : UnaryOp → (operand result : Ty) → Prop
  | not : Takes .not .bool .bool
  | sign {op : UnaryOp} {t : Ty} (hop : op = .plus ∨ op = .minus) (ht : t = .int ∨ t = .float) :
    Takes op t t

/-- The parameters are symbols of the given types. -/
def Symbols.HasParams (Γ : Symbols) : List SymId → List Ty → Prop :=
  List.Forall₂ fun id ty => ∃ sym, Γ.get? id = some sym ∧ sym.kind = .parameter ∧ sym.ty = ty

namespace Bound

/-- The expression that gives the body of a lambda its value. -/
def Expr.value? (body : Expr) : Option Expr :=
  match body.kind with
  | .block b => b.value?
  | _ => some body

/-- The results of a body fit the return type: what it returns, and its own value unless nothing is
to be returned. -/
structure ReturnsFit (ret : Ty) (returns : List (Ty × Range)) (value? : Option Expr) : Prop where
  returned : ∀ r ∈ returns, r.1 = ret
  value : ∀ e ∈ value?, e.diverges = false → ret = .unit ∨ e.ty = ret

/-- The typing rules of expressions. -/
inductive ExprRule (Γ : Symbols) : ExprKind → Ty → Prop
  | literal (v : Literal) : ExprRule Γ (.literal v) v.ty
  | var {id : SymId} {sym : Symbol} (hsym : Γ.get? id = some sym)
    (hlocal : sym.kind.isLocal = true) : ExprRule Γ (.var id) sym.ty
  | fnRef {id : SymId} {f : Sig} (hf : Γ.sig? id = some f) : ExprRule Γ (.fnRef id) f.ty
  | binary {op : BinaryOp} {left right : Expr} {ty : Ty} (hop : op.Takes left.ty ty)
    (hright : right.ty = left.ty) : ExprRule Γ (.binary op left right) ty
  | unary {op : UnaryOp} {operand : Expr} {ty : Ty} (hop : op.Takes operand.ty ty) :
    ExprRule Γ (.unary op operand) ty
  /-- The call of a function whose type does not depend on the arguments. -/
  | call {id : SymId} {f : Sig} {args : List Expr} (hf : Γ.sig? id = some f)
    (hordinary : f.isBuiltin = true → Builtin.ofName? f.name = none)
    (hargs : args.map Expr.ty = f.paramTys) : ExprRule Γ (.call id [] args) f.ret
  /-- The call of a built-in function that is typed from its arguments. -/
  | builtinCall {id : SymId} {f : Sig} {b : Builtin} {args : List Expr} {ty : Ty}
    (hf : Γ.sig? id = some f) (hbuiltin : f.isBuiltin = true) (hb : Builtin.ofName? f.name = some b)
    (hresolve : b.resolve (args.map Expr.ty) = .ok ty) : ExprRule Γ (.call id [] args) ty
  | callValue {callee : Expr} {args : List Expr} {ty : Ty}
    (hcallee : callee.ty = .fn (args.map Expr.ty) ty) : ExprRule Γ (.callValue callee args) ty
  | variant {id : SymId} {sym : Symbol} {sum : String} {declared : Option Ty} {payload : Option Expr}
    (hsym : Γ.get? id = some sym) (hkind : sym.kind = .variant sum declared)
    (hpayload : payload.map Expr.ty = declared) : ExprRule Γ (.variant id payload) (.sum sum [])
  | lambda {params captures : List SymId} {tys : List Ty} {ret : Ty} {body : Expr}
    (hparams : Γ.HasParams params tys)
    (hret : ReturnsFit ret (returnedBy (body.nodes false)) body.value?) :
    ExprRule Γ (.lambda params ret captures body) (.fn tys ret)
  /-- Every field of the record is given once, with the type of its declaration. -/
  | record {name : String} {fields : List FieldValue}
    (hdistinct : (fields.map FieldValue.field).Nodup)
    (hfields : ∀ id, id ∈ fields.map FieldValue.field ↔ ∃ sym, Γ.get? id = some sym ∧
      sym.kind = .field name)
    (htys : ∀ f ∈ fields, ∀ sym, Γ.get? f.field = some sym → f.value.ty = sym.ty) :
    ExprRule Γ (.record fields) (.record name [])
  | field {target : Expr} {id : SymId} {sym : Symbol} {name : String} (hsym : Γ.get? id = some sym)
    (hkind : sym.kind = .field name) (htarget : target.ty = .record name []) :
    ExprRule Γ (.field target (some id)) sym.ty
  | tuple (elems : List Expr) : ExprRule Γ (.tuple elems) (.tuple (elems.map Expr.ty))
  | list {elems : List Expr} {t : Ty} (h : ∀ e ∈ elems, e.ty = t) : ExprRule Γ (.list elems) (.list t)
  | map {entries : List Entry} {t : Ty} (hkeys : ∀ e ∈ entries, e.key.ty = .string)
    (hvalues : ∀ e ∈ entries, e.value.ty = t) : ExprRule Γ (.map entries) (.map t)
  | listIndex {target index : Expr} {t : Ty} (htarget : target.ty = .list t)
    (hindex : index.ty = .int) :
    ExprRule Γ (.index target index) t
  | mapIndex {target index : Expr} {t : Ty} (htarget : target.ty = .map t)
    (hindex : index.ty = .string) :
    ExprRule Γ (.index target index) t
  | ifOnly {cond : Expr} {thenBranch : Block} (hcond : cond.ty = .bool) :
    ExprRule Γ (.ifElse cond thenBranch none) .unit
  /-- Both branches have the type of the whole, except that one may diverge instead. -/
  | ifElse {cond elseBranch : Expr} {thenBranch : Block} {ty : Ty} (hcond : cond.ty = .bool)
    (hthen : thenBranch.diverges = false → thenBranch.ty = ty)
    (helse : thenBranch.diverges = true ∨ elseBranch.diverges = false → elseBranch.ty = ty) :
    ExprRule Γ (.ifElse cond thenBranch (some elseBranch)) ty
  | block (b : Block) : ExprRule Γ (.block b) b.ty
  /-- All arms that do not diverge have the type of the whole. -/
  | matchOn {scrutinee : Expr} {arms : List Arm} {ty : Ty}
    (hpatterns : ∀ arm ∈ arms, arm.pattern.ty = scrutinee.ty)
    (hbodies : ∀ arm ∈ arms, arm.body.diverges = false → arm.body.ty = ty)
    (hdiverge : (∀ arm ∈ arms, arm.body.diverges = true) → ty = .unit) :
    ExprRule Γ (.matchOn scrutinee arms) ty
  | spawn (b : Block) : ExprRule Γ (.spawn b) (.task b.ty)
  | scope (b : Block) : ExprRule Γ (.scope b) b.ty
  | channel (t : Ty) : ExprRule Γ (.channel t) (.tuple [.sender t, .receiver t])
  | par (e : Expr) : ExprRule Γ (.par e) e.ty

/-- The typing rules of patterns. -/
inductive PatternRule (Γ : Symbols) : PatternKind → Ty → Prop
  | literal (v : Literal) : PatternRule Γ (.literal v) v.ty
  | wildcard (t : Ty) : PatternRule Γ .wildcard t
  | binding {id : SymId} {sym : Symbol} (hsym : Γ.get? id = some sym)
    (hkind : sym.kind = .var false) : PatternRule Γ (.binding id sym.name) sym.ty
  | tuple (elems : List Pattern) : PatternRule Γ (.tuple elems) (.tuple (elems.map Pattern.ty))
  | variant {id : SymId} {sym : Symbol} {sum : String} {declared : Option Ty}
    {payload : Option Pattern}
    {bare : Bool} (hsym : Γ.get? id = some sym) (hkind : sym.kind = .variant sum declared)
    (hpayload : payload.map Pattern.ty = declared) :
    PatternRule Γ (.variant sym.name (some id) payload bare) (.sum sum [])

/-- The typing rules of statements. -/
inductive StmtRule (Γ : Symbols) : StmtKind → Prop
  | bindName {id : SymId} {sym : Symbol} {isMutable : Bool} {init : Expr} (hsym : Γ.get? id = some sym)
    (hkind : sym.kind = .var isMutable) (hinit : init.ty = sym.ty) : StmtRule Γ (.bindName id init)
  | assign {id : SymId} {sym : Symbol} {value : Expr} (hsym : Γ.get? id = some sym)
    (hkind : sym.kind = .var true) (hvalue : value.ty = sym.ty) :
    StmtRule Γ (.assign (some id) value)
  | expr (e : Expr) : StmtRule Γ (.expr e)
  | print (e : Expr) : StmtRule Γ (.print e)
  | ret (e : Option Expr) : StmtRule Γ (.ret e)
  | block (b : Block) : StmtRule Γ (.block b)
  | whileLoop {cond : Expr} {body : Block} (hcond : cond.ty = .bool) :
    StmtRule Γ (.whileLoop cond body)
  | forList {id : SymId} {sym : Symbol} {iterable : Expr} {body : Block} (hsym : Γ.get? id = some sym)
    (hkind : sym.kind = .var false) (hiterable : iterable.ty = .list sym.ty) :
    StmtRule Γ (.forLoop id iterable body)
  | forMap {id : SymId} {sym : Symbol} {iterable : Expr} {body : Block} {t : Ty}
    (hsym : Γ.get? id = some sym) (hkind : sym.kind = .var false) (hiterable : iterable.ty = .map t)
    (hitem : sym.ty = .tuple [.string, t]) : StmtRule Γ (.forLoop id iterable body)
  | breakLoop : StmtRule Γ .breakLoop
  | continueLoop : StmtRule Γ .continueLoop

/-- The typing rule of blocks. -/
structure BlockRule (b : Block) : Prop where
  value : ∀ e ∈ b.value?, e.ty = b.ty
  unit : b.value? = none → b.ty = .unit
  diverges : b.diverges = b.stmts.any Stmt.diverges

namespace Node

/-- The node obeys its typing rule. -/
def Typed (Γ : Symbols) : Node → Prop
  | .expr e => ExprRule Γ e.kind e.ty
  | .pattern p => PatternRule Γ p.kind p.ty
  | .stmt s => StmtRule Γ s.kind
  | .block b => BlockRule b

/-- The types that a node carries. -/
def types : Node → List Ty
  | .expr ⟨.call _ tyArgs _, ty, _⟩ => ty :: tyArgs
  | .expr ⟨.lambda _ ret _ _, ty, _⟩ => [ty, ret]
  | .expr ⟨.channel element, ty, _⟩ => [ty, element]
  | .expr e => [e.ty]
  | .pattern p => [p.ty]
  | .stmt _ => []
  | .block b => [b.ty]

/-- Whether the node stands for something: it is not the placeholder of an expression that was
reported, and the symbol that it refers to was found. -/
def isResolved : Node → Bool
  | .expr ⟨.error, _, _⟩ | .expr ⟨.field _ none, _, _⟩ | .pattern ⟨.variant _ none _ _, _, _⟩
  | .stmt ⟨.assign none _, _⟩ => false
  | _ => true

/-- A node that obeys its typing rule is resolved. -/
theorem Typed.isResolved {Γ : Symbols} {n : Node} (h : n.Typed Γ) : n.isResolved = true := by
  unfold Node.isResolved
  split
  · cases h
  · cases h
  · cases h
  · cases h
  · rfl

end Node

/-- The rule of a function declaration: the parameters have the types of the signature, and the
results of the body fit its return type. -/
structure FnDecl.Typed (Γ : Symbols) (d : FnDecl) (f : Sig) : Prop where
  sig : Γ.sig? d.symbol = some f
  params : Γ.HasParams d.params f.paramTys
  returns : ReturnsFit f.ret (returnedBy (d.body.nodes false)) d.body.value?

end Bound

/-! ## The tables of the operators -/

/-- The rows of the table for numbers. -/
theorem BinaryOp.takes_of_numeric {op : BinaryOp} {t ty : Ty} (ht : t = .int ∨ t = .float)
    (h : (if op.isArithmetic then some t else if op.isComparison || op.isEquality then some .bool
      else none) = some ty) : op.Takes t ty := by
  split at h
  · next hop =>
    cases h
    exact .arithmetic hop ht
  · split at h
    · next hop =>
      cases h
      rcases Bool.or_eq_true_iff.mp hop with hop | hop
      · exact .comparison hop ht
      · exact .equality hop (by tauto)
    · cases h

/-- The operator function of binding agrees with the table. -/
theorem BinaryOp.takes_of_resultTy? {op : BinaryOp} {left right ty : Ty}
    (h : op.resultTy? left right = some ty) : op.Takes left ty ∧ right = left := by
  unfold resultTy? at h
  split at h
  · -- truth values: logic and equality
    split at h
    · next hop =>
      cases h
      rcases Bool.or_eq_true_iff.mp hop with hop | hop
      · exact ⟨.logical hop, rfl⟩
      · exact ⟨.equality hop (.inl rfl), rfl⟩
    · cases h
  · exact ⟨takes_of_numeric (.inl rfl) h, rfl⟩
  · exact ⟨takes_of_numeric (.inr rfl) h, rfl⟩
  · -- texts: concatenation and equality
    split at h
    · next hop =>
      cases h
      subst hop
      exact ⟨.concatenation, rfl⟩
    · split at h
      · next hop =>
        cases h
        exact ⟨.equality hop (.inr (.inr (.inr rfl))), rfl⟩
      · cases h
  · cases h

/-- The operator function of binding agrees with the table. -/
theorem UnaryOp.takes_of_resultTy? {op : UnaryOp} {operand ty : Ty}
    (h : op.resultTy? operand = some ty) :
    op.Takes operand ty := by
  unfold resultTy? at h
  split at h
  · cases h
    exact .not
  · cases h
    exact .sign (.inl rfl) (.inl rfl)
  · cases h
    exact .sign (.inr rfl) (.inl rfl)
  · cases h
    exact .sign (.inl rfl) (.inr rfl)
  · cases h
    exact .sign (.inr rfl) (.inr rfl)
  · cases h

end Bindery
