import Bindery.Bound.Tree
import Bindery.Proofs.Scope.Growth
import Bindery.Proofs.Ast.Nodes

/-!
# What bound trees refer to

`label?` reads off a table of symbols what a symbol stands for and its name. `BindsTo Γ` relates a
syntax tree to a bound tree of the same shape whose numbers all are numbers of symbols in `Γ`, of
the kind that their place asks for and with the name that the syntax tree has there. What could not
be resolved is an absent number or the expression `ExprKind.error`; declarations inside bodies,
fields of record expressions that are reported and arguments that a variant does not take are left
out.
-/

namespace Bindery

/-- What a symbol stands for, whatever the types are. -/
inductive SymbolRole where
  | var
  | parameter
  | fn
  | field (record : String)
  | variant (sum : String)
deriving DecidableEq

/-- What a symbol of the kind stands for. -/
def SymKind.role : SymKind → SymbolRole
  | .var _ => .var
  | .parameter => .parameter
  | .fn _ => .fn
  | .field record => .field record
  | .variant sum _ => .variant sum

namespace Symbols

/-- What a symbol stands for, and its name. -/
def label? (Γ : Symbols) (id : SymId) : Option (SymbolRole × String) :=
  (Γ.get? id).map fun sym => (sym.kind.role, sym.name)

/-- The symbol is a variable or a parameter with that name. -/
def IsLocal (Γ : Symbols) (id : SymId) (name : String) : Prop :=
  Γ.label? id = some (.var, name) ∨ Γ.label? id = some (.parameter, name)

/-- The symbols are the parameters with these names. -/
def AreParameters (Γ : Symbols) (params : List Ast.Param) (ids : List SymId) : Prop :=
  List.Forall₂ (fun p id => Γ.label? id = some (.parameter, p.name.text)) params ids

end Symbols

namespace Ast

/-- The symbol is the variant with that name of the sum that the type is. -/
def VariantOf (Γ : Symbols) (ty : Ty) (name : String) (id : SymId) : Prop :=
  ∃ sum args, ty = .sum sum args ∧ Γ.label? id = some (.variant sum, name)

/-- The symbol is the field with that name of the record that the type is. -/
def FieldOf (Γ : Symbols) (ty : Ty) (name : String) (id : SymId) : Prop :=
  ∃ record args, ty = .record record args ∧ Γ.label? id = some (.field record, name)

mutual

/-- The pattern is bound to a pattern whose numbers are those of symbols of the table. -/
def Pattern.BindsTo (Γ : Symbols) : Pattern → Bound.Pattern → Prop
  | .literal _ value, b => b.kind = .literal value
  | .wildcard _, b => b.kind = .wildcard
  | .name n, b =>
    (∃ id, b.kind = .binding id n.text ∧ Γ.label? id = some (.var, n.text)) ∨
      ∃ id, b.kind = .variant n.text (some id) none true ∧ VariantOf Γ b.ty n.text id
  | .tuple _ elems, b => ∃ bs, b.kind = .tuple bs ∧ Pattern.AllBindTo Γ elems bs
  | .variant _ n none, b =>
    ∃ symbol, b.kind = .variant n.text symbol none false ∧ ∀ id ∈ symbol, VariantOf Γ b.ty n.text id
  | .variant _ n (some payload), b =>
    ∃ symbol p, b.kind = .variant n.text symbol (some p) false ∧
      (∀ id ∈ symbol, VariantOf Γ b.ty n.text id) ∧
      Pattern.BindsTo Γ payload p

/-- Patterns are bound one by one. -/
def Pattern.AllBindTo (Γ : Symbols) : List Pattern → List Bound.Pattern → Prop
  | [], bs => bs = []
  | p :: ps, bs => ∃ b bs', bs = b :: bs' ∧ Pattern.BindsTo Γ p b ∧ Pattern.AllBindTo Γ ps bs'

end

/-- A name is bound to a variable, a function or a variant of that name. -/
def Name.BindsTo (Γ : Symbols) (n : Name) (b : Bound.Expr) : Prop :=
  (∃ id, b.kind = .var id ∧ Γ.IsLocal id n.text) ∨
    (∃ id, b.kind = .fnRef id ∧ Γ.label? id = some (.fn, n.text)) ∨
    (∃ id, b.kind = .variant id none ∧ VariantOf Γ b.ty n.text id) ∨ b.kind = .error

/-- A call by name calls a function or makes a variant of that name. -/
def Name.CallsTo (Γ : Symbols) (n : Name) (args : List Bound.Expr) (b : Bound.Expr) : Prop :=
  (∃ id tyArgs, b.kind = .call id tyArgs args ∧ Γ.label? id = some (.fn, n.text)) ∨
    (∃ id payload, b.kind = .variant id payload ∧ (payload = none ∨ args = payload.toList) ∧
      VariantOf Γ b.ty n.text id) ∨ b.kind = .error

mutual

/-- The expression is bound to an expression whose numbers are those of symbols of the table. -/
def Expr.BindsTo (Γ : Symbols) : Expr → Bound.Expr → Prop
  | .literal _ value, b => b.kind = .literal value
  | .name n, b => n.BindsTo Γ b
  | .binary _ op left right, b =>
    ∃ l r, b.kind = .binary op l r ∧ Expr.BindsTo Γ left l ∧ Expr.BindsTo Γ right r
  | .unary _ op operand, b => ∃ e, b.kind = .unary op e ∧ Expr.BindsTo Γ operand e
  | .call _ callee _ args, b =>
    ∃ bs, Expr.AllBindTo Γ args bs ∧
      ((∃ value, b.kind = .callValue value bs ∧ Expr.BindsTo Γ callee value) ∨ ∃ n,
      callee = .name n ∧ n.CallsTo Γ bs b)
  | .lambda _ params _ body, b =>
    ∃ ids ret captures e, b.kind = .lambda ids ret captures e ∧ Γ.AreParameters params ids ∧
      (∀ id ∈ captures, ∃ n ∈ references (body.nodes true), Γ.IsLocal id n) ∧ Expr.BindsTo Γ body e
  | .record _ type _ fields, b =>
    b.kind = .error ∨ ∃ values args, b.kind = .record values ∧ b.ty = .record type.text args ∧
      FieldInit.AllBindTo Γ type.text fields values
  | .field _ target n, b =>
    ∃ e field, b.kind = .field e field ∧ Expr.BindsTo Γ target e ∧ ∀ id ∈ field,
      FieldOf Γ e.ty n.text id
  | .tuple _ elems, b => ∃ bs, b.kind = .tuple bs ∧ Expr.AllBindTo Γ elems bs
  | .list _ elems, b => ∃ bs, b.kind = .list bs ∧ Expr.AllBindTo Γ elems bs
  | .map _ entries, b => ∃ bs, b.kind = .map bs ∧ MapEntry.AllBindTo Γ entries bs
  | .index _ target index, b =>
    ∃ e i, b.kind = .index e i ∧ Expr.BindsTo Γ target e ∧ Expr.BindsTo Γ index i
  | .ifElse _ cond thenBranch none, b =>
    ∃ c t, b.kind = .ifElse c t none ∧ Expr.BindsTo Γ cond c ∧ Block.BindsTo Γ thenBranch t
  | .ifElse _ cond thenBranch (some elseBranch), b =>
    ∃ c t e, b.kind = .ifElse c t (some e) ∧ Expr.BindsTo Γ cond c ∧ Block.BindsTo Γ thenBranch t ∧
      Expr.BindsTo Γ elseBranch e
  | .block block, b => ∃ b', b.kind = .block b' ∧ Block.BindsTo Γ block b'
  | .matchOn _ scrutinee arms, b =>
    ∃ e bs, b.kind = .matchOn e bs ∧ Expr.BindsTo Γ scrutinee e ∧ Arm.AllBindTo Γ arms bs
  | .spawn _ body, b => ∃ b', b.kind = .spawn b' ∧ Block.BindsTo Γ body b'
  | .scope _ body, b => ∃ b', b.kind = .scope b' ∧ Block.BindsTo Γ body b'
  | .channel _ _, b => ∃ element, b.kind = .channel element
  | .par _ inner, b => ∃ e, b.kind = .par e ∧ Expr.BindsTo Γ inner e

/-- Expressions are bound one by one. -/
def Expr.AllBindTo (Γ : Symbols) : List Expr → List Bound.Expr → Prop
  | [], bs => bs = []
  | e :: es, bs => ∃ b bs', bs = b :: bs' ∧ Expr.BindsTo Γ e b ∧ Expr.AllBindTo Γ es bs'

/-- The fields of a record expression are bound to fields of the record, or left out. -/
def FieldInit.AllBindTo (Γ : Symbols) (record : String) : List FieldInit → List Bound.FieldValue → Prop
  | [], bs => bs = []
  | ⟨_, name, value⟩ :: fields, bs =>
    FieldInit.AllBindTo Γ record fields bs ∨
      ∃ id b bs', bs = ⟨id, b⟩ :: bs' ∧ Γ.label? id = some (.field record, name.text) ∧
        Expr.BindsTo Γ value b ∧
        FieldInit.AllBindTo Γ record fields bs'

/-- The entries of a map expression are bound one by one. -/
def MapEntry.AllBindTo (Γ : Symbols) : List MapEntry → List Bound.Entry → Prop
  | [], bs => bs = []
  | ⟨_, key, value⟩ :: entries, bs =>
    ∃ k v bs', bs = ⟨k, v⟩ :: bs' ∧ Expr.BindsTo Γ key k ∧ Expr.BindsTo Γ value v ∧
      MapEntry.AllBindTo Γ entries bs'

/-- The arms of a match are bound one by one. -/
def Arm.AllBindTo (Γ : Symbols) : List Arm → List Bound.Arm → Prop
  | [], bs => bs = []
  | ⟨_, pattern, body⟩ :: arms, bs =>
    ∃ b bs', bs = b :: bs' ∧ pattern.BindsTo Γ b.pattern ∧ Expr.BindsTo Γ body b.body ∧
      Arm.AllBindTo Γ arms bs'

/-- The statements of a block are bound. -/
def Block.BindsTo (Γ : Symbols) : Block → Bound.Block → Prop
  | ⟨_, stmts⟩, b => Stmt.AllBindTo Γ stmts b.stmts

/-- The statement is bound to a statement whose numbers are those of symbols of the table. -/
def Stmt.BindsTo (Γ : Symbols) : Stmt → Bound.Stmt → Prop
  | .bindName _ name _ _ init, b =>
    ∃ id e, b.kind = .bindName id e ∧ Γ.label? id = some (.var, name.text) ∧ Expr.BindsTo Γ init e
  | .assign _ target value, b =>
    ∃ symbol e, b.kind = .assign symbol e ∧ (∀ id ∈ symbol, Γ.IsLocal id target.text) ∧
      Expr.BindsTo Γ value e
  | .expr _ value, b => ∃ e, b.kind = .expr e ∧ Expr.BindsTo Γ value e
  | .print _ value, b => ∃ e, b.kind = .print e ∧ Expr.BindsTo Γ value e
  | .ret _ none, b => b.kind = .ret none
  | .ret _ (some value), b => ∃ e, b.kind = .ret (some e) ∧ Expr.BindsTo Γ value e
  | .block block, b => ∃ b', b.kind = .block b' ∧ Block.BindsTo Γ block b'
  | .whileLoop _ cond body, b =>
    ∃ c b', b.kind = .whileLoop c b' ∧ Expr.BindsTo Γ cond c ∧ Block.BindsTo Γ body b'
  | .forLoop _ item iterable body, b =>
    ∃ id e b', b.kind = .forLoop id e b' ∧ Γ.label? id = some (.var, item.text) ∧
      Expr.BindsTo Γ iterable e ∧
      Block.BindsTo Γ body b'
  | .breakLoop _, b => b.kind = .breakLoop
  | .continueLoop _, b => b.kind = .continueLoop
  | .fn .., _ | .record .., _ | .sum .., _ => False

/-- Statements are bound one by one; declarations are left out. -/
def Stmt.AllBindTo (Γ : Symbols) : List Stmt → List Bound.Stmt → Prop
  | [], bs => bs = []
  | s :: ss, bs =>
    (s.isDeclaration = true ∧ Stmt.AllBindTo Γ ss bs) ∨
      ∃ b bs', bs = b :: bs' ∧ Stmt.BindsTo Γ s b ∧ Stmt.AllBindTo Γ ss bs'

end

/-- A function is bound to a declaration with a symbol of its name and with symbols for its
parameters. -/
def Stmt.DeclaredAs (Γ : Symbols) : Stmt → Bound.FnDecl → Prop
  | .fn _ name _ params _ body, d =>
    Γ.label? d.symbol = some (.fn, name.text) ∧ Γ.AreParameters params d.params ∧ body.BindsTo Γ d.body
  | _, _ => False

/-- The bound record has symbols for fields that the statement declares. -/
def Stmt.DeclaresFields (Γ : Symbols) : Stmt → Bound.RecordDecl → Prop
  | .record _ name _ fields, d =>
    d.name = name.text ∧ ∀ id ∈ d.fields, ∃ field ∈ fields,
      Γ.label? id = some (.field d.name, field.name.text)
  | _, _ => False

/-- The bound sum has symbols for variants that the statement declares. -/
def Stmt.DeclaresVariants (Γ : Symbols) : Stmt → Bound.SumDecl → Prop
  | .sum _ name _ variants, d =>
    d.name = name.text ∧ ∀ id ∈ d.variants, ∃ variant ∈ variants,
      Γ.label? id = some (.variant d.name, variant.name.text)
  | _, _ => False

end Ast

end Bindery
