import Bindery.Proofs.Binding.Tree
import Bindery.Proofs.Bound.Nodes
import Bindery.Proofs.Ty.Formed

/-!
# Binding makes well-formed types

`State.Formed D` says that all types at hand are well formed: those of symbols, of the members of
declared types, and those noted of the functions around. `Forms D m Q` says that a step keeps this
and that its answer satisfies `Q`. Every rule of binding is such a step, whether it reports
something or not, and so is binding any tree: all types in the bound tree are then well formed
(`forms_bindExpr`, `forms_bindStmts`).
-/

namespace Bindery

/-! ## Symbols and declared types -/

section

variable (D : Declarations)

/-- The types of parameters and of the result are well formed. -/
structure Sig.Formed (f : Sig) : Prop where
  params : ∀ t ∈ f.paramTys, t.Formed D
  ret : f.ret.Formed D

/-- The types that a kind of symbol carries are well formed. -/
def SymKind.Formed : SymKind → Prop
  | .fn f => f.Formed D
  | .variant _ payload => ∀ t ∈ payload, t.Formed D
  | _ => True

/-- The types of a symbol are well formed. -/
structure Symbol.Formed (sym : Symbol) : Prop where
  ty : sym.ty.Formed D
  kind : sym.kind.Formed D

/-- The record is declared under the name, and the types of its fields are well formed and mention
its own type parameters only. -/
structure RecordDef.Formed (n : String) (d : RecordDef) : Prop where
  name : d.name = n
  declared : D .record n d.tyParams.length
  ty : ∀ f fd, d.fields.get? f = some fd → fd.ty.Formed D
  own : ∀ f fd, d.fields.get? f = some fd → ∀ m ∈ fd.ty.placeholders, m ∈ d.tyParams

/-- The sum is declared under the name, and the types of its payloads are well formed and mention
its own type parameters only. -/
structure SumDef.Formed (n : String) (d : SumDef) : Prop where
  name : d.name = n
  declared : D .sum n d.tyParams.length
  payload : ∀ v vd, d.variants.get? v = some vd → ∀ t ∈ vd.payload, t.Formed D
  own : ∀ v vd, d.variants.get? v = some vd → ∀ t ∈ vd.payload, ∀ m ∈ t.placeholders, m ∈ d.tyParams

/-- All declared types are well formed. -/
structure Registry.Formed (r : Registry) : Prop where
  record : ∀ n d, r.record? n = some d → d.Formed D n
  sum : ∀ n d, r.sum? n = some d → d.Formed D n

/-- The written return type and those met so far are well formed. -/
structure FnFrame.Formed (f : FnFrame) : Prop where
  declared : ∀ t ∈ f.declared, t.Formed D
  returns : ∀ e ∈ f.returns, e.1.Formed D

/-! ## Bound trees -/

namespace Bound

/-- The types that a kind of expression carries besides its own: type arguments, the return type of
a lambda and the element type of a channel. -/
def ExprKind.Formed : ExprKind → Prop
  | .call _ tyArgs _ => ∀ t ∈ tyArgs, t.Formed D
  | .lambda _ ret _ _ => ret.Formed D
  | .channel element => element.Formed D
  | _ => True

/-- The types that a node carries are well formed. -/
def Node.Formed : Node → Prop
  | .expr e => e.ty.Formed D ∧ e.kind.Formed D
  | .pattern p => p.ty.Formed D
  | .block b => b.ty.Formed D
  | .stmt _ => True

/-- All types in an expression are well formed. -/
def Expr.Formed (e : Expr) : Prop := ∀ n ∈ e.nodes true, n.Formed D

/-- All types in a block are well formed. -/
def Block.Formed (b : Block) : Prop := ∀ n ∈ b.nodes true, n.Formed D

end Bound

end

variable {D : Declarations}

theorem SymKind.formed_of_isLocal {kind : SymKind} (h : kind.isLocal = true) : kind.Formed D := by
  cases kind with
  | fn => cases h
  | variant => cases h
  | _ => trivial

namespace Bound

variable {kind : ExprKind} {range : Range} {e : Expr}

theorem Expr.formed_mk {ty : Ty} :
    Expr.Formed D ⟨kind, ty, range⟩ ↔ (ty.Formed D ∧ kind.Formed D) ∧ ∀ n ∈ kind.nodes true,
      n.Formed D := by
  rw [Expr.Formed, Expr.nodes, List.forall_mem_cons]
  rfl

theorem Expr.Formed.of_parts {ty : Ty} (hty : ty.Formed D) (hkind : kind.Formed D)
    (hparts : ∀ n ∈ kind.nodes true, n.Formed D) : Expr.Formed D ⟨kind, ty, range⟩ :=
      formed_mk.mpr ⟨⟨hty, hkind⟩, hparts⟩

theorem Expr.Formed.ty (h : e.Formed D) : e.ty.Formed D := by
  obtain ⟨kind, ty, range⟩ := e
  exact (formed_mk.mp h).1.1

/-- An expression without parts. -/
theorem Expr.formed_leaf {ty : Ty} (hty : ty.Formed D) (hkind : kind.Formed D)
    (hleaf : kind.nodes true = []) : Expr.Formed D ⟨kind, ty, range⟩ := by
  refine formed_mk.mpr ⟨⟨hty, hkind⟩, ?_⟩
  rw [hleaf]
  exact List.forall_mem_nil _

theorem Expr.formed_error (range : Range) : (Expr.error range).Formed D :=
  formed_leaf .error trivial rfl

theorem Expr.formed_allNodes {es : List Expr} :
    (∀ n ∈ Expr.allNodes true es, n.Formed D) ↔ ∀ e ∈ es, e.Formed D := by
  induction es with
  | nil => simp [Expr.allNodes]
  | cons e es ih =>
    rw [Expr.allNodes, List.forall_mem_append, ih, List.forall_mem_cons]
    rfl

theorem Entry.formed_allNodes {es : List Entry} :
    (∀ n ∈ Entry.allNodes true es, n.Formed D) ↔ ∀ e ∈ es, e.key.Formed D ∧ e.value.Formed D := by
  induction es with
  | nil => simp [Entry.allNodes]
  | cons e es ih =>
    obtain ⟨key, value⟩ := e
    rw [Entry.allNodes, List.forall_mem_append, List.forall_mem_append, ih, List.forall_mem_cons]
    rfl

theorem Block.Formed.ty {b : Block} (h : b.Formed D) : b.ty.Formed D := by
  obtain ⟨stmts, ty, diverges, range⟩ := b
  rw [Block.Formed, Block.nodes, List.forall_mem_cons] at h
  exact h.1

/-- An expression at the end of a list of statements is one of their nodes. -/
theorem Block.formed_of_lastExpr? {stmts : List Stmt}
    (h : ∀ n ∈ Stmt.allNodes true stmts, n.Formed D) (he : Block.lastExpr? stmts = some e) :
    e.Formed D := by
  induction stmts with
  | nil => cases he
  | cons s ss ih =>
    rw [Stmt.allNodes, List.forall_mem_append] at h
    cases ss with
    | nil =>
      unfold Block.lastExpr? at he
      split at he
      · next e' range hlast =>
        cases Option.some.inj hlast
        cases he
        rw [Stmt.nodes, List.forall_mem_cons] at h
        exact h.1.2
      · cases he
    | cons s' ss => exact ih h.2 (by simpa [Block.lastExpr?] using he)

theorem Block.formed_ofStatements {stmts : List Stmt} (range : Range)
    (h : ∀ n ∈ Stmt.allNodes true stmts, n.Formed D) : (Block.ofStatements stmts range).Formed D := by
  rw [Block.Formed, Block.ofStatements, Block.nodes, List.forall_mem_cons]
  refine ⟨?_, h⟩
  cases he : Block.lastExpr? stmts with
  | none => exact .prim _
  | some e => exact (Block.formed_of_lastExpr? h he).ty

theorem Block.Formed.value? {b : Block} (h : b.Formed D) (he : b.value? = some e) : e.Formed D := by
  obtain ⟨stmts, ty, diverges, range⟩ := b
  rw [Block.Formed, Block.nodes, List.forall_mem_cons] at h
  exact Block.formed_of_lastExpr? h.2 he

end Bound

namespace Binding

open Bindery.Bound
open Ast (Name TyExpr)

variable {α β : Type} {s t : State} {kind : SymKind} {sum : SumDef}

/-! ## States -/

/-- All types at hand are well formed. -/
structure State.Formed (D : Declarations) (s : State) : Prop where
  syms : ∀ id sym, s.syms.get? id = some sym → sym.Formed D
  registry : s.registry.Formed D
  fns : ∀ f ∈ s.fns, f.Formed D

namespace State.Formed

theorem congr (h : s.Formed D) (hsyms : t.syms = s.syms) (hregistry : t.registry = s.registry)
    (hfns : t.fns = s.fns) : t.Formed D where
  syms := hsyms ▸ h.syms
  registry := hregistry ▸ h.registry
  fns := hfns ▸ h.fns

theorem adding (h : s.Formed D) {ty : Ty} (hkind : kind.Formed D) (hty : ty.Formed D)
    (name : String) (scope : Option ScopeId) (depth : Nat) :
    (s.adding name kind ty scope depth).Formed D where
  syms id sym hsym := by
    rcases Symbols.get?_add_cases hsym with ⟨-, rfl⟩ | hsym
    · exact ⟨hty, hkind⟩
    · exact h.syms id sym hsym
  registry := h.registry
  fns := h.fns

/-- A known variant belongs to a sum that is well formed. -/
theorem variant (h : s.Formed D) {name : String} {d : VariantDef}
    (hv : s.registry.variant? name = some (sum, d)) :
    sum.Formed D sum.name ∧ sum.variants.get? name = some d := by
  obtain ⟨owner, -, hsum, hd⟩ := variant?_eq_some_iff.mp hv
  have hformed := h.registry.sum owner sum hsum
  exact ⟨hformed.name ▸ hformed, hd⟩

end State.Formed

/-- The step keeps all types well formed, and its answer satisfies `Q`. -/
def Forms (D : Declarations) (m : Binding α) (Q : α → Prop) : Prop :=
  ∀ s : State, s.Formed D → (after m s).Formed D ∧ Q (out m s)

namespace Forms

variable {m : Binding α} {Q : α → Prop} {Q₂ : β → Prop}

theorem pure {a : α} (h : Q a) : Forms D (pure a) Q := fun _ hs => ⟨hs, h⟩

theorem seq {f : α → Binding β} (hm : Forms D m Q) (hf : ∀ a, Q a → Forms D (f a) Q₂) :
    Forms D (m >>= f) Q₂ := by
  intro s hs
  obtain ⟨hafter, hout⟩ := hm s hs
  exact hf _ hout _ hafter

theorem get : Forms D get (State.Formed D) := fun _ hs => ⟨hs, hs⟩

/-- A step that only checks keeps all types. -/
theorem checks (m : Binding α) [Checks m] (hQ : ∀ s : State, s.Formed D → Q (out m s)) :
    Forms D m Q := by
  intro s hs
  obtain ⟨fs, hfs⟩ := Checks.exists_reporting m s
  exact ⟨hfs ▸ hs.congr rfl rfl rfl, hQ s hs⟩

theorem check (m : Binding α) [Checks m] : Forms D m fun _ => True := checks m fun _ _ => trivial

theorem report (range : Range) (p : Problem) : Forms D (report range p) fun _ => True :=
  fun _ hs => ⟨hs.congr rfl rfl rfl, trivial⟩

theorem reportUnless (ok : Bool) (range : Range) (p : Problem) :
    Forms D (reportUnless ok range p) fun _ => True := by
  intro s hs
  rw [after_reportUnless]
  exact ⟨hs.congr rfl rfl rfl, trivial⟩

theorem report_pure (range : Range) (p : Problem) {a : α} (h : Q a) :
    Forms D (Binding.report range p >>= fun _ => Pure.pure a) Q :=
      (report range p).seq fun _ _ => pure h

/-! ## Places in the program -/

theorem inScope (kind : ScopeKind) (hm : Forms D m Q) : Forms D (inScope kind m) Q := by
  intro s hs
  obtain ⟨hafter, hout⟩ := hm _ (hs.congr rfl rfl rfl : (s.opened kind).Formed D)
  exact ⟨hafter.congr rfl rfl rfl, hout⟩

theorem withGenerics (names : List String) (hm : Forms D m Q) : Forms D (withGenerics names m) Q := by
  intro s hs
  obtain ⟨hafter, hout⟩ := hm _ (hs.congr rfl rfl rfl : (s.naming names).Formed D)
  exact ⟨hafter.congr rfl rfl rfl, hout⟩

theorem withLoopDepth (depth : Nat → Nat) (hm : Forms D m Q) : Forms D (withLoopDepth depth m) Q := by
  intro s hs
  obtain ⟨hafter, hout⟩ := hm _ (hs.congr rfl rfl rfl : (s.inLoops (depth s.loopDepth)).Formed D)
  exact ⟨hafter.congr rfl rfl rfl, hout⟩

theorem withScopeDepth (depth : Nat → Nat) (hm : Forms D m Q) :
    Forms D (withScopeDepth depth m) Q := by
  intro s hs
  obtain ⟨hafter, hout⟩ :=
    hm _ (hs.congr rfl rfl rfl : (s.inScopeBlocks (depth s.scopeDepth)).Formed D)
  exact ⟨hafter.congr rfl rfl rfl, hout⟩

theorem withLambda (hm : Forms D m Q) : Forms D (withLambda m) fun a => Q a.1 := by
  intro s hs
  obtain ⟨hafter, hout⟩ :=
    hm _ (hs.congr rfl rfl rfl : (s.capturing (s.captures.enter s.current)).Formed D)
  exact ⟨hafter.congr rfl rfl rfl, hout⟩

theorem withFn {frame : FnFrame} (hframe : frame.Formed D) (hm : Forms D m Q) :
    Forms D (withFn frame m) fun a => Q a.1 ∧ ∀ f ∈ a.2, f.Formed D := by
  intro s hs
  rw [after_withFn, out_withFn]
  have henter : (s.inFns (frame :: s.fns)).Formed D :=
    ⟨hs.syms, hs.registry, List.forall_mem_cons.mpr ⟨hframe, hs.fns⟩⟩
  obtain ⟨hafter, hout⟩ := hm _ henter
  refine ⟨⟨hafter.syms, hafter.registry, fun f hf => ?_⟩, hout, fun f hf => ?_⟩
  · exact hafter.fns f (List.mem_of_mem_tail hf)
  · exact hafter.fns f (List.mem_of_mem_head? hf)

/-! ## Names -/

theorem declareLocal (name : Name) (hlocal : kind.isLocal = true) {ty : Ty}
    (hty : ty.Formed D) : Forms D (declareLocal name kind ty) fun _ => True := by
  intro s hs
  refine ⟨?_, trivial⟩
  have hadding : (s.addingLocal name.text kind ty).Formed D :=
    hs.adding (SymKind.formed_of_isLocal hlocal) hty _ _ _
  rw [after_declareLocal]
  split
  · exact hadding.congr rfl rfl rfl
  · exact hadding.congr rfl rfl rfl

theorem declareLocals (hlocal : kind.isLocal = true) (params : List (Name × Ty))
    (htys : ∀ p ∈ params, p.2.Formed D) : Forms D (declareLocals kind params) fun _ => True := by
  induction params with
  | nil => exact .pure trivial
  | cons p params ih =>
    rw [List.forall_mem_cons] at htys
    exact (declareLocal p.1 hlocal htys.1).seq fun _ _ => (ih htys.2).seq fun _ _ => .pure trivial

theorem observe (symbol : SymId) (declaring : ScopeId) (isMutable : Bool) :
    Forms D (observe symbol declaring isMutable) fun _ => True :=
      fun _ hs => ⟨hs.congr rfl rfl rfl, trivial⟩

theorem resolveVar (name : Name) : Forms D (resolveVar name) fun _ => True := by
  refine (check _).seq fun found _ => ?_
  cases found with
  | none => exact .pure trivial
  | some id =>
    refine get.seq fun s _ => ?_
    cases s.syms.get? id with
    | none => exact .pure trivial
    | some sym =>
      dsimp only
      cases sym.scope with
      | none => exact .pure trivial
      | some c =>
        exact (observe id c _).seq fun _ _ => (reportUnless _ _ _).seq fun _ _ => .pure trivial

theorem tyOf (symbol : SymId) : Forms D (tyOf symbol) (Ty.Formed D) := by
  intro s hs
  rw [after_tyOf, out_tyOf]
  refine ⟨hs, ?_⟩
  cases hsym : s.syms.get? symbol with
  | none => exact .error
  | some sym => exact (hs.syms symbol sym hsym).ty

end Forms

/-! ## Written types -/

theorem formed_apply {head : TypeHead} {args : List Ty} {name : String} (hs : s.Formed D)
    (hhead : s.typeHead? name = some head) (hargs : ∀ t ∈ args, t.Formed D)
    (hlength : args.length = head.arity) :
    (head.apply args).Formed D := by
  have hnominal : ∀ kind n count, head = .nominal kind n count → D kind n count := by
    rintro kind n count rfl
    unfold State.typeHead? at hhead
    split at hhead
    · cases hhead
    · split at hhead
      · next d hd =>
        cases hhead
        exact (hs.registry.record name d hd).declared
      · split at hhead
        · next d hd =>
          cases hhead
          exact (hs.registry.sum name d hd).declared
        · unfold TypeHead.builtin? at hhead
          split at hhead
          · cases hhead
          · split at hhead
            · cases hhead
            · split at hhead <;> cases hhead
  unfold TypeHead.apply
  split
  · exact .generic _
  · next kind n count =>
    refine .nominal ?_ hargs
    exact hlength ▸ hnominal kind n count rfl
  · exact .prim _
  · exact .container _ (hargs _ List.mem_cons_self)
  · exact .result (hargs _ List.mem_cons_self) (hargs _ (List.mem_cons_of_mem _ List.mem_cons_self))
  · exact .error

variable {expected : Option Ty} {target : Ty} {hint : Option Ty} {known : Subst} {args : List Expr}
    (symbol : SymId) (name : Name)

theorem forms_applyTypeName {args : List Ty} (hargs : ∀ t ∈ args, t.Formed D) (range : Range) :
    Forms D (applyTypeName name args range) (Ty.Formed D) := by
  refine Forms.get.seq fun s hs => ?_
  cases hhead : s.typeHead? name.text with
  | none => exact .report_pure _ _ .error
  | some head =>
    refine (Forms.checks (checkTypeArity name.text head.arity args range) fun s _ => rfl).seq
      fun ok (hok : ok = (args.length == head.arity)) => ?_
    cases ok with
    | true => exact .pure (formed_apply hs hhead hargs (eq_of_beq hok.symm))
    | false => exact .pure .error

mutual

theorem forms_resolveType (t : TyExpr) : Forms D (resolveType t) (Ty.Formed D) := by
  match t with
  | .named _ name args =>
    exact (forms_resolveTypes args).seq fun _ hargs => forms_applyTypeName name hargs _
  | .fn _ params ret =>
    exact (forms_resolveTypes params).seq fun _ hparams => (forms_resolveType ret).seq fun _ hret =>
      .pure (.fn hparams hret)
  | .tuple _ elems => exact (forms_resolveTypes elems).seq fun _ helems => .pure (.tuple helems)

theorem forms_resolveTypes (ts : List TyExpr) :
    Forms D (resolveTypes ts) fun tys => ∀ ty ∈ tys, ty.Formed D := by
  match ts with
  | [] => exact .pure (List.forall_mem_nil _)
  | t :: ts =>
    exact (forms_resolveType t).seq fun _ ht => (forms_resolveTypes ts).seq fun _ hts =>
      .pure (List.forall_mem_cons.mpr ⟨ht, hts⟩)

end

theorem forms_resolveType? (t : Option TyExpr) :
    Forms D (resolveType? t) fun o => ∀ ty ∈ o, ty.Formed D := by
  cases t with
  | none => exact .pure (by simp)
  | some t => exact (forms_resolveType t).seq fun _ ht => .pure fun _ h => Option.some.inj h ▸ ht

/-! ## Names -/

theorem forms_nonVarExpr (hexpected : ∀ ty ∈ expected, ty.Formed D) (name : Name) :
    Forms D (nonVarExpr expected name) (Expr.Formed D) := by
  refine (Forms.check _).seq fun found _ => ?_
  cases found with
  | some id => exact (Forms.tyOf id).seq fun _ hty => .pure (Expr.formed_leaf hty trivial rfl)
  | none =>
    refine Forms.get.seq fun s hs => ?_
    cases hvariant : s.registry.variant? name.text with
    | none => exact .report_pure _ _ (Expr.formed_error _)
    | some found =>
      obtain ⟨sum, d⟩ := found
      dsimp only
      cases d.payload with
      | some payload => exact .report_pure _ _ (Expr.formed_error _)
      | none =>
        exact .pure (Expr.formed_leaf
          (formed_bareVariantTy (hs.variant hvariant).1.declared hexpected) trivial rfl)

theorem forms_nameExpr (hexpected : ∀ ty ∈ expected, ty.Formed D) (name : Name) :
    Forms D (nameExpr expected name) (Expr.Formed D) := by
  refine (Forms.resolveVar name).seq fun found _ => ?_
  cases found with
  | some id => exact (Forms.tyOf id).seq fun _ hty => .pure (Expr.formed_leaf hty trivial rfl)
  | none => exact forms_nonVarExpr hexpected name

/-! ## Operators, fields and elements -/

variable {range : Range}

theorem forms_binaryExpr (op : BinaryOp) {left right : Expr} (hleft : left.Formed D)
    (hright : right.Formed D) :
    Forms D (binaryExpr op left right range) (Expr.Formed D) := by
  have hformed : ∀ ty : Ty, ty.Formed D → Expr.Formed D ⟨.binary op left right, ty, range⟩ :=
    fun ty hty =>
    .of_parts hty trivial (List.forall_mem_append.mpr ⟨hleft, hright⟩)
  rw [binaryExpr]
  split
  · exact .pure (hformed _ .error)
  · split
    · next ty hresult => exact .pure (hformed ty (BinaryOp.formed_of_resultTy? hresult))
    · exact .report_pure _ _ (hformed _ .error)

theorem forms_unaryExpr (op : UnaryOp) {operand : Expr} (hoperand : operand.Formed D) :
    Forms D (unaryExpr op operand range) (Expr.Formed D) := by
  have hformed : ∀ ty : Ty, ty.Formed D → Expr.Formed D ⟨.unary op operand, ty, range⟩ := fun ty hty =>
    .of_parts hty trivial hoperand
  rw [unaryExpr]
  split
  · exact .pure (hformed _ .error)
  · split
    · next ty hresult => exact .pure (hformed ty (UnaryOp.formed_of_resultTy? hresult))
    · exact .report_pure _ _ (hformed _ .error)

theorem formed_fieldOf? (hs : s.Formed D) {record field : String} {args : List Ty} {symbol : SymId}
    {ty : Ty}
    (hargs : ∀ t ∈ args, t.Formed D) (h : fieldOf? s.registry record field args = some (symbol, ty)) :
    ty.Formed D := by
  obtain ⟨d, f, hd, hf, -, rfl⟩ := fieldOf?_eq_some_iff.mp h
  exact ((hs.registry.record record d hd).ty field f hf).subst (.ofArguments _ hargs)

theorem forms_fieldExpr {target : Expr} (htarget : target.Formed D) (name : Name) :
    Forms D (fieldExpr target name range) (Expr.Formed D) := by
  have hformed : ∀ (field : Option SymId) (ty : Ty), ty.Formed D →
      Expr.Formed D ⟨.field target field, ty, range⟩ := fun _ _ hty => .of_parts hty trivial htarget
  rw [fieldExpr]
  split
  · exact .pure (hformed _ _ .error)
  · next record args hty =>
    refine Forms.get.seq fun s hs => ?_
    split
    · next symbol ty hfield =>
      exact .pure (hformed _ _ (formed_fieldOf? hs (hty ▸ htarget.ty).args hfield))
    · exact .report_pure _ _ (hformed _ _ .error)
  · exact .report_pure _ _ (hformed _ _ .error)

theorem forms_indexExpr {target index : Expr} (htarget : target.Formed D) (hindex : index.Formed D) :
    Forms D (indexExpr target index range) (Expr.Formed D) := by
  have hformed : ∀ ty : Ty, ty.Formed D → Expr.Formed D ⟨.index target index, ty, range⟩ :=
    fun ty hty =>
    .of_parts hty trivial (List.forall_mem_append.mpr ⟨htarget, hindex⟩)
  rw [indexExpr]
  split
  · exact .pure (hformed _ .error)
  · split
    · next ty hresult => exact .pure (hformed ty (formed_indexedTy? htarget.ty hresult))
    · exact .report_pure _ _ (hformed _ .error)

theorem forms_itemTy {iterable : Expr} (hiterable : iterable.Formed D) :
    Forms D (itemTy iterable) (Ty.Formed D) := by
  rw [itemTy]
  split
  · next ty hresult => exact .pure (formed_iteratedTy? hiterable.ty hresult)
  · exact .report_pure _ _ .error

/-! ## Collections -/

theorem forms_settleElements (hhint : ∀ ty ∈ hint, ty.Formed D) {elems : List Expr}
    (helems : ∀ e ∈ elems, e.Formed D) : Forms D (settleElements hint elems) (Ty.Formed D) := by
  refine .checks _ fun s _ => ?_
  cases hint with
  | some ty => exact hhint ty rfl
  | none =>
    show (((elems.map Expr.ty).find? fun ty => !ty.isError).getD .error).Formed D
    cases hfind : (elems.map Expr.ty).find? fun ty => !ty.isError with
    | none => exact .error
    | some ty =>
      obtain ⟨e, he, rfl⟩ := List.mem_map.mp (List.mem_of_find?_eq_some hfind)
      exact (helems e he).ty

theorem forms_emptyCollectionTy (c : Container) (hhint : ∀ ty ∈ hint, ty.Formed D)
    (collection : String) :
    Forms D (emptyCollectionTy c hint collection range) (Ty.Formed D) := by
  cases hint with
  | some ty => exact .pure (.container c (hhint ty rfl))
  | none => exact .report_pure _ _ .error

theorem forms_listExpr (hhint : ∀ ty ∈ hint, ty.Formed D) {elems : List Expr}
    (helems : ∀ e ∈ elems, e.Formed D) : Forms D (listExpr hint elems range) (Expr.Formed D) := by
  have hformed : ∀ ty : Ty, ty.Formed D → Expr.Formed D ⟨.list elems, ty, range⟩ := fun ty hty =>
    .of_parts hty trivial (Expr.formed_allNodes.mpr helems)
  cases elems with
  | nil => exact (forms_emptyCollectionTy .list hhint "list").seq fun ty hty => .pure (hformed ty hty)
  | cons =>
    exact (forms_settleElements hhint helems).seq fun ty hty => .pure (hformed _ (.container _ hty))

theorem forms_mapExpr (hhint : ∀ ty ∈ hint, ty.Formed D) {entries : List Entry}
    (hentries : ∀ e ∈ entries, e.key.Formed D ∧ e.value.Formed D) :
    Forms D (mapExpr hint entries range) (Expr.Formed D) := by
  have hformed : ∀ ty : Ty, ty.Formed D → Expr.Formed D ⟨.map entries, ty, range⟩ := fun ty hty =>
    .of_parts hty trivial (Entry.formed_allNodes.mpr hentries)
  have hvalues : ∀ e ∈ entries.map Entry.value, e.Formed D := by
    intro e he
    obtain ⟨entry, hentry, rfl⟩ := List.mem_map.mp he
    exact (hentries entry hentry).2
  cases entries with
  | nil => exact (forms_emptyCollectionTy .map hhint "map").seq fun ty hty => .pure (hformed ty hty)
  | cons =>
    exact (forms_settleElements hhint hvalues).seq fun ty hty =>
      .pure (hformed _ (.container _ hty))

/-! ## Records -/

theorem forms_checkField (name : String) {declared : Ty} {value : Expr} (hvalue : value.Formed D)
    (hknown : known.Formed D) : Forms D (checkField name declared value known) (Subst.Formed D) :=
  (Forms.reportUnless _ _ _).seq fun _ _ => .pure (hvalue.ty.infer declared hknown)

theorem forms_recordArgs (hexpected : ∀ ty ∈ expected, ty.Formed D) (record : RecordDef) (type : Name)
    (tyArgs : List TyExpr) :
    Forms D (recordArgs expected record type tyArgs) (Subst.Formed D) := by
  refine (forms_resolveTypes tyArgs).seq fun explicit hexplicit => ?_
  split
  · exact .pure (formed_expectedRecordArgs record hexpected)
  · refine .seq (.check _) fun ok _ => ?_
    split
    · exact .pure (.ofArguments _ hexplicit)
    · exact .pure .empty

/-! ## Calls -/

/-- The types that a callee brings to a call are well formed. -/
def CalleeFormed (D : Declarations) : Callee → Prop
  | .fn _ f explicit _ _ => f.Formed D ∧ explicit.Formed D
  | .variant sum name d known =>
    sum.Formed D sum.name ∧ sum.variants.get? name = some d ∧ known.Formed D
  | _ => True

theorem formed_hints {callee : Callee} (h : CalleeFormed D callee) :
    ∀ hint ∈ callee.hints, ∀ ty ∈ hint, ty.Formed D := by
  cases callee with
  | fn symbol f explicit isExplicit agrees =>
    intro hint hhint
    obtain ⟨ty, hty, rfl⟩ := List.mem_map.mp hhint
    exact formed_closedHint ((h.1.params ty hty).subst h.2)
  | variant sum name d known =>
    intro hint hhint
    obtain rfl := List.mem_singleton.mp hhint
    cases hpayload : d.payload with
    | none =>
      intro ty hty
      cases hty
    | some ty => exact formed_closedHint ((h.1.payload name d h.2.1 ty hpayload).subst h.2.2)
  | builtin => exact List.forall_mem_nil _
  | undefined => exact List.forall_mem_nil _

theorem forms_fnCallee {f : Sig} (hf : f.Formed D) (callee : Name)
    (tyArgs : List TyExpr) : Forms D (fnCallee symbol f callee tyArgs range) (CalleeFormed D) := by
  refine (forms_resolveTypes tyArgs).seq fun explicit hexplicit => ?_
  dsimp only
  split
  · split
    · exact .seq (.check _) fun _ _ => .pure trivial
    · exact .pure trivial
  · split
    · exact .pure ⟨hf, .empty⟩
    · refine .seq (.check _) fun ok _ => ?_
      split
      · exact .pure ⟨hf, .ofArguments _ hexplicit⟩
      · exact .pure ⟨hf, .empty⟩

theorem forms_namedCallee (hexpected : ∀ ty ∈ expected, ty.Formed D) (callee : Name)
    (tyArgs : List TyExpr) : Forms D (namedCallee expected callee tyArgs range) (CalleeFormed D) := by
  refine Forms.get.seq fun s hs => ?_
  dsimp only
  split
  · next id f hfn =>
    obtain ⟨id', -, hfn⟩ := Option.bind_eq_some_iff.mp hfn
    obtain ⟨f', hf, hfn⟩ := Option.bind_eq_some_iff.mp hfn
    obtain ⟨rfl, rfl⟩ := Prod.mk.inj (Option.some.inj hfn)
    obtain ⟨sym, hsym, hsig⟩ := Option.bind_eq_some_iff.mp hf
    refine forms_fnCallee id' ?_ callee tyArgs
    have hkind := (hs.syms id' sym hsym).kind
    unfold Symbol.sig? at hsig
    split at hsig
    · next f heq =>
      rw [heq] at hkind
      exact Option.some.inj hsig ▸ hkind
    · cases hsig
  · split
    · next sum d hvariant =>
      exact .pure ⟨(hs.variant hvariant).1, (hs.variant hvariant).2,
        formed_expectedSumArgs sum hexpected⟩
    · exact .report_pure _ _ trivial

theorem forms_resolveCallee (hexpected : ∀ ty ∈ expected, ty.Formed D) (callee : Ast.Expr)
    (tyArgs : List TyExpr) :
    Forms D (resolveCallee expected callee tyArgs range) fun o => ∀ c ∈ o, CalleeFormed D c := by
  unfold resolveCallee
  split
  · next name =>
    refine (Forms.check _).seq fun found _ => ?_
    cases found with
    | some id => exact .pure (by simp)
    | none =>
      exact (forms_namedCallee hexpected name tyArgs).seq fun c hc => .pure fun _ h =>
        Option.some.inj h ▸ hc
  · exact .pure (by simp)

theorem formed_call {symbol : SymId} {tyArgs : List Ty} {ty : Ty} (htyArgs : ∀ t ∈ tyArgs, t.Formed D)
    (hargs : ∀ e ∈ args, e.Formed D) (hty : ty.Formed D) :
    Expr.Formed D ⟨.call symbol tyArgs args, ty, range⟩ :=
  .of_parts hty htyArgs (Expr.formed_allNodes.mpr hargs)

theorem formed_argTys (hargs : ∀ e ∈ args, e.Formed D) : ∀ t ∈ args.map Expr.ty, t.Formed D := by
  intro t ht
  obtain ⟨e, he, rfl⟩ := List.mem_map.mp ht
  exact (hargs e he).ty

theorem forms_finishFnCall {f : Sig} (hf : f.Formed D) {explicit : Subst}
    (hexplicit : explicit.Formed D) (isExplicit agrees : Bool) (hargs : ∀ e ∈ args, e.Formed D) :
    Forms D (finishFnCall symbol f explicit isExplicit agrees args range) (Expr.Formed D) := by
  rw [finishFnCall]
  split
  · exact .report_pure _ _ (formed_call (List.forall_mem_nil _) hargs .error)
  · have hinferred : Subst.Formed D (if f.isGeneric && !isExplicit then
        Ty.inferAll f.paramTys (args.map Expr.ty) explicit else explicit) := by
      split
      · exact Ty.Formed.inferAll (formed_argTys hargs) _ hexplicit
      · exact hexplicit
    have hclosed := hinferred.closeWith f.tyParams
    refine .seq (.check _) fun _ _ => .pure (formed_call (hclosed.instantiate _) hargs ?_)
    split
    · exact hf.ret.subst hclosed
    · exact .error

theorem forms_finishBuiltinCall (name : String) (b : Builtin) (hargs : ∀ e ∈ args, e.Formed D) :
    Forms D (finishBuiltinCall symbol name b args range) (Expr.Formed D) := by
  have hnil : ∀ t ∈ ([] : List Ty), t.Formed D := List.forall_mem_nil _
  rw [finishBuiltinCall]
  split
  · next ty hresult =>
    exact .pure (formed_call hnil hargs (Builtin.formed_of_resolve (formed_argTys hargs) hresult))
  · exact .report_pure _ _ (formed_call hnil hargs .error)
  · exact .report_pure _ _ (formed_call hnil hargs .error)

theorem formed_constructed (hsum : D .sum sum.name sum.tyParams.length) (d : VariantDef)
    (hknown : known.Formed D) {payload : Option Expr} (hpayload : ∀ e ∈ payload, e.Formed D) :
    (constructed sum d known payload range).Formed D := by
  refine .of_parts (hknown.nominal hsum) trivial ?_
  cases payload with
  | none => exact List.forall_mem_nil _
  | some e => exact hpayload e rfl

theorem forms_finishVariantCall (hsum : D .sum sum.name sum.tyParams.length) (name : String)
    (d : VariantDef) (hknown : known.Formed D) (hargs : ∀ e ∈ args, e.Formed D) :
    Forms D (finishVariantCall sum name d known args range) (Expr.Formed D) := by
  have hnone : ∀ e ∈ (none : Option Expr), e.Formed D := by simp
  unfold finishVariantCall
  split
  · exact .pure (formed_constructed hsum d hknown hnone)
  · exact .report_pure _ _ (formed_constructed hsum d hknown hnone)
  · exact .report_pure _ _ (formed_constructed hsum d hknown hnone)
  · next payload arg _ =>
    have harg := hargs arg List.mem_cons_self
    refine (Forms.reportUnless _ _ _).seq fun _ _ => .pure ?_
    exact formed_constructed hsum d (harg.ty.infer payload hknown) fun e he => Option.some.inj he ▸
      harg
  · exact .report_pure _ _ (formed_constructed hsum d hknown hnone)

theorem forms_finishCall {callee : Callee} (hcallee : CalleeFormed D callee)
    (hargs : ∀ e ∈ args, e.Formed D) :
    Forms D (finishCall callee args range) (Expr.Formed D) := by
  cases callee with
  | fn symbol f explicit isExplicit agrees =>
    exact forms_finishFnCall symbol hcallee.1 hcallee.2 isExplicit agrees hargs
  | builtin symbol name b => exact forms_finishBuiltinCall symbol name b hargs
  | variant sum name d known =>
    exact forms_finishVariantCall hcallee.1.declared name d hcallee.2.2 hargs
  | undefined => exact .pure (Expr.formed_error range)

theorem forms_valueCallTy {callee : Expr} (hcallee : callee.Formed D) (name : String)
    (hargs : ∀ e ∈ args, e.Formed D) : Forms D (valueCallTy callee name args range) (Ty.Formed D) := by
  unfold valueCallTy
  split
  · exact .pure .error
  · next params ret hty =>
    have hfn : (Ty.fn params ret).Formed D := hty ▸ hcallee.ty
    split
    · exact .report_pure _ _ .error
    · refine .seq (.check _) fun _ _ => ?_
      split
      · exact .pure (hfn.ret.subst (Ty.Formed.inferAll (formed_argTys hargs) _ .empty))
      · exact .pure hfn.ret
  · exact .report_pure _ _ .error

theorem forms_finishValueCall {callee : Expr} (hcallee : callee.Formed D) (name : String)
    (hargs : ∀ e ∈ args, e.Formed D) :
    Forms D (finishValueCall callee name args range) (Expr.Formed D) :=
  (forms_valueCallTy hcallee name hargs).seq fun _ hty =>
    .pure (.of_parts hty trivial
      (List.forall_mem_append.mpr ⟨hcallee, Expr.formed_allNodes.mpr hargs⟩))

/-! ## Branches and matches -/

theorem forms_branchTy {thenBranch : Block} (hthen : thenBranch.Formed D) {elseBranch : Expr}
    (helse : elseBranch.Formed D) : Forms D (branchTy thenBranch elseBranch range) (Ty.Formed D) := by
  rw [branchTy]
  split
  · exact .pure helse.ty
  · split
    · exact .pure hthen.ty
    · split
      · exact .pure helse.ty
      · split
        · exact .pure hthen.ty
        · exact .report_pure _ _ .error

theorem forms_ifExpr {cond : Expr} (hcond : cond.Formed D) {thenBranch : Block}
    (hthen : thenBranch.Formed D) {elseBranch : Option Expr} (helse : ∀ e ∈ elseBranch, e.Formed D) :
    Forms D (ifExpr cond thenBranch elseBranch range) (Expr.Formed D) := by
  cases elseBranch with
  | none => exact .pure (.of_parts (.prim _) trivial (List.forall_mem_append.mpr ⟨hcond, hthen⟩))
  | some e =>
    exact (forms_branchTy hthen (helse e rfl)).seq fun ty hty => .pure (.of_parts hty trivial
      (List.forall_mem_append.mpr ⟨List.forall_mem_append.mpr ⟨hcond, hthen⟩, helse e rfl⟩))

/-- The type that the arms have agreed on so far is well formed. -/
def ArmTypesFormed (D : Declarations) (a : ArmTypes) : Prop := ∀ t ∈ a.result, t.Formed D

theorem ArmTypesFormed.ty {a : ArmTypes} (h : ArmTypesFormed D a) : a.ty.Formed D := by
  rw [ArmTypes.ty]
  split
  · exact .error
  · split
    · next ty hresult => exact h ty hresult
    · split
      · exact .error
      · exact .prim _

theorem forms_noteArm {a : ArmTypes} (h : ArmTypesFormed D a) {body : Expr} (hbody : body.Formed D) :
    Forms D (noteArm a body) (ArmTypesFormed D) := by
  rw [noteArm]
  split
  · exact .pure h
  · split
    · exact .pure h
    · split
      · exact .pure fun ty hty => Option.some.inj hty ▸ hbody.ty
      · split
        · exact .pure h
        · exact .report_pure _ _ h

theorem forms_matchExpr {scrutinee : Expr} (hscrutinee : scrutinee.Formed D) {arms : List Arm}
    (harms : ∀ n ∈ Arm.allNodes true arms, n.Formed D) {agreed : ArmTypes}
    (hagreed : ArmTypesFormed D agreed) :
    Forms D (matchExpr scrutinee arms agreed range) (Expr.Formed D) :=
  .checks _ fun _ _ => .of_parts hagreed.ty trivial (List.forall_mem_append.mpr ⟨hscrutinee, harms⟩)

/-! ## Returns -/

theorem forms_noteReturn {ty : Ty} (hty : ty.Formed D) :
    Forms D (noteReturn ty range) fun _ => True := by
  intro s hs
  rw [after_noteReturn]
  refine ⟨⟨hs.syms, hs.registry, ?_⟩, trivial⟩
  have hfns := hs.fns
  cases hlist : s.fns with
  | nil => exact fun f hf => (List.not_mem_nil hf).elim
  | cons f fs =>
    rw [hlist, List.forall_mem_cons] at hfns
    refine List.forall_mem_cons.mpr ⟨⟨hfns.1.declared, fun e he => ?_⟩, hfns.2⟩
    rcases List.mem_append.mp he with he | he
    · exact hfns.1.returns e he
    · exact List.mem_singleton.mp he ▸ hty

theorem forms_finishReturn {ty : Ty} (hty : ty.Formed D) (candidate : Range) :
    Forms D (finishReturn ty candidate range) fun _ => True :=
      (forms_noteReturn hty).seq fun _ _ => .reportUnless _ _ _

theorem forms_declaredReturn : Forms D declaredReturn fun o => ∀ ty ∈ o, ty.Formed D := by
  refine Forms.get.seq fun s hs => .pure fun ty hty => ?_
  obtain ⟨f, hf, hty⟩ := Option.bind_eq_some_iff.mp hty
  exact (hs.fns f (List.mem_of_mem_head? hf)).declared ty hty

theorem formed_blockCandidate {b : Block} (h : b.Formed D) : ∀ e ∈ blockCandidate b, e.1.Formed D := by
  intro e he
  obtain ⟨value, hvalue, -, rfl⟩ := exists_of_blockCandidate he
  exact (h.value? hvalue).ty

theorem formed_bodyCandidate {body : Expr} (h : body.Formed D) :
    ∀ e ∈ bodyCandidate body, e.1.Formed D := by
  obtain ⟨kind, ty, range⟩ := body
  intro e he
  rcases bodyCandidate_cases he with ⟨block, rfl, hblock⟩ | ⟨-, rfl⟩
  · exact formed_blockCandidate (Expr.formed_mk.mp h).2 e hblock
  · exact h.ty

/-- A return type is written, or that of one of the returned values. -/
theorem forms_settleReturn {frame : FnFrame} (hframe : frame.Formed D) {trailing : Option (Ty × Range)}
    (htrailing : ∀ e ∈ trailing, e.1.Formed D) :
    Forms D (settleReturn frame trailing) (Ty.Formed D) := by
  unfold settleReturn
  split
  · next declared hdeclared =>
    exact .seq (.check _) fun _ _ => .pure (hframe.declared declared hdeclared)
  · dsimp only
    split
    · exact .pure (.prim _)
    · split
      · exact .pure .error
      · next first rest hfilter =>
        have hfirst : first ∈ (frame.returns ++ trailing.toList).map Prod.fst :=
          (List.mem_filter.mp (hfilter ▸ List.mem_cons_self)).1
        obtain ⟨e, he, rfl⟩ := List.mem_map.mp hfirst
        have hformed : e.1.Formed D := by
          rcases List.mem_append.mp he with he | he
          · exact hframe.returns e he
          · exact htrailing e (Option.mem_toList.mp he)
        split
        · exact .pure hformed
        · exact .report_pure _ _ .error

/-! ## Patterns -/

theorem forms_namePattern (htarget : target.Formed D) (name : Name) :
    Forms D (namePattern target name) fun p => ∀ n ∈ p.nodes, n.Formed D := by
  refine Forms.get.seq fun s _ => ?_
  cases bareVariant? s.registry target name.text with
  | some symbol => exact .pure (List.forall_mem_singleton.mpr htarget)
  | none =>
    exact .seq (.declareLocal name rfl htarget) fun symbol _ =>
      .pure (List.forall_mem_singleton.mpr htarget)

theorem forms_tupleTargets (htarget : target.Formed D) (count : Nat) :
    Forms D (tupleTargets target count range) fun tys => ∀ ty ∈ tys, ty.Formed D := by
  have hpoison : ∀ ty ∈ List.replicate count Ty.error, ty.Formed D :=
    fun ty hty => List.eq_of_mem_replicate hty ▸ .error
  unfold tupleTargets
  split
  · split
    · exact .pure htarget.elems
    · exact .report_pure _ _ hpoison
  · exact .pure hpoison
  · exact .pure hpoison
  · exact .report_pure _ _ hpoison

theorem formed_tuplePatternTy (target : Ty) {tys : List Ty} (htys : ∀ ty ∈ tys, ty.Formed D) :
    (tuplePatternTy target tys).Formed D := by
  unfold tuplePatternTy
  split
  · exact .tuple htys
  · exact .tuple htys
  · exact .error

theorem forms_resolveVariant (htarget : target.Formed D) (name : Name) :
    Forms D (resolveVariant target name range) fun o => ∀ r ∈ o, ∀ ty ∈ r.2, ty.Formed D := by
  refine Forms.get.seq fun s hs => ?_
  split
  · exact .pure (by simp)
  · next sum args =>
    refine (Forms.reportUnless _ _ _).seq fun _ _ => .pure fun r hr ty hty => ?_
    obtain ⟨d, hd, hr⟩ := Option.bind_eq_some_iff.mp hr
    obtain ⟨v, hv, hr⟩ := Option.bind_eq_some_iff.mp hr
    obtain ⟨payload, hpayload, hr⟩ := Option.bind_eq_some_iff.mp hr
    obtain rfl := Option.some.inj hr
    obtain ⟨v', hv', rfl⟩ := Option.map_eq_some_iff.mp hpayload
    obtain ⟨declared, hdeclared, rfl⟩ := Option.map_eq_some_iff.mp hty
    exact ((hs.registry.sum sum d hd).payload _ v' hv' declared hdeclared).subst
      (.ofArguments _ htarget.args)
  · exact .report_pure _ _ (by simp)

theorem forms_payloadTarget {resolved : Option (SymId × Option Ty)}
    (hresolved : ∀ r ∈ resolved, ∀ ty ∈ r.2, ty.Formed D) (name : String) :
    Forms D (payloadTarget resolved name range) (Ty.Formed D) := by
  unfold payloadTarget
  split
  · exact .pure .error
  · next symbol ty => exact .pure (hresolved _ rfl ty rfl)
  · exact .report_pure _ _ .error

theorem formed_variantPattern (htarget : target.Formed D) (resolved : Option (SymId × Option Ty))
    (name : String)
    {payload : Option Pattern} (hpayload : ∀ p ∈ payload, ∀ n ∈ p.nodes, n.Formed D) :
    ∀ n ∈ (variantPattern target resolved name payload range).nodes, n.Formed D := by
  have hty : (if resolved.isSome then target else Ty.error).Formed D := by
    split
    · exact htarget
    · exact .error
  cases payload with
  | none => exact List.forall_mem_singleton.mpr hty
  | some p => exact List.forall_mem_cons.mpr ⟨hty, hpayload p rfl⟩

mutual

/-- The types in a pattern are well formed if the type that it is matched with is. -/
theorem forms_bindPattern {target : Ty} (htarget : target.Formed D) (p : Ast.Pattern) :
    Forms D (bindPattern target p) fun p => ∀ n ∈ p.nodes, n.Formed D := by
  match p with
  | .literal _ value =>
    rw [bindPattern]
    exact .checks _ fun s _ => List.forall_mem_singleton.mpr value.formed_ty
  | .wildcard _ => exact .pure (List.forall_mem_singleton.mpr htarget)
  | .name name => exact forms_namePattern htarget name
  | .tuple _ elems =>
    exact (forms_tupleTargets htarget elems.length).seq fun tys htys =>
      (forms_bindPatterns htys elems).seq fun ps hps =>
        .pure (List.forall_mem_cons.mpr ⟨formed_tuplePatternTy target htys, hps⟩)
  | .variant _ name none =>
    exact (forms_resolveVariant htarget name).seq fun resolved _ => .seq (.check _) fun _ _ =>
      .pure (formed_variantPattern htarget resolved _ (by simp))
  | .variant _ name (some payload) =>
    exact (forms_resolveVariant htarget name).seq fun resolved hresolved =>
      (forms_payloadTarget hresolved _).seq fun ty hty => (forms_bindPattern hty payload).seq
        fun p hp =>
        .pure (formed_variantPattern htarget resolved _ fun _ h => Option.some.inj h ▸ hp)

theorem forms_bindPatterns {tys : List Ty} (htys : ∀ ty ∈ tys, ty.Formed D) (ps : List Ast.Pattern) :
    Forms D (bindPatterns tys ps) fun ps => ∀ n ∈ Pattern.allNodes ps, n.Formed D := by
  match tys, ps with
  | [], _ | _ :: _, [] =>
    rw [bindPatterns]
    · exact .pure (List.forall_mem_nil _)
    · simp
  | ty :: tys, p :: ps =>
    rw [List.forall_mem_cons] at htys
    exact (forms_bindPattern htys.1 p).seq fun p hp => (forms_bindPatterns htys.2 ps).seq fun ps hps =>
      .pure (List.forall_mem_append.mpr ⟨hp, hps⟩)

end

/-! ## Statements and lambdas -/

theorem forms_finishLet (isMutable : Bool) {annot : Option Ty} (hannot : ∀ ty ∈ annot, ty.Formed D)
    {init : Expr} (hinit : init.Formed D) :
    Forms D (finishLet name isMutable annot init) fun kind =>
      ∀ range, ∀ n ∈ Stmt.nodes true ⟨kind, range⟩, n.Formed D := by
  have hformed : ∀ (symbol : SymId) (range : Range),
      ∀ n ∈ Stmt.nodes true ⟨.bindName symbol init, range⟩, n.Formed D := by
    exact fun _ _ => List.forall_mem_append.mpr ⟨hinit, List.forall_mem_singleton.mpr trivial⟩
  cases annot with
  | some ty =>
    exact .seq (.reportUnless _ _ _) fun _ _ => .seq (.declareLocal name rfl (hannot ty rfl))
      fun symbol _ =>
      .pure (hformed symbol)
  | none => exact .seq (.declareLocal name rfl hinit.ty) fun symbol _ => .pure (hformed symbol)

theorem forms_assignTarget : Forms D (assignTarget name) fun target => ∀ t ∈ target.2,
    t.1.Formed D := by
  refine (Forms.resolveVar name).seq fun target _ => Forms.get.seq fun s hs => .pure fun t ht => ?_
  obtain ⟨sym, hsym, rfl⟩ := Option.map_eq_some_iff.mp ht
  obtain ⟨id, -, hsym⟩ := Option.bind_eq_some_iff.mp hsym
  exact (hs.syms id sym hsym).ty

theorem forms_lambdaExpr {params : List (Name × Ty)} (hparams : ∀ p ∈ params, p.2.Formed D)
    {declared : Option Ty} (hdeclared : ∀ ty ∈ declared, ty.Formed D) {body : Binding Expr}
    (hbody : Forms D body (Expr.Formed D)) :
    Forms D (lambdaExpr params declared body range) (Expr.Formed D) := by
  have hframe : FnFrame.Formed D ⟨"<lambda>", declared, [], range⟩ :=
    ⟨hdeclared, List.forall_mem_nil _⟩
  refine .seq (.inScope .lambda (.withLambda (.seq (.declareLocals rfl params hparams) fun syms _ =>
    .seq (.withFn hframe (.withLoopDepth _ hbody)) fun found hfound =>
      .pure (Q := fun r : List SymId × Expr × Option FnFrame =>
        r.2.1.Formed D ∧ ∀ f ∈ r.2.2, f.Formed D) hfound))) fun found hfound => ?_
  obtain ⟨⟨syms, body, frame⟩, captures⟩ := found
  have hformed : ∀ ret : Ty, ret.Formed D →
      Expr.Formed D ⟨.lambda syms ret captures body, .fn (params.map Prod.snd) ret, range⟩ := by
    refine fun ret hret => .of_parts (.fn (fun ty hty => ?_) hret) hret hfound.1
    obtain ⟨p, hp, rfl⟩ := List.mem_map.mp hty
    exact hparams p hp
  cases frame with
  | none => exact .pure (hformed _ .error)
  | some frame =>
    exact .seq (forms_settleReturn (hfound.2 frame rfl) (formed_bodyCandidate hfound.1))
      fun ret hret =>
      .pure (hformed ret hret)

/-! ## Trees -/

theorem formed_zip {names : List Name} {tys : List Ty} (htys : ∀ ty ∈ tys, ty.Formed D) :
    ∀ p ∈ names.zip tys, p.2.Formed D := fun p hp => htys p.2 (List.of_mem_zip hp).2

theorem formed_head? {hints : List (Option Ty)} (hhints : ∀ hint ∈ hints, ∀ ty ∈ hint, ty.Formed D) :
    ∀ ty ∈ hints.head?.join, ty.Formed D := by
  cases hints with
  | nil => simp
  | cons hint hints => exact (List.forall_mem_cons.mp hhints).1

mutual

/-- All types in a bound expression are well formed. -/
theorem forms_bindExpr {expected : Option Ty} (hexpected : ∀ ty ∈ expected, ty.Formed D)
    (e : Ast.Expr) :
    Forms D (bindExpr expected e) (Expr.Formed D) := by
  have hnone : ∀ ty ∈ (none : Option Ty), ty.Formed D := by simp
  match e with
  | .literal _ value => exact .pure (Expr.formed_leaf value.formed_ty trivial rfl)
  | .name name => exact forms_nameExpr hexpected name
  | .binary _ op left right =>
    exact .seq (forms_bindExpr hnone left) fun _ hleft => .seq (forms_bindExpr hnone right)
      fun _ hright =>
      forms_binaryExpr op hleft hright
  | .unary _ op operand =>
    exact .seq (forms_bindExpr hnone operand) fun _ hoperand => forms_unaryExpr op hoperand
  | .call _ callee tyArgs args =>
    refine .seq (forms_resolveCallee hexpected callee tyArgs) fun found hfound => ?_
    cases found with
    | some target =>
      exact .seq (forms_bindExprs (formed_hints (hfound target rfl)) args) fun _ hargs =>
        forms_finishCall (hfound target rfl) hargs
    | none =>
      exact .seq (forms_bindExpr hnone callee) fun _ hcallee => .seq (.check _) fun _ _ =>
        .seq (forms_bindExprs (formed_valueHints hcallee.ty) args) fun _ hargs =>
          forms_finishValueCall hcallee _ hargs
  | .lambda _ params ret body =>
    exact .seq (forms_resolveTypes _) fun _ htys => .seq (forms_resolveType? ret) fun _ hdeclared =>
      forms_lambdaExpr (formed_zip htys) hdeclared (forms_bindExpr hdeclared body)
  | .record origin type tyArgs fields =>
    refine .seq .get fun s hs => ?_
    cases hrecord : s.registry.record? type.text with
    | none =>
      exact .seq (.check _) fun _ _ => .seq (forms_bindUnused fields) fun _ _ =>
        .pure (Expr.formed_error _)
    | some record =>
      have hformed := hs.registry.record _ record hrecord
      refine .seq (forms_recordArgs hexpected record type tyArgs) fun known hknown =>
        .seq (forms_bindFields hformed [] hknown fields) fun bound hbound =>
          .seq (.check _) fun _ _ => .pure ?_
      exact .of_parts (hbound.2.nominal (hformed.name ▸ hformed.declared)) trivial hbound.1
  | .field _ target name =>
    exact .seq (forms_bindExpr hnone target) fun _ htarget => forms_fieldExpr htarget name
  | .tuple _ elems =>
    exact .seq (forms_bindExprs (formed_tupleHints _ hexpected) elems) fun bound hbound =>
      .pure (.of_parts (.tuple (formed_argTys hbound)) trivial (Expr.formed_allNodes.mpr hbound))
  | .list _ elems =>
    rw [bindExpr_list]
    refine .seq (forms_bindExprs (fun hint h => ?_) elems) fun _ hbound =>
      forms_listExpr (formed_elementHint .list hexpected) hbound
    obtain rfl := List.eq_of_mem_replicate h
    exact formed_elementHint .list hexpected
  | .map _ entries =>
    exact .seq (forms_bindEntries (formed_elementHint .map hexpected) entries) fun _ hbound =>
      forms_mapExpr (formed_elementHint .map hexpected) hbound
  | .index _ target index =>
    exact .seq (forms_bindExpr hnone target) fun _ htarget => .seq (forms_bindExpr hnone index)
      fun _ hindex =>
      forms_indexExpr htarget hindex
  | .ifElse _ cond thenBranch none =>
    exact .seq (forms_bindExpr hnone cond) fun _ hcond =>
      .seq (.check _) fun _ _ =>
        .seq (forms_bindBlock thenBranch) fun _ hthen => forms_ifExpr hcond hthen (by simp)
  | .ifElse _ cond thenBranch (some elseBranch) =>
    exact .seq (forms_bindExpr hnone cond) fun _ hcond =>
      .seq (.check _) fun _ _ =>
        .seq (forms_bindBlock thenBranch) fun _ hthen => .seq (forms_bindExpr hexpected elseBranch)
          fun _ helse =>
          forms_ifExpr hcond hthen fun _ h => Option.some.inj h ▸ helse
  | .block block =>
    exact .seq (forms_bindBlock block) fun bound hbound =>
      .pure (.of_parts hbound.ty trivial hbound)
  | .matchOn _ scrutinee arms =>
    exact .seq (forms_bindExpr hnone scrutinee) fun _ hscrutinee =>
      .seq (forms_bindArms hscrutinee.ty hexpected (fun _ h => by cases h) arms) fun _ harms =>
        forms_matchExpr hscrutinee harms.1 harms.2
  | .spawn _ body =>
    exact .seq (.check _) fun _ _ =>
      .seq (forms_bindBlock body) fun bound hbound =>
        .pure (.of_parts (.container _ hbound.ty) trivial hbound)
  | .scope _ body =>
    rw [bindExpr_scope_eq]
    exact .seq (.withScopeDepth _ (forms_bindBlock body)) fun bound hbound =>
      .pure (.of_parts hbound.ty trivial hbound)
  | .channel _ element =>
    refine .seq (forms_resolveType element) fun ty hty => .pure (Expr.formed_leaf (.tuple ?_) hty rfl)
    exact List.forall_mem_cons.mpr ⟨.container _ hty, List.forall_mem_singleton.mpr (.container _ hty)⟩
  | .par _ inner =>
    exact .seq (forms_bindExpr hexpected inner) fun bound hbound =>
      .pure (.of_parts hbound.ty trivial hbound)

theorem forms_bindExprs {hints : List (Option Ty)} (hhints : ∀ hint ∈ hints, ∀ ty ∈ hint, ty.Formed D)
    (es : List Ast.Expr) : Forms D (bindExprs hints es) fun bs => ∀ b ∈ bs, b.Formed D := by
  match es with
  | [] => exact .pure (List.forall_mem_nil _)
  | e :: es =>
    exact .seq (forms_bindExpr (formed_head? hhints) e) fun _ hb =>
      .seq (forms_bindExprs (fun hint h => hhints hint (List.mem_of_mem_tail h)) es) fun _ hbs =>
        .pure (List.forall_mem_cons.mpr ⟨hb, hbs⟩)

theorem forms_bindEntries {hint : Option Ty} (hhint : ∀ ty ∈ hint, ty.Formed D)
    (entries : List Ast.MapEntry) :
    Forms D (bindEntries hint entries) fun bs => ∀ b ∈ bs, b.key.Formed D ∧ b.value.Formed D := by
  match entries with
  | [] => exact .pure (List.forall_mem_nil _)
  | ⟨_, key, value⟩ :: entries =>
    exact .seq (forms_bindExpr (fun _ h => Option.some.inj h ▸ .prim _) key) fun _ hkey =>
      .seq (.check _) fun _ _ =>
        .seq (forms_bindExpr hhint value) fun _ hvalue => .seq (forms_bindEntries hhint entries)
          fun _ hrest =>
          .pure (List.forall_mem_cons.mpr ⟨⟨hkey, hvalue⟩, hrest⟩)

theorem forms_bindUnused (fields : List Ast.FieldInit) :
    Forms D (bindUnused fields) fun _ => True := by
  match fields with
  | [] => exact .pure trivial
  | ⟨_, _, value⟩ :: fields =>
    exact .seq (forms_bindExpr (by simp) value) fun _ _ => forms_bindUnused fields

theorem forms_bindFields {record : RecordDef} {n : String} (hrecord : record.Formed D n)
    (seen : List String)
    {known : Subst} (hknown : known.Formed D) (fields : List Ast.FieldInit) :
    Forms D (bindFields record seen known fields) fun bound =>
      (∀ n ∈ FieldValue.allNodes true bound.1, n.Formed D) ∧ bound.2.Formed D := by
  match fields with
  | [] => exact .pure ⟨List.forall_mem_nil _, hknown⟩
  | ⟨_, name, value⟩ :: fields =>
    rw [bindFields]
    split
    · exact .seq (.report _ _) fun _ _ => .seq (forms_bindExpr (by simp) value) fun _ _ =>
        forms_bindFields hrecord seen hknown fields
    · cases hd : record.fields.get? name.text with
      | none =>
        exact .seq (.report _ _) fun _ _ => .seq (forms_bindExpr (by simp) value) fun _ _ =>
          forms_bindFields hrecord _ hknown fields
      | some d =>
        have hty := hrecord.ty _ d hd
        exact .seq (forms_bindExpr (formed_closedHint (hty.subst hknown)) value) fun _ hvalue =>
          .seq (forms_checkField _ hvalue hknown) fun _ hknown =>
            .seq (forms_bindFields hrecord _ hknown fields) fun bound hbound =>
              .pure ⟨List.forall_mem_append.mpr ⟨hvalue, hbound.1⟩, hbound.2⟩

theorem forms_bindArms {target : Ty} (htarget : target.Formed D) {expected : Option Ty}
    (hexpected : ∀ ty ∈ expected, ty.Formed D) {agreed : ArmTypes} (hagreed : ArmTypesFormed D agreed)
    (arms : List Ast.Arm) :
    Forms D (bindArms target expected agreed arms) fun bound =>
      (∀ n ∈ Arm.allNodes true bound.1, n.Formed D) ∧ ArmTypesFormed D bound.2 := by
  match arms with
  | [] => exact .pure ⟨List.forall_mem_nil _, hagreed⟩
  | ⟨origin, pattern, body⟩ :: arms =>
    have hhint : ∀ ty ∈ (expected <|> agreed.result), ty.Formed D := by
      cases expected with
      | none => exact hagreed
      | some ty => exact hexpected
    refine .seq (.inScope .matchArm (.seq (forms_bindPattern htarget pattern) fun p hp =>
      .seq (forms_bindExpr hhint body) fun b hb => .pure (Q := fun arm : Arm =>
        (∀ n ∈ arm.pattern.nodes, n.Formed D) ∧ arm.body.Formed D) ⟨hp, hb⟩)) fun arm harm =>
      .seq (forms_noteArm hagreed harm.2) fun agreed hagreed =>
        .seq (forms_bindArms htarget hexpected hagreed arms) fun bound hbound => .pure ⟨?_, hbound.2⟩
    obtain ⟨p, b, range⟩ := arm
    exact List.forall_mem_append.mpr ⟨List.forall_mem_append.mpr harm, hbound.1⟩

theorem forms_bindBlock (block : Ast.Block) : Forms D (bindBlock block) (Block.Formed D) := by
  match block with
  | ⟨origin, stmts⟩ =>
    exact .seq (.inScope .block (forms_bindStmts stmts)) fun _ hbound =>
      .pure (Block.formed_ofStatements origin.range hbound)

/-- All types in bound statements are well formed. -/
theorem forms_bindStmts (stmts : List Ast.Stmt) :
    Forms D (bindStmts stmts) fun bs => ∀ n ∈ Stmt.allNodes true bs, n.Formed D := by
  match stmts with
  | [] => exact .pure (List.forall_mem_nil _)
  | stmt :: stmts =>
    refine .seq (forms_bindStmt stmt) fun bound hbound => .seq (forms_bindStmts stmts)
      fun rest hrest =>
      .pure ?_
    cases bound with
    | none => exact hrest
    | some b => exact List.forall_mem_append.mpr ⟨hbound b rfl, hrest⟩

theorem forms_bindStmt (stmt : Ast.Stmt) :
    Forms D (bindStmt stmt) fun bound => ∀ b ∈ bound, ∀ n ∈ b.nodes true, n.Formed D := by
  have hnone : ∀ ty ∈ (none : Option Ty), ty.Formed D := by simp
  have hdropped : ∀ b ∈ (none : Option Stmt), ∀ n ∈ b.nodes true, n.Formed D := by simp
  have hsome : ∀ b : Stmt, (∀ n ∈ b.nodes true, n.Formed D) → ∀ b' ∈ some b, ∀ n ∈ b'.nodes true,
    n.Formed D :=
    fun b hb b' hb' => Option.some.inj hb' ▸ hb
  match stmt with
  | .bindName _ name isMutable annot init =>
    exact .seq (forms_resolveType? annot) fun _ hannot => .seq (forms_bindExpr hannot init)
      fun _ hinit => .seq (forms_finishLet name isMutable hannot hinit) fun _ hkind =>
        .pure (hsome _ (hkind _))
  | .assign _ name value =>
    refine .seq (forms_assignTarget name) fun target htarget =>
      .seq (forms_bindExpr (fun ty hty => ?_) value)
      fun _ hvalue => .seq (.check _) fun _ _ =>
        .pure (hsome _ (List.forall_mem_cons.mpr ⟨trivial, hvalue⟩))
    obtain ⟨t, ht, rfl⟩ := Option.map_eq_some_iff.mp hty
    exact htarget t ht
  | .expr _ value | .print _ value =>
    exact .seq (forms_bindExpr hnone value) fun _ hvalue =>
      .pure (hsome _ (List.forall_mem_cons.mpr ⟨trivial, hvalue⟩))
  | .ret _ none =>
    exact .seq (forms_finishReturn (.prim _) _) fun _ _ =>
      .pure (hsome _ (List.forall_mem_singleton.mpr trivial))
  | .ret _ (some value) =>
    exact .seq forms_declaredReturn fun _ hdeclared => .seq (forms_bindExpr hdeclared value)
      fun _ hvalue =>
      .seq (forms_finishReturn hvalue.ty _) fun _ _ =>
        .pure (hsome _ (List.forall_mem_append.mpr ⟨hvalue, List.forall_mem_singleton.mpr trivial⟩))
  | .block block =>
    exact .seq (forms_bindBlock block) fun _ hblock =>
      .pure (hsome _ (List.forall_mem_cons.mpr ⟨trivial, hblock⟩))
  | .whileLoop _ cond body =>
    rw [bindStmt_whileLoop_eq]
    exact .seq (forms_bindExpr hnone cond) fun _ hcond =>
      .seq (.check _) fun _ _ =>
        .seq (.withLoopDepth _ (forms_bindBlock body)) fun _ hbody =>
          .pure (hsome _
          (List.forall_mem_cons.mpr ⟨trivial, List.forall_mem_append.mpr ⟨hcond, hbody⟩⟩))
  | .forLoop _ item iterable body =>
    rw [bindStmt_forLoop_eq]
    exact .seq (forms_bindExpr hnone iterable) fun _ hiterable => .seq (forms_itemTy hiterable)
      fun _ hty =>
      .seq (.inScope .block (.seq (.declareLocal item rfl hty) fun symbol _ =>
        .seq (.withLoopDepth _ (forms_bindBlock body)) fun b hb =>
          .pure (Q := fun r : SymId × Block => r.2.Formed D) hb)) fun _ hbody =>
        .pure (hsome _
        (List.forall_mem_append.mpr ⟨hiterable, List.forall_mem_cons.mpr ⟨trivial, hbody⟩⟩))
  | .breakLoop _ | .continueLoop _ =>
    exact .seq (.check _) fun _ _ => .pure (hsome _ (List.forall_mem_singleton.mpr trivial))
  | .fn .. | .record .. | .sum .. => exact .report_pure _ _ hdropped

end

end Binding

end Bindery
