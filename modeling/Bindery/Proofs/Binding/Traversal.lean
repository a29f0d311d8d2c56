import Bindery.Proofs.Binding.Fits
import Bindery.Proofs.Binding.Kinds
import Bindery.Proofs.Binding.Parts
import Bindery.Proofs.Bound.Nodes
import Bindery.Proofs.Ast.Nodes

/-!
# Traversing trees that are bound quietly

A relation between the nodes of the source that a step goes over, the state before it, the nodes it
makes and the state after it holds of whole trees if it holds of each kind of step. `Traversal`
lists those kinds: steps one after the other, a node above its parts, a scope or a loop around a
step, declaring, referring, returning, and a lambda around its body. `Traversal.bindExpr` and its
siblings are the recursion over the syntax, done once for all such relations.
-/

namespace Bindery.Binding

open Bindery.Bound

variable {Γ : Symbols}

/-! ## Laws of single nodes -/

/-- The symbol can be captured: an immutable variable or a parameter. -/
def Capturable (Γ : Symbols) (id : SymId) : Prop :=
  ∃ sym, Γ.get? id = some sym ∧ (sym.kind = .var false ∨ sym.kind = .parameter)

theorem capturable_of_isLocal {sym : Symbol} (hlocal : sym.kind.isLocal = true)
    (himmutable : sym.isMutable = false) : sym.kind = .var false ∨ sym.kind = .parameter := by
  rw [Symbol.isMutable] at himmutable
  revert hlocal himmutable
  cases sym.kind <;> simp [SymKind.isLocal]

/-- What holds of a lambda and of a match that are bound quietly: a lambda captures its free
variables, and the arms of a match go with its scrutinee and leave no value over. -/
def Lawful (Γ : Symbols) (r : Registry) : Node → Prop
  | .expr ⟨.lambda params _ captures body, _, _⟩ =>
    captures = freeVars params body ∧ ∀ id ∈ captures, Capturable Γ id
  | .expr ⟨.matchOn scrutinee arms, _, range⟩ =>
    checkMatch r scrutinee.ty (arms.map Arm.pattern) range = [] ∧ ∀ arm ∈ arms,
      arm.pattern.Fits r scrutinee.ty
  | _ => True

/-- The expression stands for its node alone: it is no lambda, and its node does nothing by
itself. -/
structure Plainly (Γ : Symbols) (r : Registry) (e : Ast.Expr) (b : Expr) : Prop where
  written : (Ast.Node.expr e).annotations = []
  plain : (Node.expr b).IsPlain
  lambdas : (Node.expr b).lambdas = []
  lawful : Lawful Γ r (.expr b)

/-- The nodes of a tree of the source, shallow or deep. -/
abbrev Source := Bool → List Ast.Node

/-- The nodes that a step makes, shallow or deep. -/
abbrev Made := Bool → List Node

/-- A relation that quiet steps of each kind satisfy if those they consist of do. -/
structure Traversal (Γ : Symbols) (P : Source → State → Made → State → Prop) : Prop where
  nil {s : State} : P (fun _ => []) s (fun _ => []) s
  trans {s t u : State} {ns ns' : Source} {ms ms' : Made} : s.Valid → P ns s ms t → P ns' t ms' u →
    P (fun deep => ns deep ++ ns' deep) s (fun deep => ms deep ++ ms' deep) u
  inScope {s t : State} {kind : ScopeKind} {ns : Source} {ms : Made} : s.Valid →
    P ns (s.opened kind) ms t →
    P ns s ms (t.at s.current)
  withLoopDepth {s t : State} {depth : Nat} {ns : Source} {ms : Made} : P ns (s.inLoops depth) ms t →
    P ns s ms (t.inLoops s.loopDepth)
  withScopeDepth {s t : State} {depth : Nat} {ns : Source} {ms : Made} : P ns
    (s.inScopeBlocks depth) ms t →
    P ns s ms (t.inScopeBlocks s.scopeDepth)
  pattern {s t : State} {target : Ty} {p : Ast.Pattern} {b : Pattern} : s.Valid →
    Quiet Γ (Binding.bindPattern target p) s b t → P (fun _ => []) s (fun _ => b.nodes) t
  name {s t : State} {expected : Option Ty} {n : Ast.Name} {b : Expr} : s.Valid →
    Quiet Γ (Binding.bindExpr expected (.name n)) s b t → (Node.expr b).lambdas = [] →
    P (fun _ => [.expr (.name n)]) s (fun _ => [.expr b]) t
  /-- The name of what is called makes no node of its own. -/
  callee {s : State} {n : Ast.Name} : P (fun _ => [.expr (.name n)]) s (fun _ => []) s
  lambda {s t : State} {expected : Option Ty} {origin : Origin} {params : List Ast.Param}
    {written : Option Ast.TyExpr} {body : Ast.Expr} {b : Expr} : s.Valid →
    Quiet Γ (Binding.bindExpr expected (.lambda origin params written body)) s b t →
    (∀ {declared : Option Ty} {u v : State} {c : Expr}, u.Valid →
      Quiet Γ (Binding.bindExpr declared body) u c v →
      P (Ast.Expr.nodes · body) u (Expr.nodes · c) v) →
    P (Ast.Expr.nodes · (.lambda origin params written body)) s (Expr.nodes · b) t
  /-- Every other expression is a node above its parts. -/
  expr {s t : State} {expected : Option Ty} {e : Ast.Expr} {b : Expr} {ns : Source}
    {ms : Made} : s.Valid →
    Quiet Γ (Binding.bindExpr expected e) s b t → Plainly Γ s.registry e b → P ns s ms t →
    P (fun deep => .expr e :: ns deep) s (fun deep => .expr b :: ms deep) t
  block {s t : State} {ns : Source} {bs : List Stmt} {range : Range} : s.Valid →
    P ns s (Stmt.allNodes · bs) t →
    P ns s (fun deep => .block (.ofStatements bs range) :: Stmt.allNodes deep bs) t
  stmt {s t : State} {stmt : Ast.Stmt} {b : Stmt} {ns : Source} {ms : Made} : s.Valid →
    (Node.stmt b).IsPlain → (Node.stmt b).isJump = (Ast.Node.stmt stmt).isJump → P ns s ms t →
    P (fun deep => .stmt stmt :: ns deep) s (fun deep => .stmt b :: ms deep) t
  /-- A statement whose own node does not come first. -/
  started {s t : State} {stmt : Ast.Stmt} {ns : Source} {ms : Made} : P ns s ms t →
    P (fun deep => .stmt stmt :: ns deep) s ms t
  declaring {s t : State} {name : Ast.Name} {isMutable : Bool} {ty : Ty} {symbol : SymId} {b : Stmt} :
    Quiet Γ (declareLocal name (.var isMutable) ty) s symbol t → (Node.stmt b).declared = [symbol] →
    (Node.stmt b).referred = [] → (Node.stmt b).returned = [] → (Node.stmt b).isJump = false →
    P (fun _ => []) s (fun _ => [.stmt b]) t
  assigning {s t : State} {name : Ast.Name} {symbol : SymId} {value : Expr} {range : Range} : s.Valid →
    Quiet Γ (resolveVar name) s (some symbol) t →
    P (fun _ => []) s (fun _ => [.stmt ⟨.assign (some symbol) value, range⟩]) t
  returning {s t u : State} {origin : Origin} {value : Option Ast.Expr} {ty : Ty}
    {candidate : Range} {b : Stmt}
    {ns : Source} {ms : Made} {done : Unit} : s.Valid → P ns s ms u →
    Quiet Γ (finishReturn ty candidate origin.range) u done t → (Node.stmt b).declared = [] →
    (Node.stmt b).referred = [] → (Node.stmt b).returned = [(ty, candidate)] →
    P (fun deep => .stmt (.ret origin value) :: ns deep) s (fun deep => ms deep ++ [.stmt b]) t

variable {expected : Option Ty}

/-- A call by name adds a node above those of its arguments. -/
theorem nodes_finishCall {name : Ast.Name} {tyArgs : List Ast.TyExpr} {range : Range} {target : Callee}
    {args : List Expr} {b : Expr} {s t : State}
    (hcallee : Quiet Γ (namedCallee expected name tyArgs range) s target s)
    (h : Quiet Γ (finishCall target args range) t b t) :
    (Node.expr b).IsPlain ∧ (Node.expr b).lambdas = [] ∧ (∀ r, Lawful Γ r (.expr b)) ∧
      ∀ deep, b.nodes deep = .expr b :: Expr.allNodes deep args := by
  rcases hcallee.namedCallee with ⟨id, f, -, -, hcallee⟩ | ⟨sum, d, -, -, rfl⟩
  · obtain ⟨-, explicit, -, ⟨builtin, -, -, -, rfl⟩ | ⟨-, ⟨-, rfl⟩ | ⟨-, -, rfl⟩⟩⟩ := hcallee.fnCallee
    · obtain ⟨-, ty, -, rfl⟩ := Quiet.finishBuiltinCall h
      exact ⟨⟨rfl, rfl, rfl⟩, rfl, fun _ => trivial, fun _ => rfl⟩
    · obtain ⟨-, -, -, closed, -, rfl⟩ := Quiet.finishFnCall h
      exact ⟨⟨rfl, rfl, rfl⟩, rfl, fun _ => trivial, fun _ => rfl⟩
    · obtain ⟨-, -, -, closed, -, rfl⟩ := Quiet.finishFnCall h
      exact ⟨⟨rfl, rfl, rfl⟩, rfl, fun _ => trivial, fun _ => rfl⟩
  · obtain ⟨-, ⟨-, rfl, rfl⟩ | ⟨payload, arg, -, rfl, -, rfl⟩⟩ := Quiet.finishVariantCall h
    · exact ⟨⟨rfl, rfl, rfl⟩, rfl, fun _ => trivial, fun _ => rfl⟩
    · exact ⟨⟨rfl, rfl, rfl⟩, rfl, fun _ => trivial, fun _ => congrArg _ (List.append_nil _).symm⟩

/-- Only names and calls by name mention a function. -/
theorem mentions_bindExpr {e : Ast.Expr} {b : Expr} {s t : State}
    (h : Quiet Γ (bindExpr expected e) s b t) :
    (∃ name, e = .name name) ∨
    (∃ name tyArgs range target args, Quiet Γ (namedCallee expected name tyArgs range) s target s ∧
      Quiet Γ (finishCall target args range) t b t) ∨
    mentionsFn b = false := by
  rcases mentionsFn_bindExpr s expected e with hname | ⟨origin, callee, tyArgs, args, rfl⟩ | hnone
  · exact .inl hname
  · rcases h.bindExpr_call with ⟨name, target, bs, -, -, hnamed, -, hfinish⟩ | ⟨_, _, _, _, -, -, -,
      -, rfl⟩
    · exact .inr (.inl ⟨name, tyArgs, origin.range, target, bs, hnamed, hfinish⟩)
    · exact .inr (.inr rfl)
  · exact .inr (.inr (h.out_eq ▸ hnone))

/-- The patterns of arms that are bound quietly fit the scrutinee. -/
theorem fits_bindArms {target : Ty} {agreed : ArmTypes} (arms : List Ast.Arm)
    {result : List Arm × ArmTypes}
    {s t : State} (h : Quiet Γ (bindArms target expected agreed arms) s result t) :
    ∀ arm ∈ result.1, arm.pattern.Fits s.registry target := by
  induction arms generalizing agreed result s with
  | nil =>
    obtain ⟨rfl, rfl⟩ := h.bindArms_nil
    simp
  | cons arm arms ih =>
    obtain ⟨origin, pattern, body⟩ := arm
    obtain ⟨p, b, u, v, agreed', arms', agreed'', hpattern, hbody, -, htail, rfl⟩ := h.bindArms_cons
    have hu := hpattern.grows (keeps_bindPattern target pattern)
    have hv := hbody.grows_nil
    have hregistry : (v.at s.current).registry = s.registry := hv.registry.trans hu.registry
    have hfits := ih htail
    rw [hregistry] at hfits
    have hfit := fits_bindPattern pattern hpattern
    exact List.forall_mem_cons.mpr ⟨hfit, hfits⟩

namespace Traversal

variable {P : Source → State → Made → State → Prop}

mutual

theorem bindExpr (w : Traversal Γ P) {expected : Option Ty} (e : Ast.Expr) {b : Expr} {s t : State}
    (hs : s.Valid)
    (h : Quiet Γ (bindExpr expected e) s b t) : P (Ast.Expr.nodes · e) s (Expr.nodes · b) t := by
  match e with
  | .literal origin value =>
    obtain ⟨rfl, rfl⟩ := h.bindExpr_literal
    exact w.expr hs h ⟨rfl, ⟨rfl, rfl, rfl⟩, rfl, trivial⟩ w.nil
  | .name name =>
    rcases h.bindExpr_name.nameExpr hs with ⟨id, -, rfl⟩ | ⟨-, hname⟩
    · exact w.name hs h rfl
    · obtain ⟨-, ⟨id, -, rfl⟩ | ⟨sum, d, -, -, rfl⟩⟩ := hname.nonVarExpr
      · exact w.name hs h rfl
      · exact w.name hs h rfl
  | .binary origin op left right =>
    obtain ⟨l, r, u, ty, hleft, hright, rfl, -⟩ := h.bindExpr_binary
    have hu := hleft.valid hs
    exact w.expr hs h ⟨rfl, ⟨rfl, rfl, rfl⟩, rfl, trivial⟩
      (w.trans hs (w.bindExpr left hs hleft) (w.bindExpr right hu hright))
  | .unary origin op operand =>
    obtain ⟨e, ty, hoperand, rfl, -⟩ := h.bindExpr_unary
    exact w.expr hs h ⟨rfl, ⟨rfl, rfl, rfl⟩, rfl, trivial⟩ (w.bindExpr operand hs hoperand)
  | .call origin callee tyArgs args =>
    rcases h.bindExpr_call with ⟨name, target, bs, rfl, -, hnamed, hargs, hfinish⟩ |
      ⟨value, u, bs, ty, -, hcallee, hargs, -, rfl⟩
    · obtain ⟨hplain, hlambdas, hlawful, hnodes⟩ := nodes_finishCall hnamed hfinish
      simp only [hnodes]
      exact w.expr hs h ⟨rfl, hplain, hlambdas, hlawful _⟩
        (w.trans hs w.callee (w.bindExprs args hs hargs))
    · have hu := hcallee.valid hs
      exact w.expr hs h ⟨rfl, ⟨rfl, rfl, rfl⟩, rfl, trivial⟩
        (w.trans hs (w.bindExpr callee hs hcallee) (w.bindExprs args hu hargs))
  | .lambda origin params written body => exact w.lambda hs h fun hu hbody => w.bindExpr body hu hbody
  | .record origin type tyArgs fields =>
    obtain ⟨record, known, values, known', -, -, hfields, -, rfl⟩ := h.bindExpr_record
    exact w.expr hs h ⟨rfl, ⟨rfl, rfl, rfl⟩, rfl, trivial⟩ (w.bindFields fields hs hfields)
  | .field origin target name =>
    obtain ⟨e, field, ty, htarget, rfl, -⟩ := h.bindExpr_field
    exact w.expr hs h ⟨rfl, ⟨rfl, rfl, rfl⟩, rfl, trivial⟩ (w.bindExpr target hs htarget)
  | .tuple origin elems =>
    obtain ⟨bs, helems, rfl⟩ := h.bindExpr_tuple
    exact w.expr hs h ⟨rfl, ⟨rfl, rfl, rfl⟩, rfl, trivial⟩ (w.bindExprs elems hs helems)
  | .list origin elems =>
    obtain ⟨bs, helems, hlist⟩ := h.bindExpr_list
    obtain ⟨-, element, rfl, -, -⟩ := hlist.listExpr
    exact w.expr hs h ⟨rfl, ⟨rfl, rfl, rfl⟩, rfl, trivial⟩ (w.bindExprs elems hs helems)
  | .map origin entries =>
    obtain ⟨bs, hentries, hmap⟩ := h.bindExpr_map
    obtain ⟨-, value, rfl, -, -⟩ := hmap.mapExpr
    exact w.expr hs h ⟨rfl, ⟨rfl, rfl, rfl⟩, rfl, trivial⟩ (w.bindEntries entries hs hentries)
  | .index origin target index =>
    obtain ⟨e, i, u, ty, htarget, hindex, rfl, -⟩ := h.bindExpr_index
    have hu := htarget.valid hs
    exact w.expr hs h ⟨rfl, ⟨rfl, rfl, rfl⟩, rfl, trivial⟩
      (w.trans hs (w.bindExpr target hs htarget) (w.bindExpr index hu hindex))
  | .ifElse origin cond thenBranch none =>
    obtain ⟨c, block, u, hcond, -, hthen, rfl⟩ := h.bindExpr_if
    have hu := hcond.valid hs
    exact w.expr hs h ⟨rfl, ⟨rfl, rfl, rfl⟩, rfl, trivial⟩
      (w.trans hs (w.bindExpr cond hs hcond) (w.bindBlock thenBranch hu hthen))
  | .ifElse origin cond thenBranch (some elseBranch) =>
    obtain ⟨c, block, e, u, v, ty, hcond, -, hthen, helse, -, rfl⟩ := h.bindExpr_ifElse
    have hu := hcond.valid hs
    have hv := hthen.valid hu
    have hboth := w.trans hs (w.bindExpr cond hs hcond) (w.bindBlock thenBranch hu hthen)
    exact w.expr hs h ⟨rfl, ⟨rfl, rfl, rfl⟩, rfl, trivial⟩
      (w.trans hs hboth (w.bindExpr elseBranch hv helse))
  | .block block =>
    obtain ⟨b', hblock, rfl⟩ := h.bindExpr_block
    exact w.expr hs h ⟨rfl, ⟨rfl, rfl, rfl⟩, rfl, trivial⟩ (w.bindBlock block hs hblock)
  | .matchOn origin scrutinee arms =>
    obtain ⟨e, arms', agreed, u, hscrutinee, harms, rfl, hcheck⟩ := h.bindExpr_matchOn
    have hgrows := hscrutinee.grows_nil
    have hfits := fits_bindArms arms harms
    rw [(h.grows_nil).registry] at hcheck
    rw [hgrows.registry] at hfits
    exact w.expr hs h ⟨rfl, ⟨rfl, rfl, rfl⟩, rfl, hcheck, hfits⟩
      (w.trans hs (w.bindExpr scrutinee hs hscrutinee) (w.bindArms arms (hgrows.valid hs) harms))
  | .spawn origin body =>
    obtain ⟨b', hbody, rfl⟩ := h.bindExpr_spawn
    exact w.expr hs h ⟨rfl, ⟨rfl, rfl, rfl⟩, rfl, trivial⟩ (w.bindBlock body hs hbody)
  | .scope origin body =>
    obtain ⟨b', u, hbody, rfl, rfl⟩ := h.bindExpr_scope
    have hs' : (s.inScopeBlocks (s.scopeDepth + 1)).Valid := hs.congr rfl rfl rfl rfl
    exact w.expr hs h ⟨rfl, ⟨rfl, rfl, rfl⟩, rfl, trivial⟩
      (w.withScopeDepth (w.bindBlock body hs' hbody))
  | .channel origin element =>
    obtain ⟨ty, -, rfl, rfl⟩ := h.bindExpr_channel
    exact w.expr hs h ⟨rfl, ⟨rfl, rfl, rfl⟩, rfl, trivial⟩ w.nil
  | .par origin inner =>
    obtain ⟨e, hinner, rfl⟩ := h.bindExpr_par
    exact w.expr hs h ⟨rfl, ⟨rfl, rfl, rfl⟩, rfl, trivial⟩ (w.bindExpr inner hs hinner)

theorem bindExprs (w : Traversal Γ P) {hints : List (Option Ty)} (es : List Ast.Expr)
    {bs : List Expr} {s t : State}
    (hs : s.Valid) (h : Quiet Γ (bindExprs hints es) s bs t) :
    P (Ast.Expr.allNodes · es) s (Expr.allNodes · bs) t := by
  match es with
  | [] =>
    obtain ⟨rfl, rfl⟩ := h.bindExprs_nil
    exact w.nil
  | e :: es =>
    obtain ⟨b, bs', u, hfirst, htail, rfl⟩ := h.bindExprs_cons
    have hu := hfirst.valid hs
    exact w.trans hs (w.bindExpr e hs hfirst) (w.bindExprs es hu htail)

theorem bindEntries (w : Traversal Γ P) {hint : Option Ty} (entries : List Ast.MapEntry)
    {bs : List Entry}
    {s t : State} (hs : s.Valid) (h : Quiet Γ (bindEntries hint entries) s bs t) :
    P (Ast.MapEntry.allNodes · entries) s (Entry.allNodes · bs) t := by
  match entries with
  | [] =>
    obtain ⟨rfl, rfl⟩ := h.bindEntries_nil
    exact w.nil
  | ⟨origin, key, value⟩ :: entries =>
    obtain ⟨k, v, bs', u, x, hkey, hvalue, htail, rfl, -⟩ := h.bindEntries_cons
    have hu := hkey.valid hs
    have hx := hvalue.valid hu
    have hboth := w.trans hs (w.bindExpr key hs hkey) (w.bindExpr value hu hvalue)
    exact w.trans hs hboth (w.bindEntries entries hx htail)

theorem bindFields (w : Traversal Γ P) {record : RecordDef} {seen : List String} {known : Subst}
    (fields : List Ast.FieldInit) {result : List FieldValue × Subst} {s t : State} (hs : s.Valid)
    (h : Quiet Γ (bindFields record seen known fields) s result t) :
    P (Ast.FieldInit.allNodes · fields) s (FieldValue.allNodes · result.1) t := by
  match fields with
  | [] =>
    obtain ⟨rfl, rfl⟩ := h.bindFields_nil
    exact w.nil
  | ⟨origin, name, value⟩ :: fields =>
    obtain ⟨-, d, v, values, known', u, -, hvalue, -, htail, rfl⟩ := h.bindFields_cons
    have hu := hvalue.valid hs
    exact w.trans hs (w.bindExpr value hs hvalue) (w.bindFields fields hu htail)

theorem bindArms (w : Traversal Γ P) {target : Ty} {expected : Option Ty} {agreed : ArmTypes}
    (arms : List Ast.Arm)
    {result : List Arm × ArmTypes} {s t : State} (hs : s.Valid)
    (h : Quiet Γ (bindArms target expected agreed arms) s result t) :
    P (Ast.Arm.allNodes · arms) s (Arm.allNodes · result.1) t := by
  match arms with
  | [] =>
    obtain ⟨rfl, rfl⟩ := h.bindArms_nil
    exact w.nil
  | ⟨origin, pattern, body⟩ :: arms =>
    obtain ⟨p, b, u, v, agreed', arms', agreed'', hpattern, hbody, -, htail, rfl⟩ := h.bindArms_cons
    have hopened := hs.opened .matchArm
    have hu := hpattern.grows (keeps_bindPattern target pattern)
    have hv := hu.trans (hbody.grows ((keeps_bindExpr _ body).mono (by simp)))
    have hboth :=
      w.trans hopened (w.pattern hopened hpattern) (w.bindExpr body (hu.valid hopened) hbody)
    exact w.trans hs (w.inScope hs hboth) (w.bindArms arms (hv.inScope.valid hs) htail)

theorem bindBlock (w : Traversal Γ P) (block : Ast.Block) {b : Block} {s t : State} (hs : s.Valid)
    (h : Quiet Γ (bindBlock block) s b t) : P (Ast.Block.nodes · block) s (Block.nodes · b) t := by
  match block with
  | ⟨origin, stmts⟩ =>
    obtain ⟨bs, u, hstmts, rfl, rfl⟩ := h.bindBlock_mk
    exact w.block hs (w.inScope hs (w.bindStmts stmts (hs.opened .block) hstmts))

theorem bindStmts (w : Traversal Γ P) (stmts : List Ast.Stmt) {bs : List Stmt} {s t : State}
    (hs : s.Valid)
    (h : Quiet Γ (bindStmts stmts) s bs t) :
    P (Ast.Stmt.allNodes · stmts) s (Stmt.allNodes · bs) t := by
  match stmts with
  | [] =>
    obtain ⟨rfl, rfl⟩ := h.bindStmts_nil
    exact w.nil
  | stmt :: stmts =>
    obtain ⟨result, bs', u, hfirst, htail, rfl⟩ := h.bindStmts_cons
    have hu := (hfirst.grows (keeps_bindStmt _)).valid hs
    obtain ⟨b, rfl, hb⟩ := w.bindStmt stmt hs hfirst
    exact w.trans hs hb (w.bindStmts stmts hu htail)

theorem bindStmt (w : Traversal Γ P) (stmt : Ast.Stmt) {result : Option Stmt} {s t : State}
    (hs : s.Valid)
    (h : Quiet Γ (bindStmt stmt) s result t) :
    ∃ b, result = some b ∧ P (Ast.Stmt.nodes · stmt) s (Stmt.nodes · b) t := by
  match stmt with
  | .bindName origin name isMutable annot init =>
    obtain ⟨declared, e, symbol, u, -, hinit, hdeclare, -, rfl⟩ := h.bindStmt_bindName
    have hname := w.declaring (b := ⟨.bindName symbol e, origin.range⟩) hdeclare rfl rfl rfl rfl
    have hboth := w.trans hs (w.bindExpr init hs hinit) hname
    simp only [List.append_nil] at hboth
    exact ⟨_, rfl, w.started hboth⟩
  | .assign origin name value =>
    obtain ⟨symbol, sym, e, u, hresolve, -, -, hvalue, -, rfl⟩ := h.bindStmt_assign
    have hu : u.Valid := hresolve.valid hs
    exact ⟨_, rfl, w.started (w.trans hs (w.assigning hs hresolve) (w.bindExpr value hu hvalue))⟩
  | .expr origin value =>
    obtain ⟨e, hvalue, rfl⟩ := h.bindStmt_expr
    exact ⟨_, rfl, w.stmt hs ⟨rfl, rfl, rfl⟩ rfl (w.bindExpr value hs hvalue)⟩
  | .print origin value =>
    obtain ⟨e, hvalue, rfl⟩ := h.bindStmt_print
    exact ⟨_, rfl, w.stmt hs ⟨rfl, rfl, rfl⟩ rfl (w.bindExpr value hs hvalue)⟩
  | .ret origin none =>
    obtain ⟨⟨_, hreturn⟩, rfl⟩ := h.bindStmt_ret
    exact ⟨_, rfl, w.returning hs w.nil hreturn rfl rfl rfl⟩
  | .ret origin (some value) =>
    obtain ⟨e, u, _, hvalue, hreturn, rfl⟩ := h.bindStmt_retValue
    exact ⟨_, rfl, w.returning hs (w.bindExpr value hs hvalue) hreturn rfl rfl rfl⟩
  | .block block =>
    obtain ⟨b, hblock, rfl⟩ := h.bindStmt_block
    exact ⟨_, rfl, w.stmt hs ⟨rfl, rfl, rfl⟩ rfl (w.bindBlock block hs hblock)⟩
  | .whileLoop origin cond body =>
    obtain ⟨c, b, u, v, hcond, -, hbody, rfl, rfl⟩ := h.bindStmt_whileLoop
    have hu : (u.inLoops (u.loopDepth + 1)).Valid := (hcond.valid hs).congr rfl rfl rfl rfl
    have hboth := w.trans hs (w.bindExpr cond hs hcond) (w.withLoopDepth (w.bindBlock body hu hbody))
    exact ⟨_, rfl, w.stmt hs ⟨rfl, rfl, rfl⟩ rfl hboth⟩
  | .forLoop origin item iterable body =>
    obtain ⟨e, ty, symbol, b, u, v, x, hiterable, -, hdeclare, hbody, rfl, rfl⟩ := h.bindStmt_forLoop
    have hu := hiterable.valid hs
    have hopened := hu.opened .block
    have hv : (v.inLoops (v.loopDepth + 1)).Valid :=
      ((hdeclare.grows (keeps_declareVar _ _ _)).valid hopened).congr rfl rfl rfl rfl
    have hitem := w.declaring (b := ⟨.forLoop symbol e b, origin.range⟩) hdeclare rfl rfl rfl rfl
    have hloop := w.trans hopened hitem (w.withLoopDepth (w.bindBlock body hv hbody))
    exact ⟨_, rfl, w.started (w.trans hs (w.bindExpr iterable hs hiterable) (w.inScope hu hloop))⟩
  | .breakLoop origin =>
    obtain ⟨rfl, rfl⟩ := h.bindStmt_breakLoop
    exact ⟨_, rfl, w.stmt hs ⟨rfl, rfl, rfl⟩ rfl w.nil⟩
  | .continueLoop origin =>
    obtain ⟨rfl, rfl⟩ := h.bindStmt_continueLoop
    exact ⟨_, rfl, w.stmt hs ⟨rfl, rfl, rfl⟩ rfl w.nil⟩
  | .fn .. | .record .. | .sum .. => exact absurd h (Quiet.not_bindStmt_of_isDeclaration rfl)

end

end Traversal

end Bindery.Binding
