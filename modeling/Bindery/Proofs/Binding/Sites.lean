import Bindery.Proofs.Binding.Account
import Bindery.Proofs.Binding.TopLevel

/-!
# Where the expressions of a bound tree come from

Every expression below a tree that is bound quietly is what binding some expression gives, at a
place inside the tree. All such places know the same functions and declared types: between the start
of a tree and a place inside it only variables and parameters are declared. So a law of expressions
need only be shown of the rule that makes the expression, at an arbitrary place.
-/

namespace Bindery.Binding

open Bindery.Bound

/-- The place `t` knows the functions and declared types of `s`: only local symbols were added in
between. -/
structure Inside (s t : State) : Prop where
  registry : t.registry = s.registry
  syms : s.syms ≤ t.syms
  added : ∀ id sym, t.syms.get? id = some sym → s.syms.get? id = some sym ∨ sym.kind.isLocal = true

namespace Inside

variable {s t u : State}

theorem of_eq (hregistry : t.registry = s.registry) (hsyms : t.syms = s.syms) : Inside s t where
  registry := hregistry
  syms := by rw [hsyms]; exact Symbols.le_refl _
  added id sym h := .inl (hsyms ▸ h)

theorem of_grows {own : List String} (h : Grows own s t) : Inside s t := ⟨h.registry, h.syms, h.added⟩

theorem trans (hst : Inside s t) (htu : Inside t u) : Inside s u where
  registry := htu.registry.trans hst.registry
  syms := Symbols.le_trans hst.syms htu.syms
  added id sym h := (htu.added id sym h).elim (hst.added id sym) .inr

/-- A function is known at the one place exactly if it is known at the other. -/
theorem sig?_eq (h : Inside s t) (id : SymId) : t.syms.sig? id = s.syms.sig? id := by
  cases hs : s.syms.sig? id with
  | some f => exact Symbols.sig?_of_le h.syms hs
  | none =>
    cases ht : t.syms.sig? id with
    | none => rfl
    | some f =>
      obtain ⟨sym, hsym, hkind⟩ := Symbols.sig?_eq_some_iff.mp ht
      rcases h.added id sym hsym with hold | hlocal
      · rw [Symbols.sig?_eq_some_iff.mpr ⟨sym, hold, hkind⟩] at hs
        cases hs
      · rw [hkind] at hlocal
        cases hlocal

end Inside

/-- The expression is what binding gives at a place that knows the functions of `s`. -/
def IsSited (Γ : Symbols) (s : State) : Node → Prop
  | .expr b => ∃ expected e u t, Inside s u ∧ u.Valid ∧ Quiet Γ (bindExpr expected e) u b t
  | _ => True

theorem IsSited.of_inside {Γ : Symbols} {s t : State} {n : Node} (h : Inside s t)
    (hn : IsSited Γ t n) :
    IsSited Γ s n := by
  cases n with
  | expr b =>
    obtain ⟨expected, e, u, v, hu, hvalid, hquiet⟩ := hn
    exact ⟨expected, e, u, v, h.trans hu, hvalid, hquiet⟩
  | _ => trivial

/-- Between the two states the given nodes were made, each at a place inside. -/
structure Sites (Γ : Symbols) (s : State) (nodes : List Node) (t : State) : Prop where
  grows : ∃ own, Grows own s t
  sited : ∀ n ∈ nodes, IsSited Γ s n

namespace Sites

variable {Γ : Symbols} {s t u : State} {nodes nodes' : List Node} {own : List String}

theorem nil (h : Grows own s t) : Sites Γ s [] t := ⟨⟨own, h⟩, fun _ hn => by cases hn⟩

theorem trans (h : Sites Γ s nodes t) (h' : Sites Γ t nodes' u) : Sites Γ s (nodes ++ nodes') u := by
  obtain ⟨own, hgrows⟩ := h.grows
  obtain ⟨own', hgrows'⟩ := h'.grows
  refine ⟨⟨own ++ own', (hgrows.mono fun n hn => List.mem_append_left _ hn).trans
    (hgrows'.mono fun n hn => List.mem_append_right _ hn)⟩, fun n hn => ?_⟩
  rcases List.mem_append.mp hn with hn | hn
  · exact h.sited n hn
  · exact (h'.sited n hn).of_inside (.of_grows hgrows)

/-- The same nodes, made from a place that knows the same functions. -/
theorem congr {s' t' : State} (h : Sites Γ s nodes t) (hgrows : Grows own s' t')
    (hinside : Inside s' s) :
    Sites Γ s' nodes t' := ⟨⟨own, hgrows⟩, fun n hn => (h.sited n hn).of_inside hinside⟩

theorem cons {n : Node} (h : Sites Γ s nodes t) (hn : IsSited Γ s n) : Sites Γ s (n :: nodes) t :=
  ⟨h.grows, List.forall_mem_cons.mpr ⟨hn, h.sited⟩⟩

variable {expected : Option Ty} {e : Ast.Expr}

/-- An expression above its parts. -/
theorem under {b : Expr} (h : Sites Γ s nodes t) (hs : s.Valid)
    (hb : Quiet Γ (bindExpr expected e) s b t) :
    Sites Γ s (.expr b :: nodes) t :=
  h.cons ⟨expected, e, s, t, .of_eq rfl rfl, hs, hb⟩

/-- An expression without parts. -/
theorem leaf {b : Expr} (hs : s.Valid) (hb : Quiet Γ (bindExpr expected e) s b t) :
    Sites Γ s [.expr b] t :=
  (nil (hb.grows_nil)).under hs hb

theorem inScope {kind : ScopeKind} (h : Sites Γ (s.opened kind) nodes t) :
    Sites Γ s nodes (t.at s.current) := by
  obtain ⟨own, hgrows⟩ := h.grows
  exact h.congr hgrows.inScope (.of_eq rfl rfl)

theorem withLoopDepth {depth : Nat} (h : Sites Γ (s.inLoops depth) nodes t) :
    Sites Γ s nodes (t.inLoops s.loopDepth) := by
  obtain ⟨own, hgrows⟩ := h.grows
  exact h.congr hgrows.withLoopDepth (.of_eq rfl rfl)

theorem withScopeDepth {depth : Nat} (h : Sites Γ (s.inScopeBlocks depth) nodes t) :
    Sites Γ s nodes (t.inScopeBlocks s.scopeDepth) := by
  obtain ⟨own, hgrows⟩ := h.grows
  exact h.congr hgrows.withScopeDepth (.of_eq rfl rfl)

end Sites

variable {Γ : Symbols}

/-- Every expression below one that is bound quietly was bound at a place inside. -/
theorem Sites.traversal : Traversal Γ fun _ s nodes t => Sites Γ s (nodes true) t where
  nil := .nil (.refl [] _)
  trans _ h h' := h.trans h'
  inScope _ h := h.inScope
  withLoopDepth h := h.withLoopDepth
  withScopeDepth h := h.withScopeDepth
  pattern _ h := ⟨⟨_, h.grows (keeps_bindPattern _ _)⟩, forall_nodes_pattern (fun _ => trivial) _⟩
  name hs h _ := .leaf hs h
  callee := .nil (.refl [] _)
  lambda hs h ih := by
    obtain ⟨tys, declared, -, -, hlambda⟩ := h.bindExpr_lambda
    have hgrows := hlambda.grows (keeps_lambdaExpr _ _ _ (keeps_bindExpr declared _))
    obtain ⟨syms, u, b, v, returns, ret, hparams, hbody, -, rfl, -, rfl⟩ :=
      hlambda.lambdaExpr (keeps_bindExpr declared _)
    have hu := hparams.grows (keeps_declareLocals rfl _)
    refine ((ih ?_ hbody).congr hgrows ⟨hu.registry, hu.syms, hu.added⟩).under hs h
    exact (hu.valid (hs.opened .lambda).entering).congr rfl rfl rfl rfl
  expr hs h _ hparts := hparts.under hs h
  block _ h := h.cons trivial
  stmt _ _ _ h := h.cons trivial
  started h := h
  declaring h _ _ _ _ := (nil (h.grows (keeps_declareVar _ _ _))).cons trivial
  assigning _ h := (nil (h.grows_nil)).cons trivial
  returning _ h hreturn _ _ _ := by
    have hgrows : Grows [] _ _ := hreturn.grows inferInstance
    exact h.trans ((nil hgrows).cons trivial)

end Bindery.Binding
