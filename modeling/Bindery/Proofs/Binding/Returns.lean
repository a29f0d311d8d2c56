import Bindery.Proofs.Binding.Proper
import Bindery.Proofs.Binding.Signatures
import Bindery.Proofs.Ty.Below

/-!
# Results of functions and lambdas

Every `return` of a body is noted by the innermost function or lambda around it, and judged when
that body ends, together with the value of the body. `settleReturn` is the judgment: a written
return type has to accept every candidate, except that the value of a body is thrown away if the
written type is `Unit`; without a written type all candidates that are not poisoned have one type,
which becomes the return type. So both ways the return type accepts the candidates.

The lambdas of a bound tree are those of its source, in the same order. This tells which return
types were written.
-/

namespace Bindery

/-! ## The return types that are written -/

/-- For each lambda among the nodes, in order, the return type that is written. -/
def Ast.annotationsOf (nodes : List Ast.Node) : List (Option Ast.TyExpr) :=
  nodes.flatMap Ast.Node.annotations

namespace Bound

/-- The return types and bodies of the lambdas among the nodes, in order. -/
def lambdasOf (nodes : List Node) : List (Ty × Expr) := nodes.flatMap Node.lambdas

/-- The return type accepts the results of a body: what it returns, and its own value unless it
diverges, or the return type is written and is `Unit`. -/
structure AcceptsResults (written : Option Ast.TyExpr) (ret : Ty) (returns : List (Ty × Range))
    (value? : Option Expr) : Prop where
  returned : ∀ r ∈ returns, ret.accepts r.1 = true
  value : ∀ e ∈ value?, e.diverges = false → (written.isSome = true ∧ ret = .unit) ∨
    ret.accepts e.ty = true

/-- The return type of a lambda accepts its results. The nested lambdas return to themselves. -/
def LambdaReturns (written : Option Ast.TyExpr) (l : Ty × Expr) : Prop :=
  AcceptsResults written l.1 (returnedBy (l.2.nodes false)) l.2.value?

/-- The bound lambdas are those of the source, and the return type of each accepts its results. -/
def LambdasReturn (source : List Ast.Node) (bound : List Node) : Prop :=
  List.Forall₂ LambdaReturns (Ast.annotationsOf source) (lambdasOf bound)

namespace LambdasReturn

variable {source source' : List Ast.Node} {bound bound' : List Node}

theorem nil : LambdasReturn [] [] := List.Forall₂.nil

variable (h : LambdasReturn source bound)

include h

theorem append (h' : LambdasReturn source' bound') :
    LambdasReturn (source ++ source') (bound ++ bound') := by
  rw [LambdasReturn, Ast.annotationsOf, lambdasOf, List.flatMap_append, List.flatMap_append]
  exact List.rel_append h h'

variable {n : Ast.Node}

/-- A node of the source that is no lambda. -/
theorem left (hn : n.annotations = []) : LambdasReturn (n :: source) bound := by
  rw [LambdasReturn, Ast.annotationsOf, List.flatMap_cons, hn]
  exact h

/-- A bound node that is no lambda. -/
theorem right {n : Node} (hn : n.lambdas = []) : LambdasReturn source (n :: bound) := by
  rw [LambdasReturn, lambdasOf, List.flatMap_cons, hn]
  exact h

/-- A node that is no lambda, above its parts. -/
theorem under {m : Node} (hn : n.annotations = []) (hm : m.lambdas = []) :
    LambdasReturn (n :: source) (m :: bound) := (h.left hn).right hm

/-- Statements that come after their parts. -/
theorem after {m : Node} (hm : m.lambdas = []) : LambdasReturn source (bound ++ [m]) := by
  have happend := h.append (nil.right hm)
  rwa [List.append_nil] at happend

end LambdasReturn

theorem lambdasOf_pattern (p : Pattern) : lambdasOf p.nodes = [] :=
  List.flatMap_eq_nil_iff.mpr (forall_nodes_pattern (fun _ => rfl) p)

/-- The return type of a function accepts the results of its body, and so do those of the lambdas in
it. -/
def FnReturns (Γ : Symbols) : Ast.Stmt → FnDecl → Prop
  | .fn _ _ _ _ written body, d =>
    (∃ f, Γ.sig? d.symbol = some f ∧
      AcceptsResults written f.ret (returnedBy (d.body.nodes false)) d.body.value?) ∧
    LambdasReturn (body.nodes true) (d.body.nodes true)
  | _, _ => False

end Bound

namespace Binding

open Bindery.Bound

variable {Γ : Symbols} {s t : State}

/-! ## The judgment -/

variable {trailing : Option (Ty × Range)} {frame : FnFrame} {written : Option Ast.TyExpr} {id : SymId}
  {sigs : List (Nat × SymId)} {stmts : List Ast.Stmt} {fns : List FnDecl}

/-- Without a written return type every candidate fits the type that is inferred. -/
theorem Quiet.accepts_of_inferred {ret : Ty} (h : Quiet Γ (settleReturn frame trailing) s ret t)
    (hdeclared : frame.declared = none) :
    ∀ r ∈ frame.returns ++ trailing.toList, ret.accepts r.1 = true := by
  intro r hr
  unfold Binding.settleReturn at h
  rw [hdeclared] at h
  dsimp only at h
  have hmem : r.1 ∈ (frame.returns ++ trailing.toList).map Prod.fst := List.mem_map_of_mem hr
  generalize (frame.returns ++ trailing.toList).map Prod.fst = candidates at h hmem
  split at h
  · next hempty =>
    rw [List.isEmpty_iff.mp hempty] at hmem
    cases hmem
  · split at h
    · obtain ⟨rfl, -⟩ := h.pure
      exact Ty.compatible_mono (Ty.compatible_self false r.1) (.error _) (Ty.below_refl _)
    · next first rest hfilter =>
      split at h
      · next hall =>
        obtain ⟨rfl, -⟩ := h.pure
        by_cases herror : r.1.isError = true
        · rw [Ty.isError_eq_true_iff.mp herror]
          exact Ty.compatible_mono (Ty.compatible_self false ret) (Ty.below_refl _) (.error _)
        · -- a candidate that is not poisoned is one of those that were compared
          have hkept : r.1 ∈ ret :: rest := by
            rw [← hfilter, List.mem_filter]
            exact ⟨hmem, by simpa using herror⟩
          have hsame : r.1 = ret := by
            rcases List.mem_cons.mp hkept with hfirst | hrest
            · exact hfirst
            · simpa using List.all_eq_true.mp hall r.1 hrest
          rw [hsame]
          exact Ty.compatible_self false ret
      · exact absurd h not_report_bind

/-- A return type that is settled quietly accepts the results of the body. -/
theorem Quiet.acceptsResults {ret : Ty} {value? : Option Expr}
    (h : Quiet Γ (settleReturn frame trailing) s ret t)
    (hwritten : written.isSome = frame.declared.isSome)
    (htrailing : ∀ e ∈ value?, e.diverges = false → trailing = some (e.ty, e.range)) :
    AcceptsResults written ret frame.returns value? := by
  cases hdeclared : frame.declared with
  | none =>
    have hall := h.accepts_of_inferred hdeclared
    refine ⟨fun r hr => hall r (List.mem_append_left _ hr), fun e he hdiverges => .inr ?_⟩
    exact hall (e.ty, e.range) (List.mem_append_right _ (by rw [htrailing e he hdiverges]; simp))
  | some declared =>
    obtain ⟨-, rfl, hreturned, hvalue⟩ := h.settleReturn_of_declared hdeclared
    refine ⟨hreturned, fun e he hdiverges => ?_⟩
    by_cases hunit : ret = .unit
    · exact .inl ⟨by rw [hwritten, hdeclared]; rfl, hunit⟩
    · exact .inr (hvalue hunit _ (htrailing e he hdiverges))

/-! ## Lambdas -/

/-- A lambda that is bound quietly accepts its results. -/
theorem lambdaReturns_lambdaExpr {params : List (Ast.Name × Ty)} {declared : Option Ty}
    {body : Ast.Expr}
    {range : Range} {e : Expr} (hs : s.Valid) (hwritten : written.isSome = declared.isSome)
    (h : Quiet Γ (lambdaExpr params declared (bindExpr declared body) range) s e t) :
    ∃ syms ret captures b u v, e = ⟨.lambda syms ret captures b, .fn (params.map Prod.snd) ret,
      range⟩ ∧
      LambdaReturns written (ret, b) ∧ u.Valid ∧ Quiet Γ (bindExpr declared body) u b v := by
  obtain ⟨syms, u, b, v, returns, ret, hparams, hbody, hframe, -, hsettle, rfl⟩ :=
    h.lambdaExpr (keeps_bindExpr declared body)
  have hu := hparams.grows (keeps_declareLocals rfl _)
  have hvalid : (u.enteringBody ⟨"<lambda>", declared, [], range⟩).Valid :=
    (hu.valid (hs.opened .lambda).entering).congr rfl rfl rfl rfl
  -- the frame has noted exactly what the body returns outside nested lambdas
  obtain rfl := returns_eq_returnedBy hvalid hbody hframe
  have haccepts := hsettle.acceptsResults hwritten fun _ => bodyCandidate_eq
  exact ⟨syms, ret, _, b, _, v, rfl, haccepts, hvalid, hbody⟩

/-- The lambdas of a tree that is bound quietly are those of the source, and each accepts its
results. -/
theorem LambdasReturn.traversal :
    Traversal Γ fun source _ bound _ => LambdasReturn (source true) (bound true) where
  nil := .nil
  trans _ h h' := h.append h'
  inScope _ h := h
  withLoopDepth h := h
  withScopeDepth h := h
  pattern _ _ := by
    rw [LambdasReturn, lambdasOf_pattern]
    exact .nil
  name _ _ hb := LambdasReturn.nil.under rfl hb
  callee := LambdasReturn.nil.left rfl
  lambda hs h ih := by
    obtain ⟨tys, declared, -, hdeclared, hlambda⟩ := h.bindExpr_lambda
    have hwritten := (isSome_resolveType? _ _).symm.trans (congrArg Option.isSome hdeclared.out_eq)
    obtain ⟨syms, ty, captures, b, u, v, rfl, hreturns, hu, hbody⟩ :=
      lambdaReturns_lambdaExpr hs hwritten hlambda
    exact List.Forall₂.cons hreturns (ih hu hbody)
  expr _ _ hb h := h.under hb.written hb.lambdas
  block _ h := h.right rfl
  stmt _ _ _ h := h.under rfl rfl
  started h := h.left rfl
  declaring _ _ _ _ _ := LambdasReturn.nil.right rfl
  assigning _ _ := LambdasReturn.nil.right rfl
  returning _ h _ _ _ _ := (h.after rfl).left rfl

/-! ## Functions -/

/-- The signature of a function once its return type is settled. -/
theorem sig?_settled_self {u : State} {f : Sig} (hsu : Grows [] s u)
    (hf : s.syms.sig? id = some f) (frame : FnFrame) (trailing : Option (Ty × Range)) :
    (u.settled id f frame trailing).syms.sig? id =
      some (if f.isFinal then f
        else { f with ret := out (settleReturn frame trailing) u, isFinal := true }) := by
  have hgrows := Keeps.grows [] (settleReturn frame trailing) u
  have hsame := Symbols.sig?_of_le (Symbols.le_trans hsu.syms hgrows.syms) hf
  rw [State.settled]
  split
  · exact hsame
  · obtain ⟨sym, hsym, -⟩ := Symbols.sig?_eq_some_iff.mp hsame
    rw [State.resigning, Symbols.sig?, Symbols.get?_setSig, if_pos rfl, hsym]
    rfl

/-- A function whose body and return type are settled silently accepts its results. -/
theorem fnReturns {u : State} {f : Sig} {name : Ast.Name} {params : List Ast.Param}
    {body : Ast.Block} {syms : List SymId} {block : Block} {returns : List (Ty × Range)} (hs : s.Top)
    (hf : s.syms.sig? id = some f) (hwritten : f.isFinal = written.isSome)
    (hscope : out (bindFnScope f name params body) s =
      (syms, block, some ((bodyFrame f name).noting returns)))
    (hu : after (bindFnScope f name params body) s = u) (hbody : u.findings = s.findings)
    (hsettled : (u.settled id f ((bodyFrame f name).noting returns) (blockCandidate block)).findings
      = u.findings) :
    (∃ g, (u.settled id f ((bodyFrame f name).noting returns) (blockCandidate block)).syms.sig? id =
      some g ∧
        AcceptsResults written g.ret (returnedBy (block.nodes false)) block.value?) ∧
      LambdasReturn (body.nodes true) (block.nodes true) := by
  have hquiet : Quiet u.syms (bindFnScope f name params body) s
      (syms, block, some ((bodyFrame f name).noting returns)) u :=
        ⟨hscope, hu, hbody, Symbols.le_refl _⟩
  obtain rfl : returns = returnedBy (block.nodes false) := by
    have hframe := (hquiet.lawful_bindFnScope hs.valid).2
    simpa [FnFrame.noting, bodyFrame] using hframe
  have hlambdas : LambdasReturn (body.nodes true) (block.nodes true) := by
    obtain ⟨v, stmts, w, hparams, hstmts, rfl, -, -⟩ := hquiet.bindFnScope
    have henter : (s.enteringFn f).Valid := (hs.valid.opened .fn).congr rfl rfl rfl rfl
    have hv := (hparams.grows (keeps_declareLocals rfl _)).valid henter
    have hstart : (v.enteringStatements (bodyFrame f name)).Valid := hv.congr rfl rfl rfl rfl
    obtain ⟨origin, source⟩ := body
    have hbodies : LambdasReturn (Ast.Stmt.allNodes true source) (Stmt.allNodes true stmts) :=
      LambdasReturn.traversal.bindStmts source hstart hstmts
    exact hbodies.right (n := .block (.ofStatements stmts origin.range)) rfl
  refine ⟨?_, hlambdas⟩
  generalize hframe : (bodyFrame f name).noting (returnedBy (block.nodes false)) = frame at hsettled ⊢
  have hreturns : frame.returns = returnedBy (block.nodes false) := by
    rw [← hframe]
    simp [FnFrame.noting, bodyFrame]
  have hdeclared : frame.declared = if f.isFinal then some f.ret else none := by
    rw [← hframe]
    rfl
  have hfindings : (after (settleReturn frame (blockCandidate block)) u).findings = u.findings := by
    rw [State.settled] at hsettled
    split at hsettled
    · exact hsettled
    · exact hsettled
  have hsettle : Quiet (after (settleReturn frame (blockCandidate block)) u).syms
      (settleReturn frame (blockCandidate block)) u _ _ := ⟨rfl, rfl, hfindings, Symbols.le_refl _⟩
  have hannotated : written.isSome = frame.declared.isSome := by
    rw [← hwritten, hdeclared]
    cases f.isFinal <;> rfl
  have haccepts := hsettle.acceptsResults hannotated fun _ => blockCandidate_eq
  rw [hreturns] at haccepts
  have hgrows : Grows [] s u := hu ▸ Keeps.grows [] (bindFnScope f name params body) s
  refine ⟨_, sig?_settled_self hgrows hf frame (blockCandidate block), ?_⟩
  split
  · next hfinal =>
    rw [if_pos hfinal] at hdeclared
    rw [← (hsettle.settleReturn_of_declared hdeclared).2.1]
    exact haccepts
  · exact haccepts

/-- Binding further bodies keeps the signatures of the other functions. -/
theorem Bodies.sig?_of_ne {index : Nat} (h : Bodies sigs index stmts s fns t)
    (hid : ∀ d ∈ fns, id ≠ d.symbol) : t.syms.sig? id = s.syms.sig? id := by
  induction h with
  | nil => rfl
  | skip _ _ ih => exact ih hid
  | @body _ _ name _ params _ body _ s _ _ _ f _ block returns _ _ hf _ _ _ _ ih =>
    obtain ⟨hne, hrest⟩ := List.forall_mem_cons.mp hid
    have hgrows := Keeps.grows [] (bindFnScope f name params body) s
    exact (ih hrest).trans ((sig?_settled hgrows hf _ _).2 id hne)

/-- The functions whose bodies find nothing accept their results. -/
theorem Bodies.fnReturns {index : Nat} (h : Bodies sigs index stmts s fns t)
    (hannounced : Announced sigs index stmts s.syms) (hsilent : t.findings = s.findings) :
    List.Forall₂ (FnReturns t.syms) (stmts.filter Ast.Stmt.isFn) fns := by
  induction h with
  | nil => exact .nil
  | skip hskip _ ih =>
    rw [List.filter_cons_of_neg (by simp [hskip])]
    exact ih (hannounced.tail fun _ _ _ _ => rfl) hsilent
  | @body _ _ name _ params _ body _ s t fns id f _ block returns htop hid hf hb _ hscope hrest ih =>
    have hgrows := Keeps.grows [] (bindFnScope f name params body) s
    obtain ⟨hbody, hsettled⟩ := hrest.silent htop hgrows hf hb hsilent
    -- no later function has the symbol of this one, so its signature is final here
    have hne : ∀ d ∈ fns, id ≠ d.symbol := by
      intro d hd
      obtain ⟨i, hi, hlookup⟩ := hrest.exists_lookup d hd
      exact (hannounced.ne_of_lookup hid (by omega) hlookup).symm
    obtain ⟨id', f', hid', hf', hisFinal, -⟩ := hannounced.written 0 _ _ _ _ _ _ rfl
    obtain rfl : id = id' := Option.some.inj (hid.symm.trans hid')
    obtain rfl : f = f' := Option.some.inj (hf.symm.trans hf')
    obtain ⟨⟨g, hg, haccepts⟩, hlambdas⟩ :=
      Binding.fnReturns htop hf hisFinal hscope rfl hbody (hsettled.trans hbody.symm)
    refine .cons ⟨⟨g, (hrest.sig?_of_ne hne).trans hg, haccepts⟩, hlambdas⟩ ?_
    exact ih (hannounced.settled hgrows hid hf _ _) (hsilent.trans hsettled.symm)

end Binding

end Bindery
