import Bindery.Proofs.Binding.NodeLaws

/-!
# Branches without a value

What always leaves the block around it has no value, so its type does not count where branches have
to agree. `completes` says, from the shape of a bound tree alone, what can come to its end: a block
if all its statements can, a jump never, a loop always, an `if` with an `else` if one of the
branches can. What binding takes to diverge cannot complete, and the branches of an `if` or a
`match` that can complete have types that the type of the whole accepts. Both hold of every bound
tree, whether it has mistakes or not.
-/

namespace Bindery

namespace Bound

/-! ## What can complete -/

mutual

/-- Whether evaluating the expression can end with a value. -/
def Expr.completes : Expr → Bool
  | ⟨kind, _, _⟩ => kind.completes

/-- The parts that are always evaluated have to complete, and one of the branches. -/
def ExprKind.completes : ExprKind → Bool
  | .literal _ | .var _ | .fnRef _ | .channel _ | .error | .variant _ none | .lambda .. | .spawn
    _ => true
  | .unary _ e | .field e _ | .par e | .variant _ (some e) | .ifElse e _ none => e.completes
  | .binary .and left _ | .binary .or left _ => left.completes
  | .binary _ left right | .index left right => left.completes && right.completes
  | .call _ _ es | .tuple es | .list es => Expr.allComplete es
  | .callValue callee args => callee.completes && Expr.allComplete args
  | .record fields => FieldValue.allComplete fields
  | .map entries => Entry.allComplete entries
  | .ifElse cond thenBranch (some elseBranch) =>
    cond.completes && (thenBranch.completes || elseBranch.completes)
  | .block b | .scope b => b.completes
  | .matchOn scrutinee arms => scrutinee.completes && Arm.someCompletes arms

/-- Whether all expressions can complete. -/
def Expr.allComplete : List Expr → Bool
  | [] => true
  | e :: es => e.completes && Expr.allComplete es

/-- Whether the values of all fields can complete. -/
def FieldValue.allComplete : List FieldValue → Bool
  | [] => true
  | ⟨_, value⟩ :: fields => value.completes && FieldValue.allComplete fields

/-- Whether all keys and values can complete. -/
def Entry.allComplete : List Entry → Bool
  | [] => true
  | ⟨key, value⟩ :: entries => key.completes && value.completes && Entry.allComplete entries

/-- Whether the body of some arm can complete. -/
def Arm.someCompletes : List Arm → Bool
  | [] => false
  | ⟨_, body, _⟩ :: arms => body.completes || Arm.someCompletes arms

/-- Whether running the block can come to its end. -/
def Block.completes : Block → Bool
  | ⟨stmts, _, _, _⟩ => Stmt.allComplete stmts

/-- Whether running the statement can come to its end. -/
def Stmt.completes : Stmt → Bool
  | ⟨.bindName _ value, _⟩ | ⟨.assign _ value, _⟩ | ⟨.expr value, _⟩ | ⟨.print value, _⟩ =>
    value.completes
  | ⟨.ret _, _⟩ | ⟨.breakLoop, _⟩ | ⟨.continueLoop, _⟩ => false
  | ⟨.block b, _⟩ => b.completes
  | ⟨.whileLoop .., _⟩ | ⟨.forLoop .., _⟩ => true

/-- Whether all statements can complete. -/
def Stmt.allComplete : List Stmt → Bool
  | [] => true
  | s :: ss => s.completes && Stmt.allComplete ss

end

theorem Stmt.allComplete_eq_false {s : Stmt} {ss : List Stmt} (h : s ∈ ss) (hs : s.completes = false) :
    Stmt.allComplete ss = false := by
  induction h with
  | head => rw [Stmt.allComplete, hs, Bool.false_and]
  | tail _ _ ih => rw [Stmt.allComplete, ih, Bool.and_false]

/-! ## What is claimed of nodes -/

namespace Node

/-- What is taken to diverge cannot complete. -/
def DivergesRightly : Node → Prop
  | .expr e => e.diverges = true → e.completes = false
  | .stmt s => s.diverges = true → s.completes = false
  | .block b => b.diverges = true → b.completes = false
  | .pattern _ => True

/-- The branches of an `if` with an `else` and the arms of a match fit the type of the whole, as far
as they can complete. -/
def BranchesFit : Node → Prop
  | .expr ⟨.ifElse _ thenBranch (some elseBranch), ty, _⟩ =>
    (thenBranch.completes = true → ty.accepts thenBranch.ty = true) ∧
      (elseBranch.completes = true → ty.accepts elseBranch.ty = true)
  | .expr ⟨.matchOn _ arms, ty, _⟩ =>
    ∀ arm ∈ arms, arm.body.completes = true → ty.accepts arm.body.ty = true
  | _ => True

/-- Both. -/
structure Settled (n : Node) : Prop where
  diverges : n.DivergesRightly
  fits : n.BranchesFit

end Node

end Bound

namespace Binding

open Bindery.Bound

/-- A branch that does not diverge fits the type of the `if`. -/
theorem branchTy_accepts (b : Block) (e : Expr) (range : Range) (s : State) :
    let ty := out (branchTy b e range) s
    (b.diverges = false → ty.accepts b.ty = true) ∧ (e.diverges = false → ty.accepts e.ty = true) := by
  unfold branchTy
  -- A branch that diverges or is poisoned leaves the type to the other one, and poison fits every
  -- type.
  split
  · next hb =>
    exact ⟨fun h => (Bool.false_ne_true (h.symm.trans hb)).elim, fun _ =>
      Ty.compatible_self false _⟩
  · split
    · next he =>
      refine ⟨fun _ => Ty.compatible_self false _, fun h => ?_⟩
      rw [h, Bool.false_or, Ty.isError_eq_true_iff] at he
      rw [he]
      exact accepts_error _
    · split
      · next hb =>
        refine ⟨fun _ => ?_, fun _ => Ty.compatible_self false _⟩
        rw [Ty.isError_eq_true_iff.mp hb]
        exact accepts_error _
      · split
        · next haccepts => exact ⟨fun _ => Ty.compatible_self false _, fun _ => haccepts⟩
        · exact ⟨fun _ => rfl, fun _ => rfl⟩

/-- Each rule settles its node, if the nodes below are settled. -/
theorem settled_nodeLaw : NodeLaw Node.Settled where
  pattern _ := ⟨trivial, trivial⟩
  stmt {b} h := by
    refine ⟨fun hd => ?_, trivial⟩
    obtain ⟨kind, range⟩ := b
    cases kind with
    | block b =>
      rcases h (.block b) (List.mem_cons_of_mem _ (b.mem_nodes true)) with heq | hb
      · cases heq
      · exact hb.diverges hd
    | expr e =>
      rcases h (.expr e) (List.mem_cons_of_mem _ (e.mem_nodes true)) with heq | he
      · cases heq
      · exact he.diverges hd
    | ret value => rfl
    | breakLoop => rfl
    | continueLoop => rfl
    | _ => exact absurd hd Bool.false_ne_true
  block {bs range} h := by
    refine ⟨fun hd => ?_, trivial⟩
    obtain ⟨st, hst, hd⟩ := List.any_eq_true.mp hd
    exact Stmt.allComplete_eq_false hst ((h _ (Stmt.mem_allNodes true hst)).diverges hd)
  ifElse {cond e b range} s hb he := by
    have hb := (hb _ (b.mem_nodes true)).diverges
    have he := (he _ (e.mem_nodes true)).diverges
    obtain ⟨hthen, helse⟩ := branchTy_accepts b e range s
    refine ⟨fun hd => ?_, fun hc => hthen ?_, fun hc => helse ?_⟩
    · obtain ⟨hdb, hde⟩ := Bool.and_eq_true_iff.mp hd
      show (cond.completes && (b.completes || e.completes)) = false
      rw [hb hdb, he hde, Bool.or_self, Bool.and_false]
    · exact Bool.eq_false_iff.mpr fun hd => Bool.false_ne_true ((hb hd).symm.trans hc)
    · exact Bool.eq_false_iff.mpr fun hd => Bool.false_ne_true ((he hd).symm.trans hc)
  matchOn h hcovers := by
    -- A match is never taken to diverge, even if all its arms are.
    refine ⟨fun hd => absurd hd Bool.false_ne_true, fun arm harm hc => (hcovers arm harm).accepts ?_⟩
    have hbody := (h _ (Arm.mem_allNodes true harm)).diverges
    exact Bool.eq_false_iff.mpr fun hd => Bool.false_ne_true ((hbody hd).symm.trans hc)
  callValue _ _ _ _ := ⟨fun hd => absurd hd Bool.false_ne_true, trivial⟩
  other {e} hplain h := by
    obtain ⟨kind, ty, range⟩ := e
    cases kind with
    | block b => exact ⟨(h _ (b.mem_nodes true)).diverges, trivial⟩
    | ifElse cond thenBranch elseBranch =>
      cases elseBranch with
      | none => exact ⟨fun hd => absurd hd Bool.false_ne_true, trivial⟩
      | some e => cases hplain
    | matchOn | callValue => cases hplain
    | _ => exact ⟨fun hd => absurd hd Bool.false_ne_true, trivial⟩

/-- In every bound file, whether it has mistakes or not: what is taken to diverge cannot complete,
and the branches of an `if` with an `else` or of a `match` that can complete have types that the
type of the whole accepts. -/
theorem branches_settle_types (session : Session) (file : Ast.SourceFile) :
    ∃ p ds, (session.bind file).1 = .ok ⟨p, ds⟩ ∧ ∀ n ∈ p.nodes true, n.DivergesRightly ∧
      n.BranchesFit := by
  obtain ⟨p, ds, hbind, hnodes⟩ := settled_nodeLaw.exists_bind session file
  exact ⟨p, ds, hbind, fun n hn => ⟨(hnodes n hn).diverges, (hnodes n hn).fits⟩⟩

end Binding

end Bindery
