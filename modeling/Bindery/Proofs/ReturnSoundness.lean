import Bindery.Proofs.Binding.Returns

/-!
# Return soundness

In a file that is bound without a diagnostic, every function and every lambda returns what it says.
Each `return` in the body, however deep, has a type that the recorded return type accepts, unless it
stands in a nested lambda, which it then belongs to. The value at the end of the body is accepted
too, unless the body does not get there or the return type was written as `Unit`. Type parameters
and inferred return types make no difference.
-/

namespace Bindery

open Bindery.Bound

variable {stmts : List Ast.Stmt}

theorem Binding.Phases.fnReturns (ph : Binding.Phases stmts) (hsilent : ph.final.findings = #[]) :
    List.Forall₂ (FnReturns ph.program.syms) (stmts.filter Ast.Stmt.isFn)
      ph.program.fns := by
  have hbound := ph.silent_bound hsilent
  have hstart := ph.silent_start hsilent
  have hbodies := ph.bodies.fnReturns ph.announced (hbound.trans hstart.symm)
  -- the statements at the top level declare no functions
  have hsig : ph.program.syms.sig? = ph.bound.syms.sig? := by
    funext id
    exact (Binding.Inside.of_grows ph.grows_final).sig?_eq id
  refine hbodies.imp fun stmt d h => ?_
  cases stmt with
  | fn =>
    rw [FnReturns] at h ⊢
    rw [hsig]
    exact h
  | _ => cases h

theorem Binding.Phases.lambdasReturn (ph : Binding.Phases stmts) (hsilent : ph.final.findings = #[]) :
    LambdasReturn (Ast.Stmt.allNodes true (Binding.topStatements stmts))
      (Stmt.allNodes true ph.program.stmts) := by
  have hquiet : Binding.Quiet ph.final.syms (Binding.bindStmts (Binding.topStatements stmts))
    ph.bound _
      ph.final := ⟨rfl, rfl, hsilent.trans (ph.silent_bound hsilent).symm, Symbols.le_refl _⟩
  exact Binding.LambdasReturn.traversal.bindStmts _ ph.top_bound.valid hquiet

/-- If a file is bound without a diagnostic, then the recorded return type of every function and of
every lambda, in the functions and at the top level, accepts the results of its body. The bound
functions are those of the file, in order, and so are the lambdas. -/
theorem results_fit_the_return_type {session : Session} {file : Ast.SourceFile} {p : Program}
    (h : session.BindsQuietly file p) :
    List.Forall₂ (FnReturns p.syms) (file.stmts.filter Ast.Stmt.isFn) p.fns ∧
      LambdasReturn (Ast.Stmt.allNodes true (file.stmts.filter fun s => !s.isDeclaration))
        (Stmt.allNodes true p.stmts) := by
  obtain ⟨ph, rfl, hsilent⟩ := h.exists_phases
  exact ⟨ph.fnReturns hsilent, ph.lambdasReturn hsilent⟩

/-- A function with a type parameter that returns from a loop, one whose return type is inferred
from a `return` in a match arm and a `return` in a task, around a lambda that returns something
else, one that throws its value away, and a lambda at the top level:

    fn pick<T>(items: List<T>, other: T) -> T { for item in items { return item }  other }
    fn count(n: Int) {
      let later = fn(flag: Bool) => { if flag { return "yes" }  "no" }
      match n { 0 => { return 1 }, other => scope { spawn { return other } } }
      print later(true)
      n + 1
    }
    fn discard() -> Unit { 5 }
    let twice = fn(n: Int) => n + n
-/
def results : Ast.SourceFile :=
  let o : Origin := default
  let name (text : String) : Ast.Name := ⟨o, text⟩
  let use (text : String) : Ast.Expr := .name (name text)
  let type (text : String) : Ast.TyExpr := .named o (name text) []
  let number (n : Int64) : Ast.Expr := .literal o (.int n)
  let later : Ast.Expr := .lambda o [⟨o, name "flag", type "Bool"⟩] none (.block ⟨o,
    [.expr o (.ifElse o (use "flag") ⟨o, [.ret o (some (.literal o (.string "yes")))]⟩ none),
      .expr o (.literal o (.string "no"))]⟩)
  let choice : Ast.Expr := .matchOn o (use "n")
    [⟨o, .literal o (.int 0), .block ⟨o, [.ret o (some (number 1))]⟩⟩,
      ⟨o, .name (name "other"), .scope o ⟨o, [.expr o (.spawn o ⟨o, [.ret o (some (use "other"))]⟩)]⟩⟩]
  ⟨default, o,
    [.fn o (name "pick") [name "T"] [⟨o, name "items", .named o (name "List") [type "T"]⟩,
        ⟨o, name "other", type "T"⟩] (some (type "T"))
        ⟨o, [.forLoop o (name "item") (use "items") ⟨o, [.ret o (some (use "item"))]⟩,
        .expr o (use "other")]⟩,
      .fn o (name "count") [] [⟨o, name "n", type "Int"⟩] none
        ⟨o, [.bindName o (name "later") false none later, .expr o choice,
          .print o (.call o (use "later") [] [.literal o (.bool true)]),
          .expr o (.binary o .add (use "n") (number 1))]⟩,
      .fn o (name "discard") [] [] (some (type "Unit")) ⟨o, [.expr o (number 5)]⟩,
      .bindName o (name "twice") false none
        (.lambda o [⟨o, name "n", type "Int"⟩] none (.binary o .add (use "n") (use "n")))],
    "results", ""⟩

theorem results_fit : ∃ p, (Session.start {}).BindsQuietly results p ∧
    p.fns.map (fun d => (returnedBy (d.body.nodes false)).length) = [1, 2, 0] ∧
    (lambdasOf (p.nodes true)).map Prod.fst = [.string, .int] ∧
    List.Forall₂ (FnReturns p.syms) (results.stmts.filter Ast.Stmt.isFn) p.fns ∧
    LambdasReturn (Ast.Stmt.allNodes true (results.stmts.filter fun s => !s.isDeclaration))
      (Stmt.allNodes true p.stmts) := by
  obtain ⟨p, hquiet, hshape⟩ := exists_bindsQuietly {} results
    (fun p => p.fns.map (fun d => (returnedBy (d.body.nodes false)).length) = [1, 2, 0] ∧
      (lambdasOf (p.nodes true)).map Prod.fst = [.string, .int]) (by decide) (by decide +kernel)
  obtain ⟨hreturns, hlambdas⟩ := of_decide_eq_true hshape
  exact ⟨p, hquiet, hreturns, hlambdas, results_fit_the_return_type hquiet⟩

end Bindery
