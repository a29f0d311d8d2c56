import Bindery.Proofs.Binding.File
import Bindery.Proofs.Binding.FileCaptures

/-!
# Captures

A lambda captures the variables that its body refers to and that are declared outside it. In a file
without diagnostics these are exactly its free variables (`Bound.freeVars`), read off the bound body
alone.

A mutable variable must not be captured. Where that happens is said without binding anything: a walk
through the file (`Lexical.mutableCaptures`) keeps account of what is in sight and of the lambdas
around. In every file, with or without other diagnostics, the warnings of that kind are the mutable
captures of the walk.
-/

namespace Bindery

open Bindery.Bound Lexical

/-! ## Warnings -/

theorem Problem.code_eq_iff (range : Range) (p : Problem) :
    p.rule.code = 4001 ↔ (⟨range, p⟩ : Finding).isCapture = true := by
  cases p <;> simp [Problem.rule, Rule.code, Finding.isCapture]

/-- The diagnostics with the code of a mutable capture are those of the captures found. -/
theorem Binding.State.filter_diagnostics (s : Binding.State) (file : Ast.SourceFile) :
    (s.diagnostics file).filter (·.code == 4001) =
      s.captureFindings.map fun f => f.toDiagnostic file.name (LineMap.ofText file.text) := by
  rw [Binding.State.diagnostics, List.filter_map]
  congr 1
  refine List.filter_congr fun f _ => ?_
  rw [Bool.eq_iff_iff, ← Problem.code_eq_iff]
  exact beq_iff_eq

/-- The diagnostic of a mutable capture. -/
def Lexical.Mention.warning (r : Mention) (file : Ast.SourceFile) : Diagnostic :=
  r.finding.toDiagnostic file.name (LineMap.ofText file.text)

/-- A lambda of a file without diagnostics captures its free variables, all of them parameters or
immutable variables. The mutable captures of any file are reported, each once and in order. -/
theorem captures_are_free_variables :
    (∀ (session : Session) (file : Ast.SourceFile) (p : Program), session.BindsQuietly file p →
      ∀ params ret captures body ty range,
        Node.expr ⟨.lambda params ret captures body, ty, range⟩ ∈ p.nodes true →
          captures = freeVars params body ∧ ∀ id ∈ captures, Binding.Capturable p.syms id) ∧
    ∀ (session : Session) (file : Ast.SourceFile),
      ((session.bind file).2.state.diagnostics file).filter (·.code == 4001) =
          (mutableCaptures (session.bind file).2.state.scopes file.stmts).map (·.warning file) ∧
        ∃ p, (session.bind file).1 =
          .ok ⟨p, session.options.limit ((session.bind file).2.state.diagnostics file)⟩ := by
  refine ⟨fun session file p h params ret captures body ty range hnode => ?_, fun session file => ?_⟩
  · obtain ⟨ph, rfl, hsilent⟩ := h.exists_phases
    exact ph.lawful hsilent _ hnode
  · obtain ⟨ph, hran⟩ := Binding.exists_phases file.stmts session.state
    rw [Session.bind_eq_of_ran hran]
    refine ⟨?_, ph.program, rfl⟩
    rw [Binding.State.filter_diagnostics, ph.captureFindings_final, List.map_map]
    rfl

/-- `let base = 1` and `let add = fn(x: Int) => fn(y: Int) => base + x + y`. -/
def nestedLambdas : Ast.SourceFile :=
  let o : Origin := default
  let int : Ast.TyExpr := .named o ⟨o, "Int"⟩ []
  let sum : Ast.Expr := .binary o .add (.binary o .add (.name ⟨o, "base"⟩) (.name ⟨o, "x"⟩))
    (.name ⟨o, "y"⟩)
  ⟨default, o,
    [.bindName o ⟨o, "base"⟩ false none (.literal o (.int 1)),
      .bindName o ⟨o, "add"⟩ false none
        (.lambda o [⟨o, ⟨o, "x"⟩, int⟩] none (.lambda o [⟨o, ⟨o, "y"⟩, int⟩] none sum))],
    "nested", ""⟩

/-- Whether a node is a lambda with two captures. -/
def Bound.Node.capturesTwo : Node → Bool
  | .expr ⟨.lambda _ _ [_, _] _, _, _⟩ => true
  | _ => false

/-- The inner lambda captures the variable of the file and the parameter of the lambda around it. -/
theorem nestedLambdas_captures :
    ∃ p, (Session.start {}).BindsQuietly nestedLambdas p ∧ ∃ params ret base x body ty range,
      Node.expr ⟨.lambda params ret [base, x] body, ty, range⟩ ∈ p.nodes true ∧
        [base, x] = freeVars params body := by
  obtain ⟨p, hquiet, hany⟩ := exists_bindsQuietly {} nestedLambdas
    (fun p => (p.nodes true).any Node.capturesTwo) (by decide) (by decide +kernel)
  obtain ⟨n, hn, htwo⟩ := List.any_eq_true.mp hany
  unfold Node.capturesTwo at htwo
  split at htwo
  · next params ret base x body ty range =>
    exact ⟨p, hquiet, params, ret, base, x, body, ty, range, hn,
      (captures_are_free_variables.1 _ _ p hquiet _ _ _ _ _ _ hn).1⟩
  · cases htwo

end Bindery
