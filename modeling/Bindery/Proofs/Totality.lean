import Bindery.Proofs.Binding.Passes

/-!
# Every bind gives a result

A fault is a broken promise between the passes of a bind. No promise is ever broken: every file is
bound to a result, whatever the options are and whatever an earlier bind has left behind, and no
name is ever declared in a scope that does not exist.

What carries this is that a step leaves its surroundings alone (`Binding.Undisturbed`).
-/

namespace Bindery

namespace Binding

/-- Between the two states binding has come back to where it stood, and the tables of names of the
existing scopes are unchanged, except that names of `own` may be new in the current scope. -/
structure Undisturbed (own : List String) (s t : State) : Prop where
  current : t.current = s.current
  fns : t.fns.length = s.fns.length
  captures : t.captures.depth = s.captures.depth
  loopDepth : t.loopDepth = s.loopDepth
  scopeDepth : t.scopeDepth = s.scopeDepth
  generics : t.generics = s.generics
  scopes : s.scopes.Grows own s.syms.size s.current t.scopes
  valid : s.Valid → t.Valid ∧ t.strayed = s.strayed

theorem Grows.undisturbed {own : List String} {s t : State} (h : Grows own s t) :
    Undisturbed own s t where
  current := h.current
  fns := by
    obtain ⟨returns, hreturns⟩ := h.fns
    rw [hreturns, List.length_modifyHead]
  captures := by
    have hlength := congrArg List.length h.boundaries
    rwa [Captures.boundaries, Captures.boundaries, List.length_map, List.length_map] at hlength
  loopDepth := h.loopDepth
  scopeDepth := h.scopeDepth
  generics := h.generics
  scopes := h.scopes
  valid hs := ⟨h.valid hs, h.strayed hs⟩

end Binding

open Binding

/-- Every file is bound to a result, in every session. Behind it: an expression, a pattern and a
statement disturb nothing around them, but for the name of a `let` and the identifiers of a
pattern. -/
theorem bind_succeeds_undisturbed :
    (∀ (session : Session) (file : Ast.SourceFile),
      (∃ result, (session.bind file).1 = .ok result) ∧
        (session.bind file).2.state.Valid ∧ (session.bind file).2.state.strayed = false) ∧
    (∀ (s : State) (expected : Option Ty) (e : Ast.Expr),
      Undisturbed [] s (after (bindExpr expected e) s)) ∧
    (∀ (s : State) (target : Ty) (p : Ast.Pattern),
      Undisturbed p.identifiers s (after (bindPattern target p) s)) ∧
    ∀ (s : State) (stmt : Ast.Stmt), Undisturbed stmt.identifiers s (after (bindStmt stmt) s) := by
  refine ⟨fun session file => ?_, fun s expected e => ?_, fun s target p => ?_, fun s stmt => ?_⟩
  · obtain ⟨ph, hran⟩ := exists_phases file.stmts session.state
    rw [Session.bind_eq_of_ran hran]
    exact ⟨⟨_, rfl⟩, ph.top_final.valid, ph.top_final.unstrayed⟩
  · exact ((keeps_bindExpr expected e).grows s).undisturbed
  · exact ((keeps_bindPattern target p).grows s).undisturbed
  · exact ((keeps_bindStmt stmt).grows s).undisturbed

end Bindery
