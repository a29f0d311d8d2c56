import Bindery.Proofs.Binding.FileNames

/-!
# Name resolution

Binding resolves names as the resolver with frames does: whatever the file, each name that is used
for its value, called or assigned stands for the same declaration, and it is reported as undefined
if and only if the resolver finds nothing. An assignment asks for a variable, so the name of a
function is undefined there (`assigned_function_is_undefined`).
-/

namespace Bindery

open Binding

theorem Problem.code_mem_iff (range : Range) (p : Problem) :
    (p.rule.code == 1004 || p.rule.code == 1005) = (⟨range, p⟩ : Finding).isUndefined := by
  cases p <;> rfl

/-- The diagnostics with the codes of undefined names are those of the undefined names found. -/
theorem Binding.State.filter_undefined (s : State) (file : Ast.SourceFile) :
    (s.diagnostics file).filter (fun d => d.code == 1004 || d.code == 1005) =
      s.undefinedFindings.map fun f => f.toDiagnostic file.name (LineMap.ofText file.text) := by
  rw [State.diagnostics, List.filter_map]
  congr 1
  exact List.filter_congr fun f _ => Problem.code_mem_iff f.range f.problem

/-- How the resolver gets through statements, given the functions and variants of the symbol table
that binding them leaves behind, and the variables of the patterns. -/
def Binding.State.resolution (s : State) (stmts : List Ast.Stmt) : Resolver.Progress :=
  ((Resolver.resolveFile s.syms.globals stmts).run
    ⟨s.syms.globalCount, patterns (eventsFile stmts), []⟩).2

/-- Each name that a bind visits stands for what the resolver finds, and the names reported as
undefined are those for which it finds nothing, in order. The resolver meets every visited name,
takes every pattern and counts every variable. -/
theorem names_resolve_lexically (session : Session) (file : Ast.SourceFile) :
    let final := (session.bind file).2.state
    let resolved := final.resolution file.stmts
    List.Forall₂ Visit.Meets (visits (eventsFile file.stmts)) resolved.occurrences ∧
      (final.diagnostics file).filter (fun d => d.code == 1004 || d.code == 1005) =
        (resolved.occurrences.filterMap Resolver.Occurrence.undefined?).map
          (fun f => f.toDiagnostic file.name (LineMap.ofText file.text)) ∧
      resolved.patterns = [] ∧ resolved.next = final.syms.size := by
  obtain ⟨ph, hran⟩ := exists_phases file.stmts session.state
  obtain ⟨env, hstep⟩ := ph.inStep_final
  rw [Session.bind_eq_of_ran hran]
  refine ⟨hstep.meets, ?_, hstep.patterns, hstep.next⟩
  rw [State.filter_undefined, hstep.undefined]
  rfl

/-- `fn f() -> Unit {}` and `f = 1`. -/
def fnAssigned : Ast.SourceFile :=
  let o : Origin := default
  ⟨default, o,
    [.fn o ⟨o, "f"⟩ [] [] (some (.named o ⟨o, "Unit"⟩ [])) ⟨o, []⟩,
      .assign o ⟨o, "f"⟩ (.literal o (.int 1))],
    "assigned", ""⟩

/-- The name of a function is undefined where it is assigned. -/
theorem assigned_function_is_undefined :
    let final := ((Session.start {}).bind fnAssigned).2.state
    (∃ id, final.syms.globals.declaration? "f" = some (.fn id)) ∧
      (final.diagnostics fnAssigned).map (·.code) = [1004] := by
  refine ⟨⟨11, ?_⟩, ?_⟩
  · decide +kernel
  · decide +kernel

end Bindery
