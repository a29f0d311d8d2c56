import Bindery.Project
import Bindery.Proofs.Binding.Passes

/-!
# Fresh results

What binding a file afresh gives depends on the file and on the limit of diagnostics alone: not on
what the session has bound before, and not on whether results are used again. A result that is kept
for a tree stands for all files of that tree, so in what follows a tree is known by its number
(`Ast.TreesNamed`).
-/

namespace Bindery

/-- Files with one tree are one file. -/
def Ast.TreesNamed (files : List Ast.SourceFile) : Prop :=
  ∀ file ∈ files, ∀ other ∈ files, file.id = other.id → file = other

theorem exists_bindFile (options : Options) (file : Ast.SourceFile) :
    ∃ r, bindFile options file = .ok r := by
  obtain ⟨ph, hran⟩ := Binding.exists_phases file.stmts (Session.start options).state
  rw [bindFile, Session.bind_eq_of_ran hran]
  exact ⟨_, rfl⟩

theorem Binding.run_set_bind {α : Type} (t : Binding.State) (f : Unit → Pass α) (s : Binding.State) :
    ((set t : Pass Unit) >>= f).run.run s = (f ()).run.run t := rfl

/-- A bind starts from nothing, whatever it finds. -/
theorem Binding.run_bindProgram (stmts : List Ast.Stmt) (s t : Binding.State) :
    (Binding.bindProgram stmts).run.run s = (Binding.bindProgram stmts).run.run t := by
  rw [Binding.bindProgram, Binding.run_set_bind, Binding.run_set_bind]

/-- A session binds every file as if it were its first. -/
theorem Session.bind_fst (session : Session) (file : Ast.SourceFile) :
    (session.bind file).1 = bindFile session.options file := by
  have hrun := Binding.run_bindProgram file.stmts session.state (Session.start session.options).state
  obtain ⟨ph, hran⟩ := Binding.exists_phases file.stmts session.state
  rw [bindFile, Session.bind_eq_of_ran hran, Session.bind_eq_of_ran (hrun.symm.trans hran)]
  rfl

/-- Of the options only the limit matters for a fresh result. -/
theorem bindFile_congr {options options' : Options}
    (h : options.maxDiagnostics = options'.maxDiagnostics)
    (file : Ast.SourceFile) : bindFile options file = bindFile options' file := by
  have hlimit : options.limit = options'.limit := by
    funext ds
    rw [Options.limit, Options.limit, h]
  obtain ⟨ph, hran⟩ := Binding.exists_phases file.stmts .initial
  have hfirst := @Session.bind_eq_of_ran _ _ _ (Session.start options) file _ _ hran
  have hsecond := @Session.bind_eq_of_ran _ _ _ (Session.start options') file _ _ hran
  rw [bindFile, bindFile, hfirst, hsecond]
  show Except.ok (BindResult.mk _ (options.limit _)) = Except.ok (BindResult.mk _ (options'.limit _))
  rw [hlimit]

namespace Cache

variable {c : Cache} {options : Options} {tree : Ast.TreeId}

theorem get?_insert (c : Cache) (tree other : Ast.TreeId) (r : Shared) :
    (c.insert tree r).get? other = if other = tree then some r else c.get? other :=
  OrderedMap.get?_insert ..

theorem reuse?_of_useCache (h : options.useCache = true) : c.reuse? options tree = c.get? tree :=
  if_pos h

theorem reuse?_of_not_useCache (h : options.useCache = false) : c.reuse? options tree = none := by
  rw [reuse?, h]
  rfl

end Cache

/-- The content of what a project gives: the names and results of the files, and the diagnostics.
Which of the results are the same object does not belong to it. -/
def ProjectResult.content (r : ProjectResult) : List (String × BindResult) × List Diagnostic :=
  (r.files.map fun f => (f.name, f.shared.result), r.diagnostics)

/-- The diagnostics are part of the results of the files. -/
theorem ProjectResult.content_ofFiles (files : List FileResult) :
    (ofFiles files).content = (files.map fun f => (f.name, f.shared.result),
      Diagnostic.sort ((files.map fun f => (f.name, f.shared.result)).flatMap fun f =>
      f.2.diagnostics)) := by
  rw [content, ofFiles, List.flatMap_map]

end Bindery
