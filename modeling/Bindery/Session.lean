import Bindery.Binding.Program
import Bindery.Config.Options
import Bindery.Interner

/-!
# Sessions

A `Session` binds files one after another under the same options. It keeps the state that the last
bind left behind; every bind starts afresh.

An `InternedSession` shares an interner with the trees that it binds, and its tables know names by
their numbers in the interner. More strings may be interned between two binds.
-/

namespace Bindery

/-- What binding a file gives. -/
structure BindResult where
  program : Bound.Program
  diagnostics : List Diagnostic

/-- The options of a session, and the state that the last bind left behind. -/
structure Session (κ : Type := String) where
  options : Options
  state : Binding.State κ

namespace Options

/-- The diagnostics that are returned. -/
def limit (o : Options) (ds : List Diagnostic) : List Diagnostic :=
  match o.maxDiagnostics with
  | none => ds
  | some n => ds.take n

end Options

/-- The diagnostics of a file, in the order of report. -/
def Binding.State.diagnostics {κ : Type} (s : Binding.State κ) (file : Ast.SourceFile) :
    List Diagnostic :=
  let lines := LineMap.ofText file.text
  s.findings.toList.map fun f => f.toDiagnostic file.name lines

namespace Session

variable {κ : Type}

/-- A session that has bound nothing. -/
def start (options : Options) : Session := ⟨options, .initial⟩

/-- Binds a file. -/
def bind [DecidableEq κ] [Keyed κ] (s : Session κ) (file : Ast.SourceFile) :
    Except Fault BindResult × Session κ :=
  let (outcome, state) := (Binding.bindProgram file.stmts).run s.state
  let result := outcome.map fun program =>
    ⟨program, s.options.limit (state.diagnostics file)⟩
  (result, { s with state })

end Session

/-- Binds a file in a session of its own. -/
def bindFile (options : Options) (file : Ast.SourceFile) : Except Fault BindResult :=
  ((Session.start options).bind file).1

/-- The numbers of an interner as the keys of names. -/
@[reducible]
def Interner.keyed (i : Interner) : Keyed Nat := ⟨i.handle⟩

/-- A session whose tables know names by their numbers in an interner. -/
structure InternedSession where
  interner : Interner
  session : Session Nat

namespace InternedSession

/-- A session with an interner that has bound nothing. -/
def start (options : Options) (interner : Interner) : InternedSession :=
  ⟨interner, ⟨options, .initial⟩⟩

/-- Interns strings, as building a tree does with its names. -/
def intern (s : InternedSession) (strings : List String) : InternedSession :=
  { s with interner := s.interner.internAll strings }

/-- Binds a file. The names of the built-in functions are interned first. -/
def bind (s : InternedSession) (file : Ast.SourceFile) : Except Fault BindResult × InternedSession :=
  let interner := s.interner.internAll (Builtin.sigs.map Sig.name)
  let bound := @Session.bind Nat _ interner.keyed s.session file
  (bound.1, ⟨interner, bound.2⟩)

/-- Binds files one after another. Before a file is bound, the strings beside it are interned. -/
def bindAll : InternedSession → List (List String × Ast.SourceFile) → List (Except Fault BindResult)
  | _, [] => []
  | s, (strings, file) :: rest =>
    let bound := (s.intern strings).bind file
    bound.1 :: bindAll bound.2 rest

end InternedSession

end Bindery
