import Bindery.Cache
import Bindery.Config.Project

/-!
# Projects

A `Project` holds the files of one program and binds them all. Each file is bound on its own, so the
results do not depend on each other; they come back in the order in which the files were added, and
the diagnostics of all files are merged into one sorted list.
-/

namespace Bindery

/-- Why a project could not be loaded or bound. -/
inductive ProjectError where
  | bind (file : String) (fault : Fault)
  | config (error : ConfigError)
  | cachePoisoned

namespace ProjectError

/-- The wording of a fault in a file. -/
def bindMessage (file : String) (fault : Fault) : String :=
  "failed to bind " ++ file ++ ": " ++ fault.message

/-- The wording for a cache that can no longer be used. -/
def cachePoisonedMessage : String := "the bind cache lock was poisoned"

end ProjectError

/-- What binding one file of a project gives. -/
structure FileResult where
  name : String
  shared : Shared

/-- What binding a project gives: the files in the order added, and all diagnostics sorted. -/
structure ProjectResult where
  files : List FileResult
  diagnostics : List Diagnostic

namespace ProjectResult

/-- The result of the first file with a name. -/
def file? (r : ProjectResult) (name : String) : Option BindResult :=
  (r.files.find? (·.name == name)).map fun f => f.shared.result

/-- Whether some file has an error. -/
def hasErrors (r : ProjectResult) : Bool := Diagnostic.hasErrors r.diagnostics

/-- The merged diagnostics of some files. -/
def ofFiles (files : List FileResult) : ProjectResult :=
  ⟨files, Diagnostic.sort (files.flatMap fun f => f.shared.result.diagnostics)⟩

end ProjectResult

/-- The files of one program, how to bind them, and what was bound before. -/
structure Project where
  options : Options
  /-- The files that the configuration names. -/
  rootFiles : List String
  files : List Ast.SourceFile
  cache : Cache

namespace Project

/-- A project without files. -/
def start (options : Options) : Project := ⟨options, [], [], .empty⟩

/-- A project without files, set up by a configuration. -/
def ofConfig (config : ProjectConfig) : Project :=
  { start config.options with rootFiles := config.files }

/-- Sets a project up from the bytes of its project file. -/
def load (bytes : Option ByteArray) : Except ProjectError Project :=
  match ProjectConfig.load bytes with
  | .ok config => .ok (ofConfig config)
  | .error error => .error (.config error)

/-- Adds a file. -/
def addFile (p : Project) (file : Ast.SourceFile) : Project :=
  { p with files := p.files ++ [file] }

/-- The named files that were not added. -/
def missingFiles (p : Project) : List String :=
  p.rootFiles.filter fun name => !p.files.any (·.name == name)

/-- How many files have a result to use again. -/
def cachedCount (p : Project) : Nat := p.cache.size

/-- Binds one file, or takes its earlier result. -/
def bindOne (options : Options) (file : Ast.SourceFile) (cache : Cache) :
    Except ProjectError FileResult × Cache :=
  match cache.reuse? options file.id with
  | some hit => (.ok ⟨file.name, hit⟩, cache)
  | none =>
    match bindFile options file with
    | .error fault => (.error (.bind file.name fault), cache)
    | .ok result =>
      let (shared, cache) := cache.store options file.id result
      (.ok ⟨file.name, shared⟩, cache)

/-- Binds files in order. -/
def bindEach (options : Options) :
    List Ast.SourceFile → Cache → Except ProjectError (List FileResult) × Cache
  | [], cache => (.ok [], cache)
  | file :: files, cache =>
    match bindOne options file cache with
    | (.error e, cache) => (.error e, cache)
    | (.ok r, cache) =>
      let (rest, cache) := bindEach options files cache
      (rest.map (r :: ·), cache)

/-- Binds every file. -/
def bindAll (p : Project) : Except ProjectError ProjectResult × Project :=
  let (results, cache) := bindEach p.options p.files p.cache
  (results.map ProjectResult.ofFiles, { p with cache })

end Project

end Bindery
