import Bindery.Config.Json
import Bindery.Config.Options

/-!
# Project configuration

A project file says how to bind and which files the project consists of. It is a JSON document with
the keys `binderOptions` and `files`; the options have the keys `useCache` and `maxDiagnostics`.
What is left out has its default. A limit of no diagnostics at all is refused, but only in a
document that is otherwise in order.
-/

namespace Bindery

/-- The contents of a project file. -/
structure ProjectConfig where
  options : Options
  files : List String
deriving DecidableEq, Inhabited

/-- Why a project file is not accepted. -/
inductive ConfigError where
  /-- The file is missing or its bytes are no text. -/
  | unreadable
  /-- The text is no configuration. -/
  | malformed
  | zeroLimit
deriving DecidableEq, Inhabited

namespace ConfigError

/-- The wording of a refused limit. -/
def zeroLimitMessage : String := "maxDiagnostics must be greater than zero"

end ConfigError

/-- Reads options. -/
def Options.ofJson? (json : Json) : Option Options := do
  match ← json.fields? ["useCache", "maxDiagnostics"] with
  | [useCache, maxDiagnostics] =>
    let default : Options := {}
    let useCache ← Json.orDefault default.useCache Json.toBool? useCache
    let maxDiagnostics ← Json.orDefault default.maxDiagnostics Json.toLimit? maxDiagnostics
    return ⟨useCache, maxDiagnostics⟩
  | _ => none

namespace ProjectConfig

/-- Reads a configuration, whatever its limit. -/
def ofJson? (json : Json) : Option ProjectConfig := do
  match ← json.fields? ["binderOptions", "files"] with
  | [options, files] =>
    let options ← Json.orDefault {} Options.ofJson? options
    let files ← Json.orDefault [] Json.toTexts? files
    return ⟨options, files⟩
  | _ => none

/-- Reads a document. -/
def ofDocument (json : Json) : Except ConfigError ProjectConfig :=
  match ofJson? json with
  | none => .error .malformed
  | some config =>
    if config.options.maxDiagnostics = some 0 then .error .zeroLimit else .ok config

/-- Reads the text of a project file. -/
def parse (content : String) : Except ConfigError ProjectConfig :=
  (Json.parse? content).elim (.error .malformed) ofDocument

/-- Reads a project file from its bytes; `none` is a file that does not exist. -/
def load (bytes : Option ByteArray) : Except ConfigError ProjectConfig :=
  match bytes.bind String.fromUTF8? with
  | none => .error .unreadable
  | some content => parse content

end ProjectConfig

end Bindery
