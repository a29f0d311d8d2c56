import Bindery.Ty.Basic

/-!
# The text of a type

`Ty.render` writes a type as it is shown in messages: `List<Int>`, `(Int, String)`, `fn(Int) ->
Bool`, `Result<Int, String>`, `Box<T>`. A declared type without arguments is its bare name.
-/

namespace Bindery

/-- The name of a type without parts. -/
def Prim.name : Prim → String
  | .int => "Int"
  | .float => "Float"
  | .bool => "Bool"
  | .string => "String"
  | .unit => "Unit"
  | .instant => "Instant"

/-- The type without parts that has a name. -/
def Prim.ofName? : String → Option Prim
  | "Int" => some .int
  | "Float" => some .float
  | "Bool" => some .bool
  | "String" => some .string
  | "Unit" => some .unit
  | "Instant" => some .instant
  | _ => none

/-- The name of a built-in constructor with one argument. -/
def Container.name : Container → String
  | .list => "List"
  | .map => "Map"
  | .task => "Task"
  | .sender => "Sender"
  | .receiver => "Receiver"

/-- The built-in constructor with one argument that has a name. -/
def Container.ofName? : String → Option Container
  | "List" => some .list
  | "Map" => some .map
  | "Task" => some .task
  | "Sender" => some .sender
  | "Receiver" => some .receiver
  | _ => none

/-- The name of the built-in constructor for a value or an error. -/
def Ty.resultName : String := "Result"

theorem Prim.ofName?_name (p : Prim) : Prim.ofName? p.name = some p := by cases p <;> rfl

theorem Container.ofName?_name (c : Container) : Container.ofName? c.name = some c := by
  cases c <;> rfl

namespace Ty

mutual

/-- The text of a type. -/
def render : Ty → String
  | .error => "<error>"
  | .prim p => p.name
  | .generic name => name
  | .container c t => c.name ++ "<" ++ render t ++ ">"
  | .result v e => resultName ++ "<" ++ render v ++ ", " ++ render e ++ ">"
  | .fn ps r => "fn(" ++ renderAll ps ++ ") -> " ++ render r
  | .tuple ts => "(" ++ renderAll ts ++ ")"
  | .nominal _ name [] => name
  | .nominal _ name (t :: ts) => name ++ "<" ++ renderAll (t :: ts) ++ ">"

/-- The texts of a list of types, separated by commas. -/
def renderAll : List Ty → String
  | [] => ""
  | [t] => render t
  | t :: u :: ts => render t ++ ", " ++ renderAll (u :: ts)

end

end Ty

end Bindery
