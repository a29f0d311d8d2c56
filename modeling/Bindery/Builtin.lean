import Bindery.Symbol
import Bindery.Ty.Compatibility

/-!
# Built-in functions

Most built-in functions have an ordinary signature. Those that are overloaded, or that work on every
container of a kind, are the cases of `Builtin`: a call to one of them is typed from the types of
its arguments by `Builtin.resolve`. Their signatures use a placeholder and matter only when the
function is used as a value.
-/

namespace Bindery

/-- Built-in functions whose calls are typed from the arguments. -/
inductive Builtin where
  | abs
  | min
  | max
  | len
  | send
  | recv
  | join
deriving DecidableEq, Inhabited

/-- Why a call to a built-in function has no type. -/
inductive BuiltinError where
  | arity (expected got : Nat)
  | noOverload
deriving DecidableEq, Inhabited

namespace Builtin

/-- The built-in function with a name. -/
def ofName? : String → Option Builtin
  | "abs" => some abs
  | "min" => some min
  | "max" => some max
  | "len" => some len
  | "send" => some send
  | "recv" => some recv
  | "join" => some join
  | _ => none

/-- The number of arguments. -/
def arity : Builtin → Nat
  | abs | len | recv | join => 1
  | min | max | send => 2

/-- The type of a call with sound arguments, if an overload takes them. -/
def overload? : Builtin → List Ty → Option Ty
  | abs, [t] => if t.isNumeric then some t else none
  | min, [a, b] | max, [a, b] => if a.isNumeric ∧ a = b then some a else none
  | len, [.list _] | len, [.map _] | len, [.string] => some .int
  | send, [.sender element, value] => if element.accepts value then some .unit else none
  | recv, [.receiver element] => some element
  | join, [.task result] => some result
  | _, _ => none

/-- The type of a call with a poisoned argument: as much as the function and its arguments
determine. -/
def poisonedTy : Builtin → List Ty → Ty
  | len, _ => .int
  | send, _ => .unit
  | recv, [.receiver element] => element
  | join, [.task result] => result
  | _, _ => .error

/-- A handle is not poison, so a call with poison never has the type of what a handle gives. -/
theorem poisonedTy_eq {args : List Ty} (h : args.any Ty.isError = true) (b : Builtin) :
    b.poisonedTy args = b.poisonedTy [] := by
  fun_cases poisonedTy b args with
  | case3 | case4 => cases h
  | _ => simp_all [poisonedTy]

/-- The type of a call from the types of its arguments. -/
def resolve (b : Builtin) (args : List Ty) : Except BuiltinError Ty :=
  if args.length ≠ b.arity then .error (.arity b.arity args.length)
  else if args.any Ty.isError then .ok (b.poisonedTy args)
  else
    match b.overload? args with
    | some t => .ok t
    | none => .error .noOverload

/-- A built-in signature. -/
def sig (name : String) (params : List (String × Ty)) (ret : Ty) : Sig :=
  ⟨name, params.map fun p => ⟨p.1, p.2⟩, [], ret, true, true⟩

/-- The signatures of all built-in functions, in the order of declaration. -/
def sigs : List Sig :=
  let t : Ty := .generic "T"
  [ sig "abs" [("value", t)] t,
    sig "min" [("a", t), ("b", t)] t,
    sig "max" [("a", t), ("b", t)] t,
    sig "len" [("collection", t)] .int,
    sig "send" [("sender", .sender t), ("value", t)] .unit,
    sig "recv" [("receiver", .receiver t)] t,
    sig "join" [("task", .task t)] t,
    sig "now" [] .instant,
    sig "elapsed" [("since", .instant)] .int,
    sig "sleep" [("millis", .int)] .unit,
    sig "to_string" [("value", .int)] .string ]

end Builtin

end Bindery
