/-!
# JSON documents

A reader for JSON texts. Beside the grammar it keeps apart what a reader of settings has to tell
apart: a number is kept as a natural number or not at all, since a sign, a fraction and an exponent
make it something else, and a string is kept as a text or not at all, since half of a surrogate pair
is no text.

Members of an object stay in the order in which they are written, repeated keys included.
-/

namespace Bindery

/-- A JSON value. -/
inductive Json where
  | null
  | bool (value : Bool)
  /-- The value of a number without sign, fraction and exponent. -/
  | number (natural : Option Nat)
  /-- The text of a string, unless it has an unpaired surrogate. -/
  | string (text : Option String)
  | array (items : List Json)
  | object (members : List (Option String × Json))
deriving Inhabited

namespace Json

/-- Drops blanks between tokens. -/
def skipBlanks (cs : List Char) : List Char :=
  cs.dropWhile fun c => c == ' ' || c == '\n' || c == '\t' || c == '\r'

/-! ## Strings -/

/-- A piece of a string: a character, or a UTF-16 unit written as an escape. -/
inductive Piece where
  | char (c : Char)
  | unit (value : Nat)
deriving DecidableEq, Inhabited

/-- The value of a hexadecimal digit. -/
def hexDigit? (c : Char) : Option Nat :=
  if '0' ≤ c ∧ c ≤ '9' then some (c.toNat - '0'.toNat)
  else if 'a' ≤ c ∧ c ≤ 'f' then some (c.toNat - 'a'.toNat + 10)
  else if 'A' ≤ c ∧ c ≤ 'F' then some (c.toNat - 'A'.toNat + 10)
  else none

/-- The UTF-16 unit that four hexadecimal digits spell. -/
def hexUnit? (a b c d : Char) : Option Nat := do
  let a ← hexDigit? a
  let b ← hexDigit? b
  let c ← hexDigit? c
  let d ← hexDigit? d
  return ((a * 16 + b) * 16 + c) * 16 + d

/-- The character that a short escape stands for. -/
def escaped? : Char → Option Char
  | '"' => some '"'
  | '\\' => some '\\'
  | '/' => some '/'
  | 'b' => some '\x08'
  | 'f' => some '\x0c'
  | 'n' => some '\n'
  | 'r' => some '\r'
  | 't' => some '\t'
  | _ => none

/-- Reads a string up to its closing quote. Control characters have to be escaped. -/
def readPieces : List Char → Option (List Piece × List Char)
  | [] => none
  | '"' :: cs => some ([], cs)
  | '\\' :: 'u' :: a :: b :: c :: d :: cs => do
    let unit ← hexUnit? a b c d
    let (pieces, rest) ← readPieces cs
    return (.unit unit :: pieces, rest)
  | '\\' :: e :: cs => do
    let c ← escaped? e
    let (pieces, rest) ← readPieces cs
    return (.char c :: pieces, rest)
  | c :: cs =>
    if c.toNat < 0x20 then none
    else do
      let (pieces, rest) ← readPieces cs
      return (.char c :: pieces, rest)

/-- Whether a UTF-16 unit is the first half of a pair. -/
def isLeading (unit : Nat) : Bool := 0xd800 ≤ unit && unit ≤ 0xdbff

/-- Whether a UTF-16 unit is the second half of a pair. -/
def isTrailing (unit : Nat) : Bool := 0xdc00 ≤ unit && unit ≤ 0xdfff

/-- The character of a pair of UTF-16 units. -/
def pairedChar (leading trailing : Nat) : Char :=
  Char.ofNat ((leading - 0xd800) * 0x400 + (trailing - 0xdc00) + 0x10000)

/-- The characters of a string, unless a surrogate has no partner. -/
def decode : List Piece → Option (List Char)
  | [] => some []
  | .char c :: pieces => do
    let cs ← decode pieces
    return c :: cs
  | .unit u :: .unit v :: pieces =>
    if isLeading u && isTrailing v then do
      let cs ← decode pieces
      return pairedChar u v :: cs
    else if isLeading u || isTrailing u then none
    else do
      let cs ← decode (.unit v :: pieces)
      return Char.ofNat u :: cs
  | .unit u :: pieces =>
    if isLeading u || isTrailing u then none
    else do
      let cs ← decode pieces
      return Char.ofNat u :: cs

/-- The text of a string, unless a surrogate has no partner. -/
def textOf (pieces : List Piece) : Option String := (decode pieces).map String.ofList

/-! ## Numbers -/

/-- The decimal digits at the front, and the rest. -/
def digits (cs : List Char) : List Char × List Char :=
  (cs.takeWhile Char.isDigit, cs.dropWhile Char.isDigit)

/-- The number that decimal digits spell. -/
def digitsValue (ds : List Char) : Nat :=
  ds.foldl (fun n d => n * 10 + (d.toNat - '0'.toNat)) 0

/-- Reads the digits before a fraction: no leading zero unless it is the only digit. -/
def readWhole (cs : List Char) : Option (Nat × List Char) :=
  match digits cs with
  | ([], _) => none
  | ('0' :: _ :: _, _) => none
  | (ds, rest) => some (digitsValue ds, rest)

/-- Reads a fraction, if there is one; the answer says whether there was. -/
def readFraction : List Char → Option (Bool × List Char)
  | '.' :: cs =>
    match digits cs with
    | ([], _) => none
    | (_, rest) => some (true, rest)
  | cs => some (false, cs)

/-- Drops one sign. -/
def dropSign : List Char → List Char
  | '+' :: cs | '-' :: cs => cs
  | cs => cs

/-- Reads an exponent, if there is one; the answer says whether there was. -/
def readExponent : List Char → Option (Bool × List Char)
  | 'e' :: cs | 'E' :: cs =>
    match digits (dropSign cs) with
    | ([], _) => none
    | (_, rest) => some (true, rest)
  | cs => some (false, cs)

/-- Reads a number. -/
def readNumber (cs : List Char) : Option (Json × List Char) := do
  let (isNegative, cs) := match cs with
    | '-' :: cs => (true, cs)
    | cs => (false, cs)
  let (value, cs) ← readWhole cs
  let (hasFraction, cs) ← readFraction cs
  let (hasExponent, cs) ← readExponent cs
  let isNatural := !(isNegative || hasFraction || hasExponent)
  return (.number (if isNatural then some value else none), cs)

/-! ## Values -/

mutual

/-- Reads a value at the front of a text. -/
def readValue : (fuel : Nat) → List Char → Option (Json × List Char)
  | 0, _ => none
  | fuel + 1, cs =>
    match skipBlanks cs with
    | 'n' :: 'u' :: 'l' :: 'l' :: cs => some (.null, cs)
    | 't' :: 'r' :: 'u' :: 'e' :: cs => some (.bool true, cs)
    | 'f' :: 'a' :: 'l' :: 's' :: 'e' :: cs => some (.bool false, cs)
    | '"' :: cs => do
      let (pieces, cs) ← readPieces cs
      return (.string (textOf pieces), cs)
    | '[' :: cs =>
      match skipBlanks cs with
      | ']' :: cs => some (.array [], cs)
      | cs => do
        let (items, cs) ← readItems fuel cs
        return (.array items, cs)
    | '\x7b' :: cs =>
      match skipBlanks cs with
      | '\x7d' :: cs => some (.object [], cs)
      | cs => do
        let (members, cs) ← readMembers fuel cs
        return (.object members, cs)
    | cs => readNumber cs

/-- Reads one or more items of an array and its end. -/
def readItems : (fuel : Nat) → List Char → Option (List Json × List Char)
  | 0, _ => none
  | fuel + 1, cs => do
    let (item, cs) ← readValue fuel cs
    match skipBlanks cs with
    | ']' :: cs => return ([item], cs)
    | ',' :: cs => do
      let (items, cs) ← readItems fuel cs
      return (item :: items, cs)
    | _ => none

/-- Reads one or more members of an object and its end. -/
def readMembers : (fuel : Nat) → List Char → Option (List (Option String × Json) × List Char)
  | 0, _ => none
  | fuel + 1, cs =>
    match skipBlanks cs with
    | '"' :: cs => do
      let (key, cs) ← readPieces cs
      match skipBlanks cs with
      | ':' :: cs => do
        let (value, cs) ← readValue fuel cs
        match skipBlanks cs with
        | '\x7d' :: cs => return ([(textOf key, value)], cs)
        | ',' :: cs => do
          let (members, cs) ← readMembers fuel cs
          return ((textOf key, value) :: members, cs)
        | _ => none
      | _ => none
    | _ => none

end

/-- Reads a text that is one JSON value and nothing else. Each level of nesting and each item takes
at least one character and at most two steps, so the fuel never runs out (`readValue_of_le`). -/
def parse? (text : String) : Option Json := do
  let cs := text.toList
  let (value, rest) ← readValue (2 * cs.length + 2) cs
  if (skipBlanks rest).isEmpty then some value else none

/-! ## Structures -/

/-- The values that an object gives for the known keys, in the order of the keys. A key that is no
text and a known key that is repeated are refused; unknown keys are passed over. -/
def membersFor? (keys : List String) (members : List (Option String × Json)) :
    Option (List (Option Json)) := do
  let named ← members.mapM fun m => m.1.map fun key => (key, m.2)
  keys.mapM fun key =>
    match named.filter (·.1 == key) with
    | [] => some none
    | [m] => some (some m.2)
    | _ => none

/-- The values of a structure with the given keys. It may be written as an object, or as an array of
the values in the order of the keys, which may stop early. -/
def fields? (keys : List String) : Json → Option (List (Option Json))
  | .object members => membersFor? keys members
  | .array items =>
    if items.length ≤ keys.length then
      some (items.map some ++ List.replicate (keys.length - items.length) none)
    else none
  | _ => none

/-- The value of an optional part, with a default for one that is left out. -/
def orDefault {α : Type} (default : α) (read : Json → Option α) : Option Json → Option α
  | none => some default
  | some j => read j

/-- A truth value. -/
def toBool? : Json → Option Bool
  | .bool b => some b
  | _ => none

/-- A text. -/
def toText? : Json → Option String
  | .string text => text
  | _ => none

/-- A list of texts. -/
def toTexts? : Json → Option (List String)
  | .array items => items.mapM toText?
  | _ => none

/-- A natural number of at most 64 bits, or nothing. -/
def toLimit? : Json → Option (Option Nat)
  | .null => some none
  | .number (some n) => if n ≤ 0xffffffffffffffff then some (some n) else none
  | _ => none

end Json

end Bindery
