import Bindery.Bound.Tree
import Bindery.Registry

/-!
# Exhaustive and reachable matches

`Bound.checkMatch` looks at the patterns of a match in order and reports what is wrong with the list
as a whole.

* A catch-all is a pattern after which no value is left. Every arm after the first catch-all is
  unreachable.
* A match on a sum must name every variant or have a catch-all. Naming a variant again is a duplicate,
  unless the name is written bare: then it can no longer mean the variant, reads as a binding, and is
  a catch-all. A bare name that is the name of a variant with a payload is no catch-all until that
  variant has been named.
* A match on `Bool` must have both constants or a catch-all, any other match must have a catch-all. A
  constant that was listed before is a duplicate.
* Nothing is reported about a match on a poisoned value.
-/

namespace Bindery.Bound

/-- What can be wrong with the arms of a match. -/
inductive MatchIssueKind where
  | nonExhaustive
  | unreachable
  | duplicate
deriving DecidableEq, Inhabited

/-- Something wrong with the arms of a match, and where. -/
structure MatchIssue where
  kind : MatchIssueKind
  range : Range
deriving DecidableEq, Inhabited

/-- What a list of arms has covered: the variants or constants named so far, in the order of naming,
whether a catch-all was seen, and the issues found. -/
structure Coverage (κ : Type) where
  seen : List κ
  catchAll : Bool
  issues : List MatchIssue

namespace Coverage

variable {κ : Type}

/-- Nothing covered yet. -/
def initial : Coverage κ := ⟨[], false, []⟩

/-- Adds an issue. -/
def issue (c : Coverage κ) (kind : MatchIssueKind) (range : Range) : Coverage κ :=
  { c with issues := c.issues ++ [⟨kind, range⟩] }

/-- Notes that no value is left. -/
def close (c : Coverage κ) : Coverage κ := { c with catchAll := true }

/-- Notes that a variant or constant is covered. -/
def cover (c : Coverage κ) (k : κ) : Coverage κ := { c with seen := c.seen ++ [k] }

/-- All issues, the last being that values are left over. -/
def conclude (c : Coverage κ) (covered : Bool) (matchRange : Range) : List MatchIssue :=
  if covered then c.issues else (c.issue .nonExhaustive matchRange).issues

end Coverage

/-- One arm of a match on a sum. -/
def sumArm (sum : SumDef) (c : Coverage String) (p : Pattern) : Coverage String :=
  if c.catchAll then c.issue .unreachable p.range
  else
    match p.kind with
    | .variant _ none _ _ => c
    | .variant name (some _) _ bare =>
      if c.seen.contains name then
        if bare then c.close else c.issue .duplicate p.range
      else c.cover name
    | .binding _ name =>
      if sum.variants.contains name then
        if c.seen.contains name then c.close else c
      else c.close
    | _ => if p.isIrrefutable then c.close else c

/-- The issues of a match on a sum. -/
def checkSum (sum : SumDef) (patterns : List Pattern) (matchRange : Range) : List MatchIssue :=
  let c := patterns.foldl (sumArm sum) .initial
  c.conclude (c.catchAll || decide (sum.variants.size ≤ c.seen.length)) matchRange

/-- One arm of a match on constants. -/
def literalArm (c : Coverage Literal) (p : Pattern) : Coverage Literal :=
  if c.catchAll then c.issue .unreachable p.range
  else
    match p.kind with
    | .literal value =>
      if c.seen.contains value then c.issue .duplicate p.range else c.cover value
    | _ => if p.isIrrefutable then c.close else c

/-- The issues of a match on constants. If the type is closed, its constants are the two truth
values. -/
def checkLiterals (isClosed : Bool) (patterns : List Pattern) (matchRange : Range) :
    List MatchIssue :=
  let c := patterns.foldl literalArm .initial
  let bothSeen := c.seen.contains (.bool true) && c.seen.contains (.bool false)
  c.conclude (c.catchAll || (isClosed && bothSeen)) matchRange

/-- The issues of a match on a value of type `target`. -/
def checkMatch (registry : Registry) (target : Ty) (patterns : List Pattern) (matchRange : Range) :
    List MatchIssue :=
  match target with
  | .error => []
  | .sum name _ =>
    match registry.sum? name with
    | some sum => checkSum sum patterns matchRange
    | none => []
  | .bool => checkLiterals true patterns matchRange
  | _ => checkLiterals false patterns matchRange

end Bindery.Bound
