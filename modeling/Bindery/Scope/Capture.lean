import Bindery.Scope.Basic

/-!
# Captured variables

While a lambda is bound, a frame collects the variables it captures. A variable is free in a lambda
if its declaring scope is neither the lambda's own scope nor nested in it. Every reference is shown
to the frames of all lambdas around it: a free immutable variable is recorded once, in the order of
first reference, and a free mutable variable is refused.
-/

namespace Bindery

variable {κ : Type}

/-- Whether a variable declared in `declaring` is free in the lambda whose scope is `boundary`. -/
def Scopes.isFree (a : Scopes κ) (declaring boundary : ScopeId) : Bool :=
  !a.isWithin declaring boundary

/-- The scope of a lambda and what it captured so far, in the order of first reference. -/
structure LambdaFrame where
  boundary : ScopeId
  captured : List SymId
deriving DecidableEq, Inhabited

/-- Records a captured symbol once. -/
def LambdaFrame.capture (f : LambdaFrame) (symbol : SymId) : LambdaFrame :=
  if f.captured.contains symbol then f else { f with captured := f.captured ++ [symbol] }

/-- How a reference stands to the lambdas around it. -/
inductive Reference where
  /-- Every lambda around the reference also contains the declaration. -/
  | inside
  /-- Some lambda captures the variable. -/
  | captured
  /-- Some lambda would have to capture a mutable variable. -/
  | mutableCapture
deriving DecidableEq, Inhabited

/-- The frames of the lambdas being bound, innermost first. -/
structure Captures where
  frames : List LambdaFrame
deriving DecidableEq, Inhabited

namespace Captures

/-- Outside every lambda. -/
def empty : Captures := ⟨[]⟩

/-- How many lambdas are being bound. -/
def depth (c : Captures) : Nat := c.frames.length

/-- Enters the lambda whose scope is `boundary`. -/
def enter (c : Captures) (boundary : ScopeId) : Captures := ⟨⟨boundary, []⟩ :: c.frames⟩

/-- Leaves the innermost lambda with what it captured. -/
def exit (c : Captures) : List SymId × Captures :=
  match c.frames with
  | [] => ([], c)
  | f :: frames => (f.captured, ⟨frames⟩)

/-- Shows a reference to all lambdas around it. -/
def observe (c : Captures) (a : Scopes κ) (symbol : SymId) (declaring : ScopeId)
    (isMutable : Bool) : Reference × Captures :=
  if c.frames.any fun f => a.isFree declaring f.boundary then
    if isMutable then (.mutableCapture, c)
    else
      (.captured,
        ⟨c.frames.map fun f => if a.isFree declaring f.boundary then f.capture symbol else f⟩)
  else (.inside, c)

end Captures

end Bindery
