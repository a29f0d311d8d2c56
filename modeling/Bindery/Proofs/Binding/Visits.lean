import Bindery.Proofs.Binding.Resolver
import Bindery.Proofs.Binding.File

/-!
# The names that binding visits

Binding looks up a name at an expression that is a name, at a call by name and at an assignment. A
`Visit` is such a use with the state in which binding meets it, so that what binding does there can
be asked (`Visit.Meets`). The events of a step list its visits in the order in which a name that
stands for nothing is reported, the target of an assignment after its value, and between them the
variables that the patterns declare.
-/

namespace Bindery

open Ast (Name TyExpr Param)

mutual

/-- The variables that a pattern declares, in order. -/
def Bound.Pattern.names : Bound.Pattern → List String
  | ⟨.binding _ name, _, _⟩ => [name]
  | ⟨.tuple elems, _, _⟩ => Bound.Pattern.allNames elems
  | ⟨.variant _ _ (some payload) _, _, _⟩ => payload.names
  | ⟨.variant _ _ none _, _, _⟩ | ⟨.literal _, _, _⟩ | ⟨.wildcard, _, _⟩ => []

/-- The variables that patterns declare, in order. -/
def Bound.Pattern.allNames : List Bound.Pattern → List String
  | [] => []
  | p :: ps => p.names ++ Bound.Pattern.allNames ps

end

namespace Binding

open Resolver (Declaration Occurrence)

variable {α : Type}

/-! ## Visits -/

/-- A use of a name, with what binding knows of it. -/
inductive Use where
  | value (expected : Option Ty) (name : Name)
  | callee (expected : Option Ty) (callee : Ast.Expr) (tyArgs : List TyExpr) (range : Range)
  | target (name : Name)

/-- A use of a name that binding meets in a state. -/
structure Visit where
  use : Use
  state : State

/-- What a callee was resolved to. -/
def calleeDeclaration? : Callee → Option Declaration
  | .fn id .. | .builtin id .. => some (.fn id)
  | .variant _ _ d _ => some (.variant d.symbol)
  | .undefined => none

/-- What binding takes the name of a visit to stand for. -/
inductive Visit.Meets : Visit → Occurrence → Prop
  | var {expected : Option Ty} {name : Name} {s : State} {id : SymId}
      (h : (out (nameExpr expected name) s).kind = .var id) :
      Meets ⟨.value expected name, s⟩ ⟨.value, name, some (.var id)⟩
  | fn {expected : Option Ty} {name : Name} {s : State} {id : SymId}
      (h : (out (nameExpr expected name) s).kind = .fnRef id) :
      Meets ⟨.value expected name, s⟩ ⟨.value, name, some (.fn id)⟩
  | variant {expected : Option Ty} {name : Name} {s : State} {id : SymId}
      (h : (out (nameExpr expected name) s).kind = .variant id none) :
      Meets ⟨.value expected name, s⟩ ⟨.value, name, some (.variant id)⟩
  /-- A variant that is used without its payload is reported as such. -/
  | payload {expected : Option Ty} {name : Name} {s : State} {sum : SumDef} {d : VariantDef} {ty : Ty}
      (hvariant : s.registry.variant? name.text = some (sum, d)) (hpayload : d.payload = some ty)
      (h : after (nameExpr expected name) s =
      s.reporting [⟨name.range, .payloadRequired name.text ty⟩]) :
      Meets ⟨.value expected name, s⟩ ⟨.value, name, some (.variant d.symbol)⟩
  | undefined {expected : Option Ty} {name : Name} {s : State}
      (h : after (nameExpr expected name) s = s.reporting [⟨name.range, .undefinedVar name.text⟩]) :
      Meets ⟨.value expected name, s⟩ ⟨.value, name, none⟩
  | callee {expected : Option Ty} {name : Name} {tyArgs : List TyExpr} {range : Range} {s : State}
      {callee : Callee} {d : Declaration}
      (h : out (resolveCallee expected (.name name) tyArgs range) s = some callee)
      (hd : calleeDeclaration? callee = some d) :
      Meets ⟨.callee expected (.name name) tyArgs range, s⟩ ⟨.callee, name, some d⟩
  | undefinedCallee {expected : Option Ty} {name : Name} {tyArgs : List TyExpr} {range : Range}
      {s : State} (h : out (resolveCallee expected (.name name) tyArgs range) s = some .undefined)
      (hreport : after (resolveCallee expected (.name name) tyArgs range) s =
        s.reporting [⟨name.range, .undefinedFn name.text⟩]) :
      Meets ⟨.callee expected (.name name) tyArgs range, s⟩ ⟨.callee, name, none⟩
  | target {name : Name} {s : State} {id : SymId} (h : (out (assignTarget name) s).1 = some id) :
      Meets ⟨.target name, s⟩ ⟨.target, name, some (.var id)⟩
  /-- An assignment without a target is reported once its value is bound. -/
  | undefinedTarget {name : Name} {s : State} (h : out (assignTarget name) s = (none, none)) :
      Meets ⟨.target name, s⟩ ⟨.target, name, none⟩

/-! ## Events -/

/-- A visit, or the variables that the pattern of an arm declares. -/
inductive Event where
  | visit (v : Visit)
  | pattern (names : List String)

/-- The visits among events. -/
def visits (events : List Event) : List Visit :=
  events.filterMap fun
    | .visit v => some v
    | .pattern _ => none

/-- The variables of the patterns among events. -/
def patterns (events : List Event) : List (List String) :=
  events.filterMap fun
    | .visit _ => none
    | .pattern names => some names

/-- The events of a step, by the state it starts in. -/
abbrev Trace := State → List Event

namespace Trace

/-- Nothing happens. -/
def silent : Trace := fun _ => []

/-- A name is met. -/
def meet (use : Use) : Trace := fun s => [.visit ⟨use, s⟩]

/-- The events of `m` and then those of what follows it. -/
def andThen (v : Trace) (m : Binding α) (v' : α → Trace) :
    Trace := fun s => v s ++ v' (out m s) (after m s)

/-- The events of what follows `m`, which has none. -/
def past (m : Binding α) (v : α → Trace) : Trace := silent.andThen m v

end Trace

open Trace

/-- Binds an arm of a match from a step that binds its body. -/
def bindArm (target : Ty) (pattern : Ast.Pattern) (body : Binding Bound.Expr) (range : Range) :
    Binding Bound.Arm :=
  inScope .matchArm do
    let pattern ← bindPattern target pattern
    let body ← body
    return ⟨pattern, body, range⟩

mutual

/-- The events of an expression. -/
def eventsExpr (expected : Option Ty) : Ast.Expr → Trace
  | .literal .. | .channel .. => silent
  | .name name => meet (.value expected name)
  | .binary _ _ left right | .index _ left right =>
    (eventsExpr none left).andThen (bindExpr none left) fun _ => eventsExpr none right
  | .unary _ _ e | .field _ e _ => eventsExpr none e
  | .par _ e => eventsExpr expected e
  | .call origin callee tyArgs args => fun s =>
    match out (resolveCallee expected callee tyArgs origin.range) s with
    | some target =>
      (meet (.callee expected callee tyArgs origin.range)).andThen
        (resolveCallee expected callee tyArgs origin.range) (fun _ => eventsExprs target.hints args) s
    | none =>
      (eventsExpr none callee).andThen (bindExpr none callee)
        (fun value => past (checkValueTyArgs (calleeName callee value.ty) tyArgs origin.range) fun _ =>
          eventsExprs (valueHints value.ty) args) s
  | .lambda origin params ret body =>
    past (resolveTypes (params.map Param.annot)) fun tys =>
      past (resolveType? ret) fun declared s =>
        eventsExpr declared body
          ((after (declareLocals .parameter ((params.map Param.name).zip tys))
          s.enteringLambda).enteringBody
            ⟨"<lambda>", declared, [], origin.range⟩)
  | .record _ type tyArgs fields => fun s =>
    match s.registry.record? type.text with
    | none => past (reportNotARecord type) (fun _ => eventsUnused fields) s
    | some record =>
      past (recordArgs expected record type tyArgs)
        (fun known => eventsFields record [] known fields) s
  | .tuple _ es => eventsExprs (tupleHints expected es.length) es
  | .list _ es => eventsEach (elementHint .list expected) es
  | .map _ entries => eventsEntries (elementHint .map expected) entries
  | .ifElse _ cond thenBranch none =>
    (eventsExpr none cond).andThen (bindExpr none cond) fun e =>
      past (checkCondition e) fun _ => eventsBlock thenBranch
  | .ifElse _ cond thenBranch (some elseBranch) =>
    (eventsExpr none cond).andThen (bindExpr none cond) fun e =>
      past (checkCondition e) fun _ =>
        (eventsBlock thenBranch).andThen (bindBlock thenBranch) fun _ => eventsExpr expected elseBranch
  | .block b => eventsBlock b
  | .matchOn _ scrutinee arms =>
    (eventsExpr none scrutinee).andThen (bindExpr none scrutinee) fun e =>
      eventsArms e.ty expected .initial arms
  | .spawn origin body => past (checkSpawn origin.range) fun _ => eventsBlock body
  | .scope _ body => fun s => eventsBlock body (s.inScopeBlocks (s.scopeDepth + 1))

/-- The events of expressions with the expected types at their places. -/
def eventsExprs : (hints : List (Option Ty)) → List Ast.Expr → Trace
  | _, [] => silent
  | hints, e :: es =>
    (eventsExpr hints.head?.join e).andThen (bindExpr hints.head?.join e) fun _ =>
      eventsExprs hints.tail es

/-- The events of expressions with one expected type for all. -/
def eventsEach (hint : Option Ty) : List Ast.Expr → Trace
  | [] => silent
  | e :: es => (eventsExpr hint e).andThen (bindExpr hint e) fun _ => eventsEach hint es

/-- The events of the entries of a map. -/
def eventsEntries (hint : Option Ty) : List Ast.MapEntry → Trace
  | [] => silent
  | ⟨_, key, value⟩ :: entries =>
    (eventsExpr (some .string) key).andThen (bindExpr (some .string) key) fun k =>
      past (checkKey k) fun _ =>
        (eventsExpr hint value).andThen (bindExpr hint value) fun _ => eventsEntries hint entries

/-- The events of the values of a record expression whose record is unknown. -/
def eventsUnused : List Ast.FieldInit → Trace
  | [] => silent
  | ⟨_, _, value⟩ :: fields =>
    (eventsExpr none value).andThen (bindExpr none value) fun _ => eventsUnused fields

/-- The events of the fields of a record expression. -/
def eventsFields (record : RecordDef) (seen : List String) (known : Subst) : List Ast.FieldInit → Trace
  | [] => silent
  | ⟨_, name, value⟩ :: fields =>
    if seen.contains name.text then
      past (report name.range (.fieldRepeated name.text)) fun _ =>
        (eventsExpr none value).andThen (bindExpr none value) fun _ =>
          eventsFields record seen known fields
    else
      match record.fields.get? name.text with
      | none =>
        past (report name.range (.noSuchField record.name name.text)) fun _ =>
          (eventsExpr none value).andThen (bindExpr none value) fun _ =>
            eventsFields record (name.text :: seen) known fields
      | some d =>
        (eventsExpr (closedHint (d.ty.subst known)) value).andThen
          (bindExpr (closedHint (d.ty.subst known)) value) fun e =>
            past (checkField name.text d.ty e known) fun known =>
              eventsFields record (name.text :: seen) known fields

/-- The events of the arms of a match. -/
def eventsArms (target : Ty) (expected : Option Ty) (agreed : ArmTypes) : List Ast.Arm → Trace
  | [] => silent
  | ⟨origin, pattern, body⟩ :: arms =>
    Trace.andThen
      (fun s => .pattern (out (bindPattern target pattern) (s.opened .matchArm)).names ::
        eventsExpr (expected <|> agreed.result) body
          (after (bindPattern target pattern) (s.opened .matchArm)))
      (bindArm target pattern (bindExpr (expected <|> agreed.result) body) origin.range) fun arm =>
        past (noteArm agreed arm.body) fun agreed => eventsArms target expected agreed arms

/-- The events of a block. -/
def eventsBlock : Ast.Block → Trace
  | ⟨_, stmts⟩ => fun s => eventsStmts stmts (s.opened .block)

/-- The events of statements. -/
def eventsStmts : List Ast.Stmt → Trace
  | [] => silent
  | stmt :: stmts => (eventsStmt stmt).andThen (bindStmt stmt) fun _ => eventsStmts stmts

/-- The events of a statement. -/
def eventsStmt : Ast.Stmt → Trace
  | .bindName _ _ _ annot init => past (resolveType? annot) fun declared => eventsExpr declared init
  | .assign _ name value => fun s =>
    past (assignTarget name) (fun target => eventsExpr (target.2.map Prod.fst) value) s ++
      meet (.target name) s
  | .expr _ value | .print _ value => eventsExpr none value
  | .ret _ (some value) => past declaredReturn fun declared => eventsExpr declared value
  | .block b => eventsBlock b
  | .whileLoop _ cond body =>
    (eventsExpr none cond).andThen (bindExpr none cond) fun e =>
      past (checkCondition e) fun _ s => eventsBlock body (s.inLoops (s.loopDepth + 1))
  | .forLoop _ item iterable body =>
    (eventsExpr none iterable).andThen (bindExpr none iterable) fun e =>
      past (itemTy e) fun ty s =>
        past (declareLocal item (.var false) ty)
          (fun _ u => eventsBlock body (u.inLoops (u.loopDepth + 1)))
          (s.opened .block)
  | .ret _ none | .breakLoop _ | .continueLoop _ | .fn .. | .record .. | .sum .. => silent

end

/-! ## Files -/

/-- The events of the body of a function. -/
def eventsFn (f : Sig) (name : Name) (params : List Param) (body : Ast.Block) : Trace :=
  fun s =>
    past (declareLocals .parameter ((params.map Param.name).zip f.paramTys))
      (fun _ u => eventsStmts body.stmts (u.enteringStatements (bodyFrame f name))) (s.enteringFn f)

/-- The events of the bodies of functions. -/
def eventsFns (sigs : List (Nat × SymId)) : (index : Nat) → List Ast.Stmt → Trace
  | _, [] => silent
  | index, .fn origin name _ params _ body :: stmts => fun s =>
    match (sigs.lookup index).bind fun id => (s.syms.sig? id).map (id, ·) with
    | none => []
    | some (id, f) =>
      (eventsFn f name params body).andThen (bindFnBody id origin name params body).run
        (fun _ => eventsFns sigs (index + 1) stmts) s
  | index, _ :: stmts => eventsFns sigs (index + 1) stmts

/-- The events of a file. -/
def eventsFile (stmts : List Ast.Stmt) : List Event :=
  past (typeDeclarations stmts).run (fun _ => past (declareSigs 0 stmts) fun sigs =>
    (eventsFns sigs 0 stmts).andThen (bindFns sigs 0 stmts).run fun _ =>
      eventsStmts (topStatements stmts)) .initial

end Binding

end Bindery
