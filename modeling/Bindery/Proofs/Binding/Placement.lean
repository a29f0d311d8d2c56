import Bindery.Proofs.Binding.Tree
import Bindery.Proofs.Ast.Spots

/-!
# What stands where it must not

Binding counts the loops and the `scope` blocks around the place it stands at, and keeps a stack of
functions and lambdas. `Stands around s` says that these tell what `around` tells, and `Polices
around m spots` that the step `m`, started in such a state, reports what is wrong with the spots and
nothing else of the kind, in this order.
-/

namespace Bindery.Binding

open Ast

variable {α β : Type} {around around' : List Enclosure} {spots spots' : List Spot}
    {own : List String} {s t : State}
  {m : Binding α} {f : α → Binding β}

/-- The findings about what stands where it must not. -/
def State.misplaced (s : State) : List Finding := s.findings.toList.filter Finding.isMisplaced

theorem State.misplaced_reporting (s : State) (fs : List Finding) :
    (s.reporting fs).misplaced = s.misplaced ++ fs.filter Finding.isMisplaced := by
  simp [State.misplaced, State.reporting]

/-- The state knows what is around. -/
structure Stands (around : List Enclosure) (s : State) : Prop where
  loop : (s.loopDepth != 0) = Enclosure.inLoop around
  fn : (!s.fns.isEmpty) = Enclosure.inFn around
  scope : (s.scopeDepth != 0) = Enclosure.inScope around

theorem Stands.grows (h : Stands around s) (hg : Grows own s t) : Stands around t where
  loop := hg.loopDepth ▸ h.loop
  fn := by
    obtain ⟨returns, hfns⟩ := hg.fns
    rw [hfns, ← h.fn]
    cases s.fns <;> rfl
  scope := hg.scopeDepth ▸ h.scope

/-- The step reports what is wrong with the spots. -/
def Polices (around : List Enclosure) (m : Binding α) (spots : List Spot) : Prop :=
  ∀ s, Stands around s →
    Stands around (after m s) ∧ (after m s).misplaced = s.misplaced ++ spots.filterMap Spot.problem?

/-- The step reports nothing of the kind, wherever it stands. -/
class Orderly (m : Binding α) : Prop where
  polices (m) : ∀ around, Polices around m []

namespace Polices

theorem seq (hm : Polices around m spots) (hf : ∀ a, Polices around (f a) spots') :
    Polices around (m >>= f) (spots ++ spots') := by
  intro s hs
  obtain ⟨ht, hmisplaced⟩ := hm s hs
  obtain ⟨hu, hmisplaced'⟩ := hf (out m s) (after m s) ht
  refine ⟨hu, ?_⟩
  rw [after_bind, hmisplaced', hmisplaced, List.filterMap_append, List.append_assoc]

/-- What comes first reports nothing of the kind. -/
theorem past [hm : Orderly m] (hf : ∀ s, Polices around (f (out m s)) spots) :
    Polices around (m >>= f) spots := by
  intro s hs
  obtain ⟨ht, hmisplaced⟩ := hm.polices around s hs
  obtain ⟨hu, hmisplaced'⟩ := hf s (after m s) ht
  refine ⟨hu, ?_⟩
  rw [after_bind, hmisplaced', hmisplaced, List.filterMap_nil, List.append_nil]

/-- What comes last reports nothing of the kind. -/
theorem close (hm : Polices around m spots) [hf : ∀ a, Orderly (f a)] :
    Polices around (m >>= f) spots := by
  have h := hm.seq fun a => (hf a).polices around
  rwa [List.append_nil] at h

theorem of_keeps (hkeeps : Keeps own m)
    (h : ∀ s, Stands around s → (after m s).misplaced = s.misplaced ++ spots.filterMap Spot.problem?) :
    Polices around m spots :=
  fun s hs => ⟨hs.grows (hkeeps.grows s), h s hs⟩

/-- A step that runs another one further inside. -/
theorem within {act : Binding β} (h : Polices around' act spots) (hkeeps : Keeps own m)
    (enter : State → State)
    (henter : ∀ s, Stands around s → Stands around' (enter s))
    (hin : ∀ s, (enter s).findings = s.findings)
    (hout : ∀ s, (after m s).findings = (after act (enter s)).findings) : Polices around m spots := by
  refine .of_keeps hkeeps fun s hs => ?_
  have hfindings := (h _ (henter s hs)).2
  rw [State.misplaced, State.misplaced, hin] at hfindings
  rw [State.misplaced, State.misplaced, hout, hfindings]

theorem inScope (kind : ScopeKind) (hkeeps : Keeps own m) (h : Polices around m spots) :
    Polices around (inScope kind m) spots :=
  h.within (keeps_inScope kind hkeeps) (·.opened kind) (fun _ hs => ⟨hs.loop, hs.fn, hs.scope⟩)
    (fun _ => rfl)
    fun _ => rfl

/-- The scope of a lambda. -/
theorem inLambda (hkeeps : Keeps own m) (h : Polices around m spots) :
    Polices around (Binding.inScope .lambda (withLambda m)) spots :=
  h.within (keeps_inScope .lambda (keeps_withLambda hkeeps))
    (fun s => (s.opened .lambda).capturing
      ((s.opened .lambda).captures.enter (s.opened .lambda).current))
    (fun _ hs => ⟨hs.loop, hs.fn, hs.scope⟩) (fun _ => rfl) fun _ => rfl

/-- The body of a loop. -/
theorem inLoop (hkeeps : Keeps own m) (h : Polices (.loop :: around) m spots) :
    Polices around (Binding.inLoop m) spots := by
  rw [inLoop_eq hkeeps]
  exact h.within (keeps_withLoopDepth _ hkeeps) (fun s => s.inLoops (s.loopDepth + 1))
    (fun _ hs => ⟨by simp [State.inLoops, Enclosure.inLoop], hs.fn, hs.scope⟩)
    (fun _ => rfl) fun _ => rfl

/-- The body of a `scope`. -/
theorem inScopeBlock (hkeeps : Keeps own m) (h : Polices (.scope :: around) m spots) :
    Polices around (Binding.inScopeBlock m) spots := by
  rw [inScopeBlock_eq hkeeps]
  exact h.within (keeps_withScopeDepth _ hkeeps) (fun s => s.inScopeBlocks (s.scopeDepth + 1))
    (fun _ hs => ⟨hs.loop, hs.fn, by simp [State.inScopeBlocks, Enclosure.inScope]⟩)
    (fun _ => rfl) fun _ => rfl

end Polices

/-! ## Steps that report nothing of the kind -/

namespace Orderly

instance spares (m : Binding α) [hm : Spares Finding.isMisplaced m] : Orderly m where
  polices around s hs := by
    obtain ⟨fs, hfs, hafter⟩ := hm.after_eq s
    rw [hafter, State.misplaced_reporting, List.filter_eq_nil_iff.mpr fun f hf => by simp [hfs f hf]]
    exact ⟨⟨hs.loop, hs.fn, hs.scope⟩, rfl⟩

instance bind (m : Binding α) (f : α → Binding β) [hm : Orderly m] [hf : ∀ a, Orderly (f a)] :
    Orderly (m >>= f) where
  polices around := (hm.polices around).close

instance observe (symbol : SymId) (declaring : ScopeId) (isMutable : Bool) :
    Orderly (observe symbol declaring isMutable) where
  polices _ _ hs := ⟨⟨hs.loop, hs.fn, hs.scope⟩, (List.append_nil _).symm⟩

instance declareLocal (name : Name) (kind : SymKind) (ty : Ty) :
    Orderly (declareLocal name kind ty) where
  polices around s hs := by
    rw [after_declareLocal]
    split
    · exact ⟨⟨hs.loop, hs.fn, hs.scope⟩, (List.append_nil _).symm⟩
    · exact ⟨⟨hs.loop, hs.fn, hs.scope⟩, State.misplaced_reporting _ _⟩

instance declareLocals (kind : SymKind) (names : List (Name × Ty)) :
    Orderly (declareLocals kind names) := by
  induction names with
  | nil => exact inferInstanceAs (Orderly (pure _))
  | cons entry names ih =>
    obtain ⟨name, ty⟩ := entry
    rw [Binding.declareLocals]
    infer_instance

instance reportCapture (ok : Bool) (range : Range) (name : String) :
    Spares Finding.isMisplaced (reportUnless ok range (.mutableCapture name)) := .reportUnless _ _ rfl

instance resolveVar (name : Name) : Orderly (resolveVar name) := by
  refine @bind _ _ _ _ inferInstance fun found => ?_
  split
  · refine @bind _ _ _ _ inferInstance fun s => ?_
    split
    · split <;> infer_instance
    · infer_instance
  · infer_instance

instance nameExpr (expected : Option Ty) (name : Name) : Orderly (nameExpr expected name) := by
  refine @bind _ _ _ _ inferInstance fun found => ?_
  split <;> infer_instance

instance assignTarget (name : Name) : Orderly (assignTarget name) := by
  unfold Binding.assignTarget
  infer_instance

instance finishLet (name : Name) (isMutable : Bool) (annot : Option Ty) (init : Bound.Expr) :
    Orderly (finishLet name isMutable annot init) := by
  have : ∀ ty, Spares Finding.isMisplaced
    (reportUnless (Ty.accepts ty init.ty) init.range (.notAssignable init.ty ty)) :=
    fun _ => .reportUnless _ _ rfl
  unfold Binding.finishLet
  split <;> infer_instance

instance namePattern (target : Ty) (name : Name) : Orderly (namePattern target name) := by
  refine @bind _ _ _ _ inferInstance fun found => ?_
  split <;> infer_instance

end Orderly

mutual

theorem orderly_bindPattern (target : Ty) (p : Pattern) : Orderly (bindPattern target p) := by
  match p with
  | .literal .. | .wildcard _ | .name _ | .variant _ _ none =>
    rw [bindPattern]
    infer_instance
  | .tuple _ elems =>
    have := fun tys => orderly_bindPatterns tys elems
    rw [bindPattern]
    infer_instance
  | .variant _ _ (some payload) =>
    have := fun ty => orderly_bindPattern ty payload
    rw [bindPattern]
    infer_instance

theorem orderly_bindPatterns (tys : List Ty) (ps : List Pattern) : Orderly (bindPatterns tys ps) := by
  match tys, ps with
  | [], _ | _ :: _, [] =>
    rw [bindPatterns]
    · infer_instance
    · simp
  | ty :: tys, p :: ps =>
    have := orderly_bindPattern ty p
    have := orderly_bindPatterns tys ps
    rw [bindPatterns]
    infer_instance

end

attribute [instance] orderly_bindPattern

/-! ## The rules -/

/-- A check that depends on what is around reports the spot it is made at. -/
theorem polices_reportUnless {spot : Spot} {ok : State → Bool} {range : Range} {p : Problem}
    (hok : ∀ s, Stands around s → spot.problem? = if ok s then none else some ⟨range, p⟩)
    (hp : (⟨range, p⟩ : Finding).isMisplaced = true) :
    Polices around (get >>= fun s => reportUnless (ok s) range p) [spot] := by
  refine .of_keeps (inferInstance : Keeps [] _) fun s hs => ?_
  rw [after_bind, after_get, out_get, after_reportUnless, State.misplaced_reporting,
    List.filterMap_cons,
    List.filterMap_nil, hok s hs]
  cases ok s with
  | true => rfl
  | false => simp [hp]

theorem polices_rejectDeclaration {spot : Spot} {name : Name} {kind : String}
    (h : spot.problem? = some ⟨name.range, .nestedDeclaration kind⟩) :
    Polices around (rejectDeclaration name kind) [spot] := by
  refine .of_keeps (inferInstance : Keeps [] _) fun s hs => ?_
  rw [rejectDeclaration, after_bind, after_report, after_pure, State.misplaced_reporting,
    List.filterMap_cons, h]
  rfl

theorem polices_finishReturn (ty : Ty) (candidate : Range) (o : Origin) (value : Option Expr) :
    Polices around (finishReturn ty candidate o.range) [⟨around, .stmt (.ret o value)⟩] := by
  refine .of_keeps (inferInstance : Keeps [] _) fun s hs => ?_
  rw [finishReturn, after_bind, after_reportUnless, out_noteReturn, after_noteReturn,
    State.misplaced_reporting,
    List.filterMap_cons, Spot.problem?, hs.fn]
  cases Enclosure.inFn around <;> rfl

theorem polices_lambdaExpr (params : List (Name × Ty)) (declared : Option Ty)
    {body : Binding Bound.Expr}
    (range : Range) (hkeeps : Keeps [] body) (h : Polices (.lambda :: around) body spots) :
    Polices around (lambdaExpr params declared body range) spots := by
  have hbody : Polices around
      (withFn ⟨"<lambda>", declared, [], range⟩ (withLoopDepth (fun _ => 0) body)) spots :=
    h.within (keeps_withFn _ (keeps_withLoopDepth _ hkeeps))
      (fun s => (s.inFns (⟨"<lambda>", declared, [], range⟩ :: s.fns)).inLoops 0)
      (fun s hs => ⟨rfl, by simp [State.inFns, State.inLoops, Enclosure.inFn], hs.scope⟩)
      (fun _ => rfl)
      fun s => by rw [after_withFn]; rfl
  have hinner : Polices around (declareLocals .parameter params >>= fun syms =>
      withFn ⟨"<lambda>", declared, [], range⟩ (withLoopDepth (fun _ => 0) body) >>= fun found =>
        pure (syms, found.1, found.2)) spots := .past fun _ => hbody.close
  have hlambda := hinner.inLambda (.seq (keeps_declareLocals rfl params) fun _ =>
    .seq (keeps_withFn _ (keeps_withLoopDepth _ hkeeps)).of_nil fun _ => inferInstance)
  refine List.append_nil spots ▸ hlambda.seq ?_
  rintro ⟨⟨_, _, frame⟩, _⟩
  cases frame <;> exact Orderly.polices _ _

/-! ## Expressions and statements -/

mutual

/-- Binding an expression reports what is wrong with its spots. -/
theorem polices_bindExpr (around : List Enclosure) (expected : Option Ty) (e : Expr) :
    Polices around (bindExpr expected e) (e.spots around) := by
  match e with
  | .literal .. | .name _ | .channel .. =>
    rw [bindExpr]
    exact Orderly.polices _ _
  | .binary _ _ left right | .index _ left right =>
    exact (polices_bindExpr around none left).seq fun _ => (polices_bindExpr around none right).close
  | .unary _ _ e | .field _ e _ => exact (polices_bindExpr around none e).close
  | .par _ e => exact (polices_bindExpr around expected e).close
  | .call _ callee tyArgs args =>
    have hcallee := polices_bindExpr around none callee
    have hargs := fun hints => polices_bindExprs around hints args
    refine .past fun s => ?_
    cases htarget : out (resolveCallee expected callee tyArgs _) s with
    | some target =>
      obtain ⟨name, rfl, -⟩ := exists_of_resolveCallee htarget
      exact (hargs _).close
    | none => exact hcallee.seq fun _ => .past fun _ => (hargs _).close
  | .lambda _ _ _ body =>
    exact .past fun _ => .past fun _ =>
      polices_lambdaExpr _ _ _ (keeps_bindExpr _ body) (polices_bindExpr _ _ body)
  | .record _ _ _ fields =>
    refine .past fun s => ?_
    split
    · exact .past fun _ => (polices_bindUnused around fields).close
    · exact .past fun _ => (polices_bindFields around _ _ _ fields).close
  | .tuple _ es => exact (polices_bindExprs around _ es).close
  | .list _ es =>
    rw [bindExpr_list]
    exact (polices_bindExprs around _ es).close
  | .map _ entries => exact (polices_bindEntries around _ entries).close
  | .ifElse _ cond thenBranch none =>
    exact (polices_bindExpr around none cond).seq fun _ => .past fun _ =>
      (polices_bindBlock around thenBranch).close
  | .ifElse _ cond thenBranch (some elseBranch) =>
    exact (polices_bindExpr around none cond).seq fun _ => .past fun _ =>
      (polices_bindBlock around thenBranch).seq fun _ =>
        (polices_bindExpr around expected elseBranch).close
  | .block b => exact (polices_bindBlock around b).close
  | .matchOn _ scrutinee arms =>
    exact (polices_bindExpr around none scrutinee).seq fun _ =>
      (polices_bindArms around _ _ _ arms).close
  | .spawn o body =>
    exact (polices_reportUnless (fun s hs => by rw [Spot.problem?, hs.scope]) rfl).seq fun _ =>
      (polices_bindBlock around body).close
  | .scope _ body => exact ((polices_bindBlock _ body).inScopeBlock (keeps_bindBlock body)).close

theorem polices_bindExprs (around : List Enclosure) (hints : List (Option Ty)) (es : List Expr) :
    Polices around (bindExprs hints es) (Expr.allSpots around es) := by
  match es with
  | [] =>
    rw [bindExprs]
    exact Orderly.polices _ _
  | e :: es => exact (polices_bindExpr around _ e).seq fun _ => (polices_bindExprs around _ es).close

theorem polices_bindEntries (around : List Enclosure) (hint : Option Ty) (entries : List MapEntry) :
    Polices around (bindEntries hint entries) (MapEntry.allSpots around entries) := by
  match entries with
  | [] =>
    rw [bindEntries]
    exact Orderly.polices _ _
  | ⟨_, key, value⟩ :: entries =>
    exact (polices_bindExpr around _ key).seq fun _ => .past fun _ =>
      (polices_bindExpr around hint value).seq fun _ => (polices_bindEntries around hint entries).close

theorem polices_bindUnused (around : List Enclosure) (fields : List FieldInit) :
    Polices around (bindUnused fields) (FieldInit.allSpots around fields) := by
  match fields with
  | [] =>
    rw [bindUnused]
    exact Orderly.polices _ _
  | ⟨_, _, value⟩ :: fields =>
    exact (polices_bindExpr around none value).seq fun _ => polices_bindUnused around fields

theorem polices_bindFields (around : List Enclosure) (record : RecordDef) (seen : List String)
    (known : Subst)
    (fields : List FieldInit) :
    Polices around (bindFields record seen known fields) (FieldInit.allSpots around fields) := by
  match fields with
  | [] =>
    rw [bindFields]
    exact Orderly.polices _ _
  | ⟨_, name, value⟩ :: fields =>
    -- a field that is refused is reported, and its value is bound all the same
    have hrefused : ∀ seen p, (⟨name.range, p⟩ : Finding).isMisplaced = false →
        Polices around (report name.range p >>= fun _ => bindExpr none value >>= fun _ =>
          bindFields record seen known fields)
            (value.spots around ++ FieldInit.allSpots around fields) :=
      fun seen p hp => by
        have : Spares Finding.isMisplaced (report name.range p) := .report _ hp
        exact .past fun _ => (polices_bindExpr around none value).seq fun _ =>
          polices_bindFields around record seen known fields
    rw [bindFields]
    split
    · exact hrefused _ _ rfl
    · split
      · exact hrefused _ _ rfl
      · exact (polices_bindExpr around _ value).seq fun _ => .past fun _ =>
          (polices_bindFields around record _ _ fields).close

theorem polices_bindArms (around : List Enclosure) (target : Ty) (expected : Option Ty)
    (agreed : ArmTypes)
    (arms : List Arm) :
    Polices around (bindArms target expected agreed arms) (Arm.allSpots around arms) := by
  match arms with
  | [] =>
    rw [bindArms]
    exact Orderly.polices _ _
  | ⟨origin, pattern, body⟩ :: arms =>
    have harm : Polices around (bindPattern target pattern >>= fun pattern =>
        bindExpr (expected <|> agreed.result) body >>= fun body =>
          pure (⟨pattern, body, origin.range⟩ : Bound.Arm)) (body.spots around) :=
      .past fun _ => (polices_bindExpr around _ body).close
    exact (harm.inScope .matchArm (.seq (keeps_bindPattern target pattern) fun _ =>
      .seq (keeps_bindExpr _ body).of_nil fun _ => inferInstance)).seq fun _ =>
        .past fun _ => (polices_bindArms around target expected _ arms).close

theorem polices_bindBlock (around : List Enclosure) (block : Block) :
    Polices around (bindBlock block) (block.spots around) := by
  match block with
  | ⟨_, stmts⟩ => exact ((polices_bindStmts around stmts).inScope .block (keeps_bindStmts stmts)).close

theorem polices_bindStmts (around : List Enclosure) (stmts : List Stmt) :
    Polices around (bindStmts stmts) (Stmt.allSpots around stmts) := by
  match stmts with
  | [] =>
    rw [bindStmts]
    exact Orderly.polices _ _
  | stmt :: stmts =>
    exact (polices_bindStmt around stmt).seq fun _ => (polices_bindStmts around stmts).close

theorem polices_bindStmt (around : List Enclosure) (stmt : Stmt) :
    Polices around (bindStmt stmt) (stmt.spots around) := by
  match stmt with
  | .bindName _ _ _ _ e | .assign _ _ e => exact .past fun _ => (polices_bindExpr around _ e).close
  | .expr _ e | .print _ e => exact (polices_bindExpr around none e).close
  | .ret o none => exact (polices_finishReturn _ _ o none).close
  | .ret o (some value) =>
    exact .past fun _ => (polices_bindExpr around _ value).seq fun _ =>
      (polices_finishReturn _ _ o (some value)).close
  | .block b => exact (polices_bindBlock around b).close
  | .whileLoop _ cond body =>
    exact (polices_bindExpr around none cond).seq fun _ => .past fun _ =>
      ((polices_bindBlock _ body).inLoop (keeps_bindBlock body)).close
  | .forLoop _ item iterable body =>
    have hbody : ∀ ty, Polices around (declareLocal item (.var false) ty >>= fun symbol =>
        inLoop (bindBlock body) >>= fun body => pure (symbol, body)) (body.spots (.loop :: around)) :=
      fun ty => .past fun _ => ((polices_bindBlock _ body).inLoop (keeps_bindBlock body)).close
    exact (polices_bindExpr around none iterable).seq fun _ => .past fun _ =>
      ((hbody _).inScope .block (.seq (keeps_declareVar item false _) fun _ =>
        .seq (keeps_inLoop (keeps_bindBlock body)).of_nil fun _ => inferInstance)).close
  | .breakLoop _ | .continueLoop _ =>
    exact (polices_reportUnless (fun s hs => by rw [Spot.problem?, hs.loop]) rfl).close
  | .fn .. | .record .. | .sum .. => exact polices_rejectDeclaration rfl

end

end Bindery.Binding
