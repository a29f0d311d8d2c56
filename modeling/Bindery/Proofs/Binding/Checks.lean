import Bindery.Proofs.Run

/-!
# Steps that only check

Most rules of binding look at the state and at the parts of a node, report what is wrong, and change
nothing else. `Spares p` says this of a step that reports nothing of the kind `p`. Three kinds
matter: the capture of a mutable variable, which is found only where a name is resolved to a
variable (`Checks`), all problems with what a name stands for, which are found only where a name is
resolved (`Neutral`), and what stands where it must not. Most rules spare all three (`Plain`), and
those that read a written type spare everything that is not about types (`ReadsTypes`).

Every rule is shown to be such a step once, as an instance; sequences of them are found by instance
search.
-/

namespace Bindery

open Ast (Name TyExpr)

namespace Finding

/-- Whether the finding is the capture of a mutable variable. -/
def isCapture (f : Finding) : Bool :=
  match f.problem with
  | .mutableCapture _ => true
  | _ => false

/-- Whether the finding is a name that stands for nothing. -/
def isUndefined (f : Finding) : Bool :=
  match f.problem with
  | .undefinedVar _ | .undefinedFn _ => true
  | _ => false

/-- Whether the finding is about what a name stands for. -/
def concernsName (f : Finding) : Bool := f.isCapture || f.isUndefined

/-- Whether the finding is something that stands where it must not: a jump, a `return`, a `spawn` or
a declaration. -/
def isMisplaced (f : Finding) : Bool :=
  match f.problem with
  | .jumpOutsideLoop _ | .returnOutsideFn | .spawnOutsideScope | .nestedDeclaration _ => true
  | _ => false

/-- Whether the finding is about a written type: a name that is no type, or a wrong number of type
arguments. -/
def isAboutType (f : Finding) : Bool :=
  match f.problem with
  | .undefinedType _ | .typeArgumentCount .. => true
  | _ => false

end Finding

namespace Binding

variable {α β : Type}

/-- The findings that are captures of mutable variables. -/
def State.captureFindings (s : State) : List Finding := s.findings.toList.filter Finding.isCapture

/-- The findings that are names that stand for nothing. -/
def State.undefinedFindings (s : State) : List Finding := s.findings.toList.filter Finding.isUndefined

variable (m : Binding α) (target : Ty) (expected : Option Ty) (symbol : SymId) (hint : Option Ty)
    (name : Name) (s : State)

variable (range : Range) (resolved : Option (SymId × Option Ty)) (elems : List Bound.Expr)
  (cond : Bound.Expr) (thenBranch : Bound.Block) (callee : Bound.Expr) (fs : List Finding)

theorem State.captureFindings_reporting :
    (s.reporting fs).captureFindings = s.captureFindings ++ fs.filter Finding.isCapture := by
  simp [State.captureFindings, State.reporting]

theorem State.undefinedFindings_reporting :
    (s.reporting fs).undefinedFindings = s.undefinedFindings ++ fs.filter Finding.isUndefined := by
  simp [State.undefinedFindings, State.reporting]

/-- The step reports findings, none of the kind `k`, and changes nothing else. -/
class Spares (k : Finding → Bool) (m : Binding α) : Prop where
  after_eq (m) : ∀ s, ∃ fs : List Finding, (∀ f ∈ fs, k f = false) ∧ after m s = s.reporting fs

/-- The step reports findings, none of them a capture, and changes nothing else. -/
abbrev Checks (m : Binding α) : Prop := Spares Finding.isCapture m

/-- The step reports findings, none of them about what a name stands for, and changes nothing
else. -/
abbrev Neutral (m : Binding α) : Prop := Spares Finding.concernsName m

/-- The step reports findings, among them perhaps a name that stands for nothing, and changes
nothing else. -/
abbrev Resolves (m : Binding α) : Prop := Spares (fun f => f.isCapture || f.isMisplaced) m

/-- The step reports findings, none of the kinds above, and changes nothing else. -/
abbrev Plain (m : Binding α) : Prop := Spares (fun f => f.concernsName || f.isMisplaced) m

/-- The step reports findings about written types and changes nothing else. -/
abbrev ReadsTypes (m : Binding α) : Prop := Spares (fun f => !f.isAboutType) m

variable {p : Problem}

namespace Spares

variable {k : Finding → Bool}

theorem of_after_eq {m : Binding α} (h : ∀ s, after m s = s) : Spares k m where
  after_eq s := ⟨[], by simp, by rw [h, State.reporting_nil]⟩

instance pure (a : α) : Spares k (pure a : Binding α) := of_after_eq fun _ => rfl

instance get : Spares k (get : Binding State) := of_after_eq fun _ => rfl

instance lookup (space : NameSpace) (name : String) : Spares k (lookup space name) :=
  of_after_eq fun _ => rfl

instance tyOf (symbol : SymId) : Spares k (tyOf symbol) := of_after_eq fun _ => rfl

theorem seq {m : Binding α} {f : α → Binding β} (hm : Spares k m) (hf : ∀ a, Spares k (f a)) :
    Spares k (m >>= f) where
  after_eq s := by
    obtain ⟨fs, hfs, hs⟩ := hm.after_eq s
    obtain ⟨gs, hgs, ht⟩ := (hf (out m s)).after_eq (after m s)
    refine ⟨fs ++ gs, ?_, ?_⟩
    · intro f hf
      rcases List.mem_append.mp hf with hf | hf
      · exact hfs f hf
      · exact hgs f hf
    · rw [after_bind, ht, hs, State.reporting_reporting]

instance bind (m : Binding α) (f : α → Binding β) [hm : Spares k m] [hf : ∀ a, Spares k (f a)] :
    Spares k (m >>= f) := seq hm hf

instance discard (m : Binding α) [hm : Spares k m] : Spares k (discard m) where
  after_eq s := hm.after_eq s

theorem report (hp : k ⟨range, p⟩ = false) : Spares k (report range p) where
  after_eq s := ⟨[⟨range, p⟩], by simpa using hp, after_report range p s⟩

theorem reportUnless (ok : Bool) (range : Range) (hp : k ⟨range, p⟩ = false) :
    Spares k (reportUnless ok range p) where
  after_eq s := by
    refine ⟨if ok then [] else [⟨range, p⟩], ?_, after_reportUnless ok range p s⟩
    cases ok
    · simpa using hp
    · simp

instance withGenerics (names : List String) (m : Binding α) [hm : Spares k m] :
    Spares k (withGenerics names m) where
  after_eq s := by
    obtain ⟨fs, hfs, hs⟩ := hm.after_eq (s.naming names)
    exact ⟨fs, hfs, by rw [after_withGenerics, hs]; rfl⟩

/-- A report and then an answer. -/
theorem report_pure (hp : k ⟨range, p⟩ = false) (a : α) :
    Spares k (Binding.report range p >>= fun _ => Pure.pure a) :=
  seq (report range hp) fun _ => pure a

theorem reportUnless_pure (ok : Bool) (range : Range) (hp : k ⟨range, p⟩ = false) (a : α) :
    Spares k (Binding.reportUnless ok range p >>= fun _ => Pure.pure a) :=
  seq (reportUnless ok range hp) fun _ => pure a

end Spares

/-- A step spares the kinds within a kind that it spares. -/
theorem Spares.mono {k k' : Finding → Bool} {m : Binding α} (hm : Spares k m)
    (h : ∀ f, k f = false → k' f = false) :
    Spares k' m where
  after_eq s := by
    obtain ⟨fs, hfs, hs⟩ := hm.after_eq s
    exact ⟨fs, fun f hf => h f (hfs f hf), hs⟩

instance (priority := low) checks_of_neutral [hm : Neutral m] : Checks m :=
  hm.mono fun _ h => (Bool.or_eq_false_iff.mp h).1

instance (priority := low) neutral_of_plain [hm : Plain m] : Neutral m :=
  hm.mono fun _ h => (Bool.or_eq_false_iff.mp h).1

instance (priority := low) resolves_of_plain [hm : Plain m] : Resolves m :=
  hm.mono fun f h => by
    rw [Finding.concernsName, Bool.or_eq_false_iff, Bool.or_eq_false_iff] at h
    rw [h.1.1, h.2]
    rfl

instance (priority := low) checks_of_resolves [hm : Resolves m] : Checks m :=
  hm.mono fun _ h => (Bool.or_eq_false_iff.mp h).1

instance (priority := low) sparesMisplaced_of_resolves [hm : Resolves m] :
    Spares Finding.isMisplaced m :=
  hm.mono fun _ h => (Bool.or_eq_false_iff.mp h).2

instance (priority := low) plain_of_readsTypes [hm : ReadsTypes m] : Plain m :=
  hm.mono fun f h => by
    obtain ⟨range, p⟩ := f
    cases p <;> cases h <;> rfl

theorem Neutral.undefinedFindings_eq [hm : Neutral m] :
    (after m s).undefinedFindings = s.undefinedFindings := by
  obtain ⟨fs, hfs, hs⟩ := hm.after_eq s
  have hnone : fs.filter Finding.isUndefined = [] :=
    List.filter_eq_nil_iff.mpr fun f hf => by simp [(Bool.or_eq_false_iff.mp (hfs f hf)).2]
  rw [hs, State.undefinedFindings_reporting, hnone, List.append_nil]

namespace Checks

theorem exists_reporting (m : Binding α) [hm : Checks m] (s : State) :
    ∃ fs : List Finding, after m s = s.reporting fs := by
  obtain ⟨fs, -, hs⟩ := hm.after_eq s
  exact ⟨fs, hs⟩

theorem syms_eq (m : Binding α) [hm : Checks m] (s : State) : (after m s).syms = s.syms := by
  obtain ⟨fs, hs⟩ := exists_reporting m s
  rw [hs]
  rfl

theorem report (hp : (⟨range, p⟩ : Finding).isCapture = false) : Checks (report range p) :=
  Spares.report range hp

theorem captureFindings_eq (m : Binding α) [hm : Checks m] (s : State) :
    (after m s).captureFindings = s.captureFindings := by
  obtain ⟨fs, hfs, hs⟩ := hm.after_eq s
  have hnone : fs.filter Finding.isCapture = [] := by simpa [List.filter_eq_nil_iff] using hfs
  rw [hs, State.captureFindings_reporting, hnone, List.append_nil]

end Checks

/-! ## Written types -/

variable (args : List Bound.Expr) (tyArgs : List TyExpr)

instance checks_checkTypeArity (name : String) (expected : Nat) (args : List Ty) :
    ReadsTypes (checkTypeArity name expected args range) := .reportUnless_pure _ range rfl _

instance checks_applyTypeName (args : List Ty) : ReadsTypes (applyTypeName name args range) := by
  refine .seq inferInstance fun s => ?_
  split
  · exact .report_pure _ rfl _
  · refine .seq inferInstance fun ok => ?_
    split <;> infer_instance

mutual

theorem checks_resolveType : (t : TyExpr) → ReadsTypes (resolveType t)
  | .named origin name args => by
    have := checks_resolveTypes args
    rw [resolveType]
    infer_instance
  | .fn _ params ret => by
    have := checks_resolveTypes params
    have := checks_resolveType ret
    rw [resolveType]
    infer_instance
  | .tuple _ elems => by
    have := checks_resolveTypes elems
    rw [resolveType]
    infer_instance

theorem checks_resolveTypes : (ts : List TyExpr) → ReadsTypes (resolveTypes ts)
  | [] => by
    rw [resolveTypes]
    infer_instance
  | t :: ts => by
    have := checks_resolveType t
    have := checks_resolveTypes ts
    rw [resolveTypes]
    infer_instance

end

theorem length_resolveTypes (ts : List TyExpr) (s : State) :
    (out (resolveTypes ts) s).length = ts.length := by
  induction ts generalizing s with
  | nil => rfl
  | cons t ts ih =>
    rw [resolveTypes, out_bind, out_bind, out_pure, List.length_cons, ih, List.length_cons]

attribute [instance] checks_resolveType checks_resolveTypes

instance checks_resolveType? (t : Option TyExpr) : ReadsTypes (resolveType? t) := by
  cases t <;> rw [resolveType?] <;> infer_instance

/-! ## Patterns -/

instance checks_literalPattern (value : Literal) : Plain (literalPattern target value range) :=
  .reportUnless_pure _ range rfl _

instance checks_tupleTargets (count : Nat) : Plain (tupleTargets target count range) := by
  unfold tupleTargets
  split
  · split
    · infer_instance
    · exact .report_pure _ rfl _
  · infer_instance
  · infer_instance
  · exact .report_pure _ rfl _

instance checks_resolveVariant : Plain (resolveVariant target name range) := by
  refine .seq inferInstance fun s => ?_
  split
  · infer_instance
  · exact .reportUnless_pure _ _ rfl _
  · exact .report_pure _ rfl _

instance checks_payloadTarget (name : String) : Plain (payloadTarget resolved name range) := by
  unfold payloadTarget
  split
  · infer_instance
  · infer_instance
  · exact .report_pure _ rfl _

instance checks_checkNoPayload (name : String) : Plain (checkNoPayload resolved name range) := by
  unfold checkNoPayload
  split
  · exact .report _ rfl
  · infer_instance

/-! ## Values -/

instance checks_nonVarExpr : Resolves (nonVarExpr expected name) := by
  refine .seq inferInstance fun id => ?_
  split
  · infer_instance
  · refine .seq inferInstance fun s => ?_
    split
    · exact .report_pure _ rfl _
    · split
      · exact .report_pure _ rfl _
      · infer_instance

instance checks_binaryExpr (op : BinaryOp) (left right : Bound.Expr) :
    Plain (binaryExpr op left right range) := by
  unfold binaryExpr
  split
  · infer_instance
  · split
    · infer_instance
    · exact .report_pure _ rfl _

instance checks_unaryExpr (op : UnaryOp) (operand : Bound.Expr) :
    Plain (unaryExpr op operand range) := by
  unfold unaryExpr
  split
  · infer_instance
  · split
    · infer_instance
    · exact .report_pure _ rfl _

instance checks_checkCondition : Plain (checkCondition cond) := .reportUnless _ _ rfl

instance checks_fieldExpr (target : Bound.Expr) (name : Name) :
    Plain (fieldExpr target name range) := by
  unfold fieldExpr
  split
  · infer_instance
  · refine .seq inferInstance fun s => ?_
    split
    · infer_instance
    · exact .report_pure _ rfl _
  · exact .report_pure _ rfl _

instance checks_indexExpr (target index : Bound.Expr) : Plain (indexExpr target index range) := by
  unfold indexExpr
  split
  · infer_instance
  · split
    · infer_instance
    · exact .report_pure _ rfl _

instance checks_itemTy (iterable : Bound.Expr) : Plain (itemTy iterable) := by
  unfold itemTy
  split
  · infer_instance
  · exact .report_pure _ rfl _

instance checks_checkElements (element : Ty) (es : List Bound.Expr) :
    Plain (checkElements element es) := by
  induction es with
  | nil => exact .pure ()
  | cons e es ih => exact .seq (.reportUnless _ _ rfl) fun _ => ih

instance checks_settleElements : Plain (settleElements hint elems) := by
  unfold settleElements
  infer_instance

instance checks_emptyCollectionTy (c : Container) (hint : Option Ty) (collection : String) :
    Plain (emptyCollectionTy c hint collection range) := by
  unfold emptyCollectionTy
  split
  · infer_instance
  · exact .report_pure _ rfl _

instance checks_listExpr : Plain (listExpr hint elems range) := by
  unfold listExpr
  split <;> infer_instance

instance checks_checkKey (key : Bound.Expr) : Plain (checkKey key) := .reportUnless _ _ rfl

instance checks_mapExpr (entries : List Bound.Entry) : Plain (mapExpr hint entries range) := by
  unfold mapExpr
  split <;> infer_instance

instance checks_checkMissing (record : String) (given : List String) (fields : List String) :
    Plain (checkMissing record given range fields) := by
  induction fields with
  | nil => exact .pure ()
  | cons field fields ih => exact .seq (.reportUnless _ _ rfl) fun _ => ih

instance checks_checkField (name : String) (declared : Ty) (value : Bound.Expr)
    (known : Subst) : Plain (checkField name declared value known) :=
  .reportUnless_pure _ _ rfl _

instance checks_reportNotARecord : Plain (reportNotARecord name) := by
  refine .seq inferInstance fun s => ?_
  split <;> exact .report _ rfl

/-! ## Calls -/

instance checks_fnCallee (sig : Sig) (callee : Name) :
    Plain (fnCallee symbol sig callee tyArgs range) := by
  refine .seq inferInstance fun explicit => ?_
  dsimp only
  split
  · split <;> infer_instance
  · split
    · infer_instance
    · refine .seq inferInstance fun ok => ?_
      split <;> infer_instance

instance checks_namedCallee (callee : Name) : Resolves (namedCallee expected callee tyArgs range) := by
  refine .seq inferInstance fun s => ?_
  dsimp only
  split
  · infer_instance
  · split
    · infer_instance
    · exact .report_pure _ rfl _

instance checks_resolveCallee (callee : Ast.Expr) :
    Resolves (resolveCallee expected callee tyArgs range) := by
  unfold resolveCallee
  split
  · refine .seq inferInstance fun id => ?_
    split <;> infer_instance
  · infer_instance

instance checks_checkArguments (callee : String) (loose : Bool) (index : Nat) (params : List Ty) :
    Plain (checkArguments callee loose index params args) := by
  induction params generalizing index args with
  | nil => exact .pure ()
  | cons param params ih =>
    cases args with
    | nil => exact .pure ()
    | cons arg args => exact .seq (.reportUnless _ _ rfl) fun _ => ih _ _

instance checks_finishFnCall (f : Sig) (explicit : Subst) (isExplicit agrees : Bool) :
    Plain (finishFnCall symbol f explicit isExplicit agrees args range) := by
  unfold finishFnCall
  split
  · exact .report_pure _ rfl _
  · infer_instance

instance checks_finishBuiltinCall (name : String) (builtin : Builtin) :
    Plain (finishBuiltinCall symbol name builtin args range) := by
  unfold finishBuiltinCall
  dsimp only
  split
  · infer_instance
  · exact .report_pure _ rfl _
  · exact .report_pure _ rfl _

instance checks_finishVariantCall (sum : SumDef) (name : String) (d : VariantDef) (known : Subst) :
    Plain (finishVariantCall sum name d known args range) := by
  unfold finishVariantCall
  split
  · infer_instance
  · exact .report_pure _ rfl _
  · exact .report_pure _ rfl _
  · exact .reportUnless_pure _ _ rfl _
  · exact .report_pure _ rfl _

instance checks_finishCall (callee : Callee) : Plain (finishCall callee args range) := by
  unfold finishCall
  split <;> infer_instance

instance checks_checkValueTyArgs (name : String) : Plain (checkValueTyArgs name tyArgs range) := by
  unfold checkValueTyArgs
  split <;> infer_instance

instance checks_valueCallTy (name : String) : Plain (valueCallTy callee name args range) := by
  unfold valueCallTy
  split
  · infer_instance
  · split
    · exact .report_pure _ rfl _
    · refine .seq inferInstance fun _ => ?_
      split <;> infer_instance
  · exact .report_pure _ rfl _

instance checks_finishValueCall (name : String) : Plain (finishValueCall callee name args range) := by
  unfold finishValueCall
  infer_instance

/-! ## Branches and returns -/

instance checks_branchTy (elseBranch : Bound.Expr) : Plain (branchTy thenBranch elseBranch range) := by
  unfold branchTy
  split
  · infer_instance
  · split
    · infer_instance
    · split
      · infer_instance
      · split
        · infer_instance
        · exact .report_pure _ rfl _

instance checks_ifExpr (elseBranch : Option Bound.Expr) :
    Plain (ifExpr cond thenBranch elseBranch range) := by
  unfold ifExpr
  split <;> infer_instance

instance checks_noteArm (a : ArmTypes) (body : Bound.Expr) : Plain (noteArm a body) := by
  unfold noteArm
  split
  · infer_instance
  · split
    · infer_instance
    · split
      · infer_instance
      · split
        · infer_instance
        · exact .report_pure _ rfl _

instance checks_reportIssues (issues : List Bound.MatchIssue) : Plain (reportIssues issues) := by
  induction issues with
  | nil => exact .pure ()
  | cons issue issues ih =>
    obtain ⟨kind, range⟩ := issue
    refine .seq (.report _ ?_) fun _ => ih
    cases kind <;> rfl

instance checks_matchExpr (scrutinee : Bound.Expr) (arms : List Bound.Arm) (agreed : ArmTypes) :
    Plain (matchExpr scrutinee arms agreed range) := by
  unfold matchExpr
  infer_instance

instance checks_declaredReturn : Plain declaredReturn := .of_after_eq fun _ => rfl

instance checks_checkReturns (fn : String) (declared : Ty) (returns : List (Ty × Range)) :
    Plain (checkReturns fn declared returns) := by
  induction returns with
  | nil => exact .pure ()
  | cons candidate returns ih => exact .seq (.reportUnless _ _ rfl) fun _ => ih

instance checks_settleReturn (frame : FnFrame) (trailing : Option (Ty × Range)) :
    Plain (settleReturn frame trailing) := by
  unfold settleReturn
  split
  · infer_instance
  · dsimp only
    split
    · infer_instance
    · split
      · infer_instance
      · split
        · infer_instance
        · exact .report_pure _ rfl _

/-! ## Statements -/

instance checks_rejectDeclaration (kind : String) : Neutral (rejectDeclaration name kind) :=
  .report_pure _ rfl _

instance checks_checkInLoop (keyword : String) : Neutral (checkInLoop keyword range) :=
  .seq inferInstance fun _ => .reportUnless _ _ rfl

instance checks_checkSpawn : Neutral (checkSpawn range) :=
  .seq inferInstance fun _ => .reportUnless _ _ rfl

instance checks_finishAssign (target : Option (Ty × Bool)) (value : Bound.Expr) :
    Resolves (finishAssign name target value) := by
  unfold finishAssign
  split
  · exact .report _ rfl
  · exact .seq (.reportUnless _ _ rfl) fun _ => .reportUnless _ _ rfl

instance checks_recordArgs (record : RecordDef) (type : Name) :
    ReadsTypes (recordArgs expected record type tyArgs) := by
  refine .seq inferInstance fun explicit => ?_
  split
  · infer_instance
  · refine .seq inferInstance fun ok => ?_
    split <;> infer_instance

/-! ## Declarations -/

instance checks_tyParamNames (seen : List String) (names : List Name) :
    Plain (tyParamNames seen names) := by
  induction names generalizing seen with
  | nil => exact .pure seen
  | cons name names ih =>
    rw [tyParamNames]
    split
    · exact .seq (.report _ rfl) fun _ => ih _
    · exact ih _

end Binding

end Bindery
