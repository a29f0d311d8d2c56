import Bindery.Proofs.Binding.Quiet
import Bindery.Proofs.Ty.Poison

/-!
# What a quiet rule has checked

One inversion lemma for each rule of binding. It gives the node that the rule builds, the state it
leaves behind, and the checks that the parts of the node have passed.
-/

namespace Bindery

namespace Binding

/-- The state in which the parameters of a lambda are declared. -/
def State.enteringLambda (s : State) :
    State := (s.opened .lambda).capturing (s.captures.enter s.scopes.size)

/-- The state in which the body of a lambda is bound. -/
def State.enteringBody (s : State) (frame : FnFrame) : State := (s.inFns (frame :: s.fns)).inLoops 0

/-- The state behind a lambda that was met in `s`, whose parameters were declared in `u` and whose
body ended in `v`. -/
def State.leavingLambda (s u v : State) : State :=
  (((v.inLoops u.loopDepth).inFns v.fns.tail).capturing v.captures.exit.2).at s.current

end Binding

namespace Binding.Quiet

open Bindery.Bound

variable {Γ : Symbols} {s t : State} {range : Range}

/-! ## Operators and conditions -/

variable {symbol : SymId} {expected : Option Ty} {target : Ty} {hint : Option Ty} {name : Ast.Name}
    {declared : Ty} {es : List Expr} {tyArgs : List Ast.TyExpr} {ty : Ty} {e : Expr} {u : Unit}
    {args : List Expr}

theorem binaryExpr {op : BinaryOp} {left right : Expr}
    (h : Quiet Γ (binaryExpr op left right range) s e t) :
    t = s ∧ ∃ ty, e = ⟨.binary op left right, ty, range⟩ ∧
      (left.ty ≠ .error → right.ty ≠ .error → op.resultTy? left.ty right.ty = some ty) := by
  unfold Binding.binaryExpr at h
  split at h
  · next herror =>
    obtain ⟨rfl, rfl⟩ := h.pure
    refine ⟨rfl, .error, rfl, fun hl hr => ?_⟩
    simp [Ty.isError_eq_false_iff.mpr hl, Ty.isError_eq_false_iff.mpr hr] at herror
  · split at h
    · next ty hty =>
      obtain ⟨rfl, rfl⟩ := h.pure
      exact ⟨rfl, ty, rfl, fun _ _ => hty⟩
    · exact absurd h not_report_bind

theorem unaryExpr {op : UnaryOp} {operand : Expr} (h : Quiet Γ (unaryExpr op operand range) s e t) :
    t = s ∧ ∃ ty, e = ⟨.unary op operand, ty, range⟩ ∧
      (operand.ty ≠ .error → op.resultTy? operand.ty = some ty) := by
  unfold Binding.unaryExpr at h
  split at h
  · next herror =>
    obtain ⟨rfl, rfl⟩ := h.pure
    exact ⟨rfl, .error, rfl, fun ho => absurd (Ty.isError_eq_true_iff.mp herror) ho⟩
  · split at h
    · next ty hty =>
      obtain ⟨rfl, rfl⟩ := h.pure
      exact ⟨rfl, ty, rfl, fun _ => hty⟩
    · exact absurd h not_report_bind

variable {cond : Expr} {callee : Callee} {thenBranch : Block} {trailing : Option (Ty × Range)}
  {frame : FnFrame} {params : List (Ast.Name × Ty)} {resolved : Option (SymId × Option Ty)}

theorem checkCondition (h : Quiet Γ (checkCondition cond) s u t) :
    t = s ∧ (cond.ty ≠ .error → cond.ty = .bool) := by
  obtain ⟨hok, rfl⟩ := h.reportUnless
  refine ⟨rfl, fun hne => ?_⟩
  simpa [Ty.isError_eq_false_iff.mpr hne] using hok

theorem checkKey {key : Expr} (h : Quiet Γ (checkKey key) s u t) :
    t = s ∧ (key.ty ≠ .error → key.ty = .string) := by
  obtain ⟨hok, rfl⟩ := h.reportUnless
  refine ⟨rfl, fun hne => ?_⟩
  simpa [Ty.isError_eq_false_iff.mpr hne] using hok

/-! ## Fields and elements -/

theorem fieldExpr {target : Expr} (h : Quiet Γ (fieldExpr target name range) s e t) :
    t = s ∧ ∃ field ty, e = ⟨.field target field, ty, range⟩ ∧
      (target.ty ≠ .error → ∃ record args symbol, target.ty = .record record args ∧
        fieldOf? s.registry record name.text args = some (symbol, ty) ∧ field = some symbol) := by
  unfold Binding.fieldExpr at h
  split at h
  · next herror =>
    obtain ⟨rfl, rfl⟩ := h.pure
    exact ⟨rfl, none, .error, rfl, fun hne => absurd herror hne⟩
  · next record args hty =>
    replace h := h.read rfl
    split at h
    · next symbol ty hfield =>
      obtain ⟨rfl, rfl⟩ := h.pure
      exact ⟨rfl, some symbol, ty, rfl, fun _ => ⟨record, args, symbol, hty, hfield, rfl⟩⟩
    · exact absurd h not_report_bind
  · exact absurd h not_report_bind

theorem indexExpr {target index : Expr} (h : Quiet Γ (indexExpr target index range) s e t) :
    t = s ∧ ∃ ty, e = ⟨.index target index, ty, range⟩ ∧
      (target.ty ≠ .error → index.ty ≠ .error → indexedTy? target.ty index.ty = some ty) := by
  unfold Binding.indexExpr at h
  split at h
  · next herror =>
    obtain ⟨rfl, rfl⟩ := h.pure
    refine ⟨rfl, .error, rfl, fun ht hi => ?_⟩
    simp [Ty.isError_eq_false_iff.mpr ht, Ty.isError_eq_false_iff.mpr hi] at herror
  · split at h
    · next ty hty =>
      obtain ⟨rfl, rfl⟩ := h.pure
      exact ⟨rfl, ty, rfl, fun _ _ => hty⟩
    · exact absurd h not_report_bind

theorem itemTy {iterable : Expr} (h : Quiet Γ (itemTy iterable) s ty t) :
    t = s ∧ iteratedTy? iterable.ty = some ty := by
  unfold Binding.itemTy at h
  split at h
  · next ty' hty =>
    obtain ⟨rfl, rfl⟩ := h.pure
    exact ⟨rfl, hty⟩
  · exact absurd h not_report_bind

theorem checkElements {element : Ty} (h : Quiet Γ (checkElements element es) s u t) :
    t = s ∧ ∀ e ∈ es, element.accepts e.ty = true := by
  induction es generalizing s with
  | nil => exact ⟨h.pure.2, by simp⟩
  | cons e es ih =>
    obtain ⟨_, _, hfirst, htail⟩ := h.bind
    obtain ⟨hok, rfl⟩ := hfirst.reportUnless
    obtain ⟨rfl, hrest⟩ := ih htail
    exact ⟨rfl, List.forall_mem_cons.mpr ⟨hok, hrest⟩⟩

/-- The element type of a collection is the expected one, or that of its first sound element. -/
theorem settleElements {element : Ty} (h : Quiet Γ (settleElements hint es) s element t) :
    t = s ∧ (∀ e ∈ es, element.accepts e.ty = true) ∧
      (hint = some element ∨ hint = none ∧
      element = ((es.map Expr.ty).find? fun ty => !ty.isError).getD .error) := by
  obtain ⟨_, hcheck, rfl⟩ := h.bind_pure
  obtain ⟨rfl, hall⟩ := hcheck.checkElements
  refine ⟨rfl, hall, ?_⟩
  cases hint with
  | some ty => exact .inl rfl
  | none => exact .inr ⟨rfl, rfl⟩

theorem emptyCollectionTy {c : Container} {collection : String}
    (h : Quiet Γ (emptyCollectionTy c hint collection range) s ty t) :
    t = s ∧ ∃ element, hint = some element ∧ ty = .container c element := by
  unfold Binding.emptyCollectionTy at h
  split at h
  · next element =>
    obtain ⟨rfl, rfl⟩ := h.pure
    exact ⟨rfl, element, rfl, rfl⟩
  · exact absurd h not_report_bind

theorem listExpr (h : Quiet Γ (listExpr hint es range) s e t) :
    t = s ∧ ∃ element, e = ⟨.list es, .list element, range⟩ ∧
      (∀ e ∈ es, element.accepts e.ty = true) ∧
      (hint = some element ∨ hint = none ∧ es ≠ [] ∧
        element = ((es.map Expr.ty).find? fun ty => !ty.isError).getD .error) := by
  unfold Binding.listExpr at h
  split at h
  · obtain ⟨_, hempty, rfl⟩ := h.bind_pure
    obtain ⟨rfl, element, rfl, rfl⟩ := hempty.emptyCollectionTy
    exact ⟨rfl, element, rfl, by simp, .inl rfl⟩
  · next hne =>
    obtain ⟨_, hsettle, rfl⟩ := h.bind_pure
    obtain ⟨rfl, hall, hor⟩ := hsettle.settleElements
    exact ⟨rfl, _, rfl, hall, hor.imp_right fun h => ⟨h.1, hne, h.2⟩⟩

theorem mapExpr {entries : List Entry} (h : Quiet Γ (mapExpr hint entries range) s e t) :
    t = s ∧ ∃ value, e = ⟨.map entries, .map value, range⟩ ∧
      (∀ entry ∈ entries, value.accepts entry.value.ty = true) ∧
      (hint = some value ∨ hint = none ∧ entries ≠ [] ∧
        value = (((entries.map Entry.value).map Expr.ty).find? fun ty => !ty.isError).getD
          .error) := by
  unfold Binding.mapExpr at h
  split at h
  · obtain ⟨_, hempty, rfl⟩ := h.bind_pure
    obtain ⟨rfl, element, rfl, rfl⟩ := hempty.emptyCollectionTy
    exact ⟨rfl, element, rfl, by simp, .inl rfl⟩
  · next hne =>
    obtain ⟨_, hsettle, rfl⟩ := h.bind_pure
    obtain ⟨rfl, hall, hor⟩ := hsettle.settleElements
    refine ⟨rfl, _, rfl, ?_, hor.imp_right fun h => ⟨h.1, hne, h.2⟩⟩
    exact fun entry hentry => hall _ (List.mem_map_of_mem hentry)

/-! ## Records -/

theorem checkMissing {record : String} {given : List String} {fields : List String}
    (h : Quiet Γ (checkMissing record given range fields) s u t) :
    t = s ∧ ∀ field ∈ fields, field ∈ given := by
  induction fields generalizing s with
  | nil => exact ⟨h.pure.2, by simp⟩
  | cons field fields ih =>
    obtain ⟨_, _, hfirst, htail⟩ := h.bind
    obtain ⟨hok, rfl⟩ := hfirst.reportUnless
    obtain ⟨rfl, hrest⟩ := ih htail
    exact ⟨rfl, List.forall_mem_cons.mpr ⟨by simpa using hok, hrest⟩⟩

theorem checkField {name : String} {value : Expr} {known known' : Subst}
    (h : Quiet Γ (checkField name declared value known) s known' t) :
    t = s ∧ known' = declared.infer value.ty known ∧ (declared.subst known').accepts value.ty =
      true := by
  obtain ⟨_, hcheck, rfl⟩ := h.bind_pure
  obtain ⟨hok, rfl⟩ := hcheck.reportUnless
  exact ⟨rfl, rfl, hok⟩

theorem not_reportNotARecord : ¬ Quiet Γ (reportNotARecord name) s u t := by
  intro h
  have h' := h.read rfl
  split at h'
  · exact not_report h'
  · exact not_report h'

theorem checkTypeArity {name : String} {expected : Nat} {args : List Ty} {ok : Bool}
    (h : Quiet Γ (checkTypeArity name expected args range) s ok t) :
    t = s ∧ ok = true ∧ args.length = expected := by
  obtain ⟨_, hcheck, rfl⟩ := h.bind_pure
  obtain ⟨hok, rfl⟩ := hcheck.reportUnless
  exact ⟨rfl, hok, by simpa using hok⟩

/-! ## Calls -/

theorem checkArguments {callee : String} {loose : Bool} {index : Nat} {params : List Ty}
    (h : Quiet Γ (checkArguments callee loose index params args) s u t) :
    t = s ∧ ∀ p ∈ params.zip args, p.1.compatible loose p.2.ty = true := by
  induction params generalizing s index args with
  | nil => exact ⟨h.pure.2, by simp⟩
  | cons param params ih =>
    cases args with
    | nil => exact ⟨h.pure.2, by simp⟩
    | cons arg args =>
      obtain ⟨_, _, hfirst, htail⟩ := h.bind
      obtain ⟨hok, rfl⟩ := hfirst.reportUnless
      obtain ⟨rfl, hrest⟩ := ih htail
      exact ⟨rfl, List.forall_mem_cons.mpr ⟨hok, hrest⟩⟩

/-- A called function is called with explicit type arguments, or without any. -/
theorem fnCallee {f : Sig} (h : Quiet Γ (fnCallee symbol f name tyArgs range) s callee t) :
    t = s ∧ ∃ explicit, Quiet Γ (resolveTypes tyArgs) s explicit s ∧
      ((∃ b, f.isBuiltin = true ∧ Builtin.ofName? f.name = some b ∧ explicit = [] ∧
      callee = .builtin symbol f.name b) ∨
        (f.isBuiltin = true → Builtin.ofName? f.name = none) ∧
          (explicit = [] ∧ callee = .fn symbol f .empty false true ∨
            explicit ≠ [] ∧ explicit.length = f.tyParams.length ∧
              callee = .fn symbol f (.ofArguments f.tyParams explicit) true true)) := by
  obtain ⟨explicit, _, hexplicit, hrest⟩ :=
    h.seq fun explicit => by dsimp only; split <;> infer_instance
  obtain rfl := hexplicit.checks.2
  dsimp only at hrest
  split at hrest
  · next b hspecial =>
    have hb : f.isBuiltin = true ∧ Builtin.ofName? f.name = some b := by
      split at hspecial
      · next hbuiltin => exact ⟨hbuiltin, hspecial⟩
      · cases hspecial
    cases explicit with
    | nil =>
      obtain ⟨rfl, rfl⟩ := hrest.pure
      exact ⟨rfl, [], hexplicit, .inl ⟨b, hb.1, hb.2, rfl, rfl⟩⟩
    | cons ty tys =>
      obtain ⟨_, _, hdiscard, -⟩ := hrest.bind
      cases hdiscard.discard.checkTypeArity.2.2
  · next hspecial =>
    have hb : f.isBuiltin = true → Builtin.ofName? f.name = none := by
      intro hbuiltin
      rwa [if_pos hbuiltin] at hspecial
    split at hrest
    · next hempty =>
      obtain ⟨rfl, rfl⟩ := hrest.pure
      exact ⟨rfl, explicit, hexplicit, .inr ⟨hb, .inl ⟨List.isEmpty_iff.mp hempty, rfl⟩⟩⟩
    · next hne =>
      obtain ⟨ok, _, harity, hpure⟩ := hrest.bind
      obtain ⟨rfl, rfl, hlength⟩ := harity.checkTypeArity
      obtain ⟨rfl, rfl⟩ := hpure.pure
      exact ⟨rfl, explicit, hexplicit, .inr ⟨hb, .inr ⟨by simpa using hne, hlength, rfl⟩⟩⟩

theorem namedCallee (h : Quiet Γ (namedCallee expected name tyArgs range) s callee t) :
    (∃ id f, s.scopes.lookup .fn s.current name.text = some id ∧
        s.syms.sig? id = some f ∧
        Quiet Γ (Binding.fnCallee id f name tyArgs range) s callee t) ∨
      ∃ sum d, s.registry.variant? name.text = some (sum, d) ∧ t = s ∧
        callee = .variant sum name.text d (expectedSumArgs expected sum) := by
  replace h := h.read rfl
  dsimp only at h
  split at h
  · next id f hfn =>
    obtain ⟨id', hid, hf⟩ := Option.bind_eq_some_iff.mp hfn
    obtain ⟨f', hf', heq⟩ := Option.bind_eq_some_iff.mp hf
    cases heq
    exact .inl ⟨id, f, hid, hf', h⟩
  · split at h
    · next sum d hvariant =>
      obtain ⟨rfl, rfl⟩ := h.pure
      exact .inr ⟨sum, d, hvariant, rfl, rfl⟩
    · exact absurd h not_report_bind

/-- The callee of a call: a name that is no variable, or a value. -/
theorem resolveCallee {callee : Ast.Expr} {result : Option Callee}
    (h : Quiet Γ (resolveCallee expected callee tyArgs range) s result t) :
    (∃ name target, callee = .name name ∧ s.scopes.lookup .var s.current name.text = none ∧
        Quiet Γ (Binding.namedCallee expected name tyArgs range) s target t ∧ result = some target) ∨
      result = none ∧ t = s ∧ ∀ name, callee = .name name → s.scopes.lookup .var s.current
        name.text ≠ none := by
  unfold Binding.resolveCallee at h
  split at h
  · next name =>
    have h' := h.read (after_lookup s _ _)
    rw [out_lookup] at h'
    split at h'
    · next id hid =>
      obtain ⟨rfl, rfl⟩ := h'.pure
      refine .inr ⟨rfl, rfl, ?_⟩
      rintro name ⟨⟩
      simp [hid]
    · next hnone =>
      obtain ⟨target, htarget, rfl⟩ := h'.bind_pure
      exact .inl ⟨name, target, rfl, hnone, htarget, rfl⟩
  · next hvalue =>
    obtain ⟨rfl, rfl⟩ := h.pure
    exact .inr ⟨rfl, rfl, fun name hname => absurd hname (hvalue name)⟩

theorem finishFnCall {f : Sig} {explicit : Subst} {isExplicit agrees : Bool}
    (h : Quiet Γ (finishFnCall symbol f explicit isExplicit agrees args range) s e t) :
    t = s ∧ args.length = f.params.length ∧
      (∀ p ∈ (Ty.substAll explicit f.paramTys).zip args, p.1.compatible true p.2.ty = true) ∧
      ∃ closed : Subst, closed = Subst.closeWith
          (if f.isGeneric && !isExplicit then Ty.inferAll f.paramTys (args.map Expr.ty) explicit
            else explicit) f.tyParams ∧
        e = ⟨.call symbol (closed.instantiate f.tyParams) args,
          if agrees then f.ret.subst closed else .error, range⟩ := by
  unfold Binding.finishFnCall at h
  split at h
  · exact absurd h not_report_bind
  · next hlength =>
    obtain ⟨_, hcheck, rfl⟩ := h.bind_pure
    obtain ⟨rfl, hall⟩ := hcheck.checkArguments
    exact ⟨rfl, by simpa using hlength, hall, _, rfl, rfl⟩

theorem finishBuiltinCall {name : String} {b : Builtin}
    (h : Quiet Γ (finishBuiltinCall symbol name b args range) s e t) :
    t = s ∧ ∃ ty, b.resolve (args.map Expr.ty) = .ok ty ∧ e = ⟨.call symbol [] args, ty, range⟩ := by
  unfold Binding.finishBuiltinCall at h
  dsimp only at h
  split at h
  · next ty hty =>
    obtain ⟨rfl, rfl⟩ := h.pure
    exact ⟨rfl, ty, hty, rfl⟩
  · exact absurd h not_report_bind
  · exact absurd h not_report_bind

/-- A variant is constructed with exactly the payload that it is declared with. -/
theorem finishVariantCall {sum : SumDef} {name : String} {d : VariantDef} {known : Subst}
    (h : Quiet Γ (finishVariantCall sum name d known args range) s e t) :
    t = s ∧
      (d.payload = none ∧ args = [] ∧ e = constructed sum d known none range ∨
        ∃ payload arg, d.payload = some payload ∧ args = [arg] ∧
          (payload.subst (payload.infer arg.ty known)).acceptsArgument arg.ty = true ∧
          e = constructed sum d (payload.infer arg.ty known) (some arg) range) := by
  unfold Binding.finishVariantCall at h
  split at h
  · next hpayload =>
    obtain ⟨rfl, rfl⟩ := h.pure
    exact ⟨rfl, .inl ⟨hpayload, rfl, rfl⟩⟩
  · exact absurd h not_report_bind
  · exact absurd h not_report_bind
  · next payload arg hpayload =>
    obtain ⟨_, hcheck, rfl⟩ := h.bind_pure
    obtain ⟨hok, rfl⟩ := hcheck.reportUnless
    exact ⟨rfl, .inr ⟨payload, arg, hpayload, rfl, hok, rfl⟩⟩
  · exact absurd h not_report_bind

theorem checkValueTyArgs {name : String} (h : Quiet Γ (checkValueTyArgs name tyArgs range) s u t) :
    t = s :=
  h.checks.2

theorem valueCallTy {callee : Expr} {name : String}
    (h : Quiet Γ (valueCallTy callee name args range) s ty t) :
    t = s ∧ (callee.ty ≠ .error → ∃ params ret, callee.ty = .fn params ret ∧
      params.length = args.length ∧
      (∀ p ∈ params.zip args, p.1.compatible (isFnRef callee) p.2.ty = true) ∧
      (isFnRef callee = false → ty = ret)) := by
  unfold Binding.valueCallTy at h
  split at h
  · next herror =>
    obtain ⟨rfl, rfl⟩ := h.pure
    exact ⟨rfl, fun hne => absurd herror hne⟩
  · next params ret hty =>
    split at h
    · exact absurd h not_report_bind
    · next hlength =>
      obtain ⟨_, _, hcheck, hrest⟩ := h.bind
      obtain ⟨rfl, hall⟩ := hcheck.checkArguments
      split at hrest
      · next hloose =>
        obtain ⟨rfl, rfl⟩ := hrest.pure
        refine ⟨rfl, fun _ => ⟨params, ret, hty, by simpa using hlength, hall, fun hstrict => ?_⟩⟩
        simp [hstrict] at hloose
      · obtain ⟨rfl, rfl⟩ := hrest.pure
        exact ⟨rfl, fun _ => ⟨params, _, hty, by simpa using hlength, hall, fun _ => rfl⟩⟩
  · exact absurd h not_report_bind

theorem finishValueCall {callee : Expr} {name : String}
    (h : Quiet Γ (finishValueCall callee name args range) s e t) :
    ∃ ty, Quiet Γ (Binding.valueCallTy callee name args range) s ty t ∧
      e = ⟨.callValue callee args, ty, range⟩ := by
  obtain ⟨ty, hty, rfl⟩ := h.bind_pure
  exact ⟨ty, hty, rfl⟩

/-! ## Branches and returns -/

theorem branchTy {elseBranch : Expr} (h : Quiet Γ (branchTy thenBranch elseBranch range) s ty t) :
    t = s ∧ (thenBranch.ty ≠ .error → elseBranch.ty ≠ .error →
      (thenBranch.diverges = true → ty = elseBranch.ty) ∧
      (thenBranch.diverges = false → ty = thenBranch.ty ∧
        (elseBranch.diverges = false → thenBranch.ty.accepts elseBranch.ty = true))) := by
  unfold Binding.branchTy at h
  split at h
  · next hthen =>
    obtain ⟨rfl, rfl⟩ := h.pure
    exact ⟨rfl, fun _ _ => ⟨fun _ => rfl, fun hne => by simp [hne] at hthen⟩⟩
  · next hthen =>
    split at h
    · next helse =>
      obtain ⟨rfl, rfl⟩ := h.pure
      refine ⟨rfl, fun _ hne => ⟨fun hd => by simp [hd] at hthen, fun _ => ⟨rfl, fun hd => ?_⟩⟩⟩
      simp [hd, Ty.isError_eq_false_iff.mpr hne] at helse
    · split at h
      · next herror =>
        obtain ⟨rfl, rfl⟩ := h.pure
        exact ⟨rfl, fun hne _ => absurd (Ty.isError_eq_true_iff.mp herror) hne⟩
      · split at h
        · next haccepts =>
          obtain ⟨rfl, rfl⟩ := h.pure
          exact ⟨rfl, fun _ _ => ⟨fun hd => by simp [hd] at hthen, fun _ => ⟨rfl, fun _ => haccepts⟩⟩⟩
        · exact absurd h not_report_bind

/-- The two forms of a conditional. -/
theorem ifExpr {elseBranch : Option Expr}
    (h : Quiet Γ (ifExpr cond thenBranch elseBranch range) s e t) :
    t = s ∧ ∃ ty, e = ⟨.ifElse cond thenBranch elseBranch, ty, range⟩ ∧
      (elseBranch = none → ty = .unit) ∧
      ∀ e', elseBranch = some e' → Quiet Γ (Binding.branchTy thenBranch e' range) s ty s := by
  unfold Binding.ifExpr at h
  split at h
  · obtain ⟨rfl, rfl⟩ := h.pure
    exact ⟨rfl, .unit, rfl, fun _ => rfl, by simp⟩
  · next e' =>
    obtain ⟨ty, hty, rfl⟩ := h.bind_pure
    obtain rfl := hty.branchTy.1
    exact ⟨rfl, ty, rfl, by simp, fun _ he => by cases he; exact hty⟩

/-- A quiet arm has the type agreed on, or gives it. -/
theorem noteArm {a a' : ArmTypes} {body : Expr} (h : Quiet Γ (noteArm a body) s a' t) :
    t = s ∧ (body.ty ≠ .error →
      body.diverges = true ∧ a' = a ∨
      body.diverges = false ∧ a.result = none ∧ a' = { a with result := some body.ty } ∨
      body.diverges = false ∧ a' = a ∧ ∃ first, a.result = some first ∧ first.accepts body.ty =
        true) := by
  unfold Binding.noteArm at h
  split at h
  · next herror =>
    obtain ⟨rfl, rfl⟩ := h.pure
    exact ⟨rfl, fun hne => absurd (Ty.isError_eq_true_iff.mp herror) hne⟩
  · split at h
    · next hdiverges =>
      obtain ⟨rfl, rfl⟩ := h.pure
      exact ⟨rfl, fun _ => .inl ⟨hdiverges, rfl⟩⟩
    · next hdiverges =>
      have hdiverges : body.diverges = false := by simpa using hdiverges
      split at h
      · next hresult =>
        obtain ⟨rfl, rfl⟩ := h.pure
        exact ⟨rfl, fun _ => .inr (.inl ⟨hdiverges, hresult, rfl⟩)⟩
      · next first hresult =>
        split at h
        · next haccepts =>
          obtain ⟨rfl, rfl⟩ := h.pure
          exact ⟨rfl, fun _ => .inr (.inr ⟨hdiverges, rfl, first, hresult, haccepts⟩)⟩
        · exact absurd h not_report_bind

theorem reportIssues {issues : List MatchIssue} (h : Quiet Γ (reportIssues issues) s u t) :
    t = s ∧ issues = [] := by
  cases issues with
  | nil => exact ⟨h.pure.2, rfl⟩
  | cons issue issues => exact absurd h not_report_bind

/-- A match that is bound quietly has no issue. -/
theorem matchExpr {scrutinee : Expr} {arms : List Arm} {agreed : ArmTypes}
    (h : Quiet Γ (matchExpr scrutinee arms agreed range) s e t) :
    t = s ∧ e = ⟨.matchOn scrutinee arms, agreed.ty, range⟩ ∧
      checkMatch s.registry scrutinee.ty (arms.map Arm.pattern) range = [] := by
  obtain ⟨_, hissues, rfl⟩ := (h.read rfl).bind_pure
  obtain ⟨rfl, hnone⟩ := hissues.reportIssues
  exact ⟨rfl, rfl, hnone⟩

theorem checkReturns {fn : String} {returns : List (Ty × Range)}
    (h : Quiet Γ (checkReturns fn declared returns) s u t) :
    t = s ∧ ∀ r ∈ returns, declared.accepts r.1 = true := by
  induction returns generalizing s with
  | nil => exact ⟨h.pure.2, by simp⟩
  | cons r returns ih =>
    obtain ⟨_, _, hfirst, htail⟩ := h.bind
    obtain ⟨hok, rfl⟩ := hfirst.reportUnless
    obtain ⟨rfl, hrest⟩ := ih htail
    exact ⟨rfl, List.forall_mem_cons.mpr ⟨hok, hrest⟩⟩

/-- A written return type fits every candidate. -/
theorem settleReturn_of_declared {ret : Ty} (h : Quiet Γ (settleReturn frame trailing) s ret t)
    (hdeclared : frame.declared = some declared) :
    t = s ∧ ret = declared ∧ (∀ r ∈ frame.returns, declared.accepts r.1 = true) ∧
      (declared ≠ .unit → ∀ r, trailing = some r → declared.accepts r.1 = true) := by
  unfold Binding.settleReturn at h
  rw [hdeclared] at h
  obtain ⟨_, hcheck, rfl⟩ := h.bind_pure
  obtain ⟨rfl, hall⟩ := hcheck.checkReturns
  refine ⟨rfl, rfl, fun r hr => hall r ?_, fun hne r hr => hall r ?_⟩
  · split
    · exact hr
    · exact List.mem_append_left _ hr
  · rw [if_neg hne, hr]
    simp

/-- Without a written return type all sound candidates have the same type. -/
theorem settleReturn_of_inferred {ret : Ty} (h : Quiet Γ (settleReturn frame trailing) s ret t)
    (hdeclared : frame.declared = none)
    (hsound : ∀ r ∈ frame.returns ++ trailing.toList, r.1 ≠ .error) :
    t = s ∧ (∀ r ∈ frame.returns ++ trailing.toList, r.1 = ret) ∧
      (frame.returns ++ trailing.toList = [] → ret = .unit) := by
  have hfilter : ((frame.returns ++ trailing.toList).map Prod.fst).filter (fun ty => !ty.isError) =
      (frame.returns ++ trailing.toList).map Prod.fst := by
    rw [List.filter_eq_self]
    intro ty hty
    obtain ⟨r, hr, rfl⟩ := List.mem_map.mp hty
    simp [Ty.isError_eq_false_iff.mpr (hsound r hr)]
  unfold Binding.settleReturn at h
  rw [hdeclared] at h
  dsimp only at h
  rw [hfilter] at h
  generalize frame.returns ++ trailing.toList = candidates at h ⊢
  cases candidates with
  | nil =>
    obtain ⟨rfl, rfl⟩ := h.pure
    exact ⟨rfl, by simp, fun _ => rfl⟩
  | cons first rest =>
    replace h : Quiet Γ (if (rest.map Prod.fst).all (· == first.1) then Pure.pure first.1
      else do
        report frame.range (.inconsistentReturns frame.name)
        return .error) s ret t := h
    split at h
    · next hall =>
      obtain ⟨rfl, rfl⟩ := h.pure
      refine ⟨rfl, ?_, by simp⟩
      intro r hr
      rcases List.mem_cons.mp hr with rfl | hr
      · rfl
      · simpa using List.all_eq_true.mp hall r.1 (List.mem_map_of_mem hr)
    · exact absurd h not_report_bind

/-- A `return` is noted in the innermost function. -/
theorem finishReturn {candidate : Range} (h : Quiet Γ (finishReturn ty candidate range) s u t) :
    s.fns ≠ [] ∧ t = s.inFns (s.fns.modifyHead (·.noting [(ty, candidate)])) := by
  obtain ⟨inside, v, hnote, hcheck⟩ := h.bind
  obtain ⟨rfl, rfl⟩ := hcheck.reportUnless
  refine ⟨?_, hnote.after_eq.symm.trans (after_noteReturn ty candidate s)⟩
  intro hnil
  have hout : out (noteReturn ty candidate) s = false := by
    rw [noteReturn, out_modifyGet, hnil]
  rw [hnote.out_eq] at hout
  cases hout

/-! ## Names -/

/-- A name that was new in the current scope. -/
theorem declareLocal {kind : SymKind} {id : SymId} (h : Quiet Γ (declareLocal name kind ty) s id t) :
    id = s.syms.size ∧ t = { s.addingLocal name.text kind ty with
      scopes := s.scopes.adding .var s.current name.text s.syms.size } := by
  refine ⟨h.out_eq.symm.trans (out_declareLocal s name kind ty), ?_⟩
  have hafter := h.after_eq.symm.trans (after_declareLocal name kind ty s)
  cases hdeclare : s.scopes.declare .var s.current name.text s.syms.size with
  | ok scopes =>
    obtain ⟨-, -, -, rfl⟩ := Scopes.exists_of_declare_eq_ok hdeclare
    rw [hdeclare] at hafter
    exact hafter
  | error e =>
    rw [hdeclare] at hafter
    have hsilent := congrArg Array.size h.silent
    rw [hafter] at hsilent
    simp [State.reporting, State.addingLocal, State.adding] at hsilent

/-- Parameters get the next numbers, and each has the type at its place. -/
theorem declareLocals {ids : List SymId} (h : Quiet Γ (declareLocals .parameter params) s ids t) :
    (∀ id : Nat, id ∈ ids ↔ s.syms.size ≤ id ∧ id < t.syms.size) ∧
      t.captures = s.captures ∧ t.fns = s.fns := by
  induction params generalizing s ids with
  | nil =>
    obtain ⟨rfl, rfl⟩ := h.pure
    refine ⟨fun id => ?_, rfl, rfl⟩
    simp
  | cons p params ih =>
    obtain ⟨name, ty⟩ := p
    obtain ⟨symbol, u, hfirst, hrest⟩ := h.bind
    obtain ⟨ids', htail, rfl⟩ := hrest.bind_pure
    obtain ⟨rfl, rfl⟩ := hfirst.declareLocal
    obtain ⟨hids, hcaptures, hfns⟩ := ih htail
    have hsize : (s.addingLocal name.text .parameter ty).syms.size = s.syms.size + 1 :=
      Symbols.size_add ..
    have hle := Symbols.size_le (htail.grows (keeps_declareLocals rfl params)).syms
    refine ⟨fun id => ?_, hcaptures, hfns⟩
    have hid := hids id
    simp only [hsize] at hid hle
    rw [List.mem_cons, hid]
    omega

/-- A reference that no lambda refuses: to no variable, or to a declared one that is then
captured. -/
theorem resolveVar {result : Option SymId} (hs : s.Valid) (h : Quiet Γ (resolveVar name) s result t) :
    s.scopes.lookup .var s.current name.text = result ∧
      ((result = none ∧ t = s) ∨
        ∃ id sym c, result = some id ∧ c ∈ s.scopes.chain s.current ∧ s.syms.get? id = some sym ∧
          sym.kind.isLocal = true ∧ sym.scope = some c ∧
          (s.captures.observe s.scopes id c sym.isMutable).1 ≠ .mutableCapture ∧
          t = s.capturing (s.captures.observe s.scopes id c sym.isMutable).2) := by
  replace h := h.read rfl
  rw [out_lookup] at h
  cases hlookup : s.scopes.lookup .var s.current name.text with
  | none =>
    rw [hlookup] at h
    obtain ⟨rfl, rfl⟩ := h.pure
    exact ⟨rfl, .inl ⟨rfl, rfl⟩⟩
  | some id =>
    obtain ⟨c, sc, hc, hsc, hid⟩ := Scopes.exists_of_lookup hlookup
    obtain ⟨sym, hsym, hlocal, hscope⟩ := hs.var_known c sc name.text id hsc hid
    rw [hlookup] at h
    replace h := h.read rfl
    rw [out_get, hsym] at h
    dsimp only at h
    rw [hscope] at h
    obtain ⟨reference, u, hobserve, hrest⟩ := h.bind
    obtain ⟨_, hcheck, rfl⟩ := hrest.bind_pure
    obtain ⟨hok, rfl⟩ := hcheck.reportUnless
    refine ⟨rfl, .inr ⟨id, sym, c, rfl, hc, hsym, hlocal, hscope, ?_, hobserve.after_eq.symm⟩⟩
    have hreference : (s.captures.observe s.scopes id c sym.isMutable).1 = reference := hobserve.out_eq
    rw [hreference]
    simpa using hok

/-- A name that is no variable is a function or a variant without payload. -/
theorem nonVarExpr (h : Quiet Γ (nonVarExpr expected name) s e t) :
    t = s ∧
      ((∃ id, s.scopes.lookup .fn s.current name.text = some id ∧
          e = ⟨.fnRef id, ((s.syms.get? id).map Symbol.ty).getD .error, name.range⟩) ∨
        ∃ sum d, s.registry.variant? name.text = some (sum, d) ∧ d.payload = none ∧
          e = ⟨.variant d.symbol none, bareVariantTy expected sum, name.range⟩) := by
  replace h := h.read rfl
  split at h
  · next id hlookup =>
    obtain ⟨rfl, rfl⟩ := (h.read rfl).pure
    exact ⟨rfl, .inl ⟨id, hlookup, rfl⟩⟩
  · replace h := h.read rfl
    split at h
    · exact absurd h not_report_bind
    · next sum d hvariant =>
      split at h
      · exact absurd h not_report_bind
      · next hpayload =>
        obtain ⟨rfl, rfl⟩ := h.pure
        exact ⟨rfl, .inr ⟨sum, d, hvariant, hpayload, rfl⟩⟩

/-- A name is a variable, or else no variable. -/
theorem nameExpr (hs : s.Valid) (h : Quiet Γ (nameExpr expected name) s e t) :
    (∃ id, Quiet Γ (Binding.resolveVar name) s (some id) t ∧
        e = ⟨.var id, ((t.syms.get? id).map Symbol.ty).getD .error, name.range⟩) ∨
      s.scopes.lookup .var s.current name.text = none ∧ Quiet Γ (Binding.nonVarExpr expected name) s
        e t := by
  obtain ⟨result, u, hresolve, hrest⟩ := h.seq fun result => by split <;> infer_instance
  cases result with
  | some id =>
    obtain ⟨rfl, rfl⟩ := (hrest.read rfl).pure
    exact .inl ⟨id, hresolve, rfl⟩
  | none =>
    obtain ⟨hlookup, ⟨-, rfl⟩ | ⟨_, _, _, hsome, -⟩⟩ := hresolve.resolveVar hs
    · exact .inr ⟨hlookup, hrest⟩
    · cases hsome

/-! ## Patterns -/

theorem literalPattern {value : Literal} {p : Pattern}
    (h : Quiet Γ (literalPattern target value range) s p t) :
    t = s ∧ p = ⟨.literal value, value.ty, range⟩ ∧ literalMatches value.ty target = true := by
  obtain ⟨_, hcheck, rfl⟩ := h.bind_pure
  obtain ⟨hok, rfl⟩ := hcheck.reportUnless
  exact ⟨rfl, rfl, hok⟩

theorem namePattern {p : Pattern} (h : Quiet Γ (namePattern target name) s p t) :
    (∃ symbol, bareVariant? s.registry target name.text = some symbol ∧ t = s ∧
        p = ⟨.variant name.text (some symbol) none true, target, name.range⟩) ∨
      bareVariant? s.registry target name.text = none ∧
        ∃ symbol, Quiet Γ (Binding.declareLocal name (.var false) target) s symbol t ∧
          p = ⟨.binding symbol name.text, target, name.range⟩ := by
  replace h := h.read rfl
  split at h
  · next symbol hbare =>
    obtain ⟨rfl, rfl⟩ := h.pure
    exact .inl ⟨symbol, hbare, rfl, rfl⟩
  · next hbare =>
    obtain ⟨symbol, hdeclare, rfl⟩ := h.bind_pure
    exact .inr ⟨hbare, symbol, hdeclare, rfl⟩

/-- The elements of a tuple pattern are matched with the elements of a tuple, or with poison. -/
theorem tupleTargets {count : Nat} {tys : List Ty}
    (h : Quiet Γ (tupleTargets target count range) s tys t) :
    t = s ∧ tys.length = count ∧
      (target = .tuple tys ∨
        (target = .error ∨ ∃ name, target = .generic name) ∧ tys = List.replicate count .error) := by
  unfold Binding.tupleTargets at h
  split at h
  · next tys' =>
    split at h
    · next hlength =>
      obtain ⟨rfl, rfl⟩ := h.pure
      exact ⟨rfl, hlength, .inl rfl⟩
    · exact absurd h not_report_bind
  · obtain ⟨rfl, rfl⟩ := h.pure
    exact ⟨rfl, List.length_replicate, .inr ⟨.inl rfl, rfl⟩⟩
  · next name =>
    obtain ⟨rfl, rfl⟩ := h.pure
    exact ⟨rfl, List.length_replicate, .inr ⟨.inr ⟨name, rfl⟩, rfl⟩⟩
  · exact absurd h not_report_bind

/-- A variant pattern names a variant of the matched sum, or is matched with poison. -/
theorem resolveVariant {result : Option (SymId × Option Ty)}
    (h : Quiet Γ (resolveVariant target name range) s result t) :
    t = s ∧ (target = .error ∧ result = none ∨
      ∃ sum args d v, target = .sum sum args ∧ s.registry.sum? sum = some d ∧
        d.variants.get? name.text = some v ∧
        result = some (v.symbol, v.payload.map fun p => p.subst (.ofArguments d.tyParams args))) := by
  replace h := h.read rfl
  split at h
  · obtain ⟨rfl, rfl⟩ := h.pure
    exact ⟨rfl, .inl ⟨rfl, rfl⟩⟩
  · next sum args =>
    obtain ⟨_, hcheck, rfl⟩ := h.bind_pure
    obtain ⟨hok, rfl⟩ := hcheck.reportUnless
    refine ⟨rfl, .inr ?_⟩
    obtain ⟨r, hr⟩ := Option.isSome_iff_exists.mp hok
    obtain ⟨d, hd, hr'⟩ := Option.bind_eq_some_iff.mp hr
    obtain ⟨v, hv, hr''⟩ := Option.bind_eq_some_iff.mp hr'
    refine ⟨sum, args, d, v, rfl, hd, hv, ?_⟩
    rw [out_get] at hd
    simp [hd, hv, SumDef.payloadTy?]
  · exact absurd h not_report_bind

theorem payloadTarget {name : String} (h : Quiet Γ (payloadTarget resolved name range) s ty t) :
    t = s ∧ (resolved = none ∧ ty = .error ∨ ∃ symbol, resolved = some (symbol, some ty)) := by
  unfold Binding.payloadTarget at h
  split at h
  · obtain ⟨rfl, rfl⟩ := h.pure
    exact ⟨rfl, .inl ⟨rfl, rfl⟩⟩
  · next symbol ty' =>
    obtain ⟨rfl, rfl⟩ := h.pure
    exact ⟨rfl, .inr ⟨symbol, rfl⟩⟩
  · exact absurd h not_report_bind

theorem checkNoPayload {name : String} (h : Quiet Γ (checkNoPayload resolved name range) s u t) :
    t = s ∧ ∀ symbol payload, resolved = some (symbol, payload) → payload = none := by
  unfold Binding.checkNoPayload at h
  split at h
  · exact absurd h not_report
  · next hnone =>
    obtain ⟨-, rfl⟩ := h.pure
    refine ⟨rfl, fun symbol payload hresolved => ?_⟩
    cases payload with
    | none => rfl
    | some ty => exact absurd hresolved (hnone symbol ty)

/-! ## Statements -/

/-- A `let` declares its name with the written type, or with that of its value. -/
theorem finishLet {isMutable : Bool} {annot : Option Ty} {init : Expr} {kind : StmtKind}
    (h : Quiet Γ (finishLet name isMutable annot init) s kind t) :
    ∃ symbol, Quiet Γ (Binding.declareLocal name (.var isMutable) (annot.getD init.ty)) s symbol t ∧
      kind = .bindName symbol init ∧ ∀ ty, annot = some ty → ty.accepts init.ty = true := by
  unfold Binding.finishLet at h
  split at h
  · next ty =>
    obtain ⟨_, _, hcheck, hrest⟩ := h.bind
    obtain ⟨hok, rfl⟩ := hcheck.reportUnless
    obtain ⟨symbol, hdeclare, rfl⟩ := hrest.bind_pure
    exact ⟨symbol, hdeclare, rfl, fun _ hty => by cases hty; exact hok⟩
  · obtain ⟨symbol, hdeclare, rfl⟩ := h.bind_pure
    exact ⟨symbol, hdeclare, rfl, by simp⟩

theorem assignTarget {result : Option SymId × Option (Ty × Bool)}
    (h : Quiet Γ (assignTarget name) s result t) :
    Quiet Γ (Binding.resolveVar name) s result.1 t ∧
      result.2 = (result.1.bind t.syms.get?).map fun sym => (sym.ty, sym.isMutable) := by
  obtain ⟨target, u, hresolve, hrest⟩ := h.bind
  obtain ⟨rfl, rfl⟩ := (hrest.read rfl).pure
  exact ⟨hresolve, rfl⟩

/-- An assignment has a mutable target of the type of the value. -/
theorem finishAssign {target : Option (Ty × Bool)} {value : Expr}
    (h : Quiet Γ (finishAssign name target value) s u t) :
    t = s ∧ ∃ ty, target = some (ty, true) ∧ ty.accepts value.ty = true := by
  unfold Binding.finishAssign at h
  split at h
  · exact absurd h not_report
  · next ty isMutable =>
    obtain ⟨_, _, hmutable, haccepts⟩ := h.bind
    obtain ⟨rfl, rfl⟩ := hmutable.reportUnless
    obtain ⟨hok, rfl⟩ := haccepts.reportUnless
    exact ⟨rfl, ty, rfl, hok⟩

theorem rejectDeclaration {name : Ast.Name} {kind : String} {result : Option Stmt} :
    ¬ Quiet Γ (rejectDeclaration name kind) s result t := not_report_bind

/-! ## Lambdas -/

/-- The parts of a lambda: its parameters, its body, and its return type settled from the `return`
statements of the body. -/
theorem lambdaExpr {declared : Option Ty} {body : Binding Expr} (hbody : Keeps [] body)
    (h : Quiet Γ (lambdaExpr params declared body range) s e t) :
    ∃ syms u b v returns ret,
      Quiet Γ (Binding.declareLocals .parameter params) s.enteringLambda syms u ∧
      Quiet Γ body (u.enteringBody ⟨"<lambda>", declared, [], range⟩) b v ∧
      v.fns = ⟨"<lambda>", declared, returns, range⟩ :: u.fns ∧
      t = s.leavingLambda u v ∧
      Quiet Γ (settleReturn ⟨"<lambda>", declared, returns, range⟩ (bodyCandidate b)) t ret t ∧
      e = ⟨.lambda syms ret v.captures.exit.1 b, .fn (params.map Prod.snd) ret, range⟩ := by
  obtain ⟨⟨⟨syms, b, frame⟩, captures⟩, w, hscope, hrest⟩ := h.seq (by
    rintro ⟨⟨_, _, frame⟩, _⟩
    cases frame <;> infer_instance)
  obtain ⟨w₁, hlambda, rfl⟩ := hscope.inScope
  obtain ⟨w₂, hinner, hcaptures, rfl⟩ := hlambda.withLambda
  obtain ⟨syms', u, hparams, hinner⟩ := hinner.bind
  obtain ⟨⟨b', frame'⟩, hfn, heq⟩ := hinner.bind_pure
  obtain ⟨w₄, hloops, hframe, rfl⟩ := hfn.withFn
  obtain ⟨v, hv, rfl⟩ := hloops.withLoopDepth
  obtain ⟨returns, hreturns⟩ := (hv.grows hbody).fns
  replace hreturns : v.fns = ⟨"<lambda>", declared, returns, range⟩ :: u.fns := by
    rw [hreturns]
    rfl
  cases heq
  obtain rfl : captures = v.captures.exit.1 := hcaptures
  obtain rfl : frame' = some ⟨"<lambda>", declared, returns, range⟩ :=
    hframe.trans (congrArg List.head? hreturns)
  obtain ⟨ret, hret, rfl⟩ := hrest.bind_pure
  obtain rfl := hret.checks.2
  exact ⟨syms, u, _, v, returns, ret, hparams, hv, hreturns, rfl, hret, rfl⟩

end Binding.Quiet

end Bindery
