import Bindery.Binding.Program

/-!
# Running a step of binding

`Binding.out` is the answer of a step and `Binding.after` the state it leaves behind. The equations
below say what the combinators of binding do to both, so that later proofs follow a step from state
to state and never open the monad. A `Pass` may also end in a fault: `Binding.Ran` says that it does
not, and how it ends.
-/

namespace Bindery.Binding

variable {α β κ : Type}

/-- The answer of a step that starts in `s`. -/
def out (m : BindingOver κ α) (s : State κ) : α := (m.run s).1

/-- The state that a step leaves behind when it starts in `s`. -/
def after (m : BindingOver κ α) (s : State κ) : State κ := (m.run s).2

@[simp]
theorem out_pure (a : α) (s : State κ) : out (pure a) s = a := rfl

@[simp]
theorem after_pure (a : α) (s : State κ) : after (pure a : BindingOver κ α) s = s := rfl

@[simp]
theorem out_bind (m : BindingOver κ α) (f : α → BindingOver κ β) (s : State κ) :
    out (m >>= f) s = out (f (out m s)) (after m s) := rfl

@[simp]
theorem after_bind (m : BindingOver κ α) (f : α → BindingOver κ β) (s : State κ) :
    after (m >>= f) s = after (f (out m s)) (after m s) := rfl

@[simp]
theorem out_get (s : State κ) : out get s = s := rfl

@[simp]
theorem after_get (s : State κ) : after get s = s := rfl

@[simp]
theorem out_modifyGet (f : State κ → α × State κ) (s : State κ) : out (modifyGet f) s = (f s).1 := rfl

@[simp]
theorem after_modifyGet (f : State κ → α × State κ) (s : State κ) :
    after (modifyGet f : BindingOver κ α) s = (f s).2 := rfl

/-! ## Changes of the state -/

/-- The state with more findings. -/
def State.reporting (s : State κ) (fs : List Finding) :
    State κ := { s with findings := s.findings ++ fs.toArray }

/-- The state with another current scope. -/
def State.at (s : State κ) (scope : ScopeId) : State κ := { s with current := scope }

/-- The state right after a scope was opened. -/
def State.opened (s : State κ) (kind : ScopeKind) : State κ :=
  { s with scopes := (s.scopes.push s.current kind).2, current := s.scopes.size }

/-- The state with another number of loops around. -/
def State.inLoops (s : State κ) (depth : Nat) : State κ := { s with loopDepth := depth }

/-- The state with another number of `scope` blocks around. -/
def State.inScopeBlocks (s : State κ) (depth : Nat) : State κ := { s with scopeDepth := depth }

/-- The state with other type parameters to mention. -/
def State.naming (s : State κ) (names : List String) : State κ := { s with generics := names }

/-- The state with other functions around. -/
def State.inFns (s : State κ) (fns : List FnFrame) : State κ := { s with fns }

/-- The state with other captures. -/
def State.capturing (s : State κ) (captures : Captures) : State κ := { s with captures }

/-- The state with one more symbol. -/
def State.adding (s : State κ) (name : String) (kind : SymKind) (ty : Ty) (scope : Option ScopeId)
    (depth : Nat) : State κ :=
  { s with syms := (s.syms.add name kind ty scope depth).2 }

theorem State.reporting_nil (s : State κ) : s.reporting [] = s := by
  simp [State.reporting]

theorem State.reporting_reporting (s : State κ) (fs gs : List Finding) :
    (s.reporting fs).reporting gs = s.reporting (fs ++ gs) := by
  simp [State.reporting]

theorem after_report (range : Range) (p : Problem) (s : State κ) :
    after (report range p) s = s.reporting [⟨range, p⟩] := by
  show { s with findings := s.findings.push ⟨range, p⟩ } = _
  simp [State.reporting]

theorem after_reportUnless (ok : Bool) (range : Range) (p : Problem) (s : State κ) :
    after (reportUnless ok range p) s = s.reporting (if ok then [] else [⟨range, p⟩]) := by
  cases ok with
  | true => exact (s.reporting_nil).symm
  | false => exact after_report range p s

/-! ## Places in the program -/

variable (act : BindingOver κ α) (s : State κ)

variable (frame : FnFrame) (names : List String) (space : NameSpace) (kind : ScopeKind)

theorem out_inScope : out (inScope kind act) s = out act (s.opened kind) := rfl

theorem after_inScope : after (inScope kind act) s = (after act (s.opened kind)).at s.current := rfl

theorem out_withGenerics : out (withGenerics names act) s = out act (s.naming names) := rfl

theorem after_withGenerics :
    after (withGenerics names act) s = (after act (s.naming names)).naming s.generics := rfl

theorem out_leaveFn : out leaveFn s = s.fns.head? := by
  rcases s with ⟨_, _, _, _, _, fns, _, _, _, _, _⟩
  cases fns <;> rfl

theorem after_leaveFn : after leaveFn s = s.inFns s.fns.tail := by
  rcases s with ⟨_, _, _, _, _, fns, _, _, _, _, _⟩
  cases fns <;> rfl

theorem out_withFn :
    out (withFn frame act) s =
      (out act (s.inFns (frame :: s.fns)),
        (after act (s.inFns (frame :: s.fns))).fns.head?) := by
  show (_, out leaveFn _) = _
  rw [out_leaveFn]
  rfl

theorem after_withFn :
    after (withFn frame act) s =
      (after act (s.inFns (frame :: s.fns))).inFns
        (after act (s.inFns (frame :: s.fns))).fns.tail := by
  show after leaveFn _ = _
  rw [after_leaveFn]
  rfl

theorem out_withLambda :
    out (withLambda act) s =
      (out act (s.capturing (s.captures.enter s.current)),
        (after act (s.capturing (s.captures.enter s.current))).captures.exit.1) := rfl

theorem after_withLambda :
    after (withLambda act) s =
      (after act (s.capturing (s.captures.enter s.current))).capturing
        (after act (s.capturing (s.captures.enter s.current))).captures.exit.2 := rfl

/-! ## Names -/

theorem out_addSymbol (name : String) (kind : SymKind) (ty : Ty) (scope : Option ScopeId)
    (depth : Nat) : out (addSymbol name kind ty scope depth) s = s.syms.size := rfl

theorem after_addSymbol (name : String) (kind : SymKind) (ty : Ty) (scope : Option ScopeId)
    (depth : Nat) :
    after (addSymbol name kind ty scope depth) s = s.adding name kind ty scope depth := rfl

theorem out_lookup [DecidableEq κ] [Keyed κ] (name : String) :
    out (lookup space name) s = s.scopes.lookup space s.current name := rfl

theorem after_lookup [DecidableEq κ] [Keyed κ] (name : String) : after (lookup space name) s = s := rfl

theorem out_tyOf (symbol : SymId) :
    out (tyOf symbol) s = ((s.syms.get? symbol).map Symbol.ty).getD .error := rfl

theorem after_tyOf (symbol : SymId) : after (tyOf symbol) s = s := rfl

theorem out_declareLocal [DecidableEq κ] [Keyed κ] (name : Ast.Name) (kind : SymKind) (ty : Ty) :
    out (declareLocal name kind ty) s = s.syms.size := rfl

/-! ## Members of declared types -/

variable {r : Registry} {symbol : SymId} {a : α} {m : PassOver κ α} {f : α → PassOver κ β}

theorem variant?_eq_some_iff {name : String} {sum : SumDef} {d : VariantDef} :
    r.variant? name = some (sum, d) ↔
      ∃ owner, r.owners.get? name = some owner ∧ r.sum? owner = some sum ∧ sum.variants.get? name =
        some d := by
  simp only [Registry.variant?, Option.bind_eq_bind, Option.bind_eq_some_iff, Option.pure_def,
    Option.some.injEq,
    Prod.mk.injEq]
  constructor
  · rintro ⟨owner, howner, sum, hsum, d, hd, rfl, rfl⟩
    exact ⟨owner, howner, hsum, hd⟩
  · rintro ⟨owner, howner, hsum, hd⟩
    exact ⟨owner, howner, sum, hsum, d, hd, rfl, rfl⟩

theorem exists_of_bareVariant? {target : Ty} {name : String}
    (h : bareVariant? r target name = some symbol) :
    ∃ sum args d, target = .sum sum args ∧ r.sum? sum = some d ∧ d.variants.get? name =
      some ⟨symbol, none⟩ := by
  unfold bareVariant? at h
  split at h
  · next sum args =>
    obtain ⟨d, hd, h⟩ := Option.bind_eq_some_iff.mp h
    obtain ⟨⟨symbol, payload⟩, hv, h⟩ := Option.bind_eq_some_iff.mp h
    cases payload with
    | none =>
      cases h
      exact ⟨sum, args, d, rfl, hd, hv⟩
    | some => cases h
  · cases h

theorem exists_bareVariantTy (expected : Option Ty) (sum : SumDef) :
    ∃ args, bareVariantTy expected sum = .sum sum.name args := by
  unfold bareVariantTy
  split
  · split
    · next hname => exact ⟨_, by rw [hname]⟩
    · exact ⟨_, rfl⟩
  · exact ⟨_, rfl⟩

theorem fieldOf?_eq_some_iff {record field : String} {args : List Ty} {ty : Ty} :
    fieldOf? r record field args = some (symbol, ty) ↔ ∃ d f, r.record? record = some d ∧
      d.fields.get? field = some f ∧ symbol = f.symbol ∧
        ty = f.ty.subst (.ofArguments d.tyParams args) := by
  simp only [fieldOf?, RecordDef.fieldTy?, Option.bind_eq_bind, Option.bind_eq_some_iff,
    Option.map_eq_some_iff,
    Option.pure_def, Option.some.injEq, Prod.mk.injEq]
  constructor
  · rintro ⟨d, hd, f, hf, _, ⟨f', hf', rfl⟩, rfl, rfl⟩
    obtain rfl := Option.some.inj (hf.symm.trans hf')
    exact ⟨d, f, hd, hf, rfl, rfl⟩
  · rintro ⟨d, f, hd, hf, rfl, rfl⟩
    exact ⟨d, hd, f, hf, _, ⟨f, hf, rfl⟩, rfl, rfl⟩

/-! ## Values at the end of a body -/

theorem exists_of_blockCandidate {b : Bound.Block} {r : Ty × Range} (h : blockCandidate b = some r) :
    ∃ e, b.value? = some e ∧ e.diverges = false ∧ r = (e.ty, e.range) := by
  unfold blockCandidate at h
  split at h
  · next e he =>
    cases hdiverges : e.diverges with
    | true => simp [hdiverges] at h
    | false => exact ⟨e, he, hdiverges, by simpa [hdiverges] using h.symm⟩
  · cases h

theorem bodyCandidate_cases {body : Bound.Expr} {r : Ty × Range} (h : bodyCandidate body = some r) :
    (∃ b, body.kind = .block b ∧ blockCandidate b = some r) ∨ body.diverges = false ∧
      r = (body.ty, body.range) := by
  unfold bodyCandidate at h
  split at h
  · next b hkind => exact .inl ⟨b, hkind, h⟩
  · cases hdiverges : body.diverges with
    | true => simp [hdiverges] at h
    | false => exact .inr ⟨rfl, by simpa [hdiverges] using h.symm⟩

/-! ## Callees -/

section

variable [DecidableEq κ] [Keyed κ] {s} (expected : Option Ty) {name : Ast.Name}
    (tyArgs : List Ast.TyExpr)
  (range : Range)

/-- A variable is called as a value. -/
theorem resolveCallee_of_var {id : SymId} (h : s.scopes.lookup .var s.current name.text = some id) :
    out (resolveCallee expected (.name name) tyArgs range) s = none ∧
      after (resolveCallee expected (.name name) tyArgs range) s = s := by
  rw [resolveCallee, out_bind, after_bind, out_lookup, h]
  exact ⟨rfl, rfl⟩

variable {expected tyArgs range} in
/-- A name that is called is no variable. -/
theorem exists_of_resolveCallee {callee : Ast.Expr} {target : Callee}
    (h : out (resolveCallee expected callee tyArgs range) s = some target) :
    ∃ name, callee = .name name ∧ s.scopes.lookup .var s.current name.text = none := by
  unfold resolveCallee at h
  split at h
  · next name =>
    refine ⟨name, rfl, ?_⟩
    rw [out_bind, out_lookup] at h
    cases hlookup : s.scopes.lookup .var s.current name.text with
    | none => rfl
    | some id => rw [hlookup] at h; cases h
  · cases h

/-- A name that is no variable is called by its name. -/
theorem resolveCallee_of_none (h : s.scopes.lookup .var s.current name.text = none) :
    out (resolveCallee expected (.name name) tyArgs range) s =
      some (out (namedCallee expected name tyArgs range) s) ∧
      after (resolveCallee expected (.name name) tyArgs range) s =
        after (namedCallee expected name tyArgs range) s := by
  rw [resolveCallee, out_bind, after_bind, out_lookup, h]
  exact ⟨rfl, rfl⟩

theorem run_namedCallee_of_fn {id : SymId} {f : Sig}
    (hid : s.scopes.lookup .fn s.current name.text = some id) (hf : s.syms.sig? id = some f) :
    (namedCallee expected name tyArgs range).run s = (fnCallee id f name tyArgs range).run s := by
  rw [namedCallee, StateT.run_bind]
  simp only [StateT.run_get, hid, hf, pure_bind, Option.bind_eq_bind, Option.bind_some]
  rfl

theorem run_namedCallee_of_variant {sum : SumDef} {d : VariantDef}
    (hfn : s.scopes.lookup .fn s.current name.text = none)
    (hvariant : s.registry.variant? name.text = some (sum, d)) :
    (namedCallee expected name tyArgs range).run s =
      (.variant sum name.text d (expectedSumArgs expected sum), s) := by
  rw [namedCallee, StateT.run_bind]
  simp only [StateT.run_get, hfn, hvariant, pure_bind, Option.bind_eq_bind, Option.bind_none]
  rfl

end

/-! ## Lists of expressions -/

section

variable [DecidableEq κ] [Keyed κ]

theorem bindEach_eq (hint : Option Ty) (es : List Ast.Expr) :
    (bindEach hint es : BindingOver κ _) = bindExprs (List.replicate es.length hint) es := by
  induction es with
  | nil => rw [bindEach, bindExprs]
  | cons e es ih =>
    rw [bindEach, ih]
    rfl

/-- The elements of a list are bound as the arguments of a call are, with one expected type for
all. -/
theorem bindExpr_list (expected : Option Ty) (origin : Origin) (elems : List Ast.Expr) :
    (bindExpr expected (.list origin elems) : BindingOver κ _) = (do
      let bs ← bindExprs (List.replicate elems.length (elementHint .list expected)) elems
      listExpr (elementHint .list expected) bs origin.range) := by
  rw [bindExpr, ← bindEach_eq]

end

/-! ## Passes -/

/-- The pass, started in `s`, answers `a` and ends in `t` without a fault. -/
def Ran (m : PassOver κ α) (s : State κ) (a : α) (t : State κ) : Prop := m.run.run s = (.ok a, t)

variable {s} {t : State κ}

theorem ran_pure {b : α} : Ran (pure a : PassOver κ α) s b t ↔ b = a ∧ t = s := by
  constructor
  · intro h
    cases h
    exact ⟨rfl, rfl⟩
  · rintro ⟨rfl, rfl⟩
    rfl

theorem ran_lift {m : BindingOver κ α} : Ran (liftM m : PassOver κ α) s a t ↔ a = out m s ∧
    t = after m s := by
  constructor
  · intro h
    cases h
    exact ⟨rfl, rfl⟩
  · rintro ⟨rfl, rfl⟩
    rfl

/-- A sequence of two passes runs through exactly if both do. -/
theorem ran_bind {b : β} : Ran (m >>= f) s b t ↔ ∃ a u, Ran m s a u ∧ Ran (f a) u b t := by
  have hrun : (m >>= f).run.run s = StateT.run (m.run >>= ExceptT.bindCont f) s := rfl
  unfold Ran
  rw [hrun, StateT.run_bind]
  constructor
  · intro h
    rcases hm : m.run.run s with ⟨a | a, u⟩
    · rw [hm] at h
      cases h
    · rw [hm] at h
      exact ⟨a, u, rfl, h⟩
  · rintro ⟨a, u, hm, hf⟩
    rw [hm]
    exact hf

/-- A step that cannot fail, and then a pass. -/
theorem ran_lift_bind {m : BindingOver κ α} {b : β} :
    Ran (liftM m >>= f) s b t ↔ Ran (f (out m s)) (after m s) b t := by
  rw [ran_bind]
  refine ⟨fun h => ?_, fun h => ⟨_, _, ran_lift.mpr ⟨rfl, rfl⟩, h⟩⟩
  obtain ⟨a, u, hm, hf⟩ := h
  obtain ⟨rfl, rfl⟩ := ran_lift.mp hm
  exact hf

theorem ran_passWithGenerics {names : List String} :
    Ran (passWithGenerics names m) s a t ↔ ∃ u, Ran m (s.naming names) a u ∧
      t = u.naming s.generics := by
  have hrun : (passWithGenerics names m).run.run s =
      ((m.run.run (s.naming names)).1, (m.run.run (s.naming names)).2.naming s.generics) := rfl
  unfold Ran
  rw [hrun]
  constructor
  · intro h
    have hout : (m.run.run (s.naming names)).1 = .ok a := congrArg Prod.fst h
    exact ⟨(m.run.run (s.naming names)).2, Prod.ext hout rfl, (congrArg Prod.snd h).symm⟩
  · rintro ⟨u, hm, rfl⟩
    rw [hm]

theorem not_ran_throw {fault : Fault} : ¬ Ran (throw fault : PassOver κ α) s a t := by
  intro h
  cases h

end Bindery.Binding
