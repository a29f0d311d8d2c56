import Bindery.Proofs.Binding.Tree

/-!
# Steps that report nothing

`Quiet Γ m s a t` says that the step `m`, started in `s`, answers `a` and ends in `t` without
reporting anything, and that its symbols stay in the table `Γ`. A sequence of steps is quiet only if
each of them is, since no step takes a finding back (`Forward`). What a quiet step has checked is
read off by the inversion lemmas below, one for each rule of binding.
-/

namespace Bindery.Binding

variable {α β : Type}

/-- The step takes neither a finding nor a symbol nor a scope back. -/
class Forward (m : Binding α) : Prop where
  findings (m) : ∀ s, s.findings.toList <+: (after m s).findings.toList
  syms (m) : ∀ s, s.syms ≤ (after m s).syms
  scopes (m) : ∀ s, s.scopes.size ≤ (after m s).scopes.size

variable {own : List String}

namespace Forward

theorem of_keeps {m : Binding α} (h : Keeps own m) : Forward m :=
  ⟨fun s => (h.grows s).findings, fun s => (h.grows s).syms, fun s => (h.grows s).scopes.size_le⟩

instance ofKeepsNil (m : Binding α) [h : Keeps [] m] : Forward m := of_keeps h

instance bind (m : Binding α) (f : α → Binding β) [hm : Forward m] [hf : ∀ a, Forward (f a)] :
    Forward (m >>= f) where
  findings s := (hm.findings s).trans ((hf _).findings _)
  syms s := Symbols.le_trans (hm.syms s) ((hf _).syms _)
  scopes s := Nat.le_trans (hm.scopes s) ((hf _).scopes _)

instance ite (p : Prop) [Decidable p] (m m' : Binding α) [hm : Forward m] [hm' : Forward m'] :
    Forward (if p then m else m') := by
  split
  · exact hm
  · exact hm'

section

variable (act : Binding α) [hact : Forward act]

instance inScope (kind : ScopeKind) : Forward (inScope kind act) :=
  ⟨fun s => hact.findings (s.opened kind), fun s => hact.syms (s.opened kind),
    fun s => Nat.le_trans (Scopes.Grows.push [] 0 0 s.current kind s.scopes).size_le
      (hact.scopes (s.opened kind))⟩

instance withGenerics (names : List String) : Forward (withGenerics names act) :=
  ⟨fun s => hact.findings (s.naming names), fun s => hact.syms (s.naming names),
    fun s => hact.scopes (s.naming names)⟩

instance withLoopDepth (depth : Nat → Nat) : Forward (withLoopDepth depth act) :=
  ⟨fun s => hact.findings (s.inLoops (depth s.loopDepth)),
    fun s => hact.syms (s.inLoops (depth s.loopDepth)),
    fun s => hact.scopes (s.inLoops (depth s.loopDepth))⟩

instance withScopeDepth (depth : Nat → Nat) : Forward (withScopeDepth depth act) :=
  ⟨fun s => hact.findings (s.inScopeBlocks (depth s.scopeDepth)),
    fun s => hact.syms (s.inScopeBlocks (depth s.scopeDepth)),
    fun s => hact.scopes (s.inScopeBlocks (depth s.scopeDepth))⟩

instance withFn (frame : FnFrame) : Forward (withFn frame act) where
  findings s := by
    rw [after_withFn]
    exact hact.findings (s.inFns (frame :: s.fns))
  syms s := by
    rw [after_withFn]
    exact hact.syms (s.inFns (frame :: s.fns))
  scopes s := by
    rw [after_withFn]
    exact hact.scopes (s.inFns (frame :: s.fns))

instance withLambda : Forward (withLambda act) :=
  ⟨fun s => hact.findings (s.capturing (s.captures.enter s.current)),
    fun s => hact.syms (s.capturing (s.captures.enter s.current)),
    fun s => hact.scopes (s.capturing (s.captures.enter s.current))⟩

end

variable (name : Ast.Name) (params : List (Ast.Name × Ty)) (isMutable : Bool)

instance declareVar (ty : Ty) : Forward (declareLocal name (.var isMutable) ty) :=
  of_keeps (keeps_declareVar name isMutable ty)

instance declareParameter (ty : Ty) : Forward (declareLocal name .parameter ty) :=
  of_keeps (keeps_declareLocal name ty rfl)

instance declareParameters : Forward (declareLocals .parameter params) :=
  of_keeps (keeps_declareLocals rfl params)

instance bindPattern (target : Ty) (p : Ast.Pattern) : Forward (bindPattern target p) :=
  of_keeps (keeps_bindPattern target p)

instance bindPatterns (tys : List Ty) (ps : List Ast.Pattern) : Forward (bindPatterns tys ps) :=
  of_keeps (keeps_bindPatterns tys ps)

instance bindStmts (stmts : List Ast.Stmt) : Forward (bindStmts stmts) :=
  of_keeps (keeps_bindStmts stmts)

instance bindStmt (stmt : Ast.Stmt) : Forward (bindStmt stmt) := of_keeps (keeps_bindStmt stmt)

instance lambdaExpr (declared : Option Ty) (body : Ast.Expr) (range : Range) :
    Forward (lambdaExpr params declared (Binding.bindExpr declared body) range) :=
  of_keeps (keeps_lambdaExpr params declared range (keeps_bindExpr declared body))

instance finishLet (annot : Option Ty) (init : Bound.Expr) :
    Forward (finishLet name isMutable annot init) :=
  of_keeps (keeps_finishLet name isMutable annot init)

end Forward

/-- The step, started in `s`, answers `a` and ends in `t`; it reports nothing, and its symbols stay
in the table `Γ`. -/
structure Quiet (Γ : Symbols) (m : Binding α) (s : State) (a : α) (t : State) : Prop where
  out_eq : out m s = a
  after_eq : after m s = t
  silent : t.findings = s.findings
  syms_le : t.syms ≤ Γ

namespace Quiet

variable {Γ : Symbols} {s t : State}

variable {m : Binding α} {range : Range} {f : α → Binding β} {a : α} {p : Problem} {b : β} {u : Unit}

theorem grows (h : Quiet Γ m s a t) (hm : Keeps own m) : Grows own s t := h.after_eq ▸ hm.grows s

/-- The same for a step that declares nothing where it stands. -/
theorem grows_nil [hm : Keeps [] m] (h : Quiet Γ m s a t) : Grows [] s t := h.grows hm

theorem valid [Keeps [] m] (h : Quiet Γ m s a t) (hs : s.Valid) : t.Valid := h.grows_nil.valid hs

theorem pure {b : α} (h : Quiet Γ (pure a) s b t) : b = a ∧ t = s := ⟨h.out_eq.symm, h.after_eq.symm⟩

/-- A quiet sequence of two steps consists of two quiet steps. -/
theorem bind [hm : Forward m] [hf : ∀ a, Forward (f a)] (h : Quiet Γ (m >>= f) s b t) :
    ∃ a u, Quiet Γ m s a u ∧ Quiet Γ (f a) u b t := by
  have hfirst := hm.findings s
  have hsecond := (hf (out m s)).findings (after m s)
  have hsyms := (hf (out m s)).syms (after m s)
  rw [show after (f (out m s)) (after m s) = t from h.after_eq] at hsecond hsyms
  rw [h.silent] at hsecond
  have hsame : (after m s).findings = s.findings :=
    Array.toList_inj.mp (hsecond.eq_of_length_le hfirst.length_le)
  refine ⟨out m s, after m s, ⟨rfl, rfl, hsame, Symbols.le_trans hsyms h.syms_le⟩, ?_⟩
  exact ⟨h.out_eq, h.after_eq, h.silent.trans hsame.symm, h.syms_le⟩

/-- The same with a given proof for the second step. -/
theorem seq [Forward m] (h : Quiet Γ (m >>= f) s b t) (hf : ∀ a, Forward (f a)) :
    ∃ a u, Quiet Γ m s a u ∧ Quiet Γ (f a) u b t := h.bind

/-- The same when only the result of the first step is put into its place afterwards. -/
theorem bind_pure {g : α → β} [Forward m] (h : Quiet Γ (m >>= fun a => Pure.pure (g a)) s b t) :
    ∃ a, Quiet Γ m s a t ∧ b = g a := by
  obtain ⟨a, _, hm, hpure⟩ := h.bind
  obtain ⟨rfl, rfl⟩ := hpure.pure
  exact ⟨a, hm, rfl⟩

/-- A step that starts by reading the state. -/
theorem read (h : Quiet Γ (m >>= f) s b t) (hm : after m s = s) : Quiet Γ (f (out m s)) s b t :=
  ⟨h.out_eq ▸ by rw [out_bind, hm], h.after_eq ▸ by rw [after_bind, hm], h.silent, h.syms_le⟩

theorem discard (h : Quiet Γ (discard m) s u t) : Quiet Γ m s (out m s) t :=
  ⟨rfl, h.after_eq, h.silent, h.syms_le⟩

/-- A quiet check changes nothing. -/
theorem checks [hm : Checks m] (h : Quiet Γ m s a t) : a = out m s ∧ t = s := by
  refine ⟨h.out_eq.symm, ?_⟩
  obtain ⟨fs, -, hs⟩ := hm.after_eq s
  have ht : t = s.reporting fs := h.after_eq.symm.trans hs
  have hsilent := congrArg Array.toList h.silent
  rw [ht] at hsilent ⊢
  simp only [State.reporting, Array.toList_append] at hsilent
  rw [List.append_right_eq_self.mp hsilent, State.reporting_nil]

theorem reportUnless {ok : Bool} (h : Quiet Γ (reportUnless ok range p) s u t) :
    ok = true ∧ t = s := by
  cases ok with
  | true => exact ⟨rfl, h.after_eq.symm⟩
  | false =>
    have hsilent := congrArg Array.size h.silent
    rw [← h.after_eq, after_reportUnless] at hsilent
    simp [State.reporting] at hsilent

theorem not_report : ¬ Quiet Γ (report range p) s u t := by
  intro h
  have hok : Quiet Γ (Binding.reportUnless false range p) s u t := h
  cases hok.reportUnless.1

theorem not_report_bind {f : Unit → Binding β} [∀ u, Forward (f u)] :
    ¬ Quiet Γ (report range p >>= f) s b t := by
  intro h
  obtain ⟨_, _, hreport, -⟩ := h.bind
  exact not_report hreport

/-! ## Going in and out -/

variable {act : Binding α}

theorem inScope {kind : ScopeKind} (h : Quiet Γ (inScope kind act) s a t) :
    ∃ u, Quiet Γ act (s.opened kind) a u ∧ t = u.at s.current := by
  obtain ⟨rfl, rfl, hsilent, hsyms⟩ := h
  exact ⟨_, ⟨rfl, rfl, hsilent, hsyms⟩, rfl⟩

theorem withGenerics {names : List String} (h : Quiet Γ (withGenerics names act) s a t) :
    ∃ u, Quiet Γ act (s.naming names) a u ∧ t = u.naming s.generics := by
  obtain ⟨rfl, rfl, hsilent, hsyms⟩ := h
  exact ⟨_, ⟨rfl, rfl, hsilent, hsyms⟩, rfl⟩

variable {depth : Nat → Nat}

theorem withLoopDepth (h : Quiet Γ (withLoopDepth depth act) s a t) :
    ∃ u, Quiet Γ act (s.inLoops (depth s.loopDepth)) a u ∧ t = u.inLoops s.loopDepth := by
  obtain ⟨rfl, rfl, hsilent, hsyms⟩ := h
  exact ⟨_, ⟨rfl, rfl, hsilent, hsyms⟩, rfl⟩

theorem withScopeDepth (h : Quiet Γ (withScopeDepth depth act) s a t) :
    ∃ u, Quiet Γ act (s.inScopeBlocks (depth s.scopeDepth)) a u ∧
      t = u.inScopeBlocks s.scopeDepth := by
  obtain ⟨rfl, rfl, hsilent, hsyms⟩ := h
  exact ⟨_, ⟨rfl, rfl, hsilent, hsyms⟩, rfl⟩

theorem withFn {frame : FnFrame} {a : α × Option FnFrame}
    (h : Quiet Γ (withFn frame act) s a t) :
    ∃ u, Quiet Γ act (s.inFns (frame :: s.fns)) a.1 u ∧ a.2 = u.fns.head? ∧
      t = u.inFns u.fns.tail := by
  obtain ⟨rfl, rfl, hsilent, hsyms⟩ := h
  rw [after_withFn] at hsilent hsyms ⊢
  rw [out_withFn]
  exact ⟨_, ⟨rfl, rfl, hsilent, hsyms⟩, rfl, rfl⟩

theorem withLambda {a : α × List SymId} (h : Quiet Γ (withLambda act) s a t) :
    ∃ u, Quiet Γ act (s.capturing (s.captures.enter s.current)) a.1 u ∧ a.2 = u.captures.exit.1 ∧
      t = u.capturing u.captures.exit.2 := by
  obtain ⟨rfl, rfl, hsilent, hsyms⟩ := h
  exact ⟨_, ⟨rfl, rfl, hsilent, hsyms⟩, rfl, rfl⟩

end Quiet

end Bindery.Binding
