import Bindery.Proofs.Binding.Checks
import Bindery.Proofs.Scope.Growth

/-!
# What a step of binding leaves alone

`State.Valid` is what holds between the parts of a state: the current scope exists, scopes are
nested, the two tables of names lead to symbols of the right kind, and the lambdas being bound lie
on the chain of the current scope.

`Grows own s t` compares the states before and after a step: binding stands where it stood, symbols
and findings were only added, and no table of names of an existing scope has changed, except that
names of `own` may have been added to the variables of the current scope, for new symbols. It is a
preorder for each `own`, so a sequence of steps keeps what each of them keeps; `Keeps own` is the
class of such steps.
-/

namespace Bindery

/-- The scopes of the lambdas being bound, innermost first. -/
def Captures.boundaries (c : Captures) : List ScopeId := c.frames.map LambdaFrame.boundary

/-- The frame with more `return` statements met. -/
def FnFrame.noting (f : FnFrame) (returns : List (Ty × Range)) : FnFrame :=
  { f with returns := f.returns ++ returns }

theorem FnFrame.noting_nil (f : FnFrame) : f.noting [] = f := by
  simp [FnFrame.noting]

namespace Binding

/-- What holds between the parts of a state. -/
structure State.Valid (s : State) : Prop where
  current_lt : s.current < s.scopes.size
  nested : s.scopes.Nested
  var_known : ∀ c sc name id, s.scopes.get? c = some sc →
    sc.varNames.get? name = some id →
    ∃ sym, s.syms.get? id = some sym ∧ sym.kind.isLocal = true ∧ sym.scope = some c
  fn_known : ∀ c sc name id, s.scopes.get? c = some sc →
    sc.fnNames.get? name = some id →
    ∃ sym f, s.syms.get? id = some sym ∧ sym.kind = .fn f
  boundaries : ∀ b ∈ s.captures.boundaries, b ∈ s.scopes.chain s.current

/-- What lies between the states before and after a step that may declare the names of `own`. -/
structure Grows (own : List String) (s t : State) : Prop where
  current : t.current = s.current
  loopDepth : t.loopDepth = s.loopDepth
  scopeDepth : t.scopeDepth = s.scopeDepth
  generics : t.generics = s.generics
  registry : t.registry = s.registry
  fns : ∃ returns, t.fns = s.fns.modifyHead (·.noting returns)
  boundaries : t.captures.boundaries = s.captures.boundaries
  syms : s.syms ≤ t.syms
  added : ∀ id sym, t.syms.get? id = some sym → s.syms.get? id = some sym ∨ sym.kind.isLocal = true
  findings : s.findings.toList <+: t.findings.toList
  valid : s.Valid → t.Valid
  scopes : s.scopes.Grows own s.syms.size s.current t.scopes
  strayed : s.Valid → t.strayed = s.strayed

/-- The step, wherever it starts, declares nothing but names of `own` in the current scope. -/
class Keeps {α : Type} (own : List String) (m : Binding α) : Prop where
  grows (own m) : ∀ s, Grows own s (after m s)

theorem modifyHead_noting_nil (fs : List FnFrame) : fs.modifyHead (·.noting []) = fs := by
  cases fs with
  | nil => rfl
  | cons f fs => rw [List.modifyHead_cons, FnFrame.noting_nil]

namespace Grows

variable {own own' : List String} {s t u : State}

theorem refl (own : List String) (s : State) : Grows own s s where
  current := rfl
  loopDepth := rfl
  scopeDepth := rfl
  generics := rfl
  registry := rfl
  fns := ⟨[], (modifyHead_noting_nil _).symm⟩
  boundaries := rfl
  syms := Symbols.le_refl _
  added _ _ h := .inl h
  findings := List.prefix_rfl
  valid := id
  scopes := .refl _ _ _ _
  strayed _ := rfl

theorem trans (hst : Grows own s t) (htu : Grows own t u) : Grows own s u where
  current := htu.current.trans hst.current
  loopDepth := htu.loopDepth.trans hst.loopDepth
  scopeDepth := htu.scopeDepth.trans hst.scopeDepth
  generics := htu.generics.trans hst.generics
  registry := htu.registry.trans hst.registry
  fns := by
    obtain ⟨r, hr⟩ := hst.fns
    obtain ⟨r', hr'⟩ := htu.fns
    refine ⟨r ++ r', ?_⟩
    rw [hr', hr]
    cases s.fns with
    | nil => rfl
    | cons f fs => simp [FnFrame.noting]
  boundaries := htu.boundaries.trans hst.boundaries
  syms := Symbols.le_trans hst.syms htu.syms
  added id sym h := (htu.added id sym h).elim (hst.added id sym) .inr
  findings := hst.findings.trans htu.findings
  valid h := htu.valid (hst.valid h)
  scopes := hst.scopes.trans <| hst.current ▸ htu.scopes.mono (fun _ h => h) (Symbols.size_le hst.syms)
  strayed h := (htu.strayed (hst.valid h)).trans (hst.strayed h)

theorem mono (h : Grows own s t) (hsub : ∀ n ∈ own, n ∈ own') : Grows own' s t :=
  { h with scopes := h.scopes.mono hsub (Nat.le_refl _) }

end Grows

namespace Keeps

variable {α β : Type} {own own' : List String}

variable {m : Binding α}

theorem of_nil (h : Keeps [] m) : Keeps own m where
  grows s := (h.grows s).mono (by simp)

theorem mono (h : Keeps own m) (hsub : ∀ n ∈ own, n ∈ own') : Keeps own' m where
  grows s := (h.grows s).mono hsub

instance (priority := low) ofNil (m : Binding α) [h : Keeps [] m] : Keeps own m := h.of_nil

theorem seq {f : α → Binding β} (hm : Keeps own m) (hf : ∀ a, Keeps own (f a)) :
    Keeps own (m >>= f) where
  grows s := (hm.grows s).trans ((hf _).grows _)

instance bind (m : Binding α) (f : α → Binding β) [hm : Keeps own m] [hf : ∀ a, Keeps own (f a)] :
    Keeps own (m >>= f) := seq hm hf

/-- A step that only checks keeps everything. -/
instance ofChecks (m : Binding α) [hm : Checks m] : Keeps own m where
  grows s := by
    obtain ⟨fs, -, hs⟩ := hm.after_eq s
    rw [hs]
    refine { Grows.refl own s with findings := ?_, valid := ?_ }
    · exact ⟨fs, by simp [State.reporting]⟩
    · intro h
      exact ⟨h.current_lt, h.nested, h.var_known, h.fn_known, h.boundaries⟩

end Keeps

/-! ## Declaring a name -/

namespace State.Valid

variable {s t : State}

/-- Validity does not depend on findings, counters and functions. -/
theorem congr (h : s.Valid) (hsyms : t.syms = s.syms) (hscopes : t.scopes = s.scopes)
    (hcurrent : t.current = s.current)
    (hboundaries : t.captures.boundaries = s.captures.boundaries) : t.Valid where
  current_lt := by rw [hcurrent, hscopes]; exact h.current_lt
  nested := by rw [hscopes]; exact h.nested
  var_known := by rw [hsyms, hscopes]; exact h.var_known
  fn_known := by rw [hsyms, hscopes]; exact h.fn_known
  boundaries := by rw [hboundaries, hscopes, hcurrent]; exact h.boundaries

theorem adding (h : s.Valid) (name : String) (kind : SymKind) (ty : Ty) (scope : Option ScopeId)
    (depth : Nat) : (s.adding name kind ty scope depth).Valid where
  current_lt := h.current_lt
  nested := h.nested
  var_known c sc n id hsc hid := by
    obtain ⟨sym, hsym, hlocal⟩ := h.var_known c sc n id hsc hid
    exact ⟨sym, Symbols.le_add _ _ _ _ _ _ _ _ hsym, hlocal⟩
  fn_known c sc n id hsc hid := by
    obtain ⟨sym, f, hsym, hf⟩ := h.fn_known c sc n id hsc hid
    exact ⟨sym, f, Symbols.le_add _ _ _ _ _ _ _ _ hsym, hf⟩
  boundaries := h.boundaries

end State.Valid

variable {s : State} {κ : Type} {t : State} (name : Ast.Name) (ty : Ty) (range : Range)

theorem State.Valid.declaring (h : s.Valid) (name : String) {id : SymId} {sym : Symbol}
    (hsym : s.syms.get? id = some sym) (hlocal : sym.kind.isLocal = true)
    (hscope : sym.scope = some s.current) :
    ({ s with scopes := s.scopes.adding .var s.current name id } : State).Valid := by
  have hagrees := s.scopes.agrees_adding .var s.current name id
  have hnested := h.nested.adding .var s.current name id
  refine ⟨(hagrees _ h.current_lt).1, hnested, ?_, ?_, ?_⟩
  · intro c sc n v hsc hv
    obtain ⟨sc', hsc', -, htable⟩ := Scopes.exists_of_get?_adding hsc
    rcases htable .var n v hv with ⟨rfl, -, rfl⟩ | hv
    · exact ⟨sym, hsym, hlocal, hscope⟩
    · exact h.var_known c sc' n v hsc' hv
  · intro c sc n v hsc hv
    obtain ⟨sc', hsc', -, htable⟩ := Scopes.exists_of_get?_adding hsc
    rcases htable .fn n v hv with ⟨-, ⟨hspace, -⟩, -⟩ | hv
    · cases hspace
    · exact h.fn_known c sc' n v hsc' hv
  · intro b hb
    rw [Scopes.chain_eq_of_agrees h.nested hnested hagrees h.current_lt]
    exact h.boundaries b hb

/-- The state with the symbol of a new local declaration. -/
def State.addingLocal {κ : Type} (s : State κ) (name : String) (kind : SymKind) (ty : Ty) : State κ :=
  s.adding name kind ty (some s.current) (s.scopes.depth s.current)

/-- A declaration in the current scope is tried, and reported if the name is taken. -/
theorem after_declareLocal [DecidableEq κ] [Keyed κ] (kind : SymKind) (ty : Ty) (s : State κ) :
    after (declareLocal name kind ty) s =
      (match s.scopes.declare .var s.current name.text s.syms.size with
        | .ok scopes => { s.addingLocal name.text kind ty with scopes }
        | .error e => State.reporting { s.addingLocal name.text kind ty with
            strayed := s.strayed || e == .noSuchScope }
              [⟨name.range, .alreadyDeclared name.text⟩]) := by
  have hlocal : after (declareLocal name kind ty) s =
      after (reportUnless
        (out (declareName .var s.current name.text s.syms.size) (s.addingLocal name.text kind ty))
          name.range (.alreadyDeclared name.text))
        (after (declareName .var s.current name.text s.syms.size)
        (s.addingLocal name.text kind ty)) := rfl
  rw [hlocal, after_reportUnless, declareName, out_modifyGet, after_modifyGet,
    show (s.addingLocal name.text kind ty).scopes = s.scopes from rfl]
  rcases s.scopes.declare .var s.current name.text s.syms.size with (_ | _) | scopes
  · simp [State.reporting, State.addingLocal, State.adding]
  · simp [State.reporting, State.addingLocal, State.adding]
  · exact State.reporting_nil _

theorem keeps_declareLocal {kind : SymKind} (hkind : kind.isLocal = true) :
    Keeps [name.text] (declareLocal name kind ty) where
  grows s := by
    have hle : s.syms ≤ (s.addingLocal name.text kind ty).syms := Symbols.le_add _ _ _ _ _ _
    have hnew : (s.addingLocal name.text kind ty).syms.get? s.syms.size =
        some ⟨s.syms.size, name.text, kind, ty, some s.current, s.scopes.depth s.current⟩ := by
      rw [State.addingLocal, State.adding, Symbols.get?_add, if_pos rfl]
    have hadded : ∀ id sym, (s.addingLocal name.text kind ty).syms.get? id = some sym →
        s.syms.get? id = some sym ∨ sym.kind.isLocal = true := by
      intro id sym hsym
      rcases Symbols.get?_add_cases hsym with ⟨-, rfl⟩ | hsym
      · exact .inr hkind
      · exact .inl hsym
    rw [after_declareLocal]
    cases hdeclare : s.scopes.declare .var s.current name.text s.syms.size with
    | ok scopes =>
      refine { Grows.refl [name.text] s with
        syms := hle, added := hadded, valid := ?_, scopes := ?_ }
      · intro hs
        obtain ⟨sc, -, -, rfl⟩ := Scopes.exists_of_declare_eq_ok hdeclare
        exact (hs.adding name.text kind ty _ _).declaring name.text hnew hkind rfl
      · obtain ⟨sc, hsc, hname, rfl⟩ := Scopes.exists_of_declare_eq_ok hdeclare
        exact .adding hsc hname (by simp) (Nat.le_refl _)
    | error e =>
      refine { Grows.refl [name.text] s with
        syms := hle, added := hadded, findings := ?_, valid := ?_, strayed := ?_ }
      · exact ⟨[⟨name.range,
          .alreadyDeclared name.text⟩], by simp [State.reporting, State.addingLocal, State.adding]⟩
      · intro hs
        exact (hs.adding name.text kind ty _ _).congr rfl rfl rfl rfl
      · intro hs
        obtain ⟨sc, existing, -, -, rfl⟩ := Scopes.exists_of_declare_eq_error hs.current_lt hdeclare
        exact Bool.or_false _

instance keeps_declareVar (isMutable : Bool) (ty : Ty) :
    Keeps [name.text] (declareLocal name (.var isMutable) ty) := keeps_declareLocal name ty rfl

theorem keeps_declareLocals {kind : SymKind} (hkind : kind.isLocal = true)
    (names : List (Ast.Name × Ty)) :
    Keeps (names.map (·.1.text)) (declareLocals kind names) := by
  induction names with
  | nil => exact inferInstanceAs (Keeps [] (pure _))
  | cons entry names ih =>
    obtain ⟨name, ty⟩ := entry
    refine .seq ((keeps_declareLocal name ty hkind).mono (by simp)) fun id => ?_
    exact .seq (ih.mono (by simp_all)) fun ids => inferInstance

/-! ## References and returns -/

variable {α : Type} {own : List String} {act : Binding α}

theorem Captures.boundaries_observe (c : Captures) (a : Scopes) (symbol : SymId)
    (declaring : ScopeId) (isMutable : Bool) :
    (c.observe a symbol declaring isMutable).2.boundaries = c.boundaries := by
  unfold Captures.observe
  split
  · split
    · rfl
    · simp only [Captures.boundaries, List.map_map]
      refine List.map_congr_left fun f _ => ?_
      simp only [Function.comp_apply, LambdaFrame.capture]
      split
      · split <;> rfl
      · rfl
  · rfl

instance keeps_observe (symbol : SymId) (declaring : ScopeId) (isMutable : Bool) :
    Keeps [] (observe symbol declaring isMutable) where
  grows s := by
    have hb := Captures.boundaries_observe s.captures s.scopes symbol declaring isMutable
    exact { Grows.refl [] s with boundaries := hb, valid := fun hs => hs.congr rfl rfl rfl hb }

instance keeps_report (p : Problem) : Keeps [] (report range p) where
  grows s := by
    rw [after_report]
    exact { Grows.refl [] s with
      findings := ⟨[⟨range, p⟩], by simp [State.reporting]⟩
      valid := fun hs => hs.congr rfl rfl rfl rfl }

instance keeps_reportUnless (ok : Bool) (range : Range) (p : Problem) :
    Keeps [] (reportUnless ok range p) := by
  cases ok
  · exact keeps_report range p
  · exact inferInstanceAs (Keeps [] (pure ()))

instance keeps_resolveVar : Keeps [] (resolveVar name) := by
  refine .seq inferInstance fun id => ?_
  split
  · refine .seq inferInstance fun s => ?_
    split
    · split
      · exact .seq inferInstance fun _ => .seq (keeps_reportUnless _ _ _) fun _ => inferInstance
      · infer_instance
    · infer_instance
  · infer_instance

/-- A variable that is found has a symbol with a scope, so it is resolved. -/
theorem out_resolveVar (hs : s.Valid) (name : Ast.Name) :
    out (resolveVar name) s = s.scopes.lookup .var s.current name.text := by
  rw [resolveVar, out_bind, out_lookup, after_lookup]
  cases h : s.scopes.lookup .var s.current name.text with
  | none => rfl
  | some id =>
    obtain ⟨c, sc, -, hsc, hid⟩ := Scopes.exists_of_lookup h
    obtain ⟨sym, hsym, -, hscope⟩ := hs.var_known c sc name.text id hsc hid
    rw [out_bind, out_get, after_get, hsym]
    dsimp only
    rw [hscope]
    rfl

instance keeps_nameExpr (expected : Option Ty) (name : Ast.Name) :
    Keeps [] (nameExpr expected name) := by
  refine .seq inferInstance fun id => ?_
  split <;> infer_instance

theorem out_noteReturn (s : State κ) : out (noteReturn ty range) s = !s.fns.isEmpty := by
  rcases s with ⟨_, _, _, _, _, fns, _, _, _, _, _⟩
  cases fns <;> rfl

theorem after_noteReturn (s : State κ) :
    after (noteReturn ty range) s = s.inFns (s.fns.modifyHead (·.noting [(ty, range)])) := by
  rcases s with ⟨_, _, _, _, _, fns, _, _, _, _, _⟩
  cases fns <;> rfl

instance keeps_noteReturn : Keeps [] (noteReturn ty range) where
  grows s := by
    rw [after_noteReturn]
    exact { Grows.refl [] s with
      fns := ⟨_, rfl⟩
      valid := fun hs => hs.congr rfl rfl rfl rfl }

instance keeps_finishReturn (candidateRange range : Range) :
    Keeps [] (finishReturn ty candidateRange range) :=
  .seq inferInstance fun _ => keeps_reportUnless _ _ _

/-! ## Going in and out -/

/-- The chain of a scope that was just opened. -/
theorem State.Valid.chain_opened (hs : s.Valid) (kind : ScopeKind) :
    (s.opened kind).scopes.chain (s.opened kind).current = s.scopes.size :: s.scopes.chain
      s.current := by
  have hnested := hs.nested.push hs.current_lt kind
  have hagrees := (Scopes.Grows.push [] 0 0 s.current kind s.scopes).agrees
  show (s.scopes.push s.current kind).2.chain s.scopes.size = _
  rw [Scopes.chain_eq hnested (by simp), Scopes.parent?_eq (s.scopes.get?_push_size s.current kind)]
  show _ :: (s.scopes.push s.current kind).2.chain s.current = _
  rw [Scopes.chain_eq_of_agrees hs.nested hnested hagrees hs.current_lt]

theorem State.Valid.opened (hs : s.Valid) (kind : ScopeKind) : (s.opened kind).Valid where
  current_lt := by
    show s.scopes.size < (s.scopes.push s.current kind).2.size
    rw [Scopes.size_push]
    exact Nat.lt_succ_self _
  nested := hs.nested.push hs.current_lt kind
  var_known c sc n id hsc hid := by
    rcases Scopes.get?_push_eq_some hsc with hsc | ⟨-, depth, rfl⟩
    · exact hs.var_known c sc n id hsc hid
    · cases hid
  fn_known c sc n id hsc hid := by
    rcases Scopes.get?_push_eq_some hsc with hsc | ⟨-, depth, rfl⟩
    · exact hs.fn_known c sc n id hsc hid
    · cases hid
  boundaries b hb := by
    rw [hs.chain_opened kind]
    exact List.mem_cons_of_mem _ (hs.boundaries b hb)

theorem Grows.inScope {kind : ScopeKind} (h : Grows own (s.opened kind) t) :
    Grows [] s (t.at s.current) := by
  have hscopes : s.scopes.Grows [] s.syms.size s.current t.scopes := by
    intro id sc hsc
    have hne : id ≠ s.scopes.size := Nat.ne_of_lt (Scopes.get?_eq_some_lt hsc)
    refine ⟨sc, h.scopes.get?_of_ne ?_ hne, .refl _ _ sc⟩
    exact (Scopes.get?_push_of_lt s.current kind (Scopes.get?_eq_some_lt hsc)).trans hsc
  refine { h with
    current := rfl
    valid := ?_
    scopes := hscopes
    strayed := fun hs => h.strayed (hs.opened kind) }
  intro hs
  have hv := h.valid (hs.opened kind)
  have hagrees := hscopes.agrees
  refine ⟨(hagrees _ hs.current_lt).1, hv.nested, hv.var_known, hv.fn_known, ?_⟩
  intro b hb
  show b ∈ t.scopes.chain s.current
  rw [Scopes.chain_eq_of_agrees hs.nested hv.nested hagrees hs.current_lt]
  exact hs.boundaries b (h.boundaries ▸ hb)

theorem keeps_inScope (kind : ScopeKind) (h : Keeps own act) : Keeps [] (inScope kind act) where
  grows s := (h.grows (s.opened kind)).inScope

theorem Grows.withGenerics {names : List String} (h : Grows own (s.naming names) t) :
    Grows own s (t.naming s.generics) :=
  { h with
    generics := rfl
    valid := fun hs => (h.valid (hs.congr rfl rfl rfl rfl)).congr rfl rfl rfl rfl
    strayed := fun hs => h.strayed (hs.congr rfl rfl rfl rfl) }

theorem keeps_withGenerics (names : List String) (h : Keeps own act) :
    Keeps own (withGenerics names act) where
  grows s := (h.grows (s.naming names)).withGenerics

theorem Grows.withLoopDepth {depth : Nat} (h : Grows own (s.inLoops depth) t) :
    Grows own s (t.inLoops s.loopDepth) :=
  { h with
    loopDepth := rfl
    valid := fun hs => (h.valid (hs.congr rfl rfl rfl rfl)).congr rfl rfl rfl rfl
    strayed := fun hs => h.strayed (hs.congr rfl rfl rfl rfl) }

theorem keeps_withLoopDepth (depth : Nat → Nat) (h : Keeps own act) :
    Keeps own (withLoopDepth depth act) where
  grows s := (h.grows (s.inLoops (depth s.loopDepth))).withLoopDepth

theorem Grows.withScopeDepth {depth : Nat} (h : Grows own (s.inScopeBlocks depth) t) :
    Grows own s (t.inScopeBlocks s.scopeDepth) :=
  { h with
    scopeDepth := rfl
    valid := fun hs => (h.valid (hs.congr rfl rfl rfl rfl)).congr rfl rfl rfl rfl
    strayed := fun hs => h.strayed (hs.congr rfl rfl rfl rfl) }

theorem keeps_withScopeDepth (depth : Nat → Nat) (h : Keeps own act) :
    Keeps own (withScopeDepth depth act) where
  grows s := (h.grows (s.inScopeBlocks (depth s.scopeDepth))).withScopeDepth

/-- A step that keeps the number of loops is run inside one more loop, however the number is put
back. -/
theorem inLoop_eq (h : Keeps own act) : inLoop act = withLoopDepth (· + 1) act := by
  funext s
  have hdepth := (h.grows (s.inLoops (s.loopDepth + 1))).loopDepth
  exact Prod.ext rfl (congrArg (fun n => (after act (s.inLoops (s.loopDepth + 1))).inLoops (n - 1))
    hdepth)

/-- The same for the number of `scope` blocks. -/
theorem inScopeBlock_eq (h : Keeps own act) : inScopeBlock act = withScopeDepth (· + 1) act := by
  funext s
  have hdepth := (h.grows (s.inScopeBlocks (s.scopeDepth + 1))).scopeDepth
  exact Prod.ext rfl
    (congrArg (fun n => (after act (s.inScopeBlocks (s.scopeDepth + 1))).inScopeBlocks (n - 1)) hdepth)

theorem keeps_inLoop (h : Keeps own act) : Keeps own (inLoop act) :=
  inLoop_eq h ▸ keeps_withLoopDepth _ h

theorem keeps_inScopeBlock (h : Keeps own act) : Keeps own (inScopeBlock act) :=
  inScopeBlock_eq h ▸ keeps_withScopeDepth _ h

theorem Grows.withFn {frame : FnFrame} (h : Grows own (s.inFns (frame :: s.fns)) t) :
    Grows own s (t.inFns t.fns.tail) := by
  obtain ⟨returns, hreturns⟩ := h.fns
  rw [hreturns]
  exact { h with
    fns := ⟨[], (modifyHead_noting_nil _).symm⟩
    valid := fun hs => (h.valid (hs.congr rfl rfl rfl rfl)).congr rfl rfl rfl rfl
    strayed := fun hs => h.strayed (hs.congr rfl rfl rfl rfl) }

theorem keeps_withFn (frame : FnFrame) (h : Keeps own act) : Keeps own (withFn frame act) where
  grows s := by
    rw [after_withFn]
    exact (h.grows (s.inFns (frame :: s.fns))).withFn

/-- The frame that a function leaves behind is the one it was entered with, with its returns. -/
theorem exists_out_withFn (frame : FnFrame) (h : Keeps own act) (s : State) :
    ∃ returns, out (withFn frame act) s =
      (out act (s.inFns (frame :: s.fns)), some (frame.noting returns)) := by
  obtain ⟨returns, hreturns⟩ := (h.grows (s.inFns (frame :: s.fns))).fns
  refine ⟨returns, ?_⟩
  rw [out_withFn, hreturns]
  rfl

theorem Captures.boundaries_exit (c : Captures) : c.exit.2.boundaries = c.boundaries.tail := by
  obtain ⟨_ | ⟨f, frames⟩⟩ := c <;> rfl

/-- The current scope may be that of a lambda. -/
theorem State.Valid.entering (hs : s.Valid) : (s.capturing (s.captures.enter s.current)).Valid := by
  refine ⟨hs.current_lt, hs.nested, hs.var_known, hs.fn_known, ?_⟩
  intro b hb
  rcases List.mem_cons.mp hb with rfl | hb
  · exact Scopes.self_mem_chain _ _
  · exact hs.boundaries b hb

theorem Grows.withLambda (h : Grows own (s.capturing (s.captures.enter s.current)) t) :
    Grows own s (t.capturing t.captures.exit.2) := by
  have hboundaries := congrArg List.tail h.boundaries
  rw [← Captures.boundaries_exit] at hboundaries
  refine { h with
    boundaries := hboundaries
    valid := ?_
    strayed := fun hs => h.strayed hs.entering }
  intro hs
  have hv := h.valid hs.entering
  refine ⟨hv.current_lt, hv.nested, hv.var_known, hv.fn_known, ?_⟩
  intro b hb
  refine hv.boundaries b (List.mem_of_mem_tail ?_)
  rw [← Captures.boundaries_exit]
  exact hb

theorem keeps_withLambda (h : Keeps own act) : Keeps own (withLambda act) where
  grows s := (h.grows (s.capturing (s.captures.enter s.current))).withLambda

end Binding

end Bindery
