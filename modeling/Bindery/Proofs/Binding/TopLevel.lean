import Bindery.Proofs.Binding.Tree
import Bindery.Proofs.Registry

/-!
# The top level of a file

`State.Top` is what every pass of a bind finds and leaves behind: it stands in the root scope,
inside no function and no lambda, and the registry records every field and variant. `Later` is what
a pass keeps. `Completes m s Q` says that the pass `m`, started in `s`, ends without a fault, and
what `Q` says of its end.
-/

namespace Bindery

/-! ## Replacing a signature -/

variable {sym : Symbol}

namespace Symbols

variable {t u : Symbols} {id : SymId} {f g : Sig}

/-- The symbol is a function of the file with so many parameters. -/
def IsWritten (t : Symbols) (id : SymId) (count : Nat) : Prop :=
  ∃ f, t.sig? id = some f ∧ f.isBuiltin = false ∧ f.params.length = count

theorem sig?_eq_some_iff : t.sig? id = some f ↔ ∃ sym, t.get? id = some sym ∧ sym.kind = .fn f := by
  rw [sig?, Option.bind_eq_some_iff]
  refine exists_congr fun sym => and_congr_right fun _ => ?_
  cases hkind : sym.kind <;> simp [Symbol.sig?, hkind]

theorem sig?_of_le (h : t ≤ u) (hf : t.sig? id = some f) : u.sig? id = some f := by
  obtain ⟨sym, hsym, hkind⟩ := sig?_eq_some_iff.mp hf
  exact sig?_eq_some_iff.mpr ⟨sym, h id sym hsym, hkind⟩

theorem IsWritten.of_le {count : Nat} (h : t ≤ u) (hw : t.IsWritten id count) :
    u.IsWritten id count := by
  obtain ⟨f, hf, hb⟩ := hw
  exact ⟨f, sig?_of_le h hf, hb⟩

theorem get?_setSig (t : Symbols) (id : SymId) (f : Sig) (j : SymId) :
    (t.setSig id f).get? j =
      if id = j then (t.get? j).map fun s => { s with kind := .fn f, ty := f.ty } else t.get? j := by
  simp only [setSig, get?]
  rw [Array.getElem?_modify]

theorem size_setSig (t : Symbols) (id : SymId) (f : Sig) : (t.setSig id f).size = t.size := by
  simp [setSig, size]

variable {j : SymId}

/-- Replacing the signature of a function leaves every other kind of symbol alone. -/
theorem get?_setSig_of_kind (hf : t.sig? id = some f) (g : Sig) (hsym : t.get? j = some sym)
    (hkind : ∀ f', sym.kind ≠ .fn f') : (t.setSig id g).get? j = some sym := by
  rw [get?_setSig, if_neg, hsym]
  rintro rfl
  obtain ⟨sym', hsym', hfun⟩ := sig?_eq_some_iff.mp hf
  rw [hsym] at hsym'
  cases hsym'
  exact hkind f hfun

theorem get?_setSig_cases (h : (t.setSig id g).get? j = some sym) :
    t.get? j = some sym ∨ sym.kind = .fn g := by
  rw [get?_setSig] at h
  split at h
  · obtain ⟨sym', -, rfl⟩ := Option.map_eq_some_iff.mp h
    exact .inr rfl
  · exact .inl h

theorem IsWritten.setSig {count : Nat} (hw : t.IsWritten j count) (hf : t.sig? id = some f)
    (hg : g.isBuiltin = false) (hparams : g.params = f.params) :
    (t.setSig id g).IsWritten j count := by
  obtain ⟨f', hf', hb⟩ := hw
  obtain ⟨sym, hsym, hkind⟩ := sig?_eq_some_iff.mp hf'
  by_cases hid : id = j
  · refine ⟨g, sig?_eq_some_iff.mpr ⟨_, by rw [get?_setSig, if_pos hid, hsym]; rfl, rfl⟩, hg, ?_⟩
    rw [hid, hf'] at hf
    rw [hparams, ← Option.some.inj hf]
    exact hb.2
  · exact ⟨f', sig?_eq_some_iff.mpr ⟨sym, by rw [get?_setSig, if_neg hid, hsym], hkind⟩, hb⟩

end Symbols

/-! ## Declared types -/

namespace Registry

variable {r r' : Registry} {t : Symbols} {kind : Nominal} {name : String} {tyParams : List String}

/-- Declares a record or sum without members, unless the name is taken. -/
def declareType (r : Registry) : Nominal → String → List String → Bool × Registry
  | .record => r.declareRecord
  | .sum => r.declareSum

/-- Whether there is a record or a sum with a name. -/
def has (r : Registry) : Nominal → String → Bool
  | .record, name => (r.record? name).isSome
  | .sum, name => (r.sum? name).isSome

theorem Recorded.declareType (hr : r.Recorded t) (h : r.declareType kind name tyParams = (true, r')) :
    r'.Recorded t := by
  cases kind with
  | record => exact hr.declareRecord h
  | sum => exact hr.declareSum h

theorem extends_declareType (h : r.declareType kind name tyParams = (true, r')) : r.Extends r' := by
  cases kind with
  | record =>
    obtain ⟨-, -, rfl⟩ := eq_of_declareRecord h
    exact r.extends_insertRecord _ _
  | sum =>
    obtain ⟨-, -, rfl⟩ := eq_of_declareSum h
    exact r.extends_insertSum _ _ _

theorem has_of_declareType (h : r.declareType kind name tyParams = (true, r')) :
    r'.has kind name = true := by
  cases kind with
  | record =>
    obtain ⟨-, -, rfl⟩ := eq_of_declareRecord h
    rw [has, record?_insertRecord, if_pos rfl]
    rfl
  | sum =>
    obtain ⟨-, -, rfl⟩ := eq_of_declareSum h
    rw [has, sum?_insertSum, if_pos rfl]
    rfl

theorem Extends.has (h : r.Extends r') (hn : r.has kind name = true) : r'.has kind name = true := by
  cases kind with
  | record => exact h.records name hn
  | sum => exact h.sums name hn

end Registry

/-- A statement that is no declaration of a type, or whose name has an entry in the registry. -/
def Ast.Stmt.IsKnown (r : Registry) : Ast.Stmt → Prop
  | .record _ name _ _ => r.has .record name.text = true
  | .sum _ name _ _ => r.has .sum name.text = true
  | _ => True

theorem Ast.Stmt.IsKnown.of_extends {r r' : Registry} {stmt : Ast.Stmt}
    (h : stmt.IsKnown r) (hr : r.Extends r') : stmt.IsKnown r' := by
  cases stmt with
  | record => exact hr.has h
  | sum => exact hr.has h
  | _ => trivial

namespace Binding

/-! ## The top level of a file -/

/-- What holds between the passes. -/
structure State.Top (s : State) : Prop where
  valid : s.Valid
  current : s.current = Scopes.rootId
  fns : s.fns = []
  boundaries : s.captures.boundaries = []
  recorded : s.registry.Recorded s.syms
  unstrayed : s.strayed = false

/-- The state with another registry. -/
def State.registering {κ : Type} (s : State κ) (r : Registry) : State κ := { s with registry := r }

/-- The state with a name of a function added to the root scope. -/
def State.declaringFn (s : State) (name : String) (id : SymId) : State :=
  { s with scopes := s.scopes.adding .fn Scopes.rootId name id }

/-- The state with another signature for a function. -/
def State.resigning {κ : Type} (s : State κ) (id : SymId) (f : Sig) : State κ :=
  { s with syms := s.syms.setSig id f }

/-- What a pass keeps: findings are only added, symbols stay what they are, except that the
signature of a function may be settled, and every declared type stays declared. -/
structure Later (s t : State) : Prop where
  findings : s.findings.toList <+: t.findings.toList
  syms : ∀ id sym, s.syms.get? id = some sym → (∀ f, sym.kind ≠ .fn f) → t.syms.get? id = some sym
  written : ∀ id count, s.syms.IsWritten id count → t.syms.IsWritten id count
  registry : s.registry.Extends t.registry

namespace Later

variable {s t u : State} {own : List String}

theorem refl (s : State) : Later s s := ⟨List.prefix_rfl, fun _ _ h _ => h, fun _ _ h => h, .refl _⟩

theorem trans (hst : Later s t) (htu : Later t u) : Later s u where
  findings := hst.findings.trans htu.findings
  syms id sym h hkind := htu.syms id sym (hst.syms id sym h hkind) hkind
  written id count h := htu.written id count (hst.written id count h)
  registry := hst.registry.trans htu.registry

theorem of_le (hfindings : s.findings.toList <+: t.findings.toList) (hsyms : s.syms ≤ t.syms)
    (hregistry : s.registry.Extends t.registry) : Later s t :=
  ⟨hfindings, fun id sym h _ => hsyms id sym h, fun _ _ h => h.of_le hsyms, hregistry⟩

theorem grows (h : Grows own s t) : Later s t := .of_le h.findings h.syms (h.registry ▸ .refl _)

theorem adding (s : State) (name : String) (kind : SymKind) (ty : Ty) (scope : Option ScopeId)
    (depth : Nat) : Later s (s.adding name kind ty scope depth) :=
  .of_le List.prefix_rfl (Symbols.le_add _ _ _ _ _ _) (.refl _)

theorem registering {r : Registry} (hr : s.registry.Extends r) : Later s (s.registering r) :=
  .of_le List.prefix_rfl (Symbols.le_refl _) hr

theorem declaringFn (s : State) (name : String) (id : SymId) : Later s (s.declaringFn name id) :=
  .of_le List.prefix_rfl (Symbols.le_refl _) (.refl _)

end Later

namespace State.Top

variable {s t : State} {own : List String}

variable (hs : s.Top)

include hs

theorem grows (h : Grows own s t) : t.Top where
  valid := h.valid hs.valid
  current := h.current.trans hs.current
  fns := by
    obtain ⟨returns, hreturns⟩ := h.fns
    rw [hreturns, hs.fns]
    rfl
  boundaries := h.boundaries.trans hs.boundaries
  recorded := by
    rw [h.registry]
    refine hs.recorded.of_syms (fun id sym hsym _ => h.syms id sym hsym) fun id sym hsym => ?_
    rcases h.added id sym hsym with hsym | hlocal
    · exact .inl hsym
    · exact .inr (.inl hlocal)
  unstrayed := (h.strayed hs.valid).trans hs.unstrayed

theorem registering {r : Registry} (hr : r.Recorded s.syms) : (s.registering r).Top :=
  { hs with valid := hs.valid.congr rfl rfl rfl rfl, recorded := hr }

theorem resigning {id : SymId} {f : Sig}
    (hf : s.syms.sig? id = some f) (g : Sig) : (s.resigning id g).Top := by
  refine { hs with
    valid := ⟨hs.valid.current_lt, hs.valid.nested, ?_, ?_, hs.valid.boundaries⟩
    recorded := ?_ }
  · intro c sc n v hsc hv
    obtain ⟨sym, hsym, hlocal, hscope⟩ := hs.valid.var_known c sc n v hsc hv
    refine ⟨sym, Symbols.get?_setSig_of_kind hf g hsym ?_, hlocal, hscope⟩
    intro f' hkind
    simp [hkind, SymKind.isLocal] at hlocal
  · intro c sc n v hsc hv
    obtain ⟨sym, f', hsym, hkind⟩ := hs.valid.fn_known c sc n v hsc hv
    show ∃ sym f, (s.syms.setSig id g).get? v = some sym ∧ _
    rw [Symbols.get?_setSig, hsym]
    split
    · exact ⟨_, g, rfl, rfl⟩
    · exact ⟨sym, f', rfl, hkind⟩
  · refine hs.recorded.of_syms (fun j sym hsym hkind => ?_) fun j sym hsym => ?_
    · exact Symbols.get?_setSig_of_kind hf g hsym hkind
    · rcases Symbols.get?_setSig_cases hsym with hsym | hkind
      · exact .inl hsym
      · exact .inr (.inr ⟨g, hkind⟩)

/-- A new symbol of a function. -/
theorem adding (name : String) (f : Sig) (ty : Ty) (scope : Option ScopeId)
    (depth : Nat) : (s.adding name (.fn f) ty scope depth).Top := by
  refine { hs with valid := hs.valid.adding _ _ _ _ _, recorded := ?_ }
  refine hs.recorded.of_syms (fun id sym hsym _ => ?_) fun id sym hsym => ?_
  · exact Symbols.le_add _ _ _ _ _ _ id sym hsym
  · rcases Symbols.get?_add_cases hsym with ⟨-, rfl⟩ | hsym
    · exact .inr (.inr ⟨f, rfl⟩)
    · exact .inl hsym

/-- A new symbol of a field or variant, and its entry in the registry. -/
theorem addingMember {name : String} {kind : SymKind} {ty : Ty} {r : Registry}
    (hr : r.Recorded (s.syms.add name kind ty none 0).2) :
    ((s.adding name kind ty none 0).registering r).Top :=
  { hs with
    valid := (hs.valid.adding name kind ty none 0).congr rfl rfl rfl rfl
    recorded := hr }

theorem naming (names : List String) : (s.naming names).Top :=
  { hs with valid := hs.valid.congr rfl rfl rfl rfl }

/-- The name of a function. -/
theorem declaringFn (name : String) {id : SymId} {f : Sig}
    (hsym : s.syms.get? id = some sym) (hkind : sym.kind = .fn f) : (s.declaringFn name id).Top := by
  have hagrees := s.scopes.agrees_adding .fn Scopes.rootId name id
  have hnested := hs.valid.nested.adding .fn Scopes.rootId name id
  refine { hs with valid := ⟨(hagrees _ hs.valid.current_lt).1, hnested, ?_, ?_, ?_⟩ }
  · intro c sc n v hsc hv
    obtain ⟨sc', hsc', -, htable⟩ := Scopes.exists_of_get?_adding hsc
    rcases htable .var n v hv with ⟨-, ⟨hspace, -⟩, -⟩ | hv
    · cases hspace
    · exact hs.valid.var_known c sc' n v hsc' hv
  · intro c sc n v hsc hv
    obtain ⟨sc', hsc', -, htable⟩ := Scopes.exists_of_get?_adding hsc
    rcases htable .fn n v hv with ⟨-, -, rfl⟩ | hv
    · exact ⟨sym, f, hsym, hkind⟩
    · exact hs.valid.fn_known c sc' n v hsc' hv
  · intro b hb
    have hboundaries : b ∈ s.captures.boundaries := hb
    rw [hs.boundaries] at hboundaries
    cases hboundaries

end State.Top

/-! ## Passes that complete -/

variable {α β : Type} {s : State}

/-- The pass, started in `s`, ends without a fault, and `Q` holds of its answer and its last
state. -/
def Completes (m : Pass α) (s : State) (Q : α → State → Prop) : Prop := ∃ a t, Ran m s a t ∧ Q a t

namespace Completes

variable {Q : β → State → Prop}

theorem pure {a : β} (h : Q a s) : Completes (pure a) s Q := ⟨a, s, ran_pure.mpr ⟨rfl, rfl⟩, h⟩

theorem lift {m : Binding β} (h : Q (out m s) (after m s)) : Completes (liftM m) s Q :=
  ⟨_, _, ran_lift.mpr ⟨rfl, rfl⟩, h⟩

theorem bind {m : Pass α} {f : α → Pass β} (h : Completes m s fun a t => Completes (f a) t Q) :
    Completes (m >>= f) s Q := by
  obtain ⟨a, t, hm, b, u, hf, hQ⟩ := h
  exact ⟨b, u, ran_bind.mpr ⟨a, t, hm, hf⟩, hQ⟩

theorem mono {Q' : β → State → Prop} {m : Pass β} (h : Completes m s Q)
    (hQ : ∀ b t, Q b t → Q' b t) : Completes m s Q' := by
  obtain ⟨a, t, hm, h⟩ := h
  exact ⟨a, t, hm, hQ a t h⟩

theorem get {Q : State → State → Prop} (h : Q s s) : Completes (get : Pass State) s Q := lift h

theorem modify {Q : Unit → State → Prop} {f : State → State} (h : Q () (f s)) :
    Completes (modify f : Pass Unit) s Q := lift h

end Completes

end Binding

end Bindery
