import Bindery.Proofs.Binding.TopLevel
import Bindery.Proofs.Bound.References
import Mathlib.Data.List.Forall2

/-!
# Binding links names to symbols

`State.Linked` says of a state that all numbers in it are those of the right symbols: the tables of
names lead to variables, parameters and functions of these names, the registry to the symbols of its
members, and what the lambdas around have captured are variables and parameters that their bodies
name.

`Links Γ around m Q` says that a step keeps this, and that its answer satisfies `Q` if the table
that it leaves behind is within `Γ`: what is resolved now is said of the table that the whole bind
ends with. Binding a tree gives a tree whose numbers are linked to `Γ` (`links_bindExpr`,
`links_bindStmts`), also where something is reported.
-/

namespace Bindery

variable {name : String} {id : SymId}

/-! ## Labels -/

variable {kind : SymKind}

namespace Symbols

variable {t u Γ : Symbols} {id : SymId} {name : String}

/-- What a symbol of the first table stands for, it stands for in the second. -/
def Within (t Γ : Symbols) : Prop := ∀ id label, t.label? id = some label → Γ.label? id = some label

theorem Within.refl (t : Symbols) : t.Within t := fun _ _ h => h

theorem Within.trans (h : t.Within u) (h' : u.Within Γ) : t.Within Γ :=
  fun id label hl => h' id label (h id label hl)

theorem within_of_le (h : t ≤ u) : t.Within u := by
  intro id label hl
  obtain ⟨sym, hsym, rfl⟩ := Option.map_eq_some_iff.mp hl
  rw [label?, h id sym hsym, Option.map_some]

theorem label?_of_get? {sym : Symbol} (h : t.get? id = some sym) :
    t.label? id = some (sym.kind.role, sym.name) := by
  rw [label?, h, Option.map_some]

/-- The label of a symbol that was just added. -/
theorem label?_add (t : Symbols) (name : String) (kind : SymKind) (ty : Ty) (scope : Option ScopeId)
    (depth : Nat) : (t.add name kind ty scope depth).2.label? t.size = some (kind.role, name) := by
  rw [label?, get?_add, if_pos rfl, Option.map_some]

theorem IsLocal.within (h : t.IsLocal id name) (hle : t.Within Γ) : Γ.IsLocal id name :=
  h.imp (hle _ _) (hle _ _)

theorem isLocal_of_kind (hlocal : kind.isLocal = true) (h : t.label? id = some (kind.role, name)) :
    t.IsLocal id name := by
  cases kind with
  | parameter => exact .inr h
  | fn | field | variant => cases hlocal
  | _ => exact .inl h

end Symbols

/-- What the frame has captured are variables and parameters with names of the list. -/
def LambdaFrame.Linked (Γ : Symbols) (f : LambdaFrame) (names : List String) : Prop :=
  ∀ id ∈ f.captured, ∃ n ∈ names, Γ.IsLocal id n

namespace LambdaFrame.Linked

variable {Γ Γ' : Symbols} {f : LambdaFrame} {names : List String}

theorem within (h : f.Linked Γ names) (hle : Γ.Within Γ') : f.Linked Γ' names := by
  intro id hid
  obtain ⟨n, hn, hlocal⟩ := h id hid
  exact ⟨n, hn, hlocal.within hle⟩

theorem capture (h : f.Linked Γ names) (hid : Γ.IsLocal id name)
    (hname : name ∈ names) : (f.capture id).Linked Γ names := by
  unfold LambdaFrame.capture
  split
  · exact h
  · intro j hj
    rcases List.mem_append.mp hj with hj | hj
    · exact h j hj
    · exact ⟨name, hname, List.mem_singleton.mp hj ▸ hid⟩

end LambdaFrame.Linked

/-- A variable that all bodies around name may be captured by any of their lambdas. -/
theorem Captures.linked_observe {c : Captures} {Γ : Symbols} {around : List (List String)}
    (h : List.Forall₂ (LambdaFrame.Linked Γ) c.frames around)
    (hid : Γ.IsLocal id name) (hname : ∀ names ∈ around, name ∈ names) (a : Scopes)
    (declaring : ScopeId)
    (isMutable : Bool) :
    List.Forall₂ (LambdaFrame.Linked Γ) (c.observe a id declaring isMutable).2.frames around := by
  unfold Captures.observe
  split
  · split
    · exact h
    · dsimp only
      generalize c.frames = frames at h ⊢
      induction h with
      | nil => exact .nil
      | cons hf _ ih =>
        rw [List.forall_mem_cons] at hname
        rw [List.map_cons]
        refine .cons ?_ (ih hname.2)
        split
        · exact hf.capture hid hname.1
        · exact hf
  · exact h

namespace Binding

open Bindery.Bound

variable {α β : Type} {s t : State} {Γ : Symbols} {around : List (List String)}

/-! ## States -/

/-- Every symbol knows its number, every function its name, and the tables of names lead to symbols
of these names. -/
structure State.Named (s : State) : Prop where
  numbered : ∀ id sym, s.syms.get? id = some sym → sym.id = id
  signed : ∀ id sym f, s.syms.get? id = some sym → sym.kind = .fn f → f.name = sym.name
  locals : ∀ c sc name id, s.scopes.get? c = some sc → sc.varNames.get? name = some id →
    s.syms.IsLocal id name
  fns : ∀ c sc name id, s.scopes.get? c = some sc → sc.fnNames.get? name = some id →
    s.syms.label? id = some (.fn, name)

namespace State.Named

theorem congr (h : s.Named) (hsyms : t.syms = s.syms) (hscopes : t.scopes = s.scopes) : t.Named :=
  ⟨hsyms ▸ h.numbered, hsyms ▸ h.signed, hsyms ▸ hscopes ▸ h.locals, hsyms ▸ hscopes ▸ h.fns⟩

/-- A new scope has no names. -/
theorem opened (h : s.Named) (kind : ScopeKind) : (s.opened kind).Named where
  numbered := h.numbered
  signed := h.signed
  locals c sc name id hsc hid := by
    rcases Scopes.get?_push_eq_some hsc with hold | ⟨-, depth, rfl⟩
    · exact h.locals c sc name id hold hid
    · cases hid
  fns c sc name id hsc hid := by
    rcases Scopes.get?_push_eq_some hsc with hold | ⟨-, depth, rfl⟩
    · exact h.fns c sc name id hold hid
    · cases hid

/-- A new symbol gets the next number. -/
theorem adding (h : s.Named) (hname : ∀ f, kind = .fn f → f.name = name) (ty : Ty)
    (scope : Option ScopeId) (depth : Nat) : (s.adding name kind ty scope depth).Named := by
  have hwithin : s.syms.Within (s.adding name kind ty scope depth).syms :=
    Symbols.within_of_le (Symbols.le_add _ _ _ _ _ _)
  refine ⟨fun id sym hsym => ?_, fun id sym f hsym hkind => ?_,
    fun c sc n id hsc hid => (h.locals c sc n id hsc hid).within hwithin,
    fun c sc n id hsc hid => hwithin _ _ (h.fns c sc n id hsc hid)⟩
  · rcases Symbols.get?_add_cases hsym with ⟨rfl, rfl⟩ | hold
    · rfl
    · exact h.numbered id sym hold
  · rcases Symbols.get?_add_cases hsym with ⟨-, rfl⟩ | hold
    · exact hname f hkind
    · exact h.signed id sym f hold hkind

/-- A variable or parameter may be declared under its name. -/
theorem declaring (h : s.Named) (hid : s.syms.IsLocal id name) (c : ScopeId) :
    State.Named { s with scopes := s.scopes.adding .var c name id } where
  numbered := h.numbered
  signed := h.signed
  locals c' sc n v hsc hv := by
    obtain ⟨sc', hsc', -, htable⟩ := Scopes.exists_of_get?_adding hsc
    rcases htable .var n v hv with ⟨-, ⟨-, rfl⟩, rfl⟩ | hv
    · exact hid
    · exact h.locals c' sc' n v hsc' hv
  fns c' sc n v hsc hv := by
    obtain ⟨sc', hsc', -, htable⟩ := Scopes.exists_of_get?_adding hsc
    rcases htable .fn n v hv with ⟨-, ⟨hspace, -⟩, -⟩ | hv
    · cases hspace
    · exact h.fns c' sc' n v hsc' hv

/-- A function may be declared under its name. -/
theorem declaringFn (h : s.Named)
    (hid : s.syms.label? id = some (.fn, name)) : (s.declaringFn name id).Named where
  numbered := h.numbered
  signed := h.signed
  locals c' sc n v hsc hv := by
    obtain ⟨sc', hsc', -, htable⟩ := Scopes.exists_of_get?_adding hsc
    rcases htable .var n v hv with ⟨-, ⟨hspace, -⟩, -⟩ | hv
    · cases hspace
    · exact h.locals c' sc' n v hsc' hv
  fns c' sc n v hsc hv := by
    obtain ⟨sc', hsc', -, htable⟩ := Scopes.exists_of_get?_adding hsc
    rcases htable .fn n v hv with ⟨-, ⟨-, rfl⟩, rfl⟩ | hv
    · exact hid
    · exact h.fns c' sc' n v hsc' hv

end State.Named

/-- All numbers in the state are those of the right symbols. `around` has the names that the bodies
of the lambdas around refer by, innermost first. -/
structure State.Linked (around : List (List String)) (s : State) : Prop extends s.Named where
  recorded : s.registry.Recorded s.syms
  captured : List.Forall₂ (LambdaFrame.Linked s.syms) s.captures.frames around

namespace State.Linked

variable (h : s.Linked around)

include h

theorem congr (hsyms : t.syms = s.syms) (hregistry : t.registry = s.registry)
    (hscopes : t.scopes = s.scopes) (hcaptures : t.captures = s.captures) : t.Linked around where
  toNamed := h.toNamed.congr hsyms hscopes
  recorded := hsyms ▸ hregistry ▸ h.recorded
  captured := hsyms ▸ hcaptures ▸ h.captured

theorem opened (kind : ScopeKind) : (s.opened kind).Linked around :=
  ⟨h.toNamed.opened kind, h.recorded, h.captured⟩

theorem addingLocal (hlocal : kind.isLocal = true) (name : String) (ty : Ty) :
    (s.addingLocal name kind ty).Linked around := by
  have hle : s.syms ≤ (s.addingLocal name kind ty).syms := Symbols.le_add _ _ _ _ _ _
  have hname : ∀ f, kind = .fn f → f.name = name := by
    rintro f rfl
    cases hlocal
  refine ⟨h.toNamed.adding hname ty _ _, ?_, h.captured.imp fun f names hf =>
    hf.within (Symbols.within_of_le hle)⟩
  refine h.recorded.of_syms (fun id sym hsym _ => hle id sym hsym) fun id sym hsym => ?_
  rcases Symbols.get?_add_cases hsym with ⟨-, rfl⟩ | hold
  · exact .inr (.inl hlocal)
  · exact .inl hold

theorem declaring (hid : s.syms.IsLocal id name)
    (c : ScopeId) : State.Linked around { s with scopes := s.scopes.adding .var c name id } :=
  ⟨h.toNamed.declaring hid c, h.recorded, h.captured⟩

theorem lookup_var {c : ScopeId}
    (hid : s.scopes.lookup .var c name = some id) : s.syms.IsLocal id name := by
  obtain ⟨c', sc, -, hsc, hget⟩ := Scopes.exists_of_lookup hid
  exact h.locals c' sc name id hsc hget

theorem lookup_fn {c : ScopeId}
    (hid : s.scopes.lookup .fn c name = some id) : s.syms.label? id = some (.fn, name) := by
  obtain ⟨c', sc, -, hsc, hget⟩ := Scopes.exists_of_lookup hid
  exact h.fns c' sc name id hsc hget

theorem field {record field : String} {rd : RecordDef} {d : FieldDef}
    (hrd : s.registry.record? record = some rd) (hd : rd.fields.get? field = some d) :
    s.syms.label? d.symbol = some (.field record, field) :=
  Symbols.label?_of_get? (h.recorded.field_symbol hrd hd)

theorem variantOf {sum variant : String} {sd : SumDef} {d : VariantDef}
    (hsd : s.registry.sum? sum = some sd) (hd : sd.variants.get? variant = some d) :
    s.syms.label? d.symbol = some (.variant sum, variant) :=
  Symbols.label?_of_get? (h.recorded.variant_symbol hsd hd)

theorem variant {variant : String} {sd : SumDef} {d : VariantDef}
    (hv : s.registry.variant? variant = some (sd, d)) :
    s.syms.label? d.symbol = some (.variant sd.name, variant) := by
  obtain ⟨owner, -, hsd, hd⟩ := variant?_eq_some_iff.mp hv
  rw [h.recorded.sum_name hsd]
  exact h.variantOf hsd hd

/-- A reference is shown to the lambdas around: they capture nothing but what their bodies name. -/
theorem observing (hid : s.syms.IsLocal id name)
    (hname : ∀ names ∈ around, name ∈ names) (declaring : ScopeId) (isMutable : Bool) :
    (s.capturing (s.captures.observe s.scopes id declaring isMutable).2).Linked around :=
  { h with captured := Captures.linked_observe h.captured hid hname s.scopes declaring isMutable }

end State.Linked

/-! ## Steps -/

/-- The step keeps the state linked, and its answer satisfies `Q` if the table of symbols that it
leaves behind is within `Γ`. -/
structure Links (Γ : Symbols) (around : List (List String)) (m : Binding α) (Q : α → Prop) : Prop where
  grows : ∀ s, s.syms ≤ (after m s).syms
  run : ∀ s, s.Linked around → (after m s).syms.Within Γ → (after m s).Linked around ∧ Q (out m s)

namespace Links

variable {m : Binding α} {Q Q' : α → Prop} {Q₂ : β → Prop}

theorem pure {a : α} (h : Q a) : Links Γ around (pure a) Q :=
  ⟨fun _ => Symbols.le_refl _, fun _ hs _ => ⟨hs, h⟩⟩

theorem mono (hm : Links Γ around m Q) (hQ : ∀ a, Q a → Q' a) : Links Γ around m Q' :=
  ⟨hm.grows, fun s hs hle => ⟨(hm.run s hs hle).1, hQ _ (hm.run s hs hle).2⟩⟩

/-- What the first step finds holds of the table that the second one leaves behind, since that has
only grown. -/
theorem seq {f : α → Binding β} (hm : Links Γ around m Q)
    (hf : ∀ a, Links Γ around (f a) fun b => Q a → Q₂ b) :
    Links Γ around (m >>= f) Q₂ where
  grows s := Symbols.le_trans (hm.grows s) ((hf _).grows _)
  run s hs hle := by
    have hmiddle := (Symbols.within_of_le ((hf (out m s)).grows (after m s))).trans hle
    obtain ⟨hafter, hout⟩ := hm.run s hs hmiddle
    obtain ⟨hafter', hout'⟩ := (hf (out m s)).run _ hafter hle
    exact ⟨hafter', hout' hout⟩

theorem get : Links Γ around get fun s => s.Linked around ∧ s.syms.Within Γ :=
  ⟨fun _ => Symbols.le_refl _, fun _ hs hle => ⟨hs, hs, hle⟩⟩

/-- A step that only checks keeps all symbols and names. -/
theorem checks (m : Binding α) [Checks m]
    (hQ : ∀ s : State, s.Linked around → s.syms.Within Γ → Q (out m s)) :
    Links Γ around m Q := by
  have hsame : ∀ s, ∃ fs, after m s = s.reporting fs := Checks.exists_reporting m
  refine ⟨fun s => ?_, fun s hs hle => ?_⟩
  · obtain ⟨fs, hfs⟩ := hsame s
    rw [hfs]
    exact Symbols.le_refl _
  · obtain ⟨fs, hfs⟩ := hsame s
    rw [hfs] at hle ⊢
    exact ⟨hs.congr rfl rfl rfl rfl, hQ s hs hle⟩

theorem check (m : Binding α) [Checks m] : Links Γ around m fun _ => True :=
  checks m fun _ _ _ => trivial

theorem report (range : Range) (p : Problem) : Links Γ around (report range p) fun _ => True :=
  ⟨fun _ => Symbols.le_refl _, fun _ hs _ => ⟨hs.congr rfl rfl rfl rfl, trivial⟩⟩

theorem reportUnless (ok : Bool) (range : Range) (p : Problem) :
    Links Γ around (reportUnless ok range p) fun _ => True := by
  cases ok with
  | true => exact .pure trivial
  | false => exact .report range p

/-! ## Places in the program -/

theorem inScope (kind : ScopeKind) (hm : Links Γ around m Q) : Links Γ around (inScope kind m) Q where
  grows s := hm.grows (s.opened kind)
  run s hs hle := by
    obtain ⟨hafter, hout⟩ := hm.run _ (hs.opened kind) hle
    exact ⟨hafter.congr rfl rfl rfl rfl, hout⟩

theorem withGenerics (names : List String) (hm : Links Γ around m Q) :
    Links Γ around (withGenerics names m) Q where
  grows s := hm.grows (s.naming names)
  run s hs hle := by
    obtain ⟨hafter, hout⟩ := hm.run _ (hs.congr rfl rfl rfl rfl : (s.naming names).Linked around) hle
    exact ⟨hafter.congr rfl rfl rfl rfl, hout⟩

theorem withLoopDepth (depth : Nat → Nat) (hm : Links Γ around m Q) :
    Links Γ around (withLoopDepth depth m) Q where
  grows s := hm.grows (s.inLoops (depth s.loopDepth))
  run s hs hle := by
    obtain ⟨hafter, hout⟩ :=
      hm.run _ (hs.congr rfl rfl rfl rfl : (s.inLoops (depth s.loopDepth)).Linked around) hle
    exact ⟨hafter.congr rfl rfl rfl rfl, hout⟩

theorem withScopeDepth (depth : Nat → Nat) (hm : Links Γ around m Q) :
    Links Γ around (withScopeDepth depth m) Q where
  grows s := hm.grows (s.inScopeBlocks (depth s.scopeDepth))
  run s hs hle := by
    obtain ⟨hafter, hout⟩ :=
      hm.run _ (hs.congr rfl rfl rfl rfl : (s.inScopeBlocks (depth s.scopeDepth)).Linked around) hle
    exact ⟨hafter.congr rfl rfl rfl rfl, hout⟩

theorem withFn (frame : FnFrame) (hm : Links Γ around m Q) :
    Links Γ around (withFn frame m) fun a => Q a.1 where
  grows s := by
    rw [after_withFn]
    exact hm.grows (s.inFns (frame :: s.fns))
  run s hs hle := by
    rw [after_withFn] at hle ⊢
    obtain ⟨hafter, hout⟩ :=
      hm.run _ (hs.congr rfl rfl rfl rfl : (s.inFns (frame :: s.fns)).Linked around) hle
    exact ⟨hafter.congr rfl rfl rfl rfl, hout⟩

/-- A lambda captures variables that its body names. -/
theorem withLambda {names : List String} (hm : Links Γ (names :: around) m Q) :
    Links Γ around (withLambda m) fun a => Q a.1 ∧ ∀ id ∈ a.2, ∃ n ∈ names, Γ.IsLocal id n where
  grows s := hm.grows (s.capturing (s.captures.enter s.current))
  run s hs hle := by
    have henter : (s.capturing (s.captures.enter s.current)).Linked (names :: around) :=
      { hs with captured := .cons (List.forall_mem_nil _) hs.captured }
    obtain ⟨hafter, hout⟩ := hm.run _ henter hle
    rw [after_withLambda] at hle ⊢
    rw [out_withLambda]
    generalize after m (s.capturing (s.captures.enter s.current)) = t at hafter hle ⊢
    have hcaptured := hafter.captured
    rw [Captures.exit]
    cases hframes : t.captures.frames with
    | nil =>
      rw [hframes] at hcaptured
      cases hcaptured
    | cons f frames =>
      rw [hframes] at hcaptured
      obtain ⟨hf, hrest⟩ := List.forall₂_cons.mp hcaptured
      exact ⟨{ hafter with captured := hrest }, hout, hf.within hle⟩

/-! ## Names -/

theorem declareLocal (name : Ast.Name) (hlocal : kind.isLocal = true) (ty : Ty) :
    Links Γ around (declareLocal name kind ty) fun id => Γ.label? id =
      some (kind.role, name.text) where
  grows s := ((keeps_declareLocal name ty hlocal).grows s).syms
  run s hs hle := by
    have hlabel : (s.addingLocal name.text kind ty).syms.label? s.syms.size =
        some (kind.role, name.text) := Symbols.label?_add _ _ _ _ _ _
    have hadding := hs.addingLocal hlocal name.text ty
    rw [after_declareLocal] at hle ⊢
    cases hdeclare : s.scopes.declare .var s.current name.text s.syms.size with
    | ok scopes =>
      rw [hdeclare] at hle
      obtain ⟨sc, -, -, rfl⟩ := Scopes.exists_of_declare_eq_ok hdeclare
      exact ⟨hadding.declaring (Symbols.isLocal_of_kind hlocal hlabel) s.current, hle _ _ hlabel⟩
    | error e =>
      rw [hdeclare] at hle
      exact ⟨hadding.congr rfl rfl rfl rfl, hle _ _ hlabel⟩

theorem declareParameters (params : List Ast.Param) (tys : List Ty) :
    Links Γ around (declareLocals .parameter ((params.map Ast.Param.name).zip tys)) fun ids =>
      tys.length = params.length → Γ.AreParameters params ids := by
  induction params generalizing tys with
  | nil => exact .pure fun _ => .nil
  | cons p params ih =>
    cases tys with
    | nil => exact .pure fun hlength => by cases hlength
    | cons ty tys =>
      exact (declareLocal p.name rfl ty).seq fun id => (ih tys).seq fun ids =>
        .pure fun hids hid hlength => .cons hid (hids (Nat.succ.inj hlength))

theorem resolveVar (name : Ast.Name) (hname : ∀ names ∈ around, name.text ∈ names) :
    Links Γ around (resolveVar name) fun o => ∀ id ∈ o, Γ.IsLocal id name.text where
  grows s := (Keeps.grows [] (Binding.resolveVar name) s).syms
  run s hs hle := by
    have hle' : s.syms.Within Γ :=
      (Symbols.within_of_le (Keeps.grows [] (Binding.resolveVar name) s).syms).trans hle
    clear hle
    rw [Binding.resolveVar, after_bind, out_bind, out_lookup, after_lookup]
    cases hlookup : s.scopes.lookup .var s.current name.text with
    | none => exact ⟨hs, fun _ h => by cases h⟩
    | some id =>
      have hid := hs.lookup_var hlookup
      simp only [after_bind, out_bind, out_get, after_get]
      cases s.syms.get? id with
      | none => exact ⟨hs, fun _ h => by cases h⟩
      | some sym =>
        dsimp only
        cases sym.scope with
        | none => exact ⟨hs, fun _ h => by cases h⟩
        | some c =>
          simp only [after_bind, out_bind, after_reportUnless]
          refine ⟨(hs.observing hid hname c sym.isMutable).congr rfl rfl rfl rfl, ?_⟩
          exact fun _ h => Option.some.inj h ▸ hid.within hle'

end Links

end Binding

end Bindery
