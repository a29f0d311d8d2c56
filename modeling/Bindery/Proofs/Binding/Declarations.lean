import Bindery.Proofs.Binding.TopLevel
import Mathlib.Logic.Relation

/-!
# The passes before the bodies

Before the bodies of the functions are bound, the passes of a bind take steps of a few kinds: they
check something, bring type parameters into scope, declare a type, add a member to a type or declare
a function. `Prepares` says that such steps lead from one state to another. What one `Step` keeps,
all these passes keep.

Each pass completes because of what the passes before it have done: a declaration that owns its name
has an entry in the registry (`Ast.Stmt.IsKnown`). At the end each function declaration has a symbol
whose signature is not that of a built-in function (`Declared`).
-/

namespace Bindery

open Ast (Name TyExpr Param)

/-- Some declared type has these type parameters. -/
def Registry.HasTyParams (r : Registry) (names : List String) : Prop :=
  (∃ name d, r.record? name = some d ∧ d.tyParams = names) ∨ ∃ name d, r.sum? name = some d ∧
    d.tyParams = names

/-- The type parameters that a statement declares. -/
def Ast.Stmt.tyParams : Ast.Stmt → List Name
  | .record _ _ tyParams _ | .sum _ _ tyParams _ | .fn _ _ tyParams _ _ _ => tyParams
  | _ => []

namespace Binding

variable {α : Type} {s t u : State} {all : List Ast.Stmt}

/-! ## Steps -/

/-- The state with a new field of a record. -/
def State.addingField (s : State) (record : String) (d : RecordDef) (name : String) (ty : Ty) :
    State :=
  (s.adding name (.field record) ty none 0).registering
    (s.registry.addingField record name d ⟨s.syms.size, ty⟩)

/-- The state with a new variant of a sum. -/
def State.addingVariant (s : State) (sum : String) (d : SumDef) (name : String)
    (payload : Option Ty) : State :=
  (s.adding name (.variant sum payload) d.selfTy none 0).registering
    (s.registry.addingVariant sum name d ⟨s.syms.size, payload⟩)

/-- The state with a new symbol of a function. -/
def State.addingFn (s : State) (f : Sig) : State :=
  s.adding f.name (.fn f) f.ty (some Scopes.rootId) 0

/-- The function of a name in the root scope. -/
def State.fnNamed? (s : State) (name : String) : Option SymId :=
  (s.scopes.get? Scopes.rootId).bind fun sc => sc.fnNames.get? name

variable (index : Nat) (stmts : List Ast.Stmt) (name : Name) (tyParams : List Name)
  (params : List Param) (ret : Option TyExpr)

instance checks_writtenSig : Plain (writtenSig name tyParams params ret) := by
  unfold writtenSig
  infer_instance

/-- Declares the signature of one function. -/
def declareSig {κ : Type} [DecidableEq κ] [Keyed κ] (name : Name) (tyParams : List Name)
    (params : List Param) (ret : Option TyExpr) : BindingOver κ SymId := do
  let f ← writtenSig name tyParams params ret
  let id ← addSymbol f.name (.fn f) f.ty (some Scopes.rootId) 0
  let fresh ← declareName .fn Scopes.rootId name.text id
  reportUnless fresh name.range (.alreadyDeclared name.text)
  return id

/-- What the passes over the declarations of a file do at a time. -/
inductive Step (all : List Ast.Stmt) : State → State → Prop
  /-- Something is checked. -/
  | checks {α : Type} (m : Binding α) [Plain m] (s : State) : Step all s (after m s)
  /-- The type parameters of a type come into scope, or none are left in scope. -/
  | naming {s : State} {names : List String} (hnames : names = [] ∨ s.registry.HasTyParams names) :
      Step all s (s.naming names)
  /-- A type is declared without its members. -/
  | type {s : State} {kind : Nominal} {name : String} {tyParams : List String} {r : Registry}
      (hplain : (∀ stmt ∈ all, stmt.tyParams = []) → tyParams = [])
      (hr : s.registry.declareType kind name tyParams = (true, r)) : Step all s (s.registering r)
  /-- The type of a field is resolved, with the type parameters of its record in scope, and the
  field is added. -/
  | field {s u : State} {record : String} {d : RecordDef} (field : Ast.FieldDecl)
      (hu : u = after (resolveType field.annot) s) (hd : u.registry.record? record = some d)
      (hnew : d.fields.get? field.name.text = none) (hown : s.generics = d.tyParams) :
      Step all s (u.addingField record d field.name.text (out (resolveType field.annot) s))
  /-- The type of a payload is resolved, with the type parameters of its sum in scope, and the
  variant is added. -/
  | variant {s u : State} {sum : String} {d : SumDef} (variant : Ast.VariantDecl)
      (hu : u = after (resolveType? variant.payload) s) (hd : u.registry.sum? sum = some d)
      (hnew : u.registry.variant? variant.name.text = none) (hown : s.generics = d.tyParams) :
      Step all s (u.addingVariant sum d variant.name.text (out (resolveType? variant.payload) s))
  /-- A built-in function is declared. -/
  | builtin {f : Sig} (hf : f ∈ Builtin.sigs) (s : State) (hfree : s.fnNamed? f.name = none) :
      Step all s ((s.addingFn f).declaringFn f.name s.syms.size)
  /-- The signature of a function is declared. -/
  | sig {origin : Origin} {name : Name} {tyParams : List Name}
      {params : List Param} {ret : Option TyExpr} {body : Ast.Block}
      (hmem : .fn origin name tyParams params ret body ∈ all) (s : State) :
      Step all s (after (declareSig name tyParams params ret) s)

/-- Declaring a name of a function in the root scope. -/
theorem declareFnName (hs : s.Top) (name : String) (id : SymId) :
    (out (declareName .fn Scopes.rootId name id) s = true ∧
        (∃ sc, s.scopes.get? Scopes.rootId = some sc ∧ sc.fnNames.get? name = none) ∧
        after (declareName .fn Scopes.rootId name id) s = s.declaringFn name id) ∨
      (out (declareName .fn Scopes.rootId name id) s = false ∧
        (∃ sc v, s.scopes.get? Scopes.rootId = some sc ∧ sc.fnNames.get? name = some v) ∧
        after (declareName .fn Scopes.rootId name id) s = s) := by
  have hroot : Scopes.rootId < s.scopes.size := hs.current ▸ hs.valid.current_lt
  rw [declareName, out_modifyGet, after_modifyGet]
  cases hdeclare : s.scopes.declare .fn Scopes.rootId name id with
  | ok scopes =>
    obtain ⟨sc, hsc, hname, rfl⟩ := Scopes.exists_of_declare_eq_ok hdeclare
    exact .inl ⟨rfl, ⟨sc, hsc, hname⟩, rfl⟩
  | error e =>
    obtain ⟨sc, v, hsc, hname, rfl⟩ := Scopes.exists_of_declare_eq_error hroot hdeclare
    exact .inr ⟨rfl, ⟨sc, v, hsc, hname⟩, rfl⟩

theorem get?_addingFn (s : State) (f : Sig) :
    (s.addingFn f).syms.get? s.syms.size =
      some ⟨s.syms.size, f.name, .fn f, f.ty, some Scopes.rootId, 0⟩ := by
  rw [State.addingFn, State.adding, Symbols.get?_add, if_pos rfl]

theorem State.Top.addingFn (hs : s.Top) (f : Sig) : (s.addingFn f).Top :=
  hs.adding f.name f f.ty (some Scopes.rootId) 0

/-- A function gets a new symbol, and its name unless another function has it. -/
theorem declareSig_cases (hs : s.Top) :
    ∃ u f, u = after (writtenSig name tyParams params ret) s ∧
      f = out (writtenSig name tyParams params ret) s ∧
      out (declareSig name tyParams params ret) s = u.syms.size ∧
      ((u.fnNamed? name.text = none ∧ after (declareSig name tyParams params ret) s =
          (u.addingFn f).declaringFn name.text u.syms.size) ∨
        (u.fnNamed? name.text).isSome = true ∧ after (declareSig name tyParams params ret) s =
          (u.addingFn f).reporting [⟨name.range, .alreadyDeclared name.text⟩]) := by
  refine ⟨_, _, rfl, rfl, ?_⟩
  have hgrows := Keeps.grows [] (writtenSig name tyParams params ret) s
  unfold declareSig
  rw [after_bind, after_bind, after_bind, after_bind, after_pure, out_bind, out_bind, out_bind,
    out_bind]
  generalize out (writtenSig name tyParams params ret) s = f
  generalize after (writtenSig name tyParams params ret) s = u at hgrows ⊢
  rw [out_addSymbol, after_addSymbol]
  refine ⟨rfl, ?_⟩
  have hadd := (hs.grows hgrows).addingFn f
  rcases declareFnName hadd name.text u.syms.size with
    ⟨hout, ⟨sc, hsc, hfree⟩, hafter⟩ | ⟨hout, ⟨sc, v, hsc, htaken⟩, hafter⟩
  · have hnamed : u.fnNamed? name.text = none :=
      Option.bind_eq_none_iff.mpr fun sc' hsc' => by cases hsc.symm.trans hsc'; exact hfree
    rw [State.addingFn] at hout hafter ⊢
    rw [hout, hafter]
    exact .inl ⟨hnamed, after_reportUnless true _ _ _⟩
  · have hnamed : u.fnNamed? name.text = some v := Option.bind_eq_some_iff.mpr ⟨sc, hsc, htaken⟩
    rw [State.addingFn] at hout hafter ⊢
    rw [hout, hafter]
    exact .inr ⟨by rw [hnamed]; rfl, after_reportUnless false _ _ _⟩

/-- A step keeps the top level. -/
theorem Step.sound (h : Step all s t) (hs : s.Top) : t.Top ∧ Later s t := by
  cases h with
  | checks m =>
    have hgrows := Keeps.grows [] m s
    exact ⟨hs.grows hgrows, .grows hgrows⟩
  | naming hnames => exact ⟨hs.naming _, .of_le List.prefix_rfl (Symbols.le_refl _) (.refl _)⟩
  | type _ hr =>
    exact ⟨hs.registering (hs.recorded.declareType hr),
      .registering (Registry.extends_declareType hr)⟩
  | field field hu hd hnew =>
    have hgrows := Keeps.grows [] (resolveType field.annot) s
    rw [← hu] at hgrows
    have htop := hs.grows hgrows
    refine ⟨htop.addingMember (htop.recorded.addingField hd hnew _), (Later.grows hgrows).trans ?_⟩
    exact (Later.adding _ _ _ _ _ _).trans (.registering (Registry.extends_insertRecord _ _ _))
  | variant variant hu hd hnew =>
    have hgrows := Keeps.grows [] (resolveType? variant.payload) s
    rw [← hu] at hgrows
    have htop := hs.grows hgrows
    refine ⟨htop.addingMember (htop.recorded.addingVariant hd hnew _), (Later.grows hgrows).trans ?_⟩
    exact (Later.adding _ _ _ _ _ _).trans (.registering (Registry.extends_insertSum _ _ _ _))
  | @builtin f hf =>
    exact ⟨(hs.addingFn f).declaringFn f.name (get?_addingFn s f) rfl,
      (Later.adding _ _ _ _ _ _).trans (.declaringFn _ _ _)⟩
  | @sig _ name tyParams params ret _ hmem =>
    obtain ⟨u, f, hu, -, -, hafter⟩ := declareSig_cases name tyParams params ret hs
    have hgrows := Keeps.grows [] (writtenSig name tyParams params ret) s
    rw [← hu] at hgrows
    have hadd := (hs.grows hgrows).addingFn f
    have hlater := (Later.grows hgrows).trans (.adding u f.name (.fn f) f.ty (some Scopes.rootId) 0)
    rcases hafter with ⟨-, hafter⟩ | ⟨-, hafter⟩
    · rw [hafter]
      exact ⟨hadd.declaringFn name.text (get?_addingFn u f) rfl, hlater.trans (.declaringFn _ _ _)⟩
    · rw [hafter]
      have hreport := (keeps_report name.range (.alreadyDeclared name.text)).grows (u.addingFn f)
      exact ⟨hadd.grows hreport, hlater.trans (.grows hreport)⟩

/-- What one step keeps, any number of steps keep. -/
theorem Step.sound_of_steps (h : Relation.ReflTransGen (Step all) s t) (hs : s.Top) :
    t.Top ∧ Later s t := by
  induction h with
  | refl => exact ⟨hs, .refl s⟩
  | tail _ hstep ih =>
    obtain ⟨htop, hlater⟩ := hstep.sound ih.1
    exact ⟨htop, ih.2.trans hlater⟩

/-- Steps lead from one state to the other, and the same type parameters are in scope in both. -/
structure Prepares (all : List Ast.Stmt) (s t : State) : Prop where
  steps : Relation.ReflTransGen (Step all) s t
  generics : t.generics = s.generics

namespace Prepares

theorem refl (s : State) : Prepares all s s := ⟨.refl, rfl⟩

theorem trans (hst : Prepares all s t) (htu : Prepares all t u) : Prepares all s u :=
  ⟨hst.steps.trans htu.steps, htu.generics.trans hst.generics⟩

theorem step (h : Step all s t) (hgenerics : t.generics = s.generics) : Prepares all s t :=
  ⟨.single h, hgenerics⟩

theorem checks (m : Binding α) [Plain m] (s : State) : Prepares all s (after m s) :=
  .step (.checks m s) (Keeps.grows [] m s).generics

theorem sound (h : Prepares all s t) (hs : s.Top) : t.Top ∧ Later s t := Step.sound_of_steps h.steps hs

theorem top (h : Prepares all s t) (hs : s.Top) : t.Top := (h.sound hs).1

theorem later (h : Prepares all s t) (hs : s.Top) : Later s t := (h.sound hs).2

/-- What each step keeps from a state at the top of the file, the passes keep. -/
theorem keeps {C : State → Prop} (h : Prepares all s t) (hs : s.Top)
    (hstep : ∀ {u v}, u.Top → Step all u v → C u → C v) (hC : C s) : C t := by
  obtain ⟨hsteps, -⟩ := h
  have hboth : t.Top ∧ C t := by
    induction hsteps with
    | refl => exact ⟨hs, hC⟩
    | tail _ hlast ih => exact ⟨(hlast.sound ih.1).1, hstep ih.1 hlast ih.2⟩
  exact hboth.2

end Prepares

/-! ## Built-in functions -/

/-- Functions with different names that are not declared yet can be declared. -/
theorem completes_declareBuiltins (fs : List Sig) (hs : s.Top) (hfs : ∀ f ∈ fs, f ∈ Builtin.sigs)
    (hnames : (fs.map Sig.name).Nodup)
    (hfree : ∀ f ∈ fs, ∀ sc, s.scopes.get? Scopes.rootId = some sc → sc.fnNames.get? f.name = none) :
    Completes (declareBuiltins fs) s fun _ t => Prepares all s t := by
  induction fs generalizing s with
  | nil => exact .pure (.refl s)
  | cons f fs ih =>
    refine .bind (.lift (.bind (.lift ?_)))
    rw [out_addSymbol, after_addSymbol, ← State.addingFn]
    rcases declareFnName (hs.addingFn f) f.name s.syms.size with
      ⟨hout, -, hafter⟩ | ⟨-, ⟨sc, v, hsc, hv⟩, -⟩
    · rw [hout, hafter]
      have hstep : Step all s ((s.addingFn f).declaringFn f.name s.syms.size) :=
        .builtin (hfs f List.mem_cons_self) s
          (Option.bind_eq_none_iff.mpr fun sc hsc => hfree f List.mem_cons_self sc hsc)
      rw [List.map_cons, List.nodup_cons] at hnames
      refine (ih (hstep.sound hs).1 (fun g hg => hfs g (List.mem_cons_of_mem _ hg)) hnames.2 ?_).mono
        fun _ t ht => (Prepares.step hstep rfl).trans ht
      intro g hg sc hsc
      obtain ⟨sc', hsc', rfl⟩ : ∃ sc', s.scopes.get? Scopes.rootId = some sc' ∧
          sc'.addName .fn f.name s.syms.size = sc := by
        rw [State.declaringFn, Scopes.get?_adding] at hsc
        exact Option.map_eq_some_iff.mp hsc
      have hne : g.name ≠ f.name := by
        intro h
        exact hnames.1 (h ▸ List.mem_map_of_mem hg)
      show ((sc'.addName .fn f.name s.syms.size).table .fn).get? g.name = none
      rw [Scopes.get?_table_addName, if_neg (by simp [hne])]
      exact hfree g (List.mem_cons_of_mem _ hg) sc' hsc'
    · rw [hfree f List.mem_cons_self sc hsc] at hv
      cases hv

/-! ## Types -/

theorem declareTypeName_cases {κ : Type} (kind : Nominal) (name : Name) (tyParams : List String)
    (s : State κ) :
    (∃ r, s.registry.declareType kind name.text tyParams = (true, r) ∧
      out (declareTypeName kind name tyParams) s = true ∧
      after (declareTypeName kind name tyParams) s = s.registering r) ∨
    (s.registry.declareType kind name.text tyParams = (false, s.registry) ∧
      out (declareTypeName kind name tyParams) s = false ∧
      after (declareTypeName kind name tyParams) s =
        after (report name.range (.alreadyDeclared name.text)) s) := by
  have hcases := s.registry.declare_cases name.text
  rw [declareTypeName, out_bind, after_bind, out_get]
  cases kind <;> rw [Registry.declareType]
  case record =>
    rcases hcases _ with ⟨-, h⟩ | ⟨r, h⟩ <;> rw [Registry.declareRecord, h]
    · exact .inr ⟨rfl, rfl, rfl⟩
    · exact .inl ⟨r, rfl, rfl, rfl⟩
  case sum =>
    rcases hcases _ with ⟨-, h⟩ | ⟨r, h⟩ <;> rw [Registry.declareSum, h]
    · exact .inr ⟨rfl, rfl, rfl⟩
    · exact .inl ⟨r, rfl, rfl, rfl⟩

/-- A type whose name was free is known once its name is declared. -/
theorem prepares_declareTypeName (s : State) (kind : Nominal) (name : Name) (tyParams : List Name)
    (hplain : (∀ stmt ∈ all, stmt.tyParams = []) → tyParams = []) :
    Prepares all s (after (tyParamNames [] tyParams >>= declareTypeName kind name) s) ∧
      (out (tyParamNames [] tyParams >>= declareTypeName kind name) s = true →
        (after (tyParamNames [] tyParams >>= declareTypeName kind name) s).registry.has kind
          name.text = true) := by
  have hparams : Prepares all s (after (tyParamNames [] tyParams) s) := .checks _ s
  have hplain' : (∀ stmt ∈ all, stmt.tyParams = []) → out (tyParamNames [] tyParams) s = [] := by
    intro h
    rw [hplain h]
    rfl
  rw [after_bind, out_bind]
  generalize out (tyParamNames [] tyParams) s = names at hplain' ⊢
  generalize after (tyParamNames [] tyParams) s = u at hparams ⊢
  rcases declareTypeName_cases kind name names u with ⟨r, hr, hout, hafter⟩ | ⟨-, hout, hafter⟩
  · rw [hout, hafter]
    exact ⟨hparams.trans (.step (.type hplain' hr) rfl), fun _ => Registry.has_of_declareType hr⟩
  · rw [hout, hafter]
    have : Plain (report name.range (.alreadyDeclared name.text)) := .report _ rfl
    exact ⟨hparams.trans (.checks _ u), fun h => by cases h⟩

/-- Declares the name of a statement that declares a type. -/
def ownTypeName {κ : Type} : Ast.Stmt → BindingOver κ Bool
  | .record _ name tyParams _ => tyParamNames [] tyParams >>= declareTypeName .record name
  | .sum _ name tyParams _ => tyParamNames [] tyParams >>= declareTypeName .sum name
  | _ => pure false

theorem declareTypeNames_cons {κ : Type} (stmt : Ast.Stmt) (stmts : List Ast.Stmt) :
    (declareTypeNames index (stmt :: stmts) : BindingOver κ (List Nat)) = (do
      let owned ← ownTypeName stmt
      let rest ← declareTypeNames (index + 1) stmts
      return if owned then index :: rest else rest) := by
  cases stmt <;> rfl

theorem prepares_ownTypeName {stmt : Ast.Stmt} (hmem : stmt ∈ all) (s : State) :
    Prepares all s (after (ownTypeName stmt) s) ∧
      (out (ownTypeName stmt) s = true → stmt.IsKnown (after (ownTypeName stmt) s).registry) := by
  cases stmt with
  | record origin name tyParams fields =>
    exact prepares_declareTypeName s .record name tyParams fun h => h _ hmem
  | sum origin name tyParams variants =>
    exact prepares_declareTypeName s .sum name tyParams fun h => h _ hmem
  | _ => exact ⟨.refl s, fun h => by cases h⟩

/-- The places in the list of declarations that own their names are those of known types. -/
theorem prepares_declareTypeNames (hall : ∀ stmt ∈ stmts, stmt ∈ all) (hs : s.Top) :
    Prepares all s (after (declareTypeNames index stmts) s) ∧
      (∀ i ∈ out (declareTypeNames index stmts) s, index ≤ i) ∧
      ∀ j stmt, stmts[j]? = some stmt →
        index + j ∈ out (declareTypeNames index stmts) s →
        stmt.IsKnown (after (declareTypeNames index stmts) s).registry := by
  induction stmts generalizing index s with
  | nil => exact ⟨.refl s, by simp [declareTypeNames], by simp⟩
  | cons stmt stmts ih =>
    obtain ⟨hprepares, hknown⟩ := prepares_ownTypeName (hall stmt List.mem_cons_self) s
    have htop := hprepares.top hs
    obtain ⟨hprepares', hle, hrest⟩ :=
      ih (index + 1) (fun st h => hall st (List.mem_cons_of_mem _ h)) htop
    rw [declareTypeNames_cons, after_bind, after_bind, out_bind, out_bind]
    refine ⟨hprepares.trans hprepares', ?_, ?_⟩
    · intro i hi
      split at hi
      · rcases List.mem_cons.mp hi with rfl | hi
        · exact Nat.le_refl _
        · exact Nat.le_of_succ_le (hle i hi)
      · exact Nat.le_of_succ_le (hle i hi)
    · intro j stmt' hj hi
      cases j with
      | zero =>
        cases hj
        split at hi
        · next howned => exact (hknown howned).of_extends (hprepares'.later htop).registry
        · exact absurd (hle _ hi) (by omega)
      | succ j =>
        refine hrest j stmt' hj ?_
        split at hi
        · rcases List.mem_cons.mp hi with hi | hi
          · omega
          · rwa [Nat.succ_add_eq_add_succ]
        · rwa [Nat.succ_add_eq_add_succ]

/-! ## Signatures -/

/-- Every function declaration has a symbol with a signature of its own. -/
def Declared (sigs : List (Nat × SymId)) (index : Nat) (stmts : List Ast.Stmt)
    (syms : Symbols) : Prop :=
  ∀ j origin name tyParams params ret body,
    stmts[j]? = some (.fn origin name tyParams params ret body) →
      ∃ id, sigs.lookup (index + j) = some id ∧ syms.IsWritten id params.length

theorem length_writtenSig (s : State) :
    (out (writtenSig name tyParams params ret) s).params.length = params.length := by
  rw [writtenSig, out_bind, out_withGenerics, out_bind, out_bind, out_pure, List.length_map,
    List.length_zip, length_resolveTypes, List.length_map, Nat.min_self]

theorem declareSigs_fn {κ : Type} [DecidableEq κ] [Keyed κ] (origin : Origin) (name : Name)
    (tyParams : List Name) (params : List Param) (ret : Option TyExpr) (body : Ast.Block)
    (stmts : List Ast.Stmt) :
    (declareSigs index (.fn origin name tyParams params ret body :: stmts) :
        BindingOver κ (List (Nat × SymId))) = (do
      let id ← declareSig name tyParams params ret
      let rest ← declareSigs (index + 1) stmts
      return (index, id) :: rest) := rfl

theorem isWritten_declareSig (hs : s.Top) :
    (after (declareSig name tyParams params ret) s).syms.IsWritten
      (out (declareSig name tyParams params ret) s) params.length := by
  obtain ⟨u, f, hu, hf, hout, hafter⟩ := declareSig_cases name tyParams params ret hs
  have hsym := get?_addingFn u f
  have hwritten : (u.addingFn f).syms.IsWritten u.syms.size params.length := by
    refine ⟨f, Symbols.sig?_eq_some_iff.mpr ⟨_, hsym, rfl⟩, ?_, ?_⟩
    · rw [hf]
      rfl
    · rw [hf, length_writtenSig]
  rw [hout]
  rcases hafter with ⟨-, hafter⟩ | ⟨-, hafter⟩ <;> rw [hafter] <;> exact hwritten

theorem prepares_declareSigs (hall : ∀ stmt ∈ stmts, stmt ∈ all) (hs : s.Top) :
    Prepares all s (after (declareSigs index stmts) s) ∧
      Declared (out (declareSigs index stmts) s) index stmts
        (after (declareSigs index stmts) s).syms := by
  induction stmts generalizing index s with
  | nil => exact ⟨.refl s, fun j _ _ _ _ _ _ h => by cases h⟩
  | cons stmt stmts ih =>
    have hall' : ∀ st ∈ stmts, st ∈ all := fun st h => hall st (List.mem_cons_of_mem _ h)
    by_cases hfn : ∃ origin name tyParams params ret body,
        stmt = .fn origin name tyParams params ret body
    · obtain ⟨origin, name, tyParams, params, ret, body, rfl⟩ := hfn
      rw [declareSigs_fn, after_bind, after_bind, out_bind, out_bind, out_pure]
      have hstep : Prepares all s (after (declareSig name tyParams params ret) s) := by
        refine .step (.sig (hall _ List.mem_cons_self) s) ?_
        obtain ⟨u, f, rfl, -, -, hafter⟩ := declareSig_cases name tyParams params ret hs
        have hgenerics := (Keeps.grows [] (writtenSig name tyParams params ret) s).generics
        rcases hafter with ⟨-, hafter⟩ | ⟨-, hafter⟩ <;> rw [hafter] <;> exact hgenerics
      have hwritten := isWritten_declareSig name tyParams params ret hs
      obtain ⟨hrest, hdeclared⟩ := ih (index + 1) hall' (hstep.top hs)
      refine ⟨hstep.trans hrest, ?_⟩
      intro j origin' name' tyParams' params' ret' body' hj
      cases j with
      | zero =>
        cases hj
        exact ⟨_, by simp, (hrest.later (hstep.top hs)).written _ _ hwritten⟩
      | succ j =>
        obtain ⟨id, hid, hw⟩ := hdeclared j _ _ _ _ _ _ hj
        refine ⟨id, ?_, hw⟩
        rw [Nat.succ_add_eq_add_succ] at hid
        rw [List.lookup_cons, beq_false_of_ne (by omega), hid]
    · have hskip : (declareSigs index (stmt :: stmts) : Binding _) =
          declareSigs (index + 1) stmts := by
        rw [declareSigs]
        exact fun origin name tyParams params ret body h =>
          hfn ⟨origin, name, tyParams, params, ret, body, h⟩
      rw [hskip]
      obtain ⟨hrest, hdeclared⟩ := ih (index + 1) hall' hs
      refine ⟨hrest, ?_⟩
      intro j origin name tyParams params ret body hj
      cases j with
      | zero => cases hj; exact absurd ⟨origin, name, tyParams, params, ret, body, rfl⟩ hfn
      | succ j =>
        obtain ⟨id, hid, hw⟩ := hdeclared j _ _ _ _ _ _ hj
        exact ⟨id, by rwa [Nat.succ_add_eq_add_succ] at hid, hw⟩

end Binding

end Bindery
