import Bindery.Proofs.Binding.Declarations

/-!
# What the passes over types do

The passes that bind the members of records and sums, told as relations between the states before
and after: which fields and variants are added, which are refused, and what the bound declarations
are. A declaration that owns its name has an entry in the registry, so each of these passes
completes (`completes_bindOwned`).
-/

namespace Bindery

open Ast (Name VariantDecl FieldDecl)

variable {r : Registry}

/-- The type parameters of a declared type. -/
def Registry.params? (r : Registry) : Nominal → String → Option (List String)
  | .record, n => (r.record? n).map RecordDef.tyParams
  | .sum, n => (r.sum? n).map SumDef.tyParams

theorem Registry.params?_addingField {record field : String} {d : RecordDef}
    (hd : r.record? record = some d)
    (fd : FieldDef) : (r.addingField record field d fd).params? = r.params? := by
  funext kind n
  cases kind with
  | sum => rfl
  | record =>
    show (Registry.record? _ n).map RecordDef.tyParams = (r.record? n).map RecordDef.tyParams
    rw [addingField, record?_insertRecord]
    split
    · next hn => rw [hn, hd, Option.map_some, Option.map_some]
    · rfl

theorem Registry.params?_addingVariant {sum variant : String} {d : SumDef} (hd : r.sum? sum = some d)
    (vd : VariantDef) : (r.addingVariant sum variant d vd).params? = r.params? := by
  funext kind n
  cases kind with
  | record => rfl
  | sum =>
    show (Registry.sum? _ n).map SumDef.tyParams = (r.sum? n).map SumDef.tyParams
    rw [addingVariant, sum?_insertSum]
    split
    · next hn => rw [hn, hd, Option.map_some, Option.map_some]
    · rfl

/-- A declared type is new, and every other type stays as it is. -/
theorem Registry.params?_declareType {r' : Registry} {kind k : Nominal} {name n : String}
    {tyParams : List String}
    (h : r.declareType kind name tyParams = (true, r')) :
    r.params? k name = none ∧ r'.params? k n = if k = kind ∧
      n = name then some tyParams else r.params? k n := by
  have hfree : r.record? name = none ∧ r.sum? name = none := by
    cases kind with
    | record => exact ⟨(eq_of_declareRecord h).1, (eq_of_declareRecord h).2.1⟩
    | sum => exact ⟨(eq_of_declareSum h).1, (eq_of_declareSum h).2.1⟩
  refine ⟨?_, ?_⟩
  · cases k with
    | record => rw [params?, hfree.1, Option.map_none]
    | sum => rw [params?, hfree.2, Option.map_none]
  · cases kind with
    | record =>
      obtain ⟨-, -, rfl⟩ := eq_of_declareRecord h
      cases k with
      | record =>
        rw [params?, record?_insertRecord]
        by_cases hn : n = name <;> simp [hn, params?]
      | sum => simp [params?, sum?]
    | sum =>
      obtain ⟨-, -, rfl⟩ := eq_of_declareSum h
      cases k with
      | record => simp [params?, record?]
      | sum =>
        rw [params?, sum?_insertSum]
        by_cases hn : n = name <;> simp [hn, params?]

namespace Binding

variable {α : Type} {s t u : State} {all : List Ast.Stmt}

/-! ## Names of types -/

theorem registry_declareBuiltins {fs : List Sig} {a : Unit} (h : Ran (declareBuiltins fs) s a t) :
    t.registry = s.registry := by
  induction fs generalizing s with
  | nil => rw [(ran_pure.mp h).2]
  | cons f fs ih =>
    rw [declareBuiltins, ran_lift_bind, ran_lift_bind] at h
    split at h
    · rw [ih h]
      rw [declareName, after_modifyGet]
      split <;> rfl
    · exact (not_ran_throw h).elim

/-- The statement declares a type of that kind and name. -/
def DeclaresType (kind : Nominal) (n : String) : Ast.Stmt → Prop
  | .record _ name _ _ => kind = .record ∧ name.text = n
  | .sum _ name _ _ => kind = .sum ∧ name.text = n
  | _ => False

/-- A type is known after the declaration of its name, or was known before. -/
theorem params?_ownTypeName (stmt : Ast.Stmt) (k : Nominal) (n : String) :
    (after (ownTypeName stmt) s).registry.params? k n = s.registry.params? k n ∨
      out (ownTypeName stmt) s = true ∧ DeclaresType k n stmt := by
  have hdeclare : ∀ (kind : Nominal) (name : Name) (tyParams : List Name),
      (after (tyParamNames [] tyParams >>= declareTypeName kind name) s).registry.params? k n =
          s.registry.params? k n ∨
        out (tyParamNames [] tyParams >>= declareTypeName kind name) s = true ∧ k = kind ∧
          name.text = n := by
    intro kind name tyParams
    have hregistry := (Keeps.grows [] (tyParamNames [] tyParams) s).registry
    rw [after_bind, out_bind]
    rcases declareTypeName_cases kind name (out (tyParamNames [] tyParams) s)
      (after (tyParamNames [] tyParams) s) with ⟨r, hr, hout, hafter⟩ | ⟨-, -, hafter⟩
    · rw [hafter, hout]
      by_cases hn : k = kind ∧ n = name.text
      · exact .inr ⟨rfl, hn.1, hn.2.symm⟩
      · refine .inl ?_
        show r.params? k n = _
        rw [(Registry.params?_declareType hr).2, if_neg hn, hregistry]
    · rw [hafter]
      exact .inl (congrArg (Registry.params? · k n) hregistry)
  cases stmt with
  | record origin name tyParams fields => exact hdeclare .record name tyParams
  | sum origin name tyParams variants => exact hdeclare .sum name tyParams
  | _ => exact .inl rfl

/-- Every type that is known after the names of types were declared has a declaration that owns its
name, unless it was known before. -/
theorem params?_declareTypeNames (index : Nat) (stmts : List Ast.Stmt) (k : Nominal) (n : String) :
    (after (declareTypeNames index stmts) s).registry.params? k n = s.registry.params? k n ∨
      ∃ j stmt, stmts[j]? = some stmt ∧ index + j ∈ out (declareTypeNames index stmts) s ∧
        DeclaresType k n stmt := by
  induction stmts generalizing index s with
  | nil => exact .inl rfl
  | cons stmt stmts ih =>
    rw [declareTypeNames_cons]
    simp only [out_bind, after_bind, out_pure, after_pure]
    rcases ih (index + 1) with hrest | ⟨j, stmt', hj, hmem, hdeclares⟩
    · rcases params?_ownTypeName stmt k n with hown | ⟨hown, hdeclares⟩
      · exact .inl (hrest.trans hown)
      · refine .inr ⟨0, stmt, rfl, ?_, hdeclares⟩
        rw [hown]
        exact List.mem_cons_self
    · refine .inr ⟨j + 1, stmt', hj, ?_, hdeclares⟩
      rw [Nat.succ_add_eq_add_succ] at hmem
      split
      · exact List.mem_cons_of_mem _ hmem
      · exact hmem

/-! ## Members of types -/

variable {names : List String} {Q : α → State → Prop}

theorem Completes.withGenerics {act : Pass α}
    (h : Completes act (s.naming names) fun a t => Q a (t.naming s.generics)) :
    Completes (passWithGenerics names act) s Q := by
  obtain ⟨a, t, hact, hQ⟩ := h
  exact ⟨a, _, ran_passWithGenerics.mpr ⟨t, hact, rfl⟩, hQ⟩

/-- The members of a type are bound with its type parameters in scope. -/
theorem Completes.naming {act : Pass α} (hnames : s.registry.HasTyParams names)
    (hgenerics : s.generics = [])
    (h : Completes act (s.naming names) fun a t => Prepares all (s.naming names) t ∧ Q a t) :
    Completes (passWithGenerics names act) s fun a t => Prepares all s t ∧ ∃ u,
      t = u.naming s.generics ∧ Q a u := by
  refine .withGenerics (h.mono fun _ t ht => ⟨⟨?_, rfl⟩, t, rfl, ht.2⟩)
  have hleave : Step all t (t.naming s.generics) := .naming (.inl hgenerics)
  exact (Relation.ReflTransGen.single (.naming (.inr hnames))).trans (ht.1.steps.tail hleave)

/-! ## Records -/

/-- The fields of a record, one after another: the type of a field is resolved, and the field is
added unless the record has one of that name. -/
inductive AddsFields (record : String) : List FieldDecl → State → List SymId → State → Prop
  | nil (s : State) : AddsFields record [] s [] s
  | refused {field : FieldDecl} {fields : List FieldDecl} {s u t : State} {ids : List SymId}
      {d : RecordDef} (hu : u = after (resolveType field.annot) s)
      (hd : u.registry.record? record = some d)
      (hold : (d.fields.get? field.name.text).isSome = true)
      (hrest : AddsFields record fields
      (u.reporting [⟨field.name.range, .alreadyDeclared field.name.text⟩]) ids t) :
      AddsFields record (field :: fields) s ids t
  | added {field : FieldDecl} {fields : List FieldDecl} {s u t : State} {ids : List SymId}
      {d : RecordDef} (hu : u = after (resolveType field.annot) s)
      (hd : u.registry.record? record = some d)
      (hnew : d.fields.get? field.name.text = none)
      (hrest : AddsFields record fields
        (u.addingField record d field.name.text (out (resolveType field.annot) s)) ids t) :
      AddsFields record (field :: fields) s (u.syms.size :: ids) t

variable {owned : List Nat} {index : Nat} {stmts : List Ast.Stmt} {ids : List SymId}

theorem completes_bindFieldDecls (record : String) (fields : List FieldDecl) (hs : s.Top)
    (hself : ∃ rd, s.registry.record? record = some rd ∧ s.generics = rd.tyParams) :
    Completes (bindFieldDecls record fields) s fun ids t => Prepares all s t ∧
      AddsFields record fields s ids t := by
  induction fields generalizing s with
  | nil => exact .pure ⟨.refl s, .nil s⟩
  | cons field fields ih =>
    have hresolve : Prepares all s (after (resolveType field.annot) s) := .checks _ s
    have hregistry := (Keeps.grows [] (resolveType field.annot) s).registry
    refine .bind (.lift (.bind (.get ?_)))
    generalize hout : out (resolveType field.annot) s = ty
    generalize hafter : after (resolveType field.annot) s = u at hresolve hregistry ⊢
    have hu := hresolve.top hs
    rw [← hregistry] at hself
    obtain ⟨rd, hrd, hown⟩ := hself
    rw [hrd]
    dsimp only
    split
    · next hold =>
      have : Plain (report field.name.range (.alreadyDeclared field.name.text)) := .report _ rfl
      have hreport : Prepares all u
        (after (report field.name.range (.alreadyDeclared field.name.text)) u) :=
        .checks _ u
      refine .bind (.lift ((ih (hreport.top hu) ?_).mono ?_))
      · exact ⟨rd, hrd, hresolve.generics.trans hown⟩
      · exact fun _ t ht => ⟨(hresolve.trans hreport).trans ht.1, .refused hafter.symm hrd hold ht.2⟩
    · next hnew =>
      have hnew : rd.fields.get? field.name.text = none := by
        simpa [OrderedMap.contains] using hnew
      refine .bind (.lift (.bind (.get ?_)))
      rw [out_addSymbol, after_addSymbol]
      have hinsert := Registry.insertField_eq hrd field.name.text ⟨u.syms.size, ty⟩
      rw [show (u.adding field.name.text (.field record) ty none 0).registry = u.registry from rfl,
        hinsert]
      refine .bind (.modify (.bind ?_))
      have hadd : Prepares all s (u.addingField record rd field.name.text ty) := by
        refine .step ?_ hresolve.generics
        rw [← hout]
        exact .field field hafter.symm hrd hnew hown
      refine (ih (hadd.top hs) ?_).mono ?_
      · exact ⟨_, (Registry.record?_insertRecord _ _ _ _).trans (if_pos rfl), hadd.generics.trans hown⟩
      · exact fun _ t ht => .pure ⟨hadd.trans ht.1, .added hafter.symm hrd hnew (hout ▸ ht.2)⟩

/-- A record is bound with its type parameters in scope. -/
inductive BindsRecord : Ast.Stmt → State → Option Bound.RecordDecl → State → Prop
  | other {stmt : Ast.Stmt} {s : State} (hother : ∀ n, ¬DeclaresType .record n stmt) :
    BindsRecord stmt s none s
  | record {origin : Origin} {name : Name} {tyParams : List Name} {fields : List FieldDecl}
    {s u : State}
      {d : RecordDef} {ids : List SymId} (hd : s.registry.record? name.text = some d)
      (hfields : AddsFields name.text fields (s.naming d.tyParams) ids u) :
      BindsRecord (.record origin name tyParams fields) s
        (some ⟨name.text, d.tyParams, ids, origin.range⟩)
        (u.naming s.generics)

theorem completes_bindRecord? {stmt : Ast.Stmt} (hs : s.Top) (hgenerics : s.generics = [])
    (hknown : stmt.IsKnown s.registry) :
    Completes (bindRecord? stmt) s fun decl? t => Prepares all s t ∧ BindsRecord stmt s decl? t := by
  cases stmt with
  | record origin name tyParams fields =>
    obtain ⟨rd, hrd⟩ := Option.isSome_iff_exists.mp hknown
    refine .bind (.get ?_)
    rw [hrd]
    have hfields := @completes_bindFieldDecls (s.naming rd.tyParams) all name.text fields
      (hs.naming rd.tyParams)
      ⟨rd, hrd, rfl⟩
    refine .bind ((Completes.naming (.inl ⟨_, rd, hrd, rfl⟩) hgenerics hfields).mono ?_)
    rintro _ _ ⟨ht, u, rfl, hu⟩
    exact .pure ⟨ht, .record hrd hu⟩
  | _ => exact .pure ⟨.refl s, .other (by simp [DeclaresType])⟩

/-! ## Sums -/

/-- The variants of a sum, one after another: the type of a payload is resolved, and the variant is
added unless some sum has one of that name. -/
inductive AddsVariants (sum : String) (selfTy : Ty) :
    List VariantDecl → State → List SymId → State → Prop
  | nil (s : State) : AddsVariants sum selfTy [] s [] s
  | refused {variant : VariantDecl} {variants : List VariantDecl} {s u t : State} {ids : List SymId}
      {owner : SumDef} {d : VariantDef} (hu : u = after (resolveType? variant.payload) s)
      (hold : u.registry.variant? variant.name.text = some (owner, d))
      (hrest : AddsVariants sum selfTy variants
        (u.reporting [⟨variant.name.range, takenVariant sum variant.name.text owner.name⟩]) ids t) :
      AddsVariants sum selfTy (variant :: variants) s ids t
  | added {variant : VariantDecl} {variants : List VariantDecl} {s u t : State} {ids : List SymId}
      {d : SumDef} (hu : u = after (resolveType? variant.payload) s)
      (hd : u.registry.sum? sum = some d)
      (hself : d.selfTy = selfTy) (hnew : u.registry.variant? variant.name.text = none)
      (hrest : AddsVariants sum selfTy variants
        (u.addingVariant sum d variant.name.text (out (resolveType? variant.payload) s)) ids t) :
      AddsVariants sum selfTy (variant :: variants) s (u.syms.size :: ids) t

theorem completes_bindVariantDecls (sum : String) (selfTy : Ty) (variants : List VariantDecl)
    (hs : s.Top) (hself : ∃ sd, s.registry.sum? sum = some sd ∧ sd.selfTy = selfTy ∧
      s.generics = sd.tyParams) :
    Completes (bindVariantDecls sum selfTy variants) s fun ids t =>
      Prepares all s t ∧ AddsVariants sum selfTy variants s ids t := by
  induction variants generalizing s with
  | nil => exact .pure ⟨.refl s, .nil s⟩
  | cons variant variants ih =>
    have hresolve : Prepares all s (after (resolveType? variant.payload) s) := .checks _ s
    have hregistry := (Keeps.grows [] (resolveType? variant.payload) s).registry
    refine .bind (.lift (.bind (.get ?_)))
    generalize hout : out (resolveType? variant.payload) s = payload
    generalize hafter : after (resolveType? variant.payload) s = u at hresolve hregistry ⊢
    have hu := hresolve.top hs
    rw [← hregistry] at hself
    obtain ⟨sd, hsd, rfl, hown⟩ := hself
    cases hfree : u.registry.variant? variant.name.text with
    | some owner =>
      obtain ⟨owner, d⟩ := owner
      have hproblem : Plain
        (report variant.name.range (takenVariant sum variant.name.text owner.name)) := by
        refine .report _ ?_
        unfold takenVariant
        split <;> rfl
      have hreport : Prepares all u
        (after (report variant.name.range (takenVariant sum variant.name.text owner.name)) u) :=
          .checks _ u
      refine .bind (.lift ((ih (hreport.top hu) ⟨sd, hsd, rfl, hresolve.generics.trans hown⟩).mono ?_))
      exact fun _ t ht => ⟨(hresolve.trans hreport).trans ht.1, .refused hafter.symm hfree ht.2⟩
    | none =>
      refine .bind (.lift (.bind (.get ?_)))
      rw [out_addSymbol, after_addSymbol]
      have hadd := hu.recorded.addVariant_eq hsd hfree ⟨u.syms.size, payload⟩
      rw [show (u.adding variant.name.text (.variant sum payload) sd.selfTy none 0).registry =
        u.registry from rfl, hadd]
      refine .bind (.modify (.bind ?_))
      have hadd : Prepares all s (u.addingVariant sum sd variant.name.text payload) := by
        refine .step ?_ hresolve.generics
        rw [← hout]
        exact .variant variant hafter.symm hsd hfree hown
      refine (ih (hadd.top hs) ?_).mono ?_
      · exact ⟨_, (Registry.sum?_insertSum _ _ _ _ _).trans (if_pos rfl), rfl,
          hadd.generics.trans hown⟩
      · exact fun _ t ht => .pure ⟨hadd.trans ht.1, .added hafter.symm hsd rfl hfree (hout ▸ ht.2)⟩

/-- A sum is bound with its type parameters in scope. -/
inductive BindsSum : Ast.Stmt → State → Option Bound.SumDecl → State → Prop
  | other {stmt : Ast.Stmt} {s : State} (hother : ∀ n, ¬DeclaresType .sum n stmt) :
    BindsSum stmt s none s
  | sum {origin : Origin} {name : Name} {tyParams : List Name} {variants : List VariantDecl}
    {s u : State}
      {d : SumDef} {ids : List SymId} (hd : s.registry.sum? name.text = some d)
      (hvariants : AddsVariants name.text d.selfTy variants (s.naming d.tyParams) ids u) :
      BindsSum (.sum origin name tyParams variants) s (some ⟨name.text, d.tyParams, ids, origin.range⟩)
        (u.naming s.generics)

theorem completes_bindSum? {stmt : Ast.Stmt} (hs : s.Top) (hgenerics : s.generics = [])
    (hknown : stmt.IsKnown s.registry) :
    Completes (bindSum? stmt) s fun decl? t => Prepares all s t ∧ BindsSum stmt s decl? t := by
  cases stmt with
  | sum origin name tyParams variants =>
    obtain ⟨sd, hsd⟩ := Option.isSome_iff_exists.mp hknown
    refine .bind (.get ?_)
    rw [hsd]
    have hvariants := @completes_bindVariantDecls (s.naming sd.tyParams) all name.text sd.selfTy
      variants
      (hs.naming sd.tyParams) ⟨sd, hsd, rfl, rfl⟩
    refine .bind ((Completes.naming (.inr ⟨_, sd, hsd, rfl⟩) hgenerics hvariants).mono ?_)
    rintro _ _ ⟨ht, u, rfl, hu⟩
    exact .pure ⟨ht, .sum hsd hu⟩
  | _ => exact .pure ⟨.refl s, .other (by simp [DeclaresType])⟩

/-! ## Declarations that own their names -/

section

variable {δ : Type} {bindOne? : Ast.Stmt → Pass (Option δ)}
    {one : Ast.Stmt → State → Option δ → State → Prop}

/-- The declarations that own their names, one after another. -/
inductive BindsOwned (one : Ast.Stmt → State → Option δ → State → Prop) (owned : List Nat) :
    Nat → List Ast.Stmt → State → List δ → State → Prop
  | nil (index : Nat) (s : State) : BindsOwned one owned index [] s [] s
  | skip {index : Nat} {stmt : Ast.Stmt} {stmts : List Ast.Stmt} {s t : State} {decls : List δ}
      (hskip : index ∉ owned) (hrest : BindsOwned one owned (index + 1) stmts s decls t) :
      BindsOwned one owned index (stmt :: stmts) s decls t
  | bind {index : Nat} {stmt : Ast.Stmt} {stmts : List Ast.Stmt} {s u t : State} {decl? : Option δ}
    {decls : List δ}
      (hone : one stmt s decl? u) (hrest : BindsOwned one owned (index + 1) stmts u decls t) :
      BindsOwned one owned index (stmt :: stmts) s (decl?.toList ++ decls) t

theorem completes_bindOwned
    (hone : ∀ {s : State} {stmt : Ast.Stmt}, s.Top → s.generics = [] → stmt.IsKnown s.registry →
      Completes (bindOne? stmt) s fun decl? t => Prepares all s t ∧ one stmt s decl? t)
    (index : Nat) (stmts : List Ast.Stmt) (hs : s.Top) (hgenerics : s.generics = [])
    (hknown : ∀ j stmt, stmts[j]? = some stmt → index + j ∈ owned → stmt.IsKnown s.registry) :
    Completes (bindOwned bindOne? owned index stmts) s fun decls t =>
      Prepares all s t ∧ BindsOwned one owned index stmts s decls t := by
  induction stmts generalizing index s with
  | nil => exact .pure ⟨.refl s, .nil index s⟩
  | cons stmt stmts ih =>
    have hrest : ∀ {t : State}, Prepares all s t →
        Completes (bindOwned bindOne? owned (index + 1) stmts) t fun decls u =>
          Prepares all s u ∧ BindsOwned one owned (index + 1) stmts t decls u := by
      intro t ht
      refine (ih (index + 1) (ht.top hs) (ht.generics.trans hgenerics) fun j stmt' hj hi => ?_).mono
        fun _ u hu => ⟨ht.trans hu.1, hu.2⟩
      rw [Nat.succ_add_eq_add_succ] at hi
      exact (hknown (j + 1) stmt' hj hi).of_extends (ht.later hs).registry
    rw [bindOwned]
    by_cases howned : index ∈ owned
    · rw [if_pos (List.contains_iff_mem.mpr howned)]
      refine .bind ((hone hs hgenerics (hknown 0 _ rfl howned)).mono fun _ u hu => ?_)
      exact .bind ((hrest hu.1).mono fun _ v hv => .pure ⟨hv.1, .bind hu.2 hv.2⟩)
    · rw [if_neg (List.contains_iff_mem.not.mpr howned)]
      exact .bind
        (.pure (.bind ((hrest (.refl s)).mono fun _ v hv => .pure ⟨hv.1, .skip howned hv.2⟩)))

end

/-! ## Type parameters -/

theorem AddsFields.params? {record : String} {fields : List FieldDecl}
    (h : AddsFields record fields s ids t) :
    t.registry.params? = s.registry.params? := by
  induction h with
  | nil => rfl
  | @refused field _ s u _ _ _ hu _ _ _ ih =>
    have hregistry : u.registry = s.registry :=
      hu ▸ (Keeps.grows [] (resolveType field.annot) s).registry
    exact ih.trans (congrArg Registry.params? hregistry)
  | @added field _ s u _ _ _ hu hd _ _ ih =>
    have hregistry : u.registry = s.registry :=
      hu ▸ (Keeps.grows [] (resolveType field.annot) s).registry
    rw [ih, ← hregistry]
    exact Registry.params?_addingField hd _

theorem AddsVariants.params? {sum : String} {selfTy : Ty} {variants : List VariantDecl}
    (h : AddsVariants sum selfTy variants s ids t) : t.registry.params? = s.registry.params? := by
  induction h with
  | nil => rfl
  | @refused variant _ s u _ _ _ _ hu _ _ ih =>
    have hregistry : u.registry = s.registry :=
      hu ▸ (Keeps.grows [] (resolveType? variant.payload) s).registry
    exact ih.trans (congrArg Registry.params? hregistry)
  | @added variant _ s u _ _ _ hu hd _ _ _ ih =>
    have hregistry : u.registry = s.registry :=
      hu ▸ (Keeps.grows [] (resolveType? variant.payload) s).registry
    rw [ih, ← hregistry]
    exact Registry.params?_addingVariant hd _

/-- Each declaration of a type of that kind that owns its name has given its name to some bound
one. -/
def Owns (owned : List Nat) (kind : Nominal) (index : Nat) (stmts : List Ast.Stmt)
    (names : List String) : Prop :=
  ∀ j stmt n, stmts[j]? = some stmt → index + j ∈ owned → DeclaresType kind n stmt → n ∈ names

theorem Owns.cons {kind : Nominal} {head : Ast.Stmt} {names' : List String}
    (h : Owns owned kind (index + 1) stmts names)
    (hhead : index ∈ owned → ∀ n, DeclaresType kind n head → n ∈ names') (hnames : names ⊆ names') :
    Owns owned kind index (head :: stmts) names' := by
  intro j stmt n hj howned hdeclares
  cases j with
  | zero =>
    cases hj
    exact hhead howned n hdeclares
  | succ j => exact hnames (h j stmt n hj (by rwa [Nat.succ_add_eq_add_succ]) hdeclares)

/-- The bound declarations of a kind have the type parameters of the declared ones, and each one
that owns its name is bound, if that is so for one declaration. -/
theorem BindsOwned.params? {δ : Type} {one : Ast.Stmt → State → Option δ → State → Prop}
    {kind : Nominal}
    {nameOf : δ → String} {paramsOf : δ → List String} {decls : List δ}
    (h : BindsOwned one owned index stmts s decls t)
    (hone : ∀ {stmt s decl? t}, one stmt s decl? t → t.registry.params? = s.registry.params? ∧
      (∀ d ∈ decl?.toList, s.registry.params? kind (nameOf d) = some (paramsOf d)) ∧
      ∀ n, DeclaresType kind n stmt → n ∈ decl?.toList.map nameOf) :
    t.registry.params? = s.registry.params? ∧
      (∀ d ∈ decls, s.registry.params? kind (nameOf d) = some (paramsOf d)) ∧
      Owns owned kind index stmts (decls.map nameOf) := by
  induction h with
  | nil => exact ⟨rfl, by simp, by simp [Owns]⟩
  | skip hskip _ ih =>
    exact ⟨ih.1, ih.2.1, ih.2.2.cons (fun howned => absurd howned hskip) (List.Subset.refl _)⟩
  | bind hbind _ ih =>
    obtain ⟨hparams, hhead, hnames⟩ := hone hbind
    rw [hparams] at ih
    refine ⟨ih.1, List.forall_mem_append.mpr ⟨hhead, ih.2.1⟩, ?_⟩
    rw [List.map_append]
    exact ih.2.2.cons (fun _ n hn => List.mem_append_left _ (hnames n hn))
      (List.subset_append_right _ _)

theorem BindsRecord.params? {stmt : Ast.Stmt} {decl? : Option Bound.RecordDecl}
    (h : BindsRecord stmt s decl? t) :
    t.registry.params? = s.registry.params? ∧
      (∀ d ∈ decl?.toList, s.registry.params? .record d.name = some d.tyParams) ∧
      ∀ n, DeclaresType .record n stmt → n ∈ decl?.toList.map Bound.RecordDecl.name := by
  cases h with
  | other hother => exact ⟨rfl, by simp, fun n hn => absurd hn (hother n)⟩
  | record hd hfields =>
    exact ⟨hfields.params?, by simp [Registry.params?, hd], by simp [DeclaresType, eq_comm]⟩

theorem BindsSum.params? {stmt : Ast.Stmt} {decl? : Option Bound.SumDecl}
    (h : BindsSum stmt s decl? t) :
    t.registry.params? = s.registry.params? ∧
      (∀ d ∈ decl?.toList, s.registry.params? .sum d.name = some d.tyParams) ∧
      ∀ n, DeclaresType .sum n stmt → n ∈ decl?.toList.map Bound.SumDecl.name := by
  cases h with
  | other hother => exact ⟨rfl, by simp, fun n hn => absurd hn (hother n)⟩
  | sum hd hvariants =>
    exact ⟨hvariants.params?, by simp [Registry.params?, hd], by simp [DeclaresType, eq_comm]⟩

/-! ## Files -/

/-- What the passes over the types of a file do, up to the state in which the functions are
declared. -/
def TypePasses (stmts : List Ast.Stmt) (records : List Bound.RecordDecl) (sums : List Bound.SumDecl)
    (u : State) : Prop :=
  ∃ s₁ s₃ : State, Ran (declareBuiltins Builtin.sigs) .initial () s₁ ∧
    BindsOwned BindsRecord (out (declareTypeNames 0 stmts) s₁) 0 stmts
      (after (declareTypeNames 0 stmts) s₁)
      records s₃ ∧
    BindsOwned BindsSum (out (declareTypeNames 0 stmts) s₁) 0 stmts s₃ sums u

/-- The types that a file knows are those that it declares, with the same type parameters. -/
theorem TypePasses.params? {records : List Bound.RecordDecl} {sums : List Bound.SumDecl}
    (h : TypePasses stmts records sums u) :
    ((∀ d ∈ records, u.registry.params? .record d.name = some d.tyParams) ∧
        ∀ n ps, u.registry.params? .record n = some ps → ∃ d ∈ records, d.name = n) ∧
      (∀ d ∈ sums, u.registry.params? .sum d.name = some d.tyParams) ∧
        ∀ n ps, u.registry.params? .sum n = some ps → ∃ d ∈ sums, d.name = n := by
  obtain ⟨s₁, s₃, hbuiltins, hrecords, hsums⟩ := h
  obtain ⟨hparams, hrecord, howner⟩ := hrecords.params? BindsRecord.params?
  obtain ⟨hparams', hsum, howner'⟩ := hsums.params? BindsSum.params?
  rw [hparams] at hparams' hsum
  have hempty : ∀ k n, s₁.registry.params? k n = none := by
    intro k n
    rw [registry_declareBuiltins hbuiltins]
    cases k <;> rfl
  have hdeclared : ∀ k n ps, u.registry.params? k n = some ps → ∃ j stmt, stmts[j]? = some stmt ∧
      0 + j ∈ out (declareTypeNames 0 stmts) s₁ ∧ DeclaresType k n stmt := by
    intro k n ps hps
    rw [hparams'] at hps
    refine (params?_declareTypeNames 0 stmts k n).resolve_left fun heq => ?_
    rw [heq, hempty] at hps
    cases hps
  rw [hparams'] at hdeclared ⊢
  refine ⟨⟨hrecord, fun n ps hps => ?_⟩, hsum, fun n ps hps => ?_⟩
  · obtain ⟨j, stmt, hj, hmem, hdeclares⟩ := hdeclared _ _ _ hps
    exact List.mem_map.mp (howner j stmt n hj hmem hdeclares)
  · obtain ⟨j, stmt, hj, hmem, hdeclares⟩ := hdeclared _ _ _ hps
    exact List.mem_map.mp (howner' j stmt n hj hmem hdeclares)

end Binding

end Bindery
