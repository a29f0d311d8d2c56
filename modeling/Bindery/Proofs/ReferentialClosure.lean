import Bindery.Proofs.Binding.LinkedTree
import Bindery.Proofs.Binding.Signatures

/-!
# Bound files are closed under reference

Every number in a bound file is that of a symbol of its table, of the kind that its place asks for
and with the name that is written there, whatever is reported. The built-in functions stand first in
the table, as they were declared, and every function has its final signature.

The table only grows, except that the signature of a function is settled once its body is bound.
That changes no label, so what a pass resolves is said of the last table at once.
-/

namespace Bindery

variable {id : SymId} {f : Sig}

namespace Symbols

/-- Settling a signature leaves the labels alone. -/
theorem label?_setSig {t : Symbols} (hf : t.sig? id = some f)
    (g : Sig) (j : SymId) : (t.setSig id g).label? j = t.label? j := by
  obtain ⟨sym, hsym, hkind⟩ := sig?_eq_some_iff.mp hf
  rw [label?, label?, get?_setSig]
  split
  · next hj =>
    subst hj
    rw [hsym, Option.map_some, Option.map_some, Option.map_some, hkind]
    rfl
  · rfl

/-- The symbols that are added are no functions. -/
structure AddsNoFn (t u : Symbols) : Prop where
  le : t ≤ u
  added : ∀ id sym, u.get? id = some sym → t.get? id = some sym ∨ ∀ f, sym.kind ≠ .fn f

namespace AddsNoFn

variable {t u v : Symbols}

theorem refl (t : Symbols) : t.AddsNoFn t := ⟨Symbols.le_refl t, fun _ _ h => .inl h⟩

theorem trans (h : t.AddsNoFn u) (h' : u.AddsNoFn v) : t.AddsNoFn v where
  le := Symbols.le_trans h.le h'.le
  added id sym hsym := (h'.added id sym hsym).elim (h.added id sym) .inr

theorem add (t : Symbols) (name : String) (kind : SymKind) (hkind : ∀ f, kind ≠ .fn f) (ty : Ty)
    (scope : Option ScopeId) (depth : Nat) : t.AddsNoFn (t.add name kind ty scope depth).2 where
  le := le_add _ _ _ _ _ _
  added id sym hsym := by
    rcases get?_add_cases hsym with ⟨-, rfl⟩ | hold
    · exact .inr hkind
    · exact .inl hold

theorem sig? (h : t.AddsNoFn u) (hf : u.sig? id = some f) : t.sig? id = some f := by
  obtain ⟨sym, hsym, hkind⟩ := sig?_eq_some_iff.mp hf
  rcases h.added id sym hsym with hold | hother
  · exact sig?_eq_some_iff.mpr ⟨sym, hold, hkind⟩
  · exact absurd hkind (hother f)

end AddsNoFn

end Symbols

namespace Binding

open Bindery.Bound

variable {s t u : State} {Γ : Symbols} {all stmts : List Ast.Stmt}

/-! ## Declarations -/

/-- At the top level no lambda is around. -/
theorem State.Named.linked (h : s.Named) (hs : s.Top) : s.Linked [] := by
  refine ⟨h, hs.recorded, ?_⟩
  rw [List.map_eq_nil_iff.mp hs.boundaries]
  exact .nil

theorem State.Named.addingFn (h : s.Named) (f : Sig) : (s.addingFn f).Named :=
  h.adding (fun _ h => by cases h; rfl) f.ty _ 0

theorem label?_addingFn (s : State) (f : Sig) :
    (s.addingFn f).syms.label? s.syms.size = some (.fn, f.name) :=
  Symbols.label?_of_get? (get?_addingFn s f)

theorem State.Named.checks {α : Type} (h : s.Named) (m : Binding α) [Checks m] :
    (after m s).Named := by
  obtain ⟨fs, hfs⟩ := Checks.exists_reporting m s
  rw [hfs]
  exact h.congr rfl rfl

theorem Step.named (h : Step all s t) (hs : s.Top) (hn : s.Named) : t.Named := by
  cases h with
  | checks m => exact hn.checks m
  | naming => exact hn.congr rfl rfl
  | type => exact hn.congr rfl rfl
  | field field hu =>
    have hu := hu ▸ hn.checks (resolveType field.annot)
    exact (hu.adding (fun _ h => by cases h) _ _ _).congr rfl rfl
  | variant variant hu =>
    have hu := hu ▸ hn.checks (resolveType? variant.payload)
    exact (hu.adding (fun _ h => by cases h) _ _ _).congr rfl rfl
  | @builtin f => exact (hn.addingFn f).declaringFn (label?_addingFn s f)
  | @sig _ name tyParams params ret =>
    obtain ⟨u, f, hu, hf, -, hafter⟩ := declareSig_cases name tyParams params ret hs
    have hu : u.Named := hu ▸ hn.checks (writtenSig name tyParams params ret)
    have hname : f.name = name.text := by rw [hf]; rfl
    rcases hafter with ⟨-, hafter⟩ | ⟨-, hafter⟩
    · rw [hafter]
      exact (hu.addingFn f).declaringFn (hname ▸ label?_addingFn u f)
    · rw [hafter]
      exact (hu.addingFn f).congr rfl rfl

theorem Prepares.named (h : Prepares all s t) (hs : s.Top) (hn : s.Named) : t.Named :=
  h.keeps hs (fun htop hstep hu => hstep.named htop hu) hn

theorem named_initial : (State.initial : State).Named where
  numbered _ _ h := by cases h
  signed _ _ _ h := by cases h
  locals _ _ _ _ hsc hid := by
    rw [get?_initial hsc] at hid
    cases hid
  fns _ _ _ _ hsc hid := by
    rw [get?_initial hsc] at hid
    cases hid

/-! ## Members -/

theorem addsNoFn_checks {α : Type} (m : Binding α) [Checks m] (s : State) :
    s.syms.AddsNoFn (after m s).syms := by
  rw [Checks.syms_eq]
  exact .refl _

theorem addsNoFn_ownTypeName (stmt : Ast.Stmt) (s : State) :
    s.syms.AddsNoFn (after (ownTypeName stmt) s).syms := by
  have hdeclare : ∀ (kind : Nominal) (name : Ast.Name) (tyParams : List Ast.Name),
      s.syms.AddsNoFn (after (tyParamNames [] tyParams >>= declareTypeName kind name) s).syms := by
    intro kind name tyParams
    rw [after_bind]
    refine (addsNoFn_checks (tyParamNames [] tyParams) s).trans ?_
    rcases declareTypeName_cases kind name (out (tyParamNames [] tyParams) s)
      (after (tyParamNames [] tyParams) s) with ⟨r, -, -, hafter⟩ | ⟨-, -, hafter⟩ <;> rw [hafter]
        <;> exact .refl _
  cases stmt with
  | record origin name tyParams fields => exact hdeclare .record name tyParams
  | sum origin name tyParams variants => exact hdeclare .sum name tyParams
  | _ => exact .refl _

theorem addsNoFn_declareTypeNames (index : Nat) (stmts : List Ast.Stmt) (s : State) :
    s.syms.AddsNoFn (after (declareTypeNames index stmts) s).syms := by
  induction stmts generalizing index s with
  | nil => exact .refl _
  | cons stmt stmts ih =>
    rw [declareTypeNames_cons, after_bind, after_bind]
    exact (addsNoFn_ownTypeName stmt s).trans (ih _ _)

variable {ids : List SymId} {owned : List Nat}

/-- The fields that are added get symbols of their names. -/
theorem AddsFields.labels {record : String} {fields : List Ast.FieldDecl}
    (h : AddsFields record fields s ids t) :
    s.syms.AddsNoFn t.syms ∧
      ∀ id ∈ ids, ∃ field ∈ fields, t.syms.label? id = some (.field record, field.name.text) := by
  induction h with
  | nil s => exact ⟨.refl _, by simp⟩
  | @refused field fields s u t ids d hu hd hold hrest ih =>
    refine ⟨(hu ▸ addsNoFn_checks (resolveType field.annot) s).trans ih.1, fun id hid => ?_⟩
    exact List.exists_mem_cons_of_exists (ih.2 id hid)
  | @added field fields s u t ids d hu hd hnew hrest ih =>
    have hadd := Symbols.AddsNoFn.add u.syms field.name.text (.field record) (by simp)
      (out (resolveType field.annot) s) none 0
    refine ⟨((hu ▸ addsNoFn_checks (resolveType field.annot) s).trans hadd).trans ih.1,
      List.forall_mem_cons.mpr ⟨⟨field, List.mem_cons_self, ?_⟩, fun id hid => ?_⟩⟩
    · exact Symbols.within_of_le ih.1.le _ _ (Symbols.label?_add _ _ _ _ _ _)
    · exact List.exists_mem_cons_of_exists (ih.2 id hid)

/-- The variants that are added get symbols of their names. -/
theorem AddsVariants.labels {sum : String} {selfTy : Ty} {variants : List Ast.VariantDecl}
    (h : AddsVariants sum selfTy variants s ids t) :
    s.syms.AddsNoFn t.syms ∧
      ∀ id ∈ ids, ∃ variant ∈ variants, t.syms.label? id = some (.variant sum, variant.name.text) := by
  induction h with
  | nil s => exact ⟨.refl _, by simp⟩
  | @refused variant variants s u t ids owner d hu hold hrest ih =>
    refine ⟨(hu ▸ addsNoFn_checks (resolveType? variant.payload) s).trans ih.1, fun id hid => ?_⟩
    exact List.exists_mem_cons_of_exists (ih.2 id hid)
  | @added variant variants s u t ids d hu hd hself hnew hrest ih =>
    have hadd := Symbols.AddsNoFn.add u.syms variant.name.text
      (.variant sum (out (resolveType? variant.payload) s)) (by simp) d.selfTy none 0
    refine ⟨((hu ▸ addsNoFn_checks (resolveType? variant.payload) s).trans hadd).trans ih.1,
      List.forall_mem_cons.mpr ⟨⟨variant, List.mem_cons_self, ?_⟩, fun id hid => ?_⟩⟩
    · exact Symbols.within_of_le ih.1.le _ _ (Symbols.label?_add _ _ _ _ _ _)
    · exact List.exists_mem_cons_of_exists (ih.2 id hid)

theorem BindsRecord.labels {stmt : Ast.Stmt} {decl? : Option RecordDecl}
    (h : BindsRecord stmt s decl? t) :
    s.syms.AddsNoFn t.syms ∧
      ∀ Γ, t.syms.Within Γ → ∀ d ∈ decl?.toList, stmt.DeclaresFields Γ d := by
  cases h with
  | other => exact ⟨.refl _, by simp⟩
  | record _ hfields =>
    obtain ⟨hadds, hids⟩ := hfields.labels
    refine ⟨hadds, fun Γ hle => List.forall_mem_singleton.mpr ⟨rfl, fun id hid => ?_⟩⟩
    obtain ⟨field, hfield, hlabel⟩ := hids id hid
    exact ⟨field, hfield, hle _ _ hlabel⟩

theorem BindsSum.labels {stmt : Ast.Stmt} {decl? : Option SumDecl} (h : BindsSum stmt s decl? t) :
    s.syms.AddsNoFn t.syms ∧
      ∀ Γ, t.syms.Within Γ → ∀ d ∈ decl?.toList, stmt.DeclaresVariants Γ d := by
  cases h with
  | other => exact ⟨.refl _, by simp⟩
  | sum _ hvariants =>
    obtain ⟨hadds, hids⟩ := hvariants.labels
    refine ⟨hadds, fun Γ hle => List.forall_mem_singleton.mpr ⟨rfl, fun id hid => ?_⟩⟩
    obtain ⟨variant, hvariant, hlabel⟩ := hids id hid
    exact ⟨variant, hvariant, hle _ _ hlabel⟩

/-- The members of all declarations get symbols of their names, if those of one do. -/
theorem BindsOwned.labels {δ : Type} {one : Ast.Stmt → State → Option δ → State → Prop}
    {Declares : Symbols → Ast.Stmt → δ → Prop} {index : Nat} {decls : List δ}
    (h : BindsOwned one owned index stmts s decls t)
    (hone : ∀ {stmt s decl? t}, one stmt s decl? t → s.syms.AddsNoFn t.syms ∧
      ∀ Γ, t.syms.Within Γ → ∀ d ∈ decl?.toList, Declares Γ stmt d) :
    s.syms.AddsNoFn t.syms ∧
      ∀ Γ, t.syms.Within Γ → ∀ d ∈ decls, ∃ stmt ∈ stmts, Declares Γ stmt d := by
  induction h with
  | nil => exact ⟨.refl _, by simp⟩
  | skip _ _ ih => exact ⟨ih.1, fun Γ hle d hd => List.exists_mem_cons_of_exists (ih.2 Γ hle d hd)⟩
  | bind hbind _ ih =>
    obtain ⟨hadds, hhead⟩ := hone hbind
    refine ⟨hadds.trans ih.1, fun Γ hle => List.forall_mem_append.mpr ⟨fun d hd => ?_, fun d hd => ?_⟩⟩
    · exact ⟨_, List.mem_cons_self, hhead Γ ((Symbols.within_of_le ih.1.le).trans hle) d hd⟩
    · exact List.exists_mem_cons_of_exists (ih.2 Γ hle d hd)

/-! ## Functions -/

/-- The symbol of a built-in function. -/
def builtinSymbol (id : SymId) (f : Sig) : Symbol := ⟨id, f.name, .fn f, f.ty, some Scopes.rootId, 0⟩

/-- Built-in functions get the next numbers, and nothing else is added. -/
theorem syms_declareBuiltins {fs : List Sig} {a : Unit} (h : Ran (declareBuiltins fs) s a t) :
    s.syms ≤ t.syms ∧
      (∀ i f, fs[i]? = some f → t.syms.get? (s.syms.size + i) =
      some (builtinSymbol (s.syms.size + i) f)) ∧
      ∀ id f, t.syms.sig? id = some f → s.syms.sig? id = some f ∨ f ∈ fs := by
  induction fs generalizing s with
  | nil =>
    rw [(ran_pure.mp h).2]
    exact ⟨Symbols.le_refl _, by simp, fun _ _ hf => .inl hf⟩
  | cons g fs ih =>
    rw [declareBuiltins, ran_lift_bind, ran_lift_bind] at h
    have hsyms : (after (declareName .fn Scopes.rootId g.name
        (out (addSymbol g.name (.fn g) g.ty (some Scopes.rootId) 0) s))
        (after (addSymbol g.name (.fn g) g.ty (some Scopes.rootId) 0) s)).syms =
          (s.addingFn g).syms := by
      rw [declareName, after_modifyGet]
      split <;> rfl
    split at h
    · obtain ⟨hle, hnumbers, hsig⟩ := ih h
      rw [hsyms] at hle hnumbers hsig
      have hsize : (s.addingFn g).syms.size = s.syms.size + 1 := Symbols.size_add _ _ _ _ _ _
      refine ⟨Symbols.le_trans (Symbols.le_add _ _ _ _ _ _) hle, fun i f hf => ?_, fun id f hf => ?_⟩
      · cases i with
        | zero =>
          obtain rfl := Option.some.inj hf
          exact hle _ _ (get?_addingFn s g)
        | succ i =>
          have hsym := hnumbers i f hf
          rwa [hsize, Nat.succ_add_eq_add_succ] at hsym
      · rcases hsig id f hf with hold | hmem
        · obtain ⟨sym, hsym, hkind⟩ := Symbols.sig?_eq_some_iff.mp hold
          rcases Symbols.get?_add_cases hsym with ⟨-, rfl⟩ | hold
          · cases hkind
            exact .inr List.mem_cons_self
          · exact .inl (Symbols.sig?_eq_some_iff.mpr ⟨sym, hold, hkind⟩)
        · exact .inr (List.mem_cons_of_mem _ hmem)
    · exact (not_ran_throw h).elim

/-- The symbol is that of a function among the statements, counted from `index`. -/
def DeclaredAmong (sigs : List (Nat × SymId)) (index : Nat) (stmts : List Ast.Stmt)
    (id : SymId) : Prop :=
  ∃ j stmt, stmts[j]? = some stmt ∧ stmt.isFn = true ∧ sigs.lookup (index + j) = some id

theorem DeclaredAmong.cons {sigs : List (Nat × SymId)} {index : Nat}
    (h : DeclaredAmong sigs (index + 1) stmts id) (stmt : Ast.Stmt) :
    DeclaredAmong sigs index (stmt :: stmts) id := by
  obtain ⟨j, stmt', hj, hfn, hid⟩ := h
  rw [Nat.succ_add_eq_add_succ] at hid
  exact ⟨j + 1, stmt', hj, hfn, hid⟩

/-- What is declared among the statements is declared by the first or among the others. -/
theorem DeclaredAmong.of_cons {sigs : List (Nat × SymId)} {index : Nat}
    {stmt : Ast.Stmt} (h : DeclaredAmong sigs index (stmt :: stmts) id) :
    (stmt.isFn = true ∧ sigs.lookup index = some id) ∨
      DeclaredAmong sigs (index + 1) stmts id := by
  obtain ⟨j, stmt', hj, hfn, hid⟩ := h
  cases j with
  | zero =>
    obtain rfl := Option.some.inj hj
    exact .inl ⟨hfn, hid⟩
  | succ j =>
    rw [← Nat.succ_add_eq_add_succ] at hid
    exact .inr ⟨j, stmt', hj, hfn, hid⟩

/-- The functions are those that there were and those that are declared. -/
theorem sig?_declareSigs (index : Nat) (stmts : List Ast.Stmt) (hs : s.Top)
    (hf : (after (declareSigs index stmts) s).syms.sig? id = some f) :
    s.syms.sig? id = some f ∨
      DeclaredAmong (out (declareSigs index stmts) s) index stmts id := by
  induction stmts generalizing index s with
  | nil => exact .inl hf
  | cons stmt stmts ih =>
    cases hfn : stmt.isFn with
    | false =>
      rw [declareSigs_of_skip hfn] at hf ⊢
      exact (ih (index + 1) hs hf).imp_right fun h => h.cons stmt
    | true =>
      cases stmt with
      | fn origin name tyParams params ret body =>
        rw [declareSigs_fn, out_bind, out_bind, out_pure]
        obtain ⟨hid, hsyms⟩ := syms_declareSig name tyParams params ret hs
        have hstep : Step [.fn origin name tyParams params ret body] s
          (after (declareSig name tyParams params ret) s) := .sig List.mem_cons_self s
        rcases ih (index + 1) (hstep.sound hs).1 hf with hold | hdeclared
        · rw [hsyms] at hold
          obtain ⟨sym, hsym, hkind⟩ := Symbols.sig?_eq_some_iff.mp hold
          rcases Symbols.get?_add_cases hsym with ⟨rfl, -⟩ | hold
          · exact .inr ⟨0, _, rfl, rfl, by simp [hid]⟩
          · exact .inl (Symbols.sig?_eq_some_iff.mpr ⟨sym, hold, hkind⟩)
        · obtain ⟨j, stmt', hj, hfn', hlookup⟩ := hdeclared
          rw [Nat.succ_add_eq_add_succ] at hlookup
          refine .inr ⟨j + 1, stmt', hj, hfn', ?_⟩
          rw [List.lookup_cons, beq_false_of_ne (by omega), hlookup]
      | _ => cases hfn

/-! ## Bodies of functions -/

theorem links_bindFnScope (f : Sig) (name : Ast.Name) (params : List Ast.Param)
    (body : Ast.Block) :
    Links Γ [] (bindFnScope f name params body) fun r =>
      (f.params.length = params.length → Γ.AreParameters params r.1) ∧ body.BindsTo Γ r.2.1 := by
  have hlength : f.paramTys.length = f.params.length := List.length_map _
  rw [← hlength]
  obtain ⟨origin, stmts⟩ := body
  exact .inScope _ (.withGenerics _ (.seq (.declareParameters params f.paramTys) fun ids =>
    .seq (.withFn _ (.withLoopDepth _ (.withScopeDepth _ (links_bindStmts stmts (.nil _))))) fun r =>
      .pure fun hbody hids => ⟨hids, hbody⟩))

section

variable {id : SymId} {f : Sig} (hf : s.syms.sig? id = some f) (frame : FnFrame)
  (trailing : Option (Ty × Range))

include hf

/-- Settling the return type of a function changes no label. -/
theorem label?_settled (j : SymId) :
    (s.settled id f frame trailing).syms.label? j = s.syms.label? j := by
  obtain ⟨fs, hafter⟩ := Checks.exists_reporting (settleReturn frame trailing) s
  rw [State.settled, hafter]
  split
  · rfl
  · exact Symbols.label?_setSig hf _ j

theorem State.Named.settled (h : s.Named) : (s.settled id f frame trailing).Named := by
  have hlabel := label?_settled hf frame trailing
  obtain ⟨fs, hafter⟩ := Checks.exists_reporting (settleReturn frame trailing) s
  have hscopes : (s.settled id f frame trailing).scopes = s.scopes := by
    rw [State.settled, hafter]
    split <;> rfl
  have hsymbol : ∀ j sym, (s.settled id f frame trailing).syms.get? j = some sym →
      sym.id = j ∧ ∀ g, sym.kind = .fn g → g.name = sym.name := by
    intro j sym hsym
    rw [State.settled, hafter] at hsym
    split at hsym
    · exact ⟨h.numbered j sym hsym, fun g => h.signed j sym g hsym⟩
    · rw [State.resigning, Symbols.get?_setSig] at hsym
      split at hsym
      · next hj =>
        obtain ⟨sym', hsym', rfl⟩ := Option.map_eq_some_iff.mp hsym
        refine ⟨h.numbered j sym' hsym', ?_⟩
        rintro g ⟨⟩
        obtain ⟨sym, hsym, hkind⟩ := Symbols.sig?_eq_some_iff.mp hf
        obtain rfl : sym = sym' := Option.some.inj ((hj ▸ hsym).symm.trans hsym')
        exact h.signed j sym f hsym' hkind
      · exact ⟨h.numbered j sym hsym, fun g => h.signed j sym g hsym⟩
  refine ⟨fun j sym hsym => (hsymbol j sym hsym).1, fun j sym g hsym => (hsymbol j sym hsym).2 g,
    fun c sc n v hsc hv => ?_, fun c sc n v hsc hv => ?_⟩
  · rw [Symbols.IsLocal, hlabel]
    exact h.locals c sc n v (hscopes ▸ hsc) hv
  · rw [hlabel]
    exact h.fns c sc n v (hscopes ▸ hsc) hv

end

namespace Bodies

variable {sigs : List (Nat × SymId)} {index : Nat} {fns : List FnDecl}

variable (h : Bodies sigs index stmts s fns t)

include h

/-- Symbols keep their labels while the bodies are bound. -/
theorem within : s.syms.Within t.syms := by
  induction h with
  | nil => exact .refl _
  | skip _ _ ih => exact ih
  | @body _ _ name _ params _ body _ s _ _ id f _ _ _ _ _ hf _ _ _ _ ih =>
    have hle := (Keeps.grows [] (bindFnScope f name params body) s).syms
    have hsig := Symbols.sig?_of_le hle hf
    intro j label hlabel
    exact ih j label ((label?_settled hsig _ _ j).trans (Symbols.within_of_le hle j label hlabel))

/-- The bound functions are linked to every table that the last one is within. -/
theorem linked (hs : s.Named) (hle : t.syms.Within Γ)
    (hlabels : ∀ j origin name tyParams params ret body,
      stmts[j]? = some (.fn origin name tyParams params ret body) →
        ∃ id, sigs.lookup (index + j) = some id ∧ s.syms.label? id = some (.fn, name.text)) :
    t.Named ∧ List.Forall₂ (Ast.Stmt.DeclaredAs Γ) (stmts.filter Ast.Stmt.isFn) fns := by
  induction h with
  | nil => exact ⟨hs, .nil⟩
  | skip hskip _ ih =>
    rw [List.filter_cons_of_neg (by simp [hskip])]
    refine ih hs hle fun j origin name tyParams params ret body hj => ?_
    obtain ⟨id, hid, hlabel⟩ := hlabels (j + 1) origin name tyParams params ret body hj
    exact ⟨id, by rwa [Nat.succ_add_eq_add_succ], hlabel⟩
  | @body index origin name tyParams params ret body stmts s t fns id f syms block returns htop hid
      hf hb hparams hscope hrest ih =>
    have hgrows := (Keeps.grows [] (bindFnScope f name params body) s).syms
    have hsig := Symbols.sig?_of_le hgrows hf
    have hlabel := label?_settled hsig ((bodyFrame f name).noting returns) (blockCandidate block)
    have hwithin : (after (bindFnScope f name params body) s).syms.Within Γ := fun j label hj =>
      hle j label (hrest.within j label ((hlabel j).trans hj))
    obtain ⟨hafter, hids, hbody⟩ :=
      (links_bindFnScope f name params body).run s (hs.linked htop) hwithin
    rw [hscope] at hids hbody
    have hkept : ∀ j label, s.syms.label? j = some label →
        ((after (bindFnScope f name params body) s).settled id f ((bodyFrame f name).noting returns)
          (blockCandidate block)).syms.label? j = some label := fun j label hj =>
      (hlabel j).trans (Symbols.within_of_le hgrows j label hj)
    obtain ⟨id', hid', hfn⟩ := hlabels 0 origin name tyParams params ret body rfl
    obtain rfl : id = id' := Option.some.inj (hid.symm.trans hid')
    obtain ⟨ht, hfns⟩ := ih (hafter.toNamed.settled hsig _ _) hle
      fun j origin name tyParams params ret body hj => by
        obtain ⟨id, hid, hlabel⟩ := hlabels (j + 1) origin name tyParams params ret body hj
        exact ⟨id, by rwa [Nat.succ_add_eq_add_succ], hkept _ _ hlabel⟩
    exact ⟨ht, .cons ⟨hle _ _ (hrest.within _ _ (hkept _ _ hfn)), hids hparams, hbody⟩ hfns⟩

/-- Built-in functions stay as they are. -/
theorem get?_builtinSymbol (hf : f.isBuiltin = true)
    (hid : s.syms.get? id = some (builtinSymbol id f)) :
    t.syms.get? id = some (builtinSymbol id f) := by
  induction h with
  | nil => exact hid
  | skip _ _ ih => exact ih hid
  | @body _ _ name _ params _ body _ s _ _ id' g _ _ _ _ _ hg hb _ _ _ ih =>
    refine ih ?_
    have hle := (Keeps.grows [] (bindFnScope g name params body) s).syms
    have hold := hle _ _ hid
    have hne : id' ≠ id := by
      rintro rfl
      rw [Symbols.sig?, hid] at hg
      cases hg
      rw [hf] at hb
      cases hb
    obtain ⟨fs, hafter⟩ :=
      Checks.exists_reporting (settleReturn _ _) (after (bindFnScope g name params body) s)
    rw [State.settled, hafter]
    split
    · exact hold
    · rw [State.resigning, Symbols.get?_setSig, if_neg hne]
      exact hold

/-- Once all bodies are bound, every function is final. -/
theorem isFinal
    (hs : ∀ id f, s.syms.sig? id = some f → f.isFinal = true ∨ DeclaredAmong sigs index stmts id) :
    ∀ id f, t.syms.sig? id = some f → f.isFinal = true := by
  induction h with
  | nil =>
    intro id f hf
    refine (hs id f hf).resolve_right ?_
    rintro ⟨j, stmt, hj, -⟩
    cases hj
  | skip hskip _ ih =>
    refine ih fun id f hf => (hs id f hf).imp_right fun h => h.of_cons.resolve_left ?_
    rintro ⟨hfn, -⟩
    rw [hskip] at hfn
    cases hfn
  | @body index origin name tyParams params ret body stmts s t fns id f syms block returns htop hid
      hf hb hparams hscope hrest ih =>
    have hgrows := Keeps.grows [] (bindFnScope f name params body) s
    obtain ⟨⟨g, hg, hfinal, hopen⟩, hother⟩ :=
      sig?_settled hgrows hf ((bodyFrame f name).noting returns)
      (blockCandidate block)
    refine ih fun j f' hf' => ?_
    by_cases hj : j = id
    · -- this function is settled now, unless it was before
      subst hj
      obtain rfl := Option.some.inj (hg.symm.trans hf')
      cases hisFinal : f.isFinal with
      | true => exact .inl ((hfinal hisFinal).symm ▸ hisFinal)
      | false =>
        obtain ⟨r, rfl⟩ := hopen hisFinal
        exact .inl rfl
    · rw [hother j hj] at hf'
      refine (hs j f' hf').imp_right fun h => h.of_cons.resolve_left ?_
      rintro ⟨-, hlookup⟩
      exact hj (Option.some.inj (hlookup.symm.trans hid))

end Bodies

/-! ## Files -/

namespace Phases

variable (ph : Phases stmts)

theorem named_start : ph.start.Named := ph.prepares.named top_initial named_initial

/-- Each function declaration has a symbol with its name. -/
theorem labels_start (j : Nat) (origin : Origin) (name : Ast.Name) (tyParams : List Ast.Name)
    (params : List Ast.Param) (ret : Option Ast.TyExpr) (body : Ast.Block)
    (hj : stmts[j]? = some (.fn origin name tyParams params ret body)) :
    ∃ id, ph.sigs.lookup (0 + j) = some id ∧ ph.start.syms.label? id = some (.fn, name.text) := by
  obtain ⟨id, f, hid, hf, -, -, hname⟩ :=
    ph.announced.written j origin name tyParams params ret body hj
  obtain ⟨sym, hsym, hkind⟩ := Symbols.sig?_eq_some_iff.mp hf
  refine ⟨id, hid, ?_⟩
  rw [Symbols.label?_of_get? hsym, hkind, ← ph.named_start.signed id sym f hsym hkind, hname]
  rfl

/-- The passes over types add no function but the built-in ones, and every table is within the last
one. -/
theorem closed_types (Γ : Symbols) :
    (∀ i f, Builtin.sigs[i]? = some f → ph.start.syms.get? i = some (builtinSymbol i f)) ∧
      (∀ id f, ph.start.syms.sig? id = some f →
        f.isFinal = true ∨ DeclaredAmong ph.sigs 0 stmts id) ∧
      (ph.start.syms.Within Γ → (∀ d ∈ ph.records, ∃ stmt ∈ stmts, stmt.DeclaresFields Γ d) ∧
        ∀ d ∈ ph.sums, ∃ stmt ∈ stmts, stmt.DeclaresVariants Γ d) := by
  obtain ⟨u, hu, hran, hsigs, hstart⟩ := ph.declares
  obtain ⟨s₁, s₃, hbuiltins, hrecords, hsums⟩ := TypePasses.of_ran hran
  obtain ⟨-, hnumbers, honly⟩ := syms_declareBuiltins hbuiltins
  have hnames := addsNoFn_declareTypeNames 0 stmts s₁
  have hle := (announced_declareSigs 0 stmts hu).1
  rw [← hstart] at hle
  obtain ⟨hfields, hrecord⟩ := hrecords.labels BindsRecord.labels
  obtain ⟨hvariants, hsum⟩ := hsums.labels BindsSum.labels
  have hadds : s₁.syms.AddsNoFn u.syms := (hnames.trans hfields).trans hvariants
  refine ⟨fun i f hf => ?_, fun id f hf => ?_, fun hwithin => ⟨?_, ?_⟩⟩
  · have hsym := hnumbers i f hf
    rw [show (State.initial : State).syms.size + i = i from Nat.zero_add i] at hsym
    exact hle _ _ (hadds.le _ _ hsym)
  · rw [hstart] at hf
    rw [hsigs]
    refine (sig?_declareSigs 0 stmts hu hf).imp_left fun hold => ?_
    rcases honly id f (hadds.sig? hold) with hnone | hmem
    · cases hnone
    · have hfinal : ∀ f ∈ Builtin.sigs, f.isFinal = true := by decide
      exact hfinal f hmem
  · exact hrecord Γ (((Symbols.within_of_le hvariants.le).trans (Symbols.within_of_le hle)).trans
      hwithin)
  · exact hsum Γ ((Symbols.within_of_le hle).trans hwithin)

end Phases

end Binding

open Binding

/-- A bound file is closed under reference, also if something is reported. Its functions, statements
and types refer to symbols of its own table, of the right kinds and with the names that are written.
Every symbol knows its number, the built-in functions come first, and every function is final and
has the type of its signature. -/
theorem Session.linked_bind (session : Session) (file : Ast.SourceFile) :
    ∃ p diagnostics, (session.bind file).1 = .ok ⟨p, diagnostics⟩ ∧
      List.Forall₂ (Ast.Stmt.DeclaredAs p.syms) (file.stmts.filter Ast.Stmt.isFn) p.fns ∧
      Ast.Stmt.AllBindTo p.syms (topStatements file.stmts) p.stmts ∧
      (∀ d ∈ p.records, ∃ stmt ∈ file.stmts, stmt.DeclaresFields p.syms d) ∧
      (∀ d ∈ p.sums, ∃ stmt ∈ file.stmts, stmt.DeclaresVariants p.syms d) ∧
      (∀ id sym, p.syms.get? id = some sym → sym.id = id) ∧
      (Builtin.sigs.length = 11 ∧
        ∀ id f, Builtin.sigs[id]? = some f → p.syms.get? id = some (builtinSymbol id f)) ∧
      ∀ id sym f, p.syms.get? id = some sym → sym.kind = .fn f → f.isFinal = true ∧ sym.ty = f.ty := by
  obtain ⟨ph, hran⟩ := exists_phases file.stmts session.state
  rw [Session.bind_eq_of_ran hran]
  have hfinal := Symbols.within_of_le ph.grows_final.syms
  obtain ⟨hbuiltins, hopen, htypes⟩ := ph.closed_types ph.final.syms
  obtain ⟨hrecords, hsums⟩ := htypes (ph.bodies.within.trans hfinal)
  obtain ⟨hbound, hfns⟩ := ph.bodies.linked ph.named_start hfinal ph.labels_start
  obtain ⟨hnamed, hstatements⟩ := (links_bindStmts (topStatements file.stmts) (.nil _)).run ph.bound
    (hbound.linked ph.top_bound) (.refl ph.final.syms)
  refine ⟨ph.program, _, rfl, hfns, hstatements, hrecords, hsums, hnamed.numbered,
    ⟨by decide, fun id f hf => ?_⟩,
    fun id sym f hsym hkind => ⟨?_, (ph.signed_final id sym f hsym hkind).1⟩⟩
  · have hbuiltin : ∀ f ∈ Builtin.sigs, f.isBuiltin = true := by decide
    exact ph.grows_final.syms _ _
      (ph.bodies.get?_builtinSymbol (hbuiltin f (List.mem_of_getElem? hf)) (hbuiltins id f hf))
  · refine ph.bodies.isFinal hopen id f ?_
    rw [← (Inside.of_grows ph.grows_final).sig?_eq]
    exact Symbols.sig?_eq_some_iff.mpr ⟨sym, hsym, hkind⟩

end Bindery
