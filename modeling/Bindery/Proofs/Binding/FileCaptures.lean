import Bindery.Proofs.Binding.Resolution
import Bindery.Proofs.Binding.Passes

/-!
# The mutable captures of a file

The bodies of the functions, and then the other statements, are bound with nothing in sight. So the
captures found in a whole file are those of the walk through it.
-/

namespace Bindery.Binding

open Lexical

variable {α : Type} {a : Scopes} {env : Env}

/-! ## Functions -/

variable {f : Sig} {all : List Ast.Stmt}

theorem tracks_bindFnScope {params : List Ast.Param} (hparams : f.params.length = params.length)
    (name : Ast.Name) (body : Ast.Block) :
    Tracks a env
      (.inScope fun _ => walkStmts a (env.opened.declareAll (params.map (·.name.text))) body.stmts) env
      (bindFnScope f name params body) := by
  have hlength : f.paramTys.length = params.length := by rw [Sig.paramTys, List.length_map, hparams]
  obtain ⟨env', hbody⟩ := @tracks_bindStmts a (env.opened.declareAll (params.map (·.name.text)))
    body.stmts
  have hdeclare := @tracks_declareLocals a env.opened ((params.map Ast.Param.name).zip f.paramTys)
  rw [map_text_zip hlength] at hdeclare
  exact ((hdeclare.seq fun syms =>
    (((hbody.withScopeDepth _).withLoopDepth _).withFn _).thenChecks).withGenerics _).inScope .fn

theorem State.localOf?_resigning {s : State} {id : SymId} (hf : s.syms.sig? id = some f) (g : Sig) :
    (s.resigning id g).localOf? = s.localOf? := by
  obtain ⟨sym, hsym, hkind⟩ := Symbols.sig?_eq_some_iff.mp hf
  funext j
  show ((s.syms.setSig id g).get? j).bind _ = (s.syms.get? j).bind _
  rw [Symbols.get?_setSig]
  split
  · next hj =>
    rw [← hj, hsym]
    simp [Symbol.isMutable, hkind, State.resigning]
  · rfl

theorem State.scopes_settled (s : State) (id : SymId) (f : Sig) (frame : FnFrame)
    (trailing : Option (Ty × Range)) : (s.settled id f frame trailing).scopes = s.scopes := by
  obtain ⟨fs, hafter⟩ := Checks.exists_reporting (settleReturn frame trailing) s
  rw [State.settled, hafter]
  split <;> rfl

/-- Settling the return type of a function changes nothing that is in sight. -/
theorem Walks.settled {w : Walk} {s u : State} {id : SymId} (hwalks : Walks w s u)
    (hmodels : Models env u)
    (hf : u.syms.sig? id = some f) (frame : FnFrame) (trailing : Option (Ty × Range)) :
    Walks w s (u.settled id f frame trailing) ∧ Models env (u.settled id f frame trailing) := by
  have hcaptures := Checks.captureFindings_eq (settleReturn frame trailing) u
  obtain ⟨fs, hafter⟩ := Checks.exists_reporting (settleReturn frame trailing) u
  have hmodels' : Models env (after (settleReturn frame trailing) u) := by
    rw [hafter]
    exact hmodels.congr rfl rfl rfl rfl
  have hnext := hwalks.next.trans (congrArg Scopes.size (u.scopes_settled id f frame trailing)).symm
  rw [State.settled] at hnext ⊢
  split at hnext
  · next hfinal =>
    rw [if_pos hfinal]
    exact ⟨⟨hnext, hcaptures.trans hwalks.findings⟩, hmodels'⟩
  · next hfinal =>
    rw [if_neg hfinal]
    refine ⟨⟨hnext, hcaptures.trans hwalks.findings⟩, hmodels'.congr rfl rfl rfl ?_⟩
    refine State.localOf?_resigning (f := f) ?_ _
    rw [hafter]
    exact hf

namespace Bodies

variable {sigs : List (Nat × SymId)} {index : Nat} {stmts : List Ast.Stmt}
  {fns : List Bound.FnDecl} {s t : State}

theorem scopes (h : Bodies sigs index stmts s fns t) : s.scopes.Grows [] 0 Scopes.rootId t.scopes := by
  induction h with
  | nil => exact .refl _ _ _ _
  | skip _ _ ih => exact ih
  | @body _ _ name _ params _ body _ s _ _ id f _ block returns htop _ _ _ _ _ _ ih =>
    have hgrows := (Keeps.grows [] (bindFnScope f name params body) s).scopes
    rw [State.scopes_settled] at ih
    rw [htop.current] at hgrows
    exact (hgrows.mono (fun _ h => h) (Nat.zero_le _)).trans ih

/-- The bodies of the functions follow the walk through them. -/
theorem walks (h : Bodies sigs index stmts s fns t) (hmodels : Models .root s)
    (hsettled : Settled a s t) : Walks (walkFns a stmts) s t ∧ Models .root t := by
  induction h with
  | nil => exact ⟨⟨rfl, (List.append_nil _).symm⟩, hmodels⟩
  | @skip _ stmt _ _ _ _ hskip _ ih =>
    cases stmt with
    | fn => cases hskip
    | _ => exact ih hmodels hsettled
  | @body _ _ name _ params _ body _ s t _ id f _ block returns htop _ hf hb hparams _ hrest ih =>
    have hgrows := Keeps.grows [] (bindFnScope f name params body) s
    have htracks := @tracks_bindFnScope a .root f params hparams name body
    have hsig := Symbols.sig?_of_le hgrows.syms hf
    have hscopes := hrest.scopes
    have htop' := (top_settled (htop.grows hgrows) hsig hb ((bodyFrame f name).noting returns)
      (blockCandidate block)).1
    rw [← htop'.current] at hscopes
    obtain ⟨hbody, hafter⟩ := hsettled.split (htop'.current ▸ htop.current ▸ htop.valid.current_lt)
      (by rw [State.scopes_settled]; exact hgrows.scopes.size_le) hscopes
    rw [Settled, State.scopes_settled] at hbody
    obtain ⟨hwalks, hmodels'⟩ := htracks.step s htop.valid hmodels hbody
    obtain ⟨hwalks', hmodels''⟩ := hwalks.settled hmodels' hsig ((bodyFrame f name).noting returns)
      (blockCandidate block)
    obtain ⟨hwalks'', hmodels₃⟩ := ih hmodels'' hafter
    exact ⟨hwalks'.andThen hwalks'', hmodels₃⟩

end Bodies

/-! ## The start of the bodies -/

theorem State.Top.exists_root {s : State} (hs : s.Top) : ∃ sc, s.scopes.get? Scopes.rootId = some sc :=
  Scopes.exists_get?_of_lt (hs.current ▸ hs.valid.current_lt)

/-- The root scope is the only one around. -/
theorem State.Top.chain_eq {s : State} (hs : s.Top) : s.scopes.chain s.current = [Scopes.rootId] := by
  obtain ⟨rest, hchain, hlt⟩ := Scopes.exists_chain_eq_cons hs.valid.nested hs.valid.current_lt
  rw [hs.current] at hchain hlt ⊢
  have hrest : rest = [] := List.eq_nil_iff_forall_not_mem.mpr fun c hc => Nat.not_lt_zero c (hlt c hc)
  rw [hchain, hrest]

/-- Only the root scope has been opened, it has no variable, and no capture was found. -/
structure State.Bare (s : State) : Prop where
  size : s.scopes.size = 1
  bare : ∀ c sc, s.scopes.get? c = some sc → ∀ name, sc.varNames.get? name = none
  captureFindings : s.captureFindings = []

namespace State.Bare

variable {s t : State}

theorem initial : State.initial.Bare where
  size := rfl
  bare c sc hsc name := by
    cases get?_initial hsc
    rfl
  captureFindings := rfl

variable (h : s.Bare)

include h

theorem congr (hscopes : t.scopes = s.scopes) (hcaptures : t.captureFindings = s.captureFindings) :
    t.Bare :=
  ⟨hscopes ▸ h.size, hscopes ▸ h.bare, hcaptures.trans h.captureFindings⟩

theorem checks (m : Binding α) [hm : Checks m] : (after m s).Bare := by
  refine h.congr ?_ (Checks.captureFindings_eq m s)
  obtain ⟨fs, -, hs⟩ := hm.after_eq s
  rw [hs]
  rfl

theorem addingFn (f : Sig) : (s.addingFn f).Bare := h.congr rfl rfl

theorem declaringFn (name : String) (id : SymId) : (s.declaringFn name id).Bare where
  size := Array.size_modify.trans h.size
  bare c sc hsc x := by
    obtain ⟨sc', hsc', -, htable⟩ := Scopes.exists_of_get?_adding hsc
    cases hx : sc.varNames.get? x with
    | none => rfl
    | some v =>
      rcases htable .var x v hx with ⟨-, ⟨hspace, -⟩, -⟩ | hv
      · cases hspace
      · exact absurd ((h.bare c sc' hsc' x).symm.trans hv) nofun
  captureFindings := h.captureFindings

theorem step (hs : s.Top) (hstep : Step all s t) : t.Bare := by
  cases hstep with
  | checks m => exact h.checks m
  | naming => exact h.congr rfl rfl
  | type => exact h.congr rfl rfl
  | field field hu =>
    rw [hu]
    exact (h.checks _).congr rfl rfl
  | variant variant hu =>
    rw [hu]
    exact (h.checks _).congr rfl rfl
  | builtin => exact (h.addingFn _).declaringFn _ _
  | @sig _ name tyParams params ret _ _ _ =>
    obtain ⟨u, f, rfl, -, -, hafter⟩ := declareSig_cases name tyParams params ret hs
    have hadd := (h.checks (writtenSig name tyParams params ret)).addingFn f
    rcases hafter with ⟨-, hafter⟩ | ⟨-, hafter⟩
    · rw [hafter]
      exact hadd.declaringFn _ _
    · rw [hafter, ← after_report]
      have := Checks.report name.range (p := .alreadyDeclared name.text) rfl
      exact hadd.checks _

/-- Nothing is in sight at the top level of a file without variables. -/
theorem models (hs : s.Top) : Models .root s := by
  obtain ⟨sc, hsc⟩ := hs.exists_root
  refine ⟨(congrArg List.length hs.boundaries).symm, ?_⟩
  rw [hs.chain_eq]
  refine .cons ⟨sc, hsc, fun name => ?_⟩ .nil
  rw [h.bare _ sc hsc]
  rfl

end State.Bare

theorem Prepares.bare {s t : State} (h : Prepares all s t) (hs : s.Top) (hbare : s.Bare) :
    t.Bare := h.keeps hs (fun htop hstep hu => hu.step htop hstep) hbare

/-- A bind finds the mutable captures of the walk through the file, each once and in order. -/
theorem Phases.captureFindings_final {stmts : List Ast.Stmt} (ph : Phases stmts) :
    ph.final.captureFindings = (mutableCaptures ph.final.scopes stmts).map Mention.finding := by
  have htop := ph.prepares.top top_initial
  have hbare := ph.prepares.bare top_initial .initial
  have hsettled : Settled ph.final.scopes ph.start ph.final := fun _ _ _ => rfl
  have hgrows := ph.grows_final
  obtain ⟨hfns, hstatements⟩ :=
    hsettled.split (ph.top_bound.current ▸ htop.current ▸ htop.valid.current_lt)
    ph.bodies.scopes.size_le hgrows.scopes
  obtain ⟨hwalks, hmodels⟩ := ph.bodies.walks (hbare.models htop) hfns
  obtain ⟨env', htracks⟩ := @tracks_bindStmts ph.final.scopes .root (topStatements stmts)
  have hfile := hwalks.andThen (htracks.step ph.bound ph.top_bound.valid hmodels hstatements).1
  have hfindings := hfile.findings
  rw [hbare.size, hbare.captureFindings] at hfindings
  exact hfindings

end Bindery.Binding
