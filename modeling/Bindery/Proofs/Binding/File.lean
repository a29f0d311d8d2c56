import Bindery.Proofs.Binding.Account
import Bindery.Proofs.Binding.Passes

/-!
# Files that are bound quietly

Nothing that a pass reports is ever taken back, so in a file without findings every function body
and every statement at the top level is bound quietly. What the accounts say of the nodes of each
then holds of the whole bound file.
-/

namespace Bindery.Binding

open Bindery.Bound

variable {Γ : Symbols} {s t : State}

/-! ## Function bodies -/

/-- The state in which the parameters of a function are declared. -/
def State.enteringFn (s : State) (f : Sig) : State := (s.opened .fn).naming f.tyParams

/-- The state in which the body of a function is bound. -/
def State.enteringStatements (s : State) (frame : FnFrame) : State :=
  ((s.inFns (frame :: s.fns)).inLoops 0).inScopeBlocks 0

/-- The state behind a function that was met in `s`, whose parameters were declared in `u` and whose
body ended in `v`. -/
def State.leavingFn (s u v : State) : State :=
  ((((v.inScopeBlocks u.scopeDepth).inLoops u.loopDepth).inFns v.fns.tail).naming s.generics).at
    s.current

variable {f : Sig} {syms : List SymId} {params : List Ast.Param} {frame : Option FnFrame}
  {body : Ast.Block} {name : Ast.Name} {u : State}

/-- The parts of a function: its parameters and the statements of its body. -/
theorem Quiet.bindFnScope {block : Block}
    (h : Quiet Γ (bindFnScope f name params body) s (syms, block, frame) t) :
    ∃ u stmts v,
      Quiet Γ (Binding.declareLocals .parameter ((params.map Ast.Param.name).zip f.paramTys))
        (s.enteringFn f) syms u ∧
      Quiet Γ (bindStmts body.stmts) (u.enteringStatements (bodyFrame f name)) stmts v ∧
      block = .ofStatements stmts body.range ∧ frame = v.fns.head? ∧ t = s.leavingFn u v := by
  obtain ⟨w, hscope, rfl⟩ := h.inScope
  obtain ⟨w', hgenerics, rfl⟩ := hscope.withGenerics
  obtain ⟨syms', u, hparams, hrest⟩ := hgenerics.bind
  obtain ⟨⟨stmts, frame'⟩, hfn, heq⟩ := hrest.bind_pure
  cases heq
  obtain ⟨y, hloops, hframe, rfl⟩ := hfn.withFn
  obtain ⟨z, hdepth, rfl⟩ := hloops.withLoopDepth
  obtain ⟨v, hstmts, rfl⟩ := hdepth.withScopeDepth
  exact ⟨u, stmts, v, hparams, hstmts, rfl, hframe, rfl⟩

/-- The body of a function is accounted for, and the function notes what its body returns. -/
theorem Quiet.lawful_bindFnScope {block : Block} (hs : s.Valid)
    (h : Quiet Γ (Binding.bindFnScope f name params body) s (syms, block, frame) t) :
    (∀ n ∈ block.nodes true, Lawful Γ s.registry n) ∧
      frame = some ((bodyFrame f name).noting (returnedBy (block.nodes false))) := by
  obtain ⟨u, stmts, v, hparams, hstmts, rfl, rfl, -⟩ := h.bindFnScope
  have henter : (s.enteringFn f).Valid := (hs.opened .fn).congr rfl rfl rfl rfl
  have hu := hparams.grows (keeps_declareLocals rfl _)
  have hbody : (u.enteringStatements (bodyFrame f name)).Valid :=
    (hu.valid henter).congr rfl rfl rfl rfl
  have haccounts := Accounts.traversal.bindStmts body.stmts hbody hstmts
  have hregistry : (u.enteringStatements (bodyFrame f name)).registry = s.registry := hu.registry
  refine ⟨?_, ?_⟩
  · intro n hn
    rcases List.mem_cons.mp hn with rfl | hn
    · trivial
    · rw [← hregistry]
      exact haccounts.lawful n hn
  · rw [haccounts.returned]
    rfl

/-! ## Silent passes -/

theorem Lawful.mono {Γ' : Symbols} {r : Registry} {n : Node} (h : Lawful Γ r n)
    (hsyms : ∀ id sym, Γ.get? id = some sym → (∀ f, sym.kind ≠ .fn f) → Γ'.get? id = some sym) :
    Lawful Γ' r n := by
  unfold Lawful at h ⊢
  split
  · refine ⟨h.1, fun id hid => ?_⟩
    obtain ⟨sym, hsym, hkind⟩ := h.2 id hid
    refine ⟨sym, hsyms id sym hsym fun f hf => ?_, hkind⟩
    rcases hkind with hkind | hkind <;> rw [hf] at hkind <;> cases hkind
  · exact h
  · trivial

/-- The state in which a function is settled comes later than that in which its body is bound. -/
theorem later_settled (hs : s.Top) (hu : Grows [] s u) {id : SymId} (hf : s.syms.sig? id = some f)
    (hb : f.isBuiltin = false) (frame : FnFrame) (trailing : Option (Ty × Range)) :
    Later u (u.settled id f frame trailing) ∧ (u.settled id f frame trailing).registry =
      s.registry := by
  have hsig := Symbols.sig?_of_le hu.syms hf
  refine ⟨(top_settled (hs.grows hu) hsig hb frame trailing).2, ?_⟩
  have hgrows := Keeps.grows [] (settleReturn frame trailing) u
  rw [State.settled]
  split
  · exact hgrows.registry.trans hu.registry
  · exact hgrows.registry.trans hu.registry

theorem Later.findings_eq (hsu : Later s u) (hut : Later u t) (h : t.findings = s.findings) :
    u.findings = s.findings := by
  have hfindings := hut.findings
  rw [h] at hfindings
  exact Array.toList_inj.mp (hfindings.eq_of_length_le hsu.findings.length_le)

namespace Bodies

variable {sigs : List (Nat × SymId)} {index : Nat} {stmts : List Ast.Stmt}
  {fns : List FnDecl}

theorem later (h : Bodies sigs index stmts s fns t) : Later s t ∧ t.registry = s.registry := by
  induction h with
  | nil => exact ⟨.refl _, rfl⟩
  | skip _ _ ih => exact ih
  | @body _ _ name _ params _ body _ s _ _ id f _ block returns htop _ hf hb _ _ _ ih =>
    have hgrows := Keeps.grows [] (bindFnScope f name params body) s
    obtain ⟨hlater, hregistry⟩ := later_settled htop hgrows hf hb ((bodyFrame f name).noting returns)
      (blockCandidate block)
    exact ⟨((Later.grows hgrows).trans hlater).trans ih.1, ih.2.trans hregistry⟩

/-- If no function after a body finds anything new, neither that body nor its settled signature
has. -/
theorem silent {id : SymId} {frame : FnFrame} {trailing : Option (Ty × Range)}
    (hrest : Bodies sigs index stmts (u.settled id f frame trailing) fns t) (hs : s.Top)
    (hu : Grows [] s u) (hf : s.syms.sig? id = some f) (hb : f.isBuiltin = false)
    (hsilent : t.findings = s.findings) :
    u.findings = s.findings ∧ (u.settled id f frame trailing).findings = s.findings := by
  have hlater := (later_settled hs hu hf hb frame trailing).1
  exact ⟨(Later.grows hu).findings_eq (hlater.trans hrest.later.1) hsilent,
    ((Later.grows hu).trans hlater).findings_eq hrest.later.1 hsilent⟩

/-- The nodes of all bodies are lawful if none of them reports anything. -/
theorem lawful (h : Bodies sigs index stmts s fns t) (hsilent : t.findings = s.findings) :
    ∀ f ∈ fns, ∀ n ∈ f.body.nodes true, Lawful t.syms t.registry n := by
  induction h with
  | nil => simp
  | skip _ _ ih => exact ih hsilent
  | @body _ _ name _ params _ body _ s t _ id f _ block returns htop _ hf hb _ hscope hrest ih =>
    have hgrows := Keeps.grows [] (bindFnScope f name params body) s
    obtain ⟨hlater, hregistry⟩ := later_settled htop hgrows hf hb ((bodyFrame f name).noting returns)
      (blockCandidate block)
    obtain ⟨hbody, hsettled⟩ := hrest.silent htop hgrows hf hb hsilent
    refine List.forall_mem_cons.mpr ⟨fun n hn => ?_, ih (hsilent.trans hsettled.symm)⟩
    have hquiet : Quiet (after (bindFnScope f name params body) s).syms
        (bindFnScope f name params body) s _ _ := ⟨hscope, rfl, hbody, Symbols.le_refl _⟩
    have hlawful := (hquiet.lawful_bindFnScope htop.valid).1 n hn
    rw [← hregistry, ← hrest.later.2] at hlawful
    exact hlawful.mono (hlater.trans hrest.later.1).syms

end Bodies

namespace Phases

variable {stmts : List Ast.Stmt} (ph : Phases stmts)

theorem silent_of_later (hu : Later u ph.final) (h : ph.final.findings = #[]) : u.findings = #[] := by
  have hfindings := hu.findings
  rw [h] at hfindings
  exact Array.toList_inj.mp (List.prefix_nil.mp hfindings)

theorem silent_bound (h : ph.final.findings = #[]) : ph.bound.findings = #[] :=
  ph.silent_of_later (.grows ph.grows_final) h

theorem silent_start (h : ph.final.findings = #[]) : ph.start.findings = #[] :=
  ph.silent_of_later (ph.bodies.later.1.trans (.grows ph.grows_final)) h

/-- Every node of a file without findings is lawful. -/
theorem lawful (hsilent : ph.final.findings = #[]) :
    ∀ n ∈ ph.program.nodes true, Lawful ph.program.syms ph.final.registry n := by
  have hgrows := ph.grows_final
  have hbound := ph.silent_bound hsilent
  have hstart := ph.silent_start hsilent
  intro n hn
  rcases List.mem_append.mp hn with hn | hn
  · obtain ⟨f, hf, hn⟩ := List.mem_flatMap.mp hn
    have hlawful := ph.bodies.lawful (hbound.trans hstart.symm) f hf n hn
    rw [← hgrows.registry] at hlawful
    exact hlawful.mono fun id sym hsym _ => hgrows.syms id sym hsym
  · have hquiet : Quiet ph.final.syms (bindStmts (topStatements stmts)) ph.bound _ ph.final :=
      ⟨rfl, rfl, hsilent.trans hbound.symm, Symbols.le_refl _⟩
    have haccounts := Accounts.traversal.bindStmts _ ph.top_bound.valid hquiet
    have hlawful := haccounts.lawful n hn
    rw [← hgrows.registry] at hlawful
    exact hlawful

end Phases

end Bindery.Binding

namespace Bindery

/-- The file is bound to the program without a diagnostic, though diagnostics would be returned. -/
structure Session.BindsQuietly (session : Session) (file : Ast.SourceFile) (p : Bound.Program) :
    Prop where
  limit : session.options.maxDiagnostics ≠ some 0
  outcome : (session.bind file).1 = .ok ⟨p, []⟩

theorem Options.eq_nil_of_limit {o : Options} {ds : List Diagnostic} (ho : o.maxDiagnostics ≠ some 0)
    (h : o.limit ds = []) : ds = [] := by
  unfold limit at h
  split at h
  · exact h
  · next n hn =>
    rcases List.take_eq_nil_iff.mp h with rfl | h
    · exact absurd hn ho
    · exact h

/-- The passes of a file that is bound quietly have found nothing. -/
theorem Session.BindsQuietly.exists_phases {session : Session} {file : Ast.SourceFile}
    {p : Bound.Program} (h : session.BindsQuietly file p) :
    ∃ ph : Binding.Phases file.stmts, p = ph.program ∧ ph.final.findings = #[] := by
  obtain ⟨ph, hran⟩ := Binding.exists_phases file.stmts session.state
  have houtcome := h.outcome
  rw [Session.bind_eq_of_ran hran] at houtcome
  obtain ⟨hp, hdiagnostics⟩ := BindResult.mk.inj (Except.ok.inj houtcome)
  have hnil := Options.eq_nil_of_limit h.limit hdiagnostics
  refine ⟨ph, hp.symm, ?_⟩
  exact Array.toList_eq_nil_iff.mp (List.map_eq_nil_iff.mp hnil)

/-- A file is bound quietly if its bind, worked out, gives no diagnostic. -/
theorem exists_bindsQuietly (options : Options) (file : Ast.SourceFile) (P : Bound.Program → Bool)
    (hlimit : options.maxDiagnostics ≠ some 0)
    (h : ((bindFile options file).toOption.any fun r => r.diagnostics.isEmpty && P r.program) = true) :
    ∃ p, (Session.start options).BindsQuietly file p ∧ P p = true := by
  rw [bindFile] at h
  cases houtcome : ((Session.start options).bind file).1 with
  | error e =>
    rw [houtcome] at h
    cases h
  | ok r =>
    obtain ⟨p, diagnostics⟩ := r
    rw [houtcome] at h
    obtain ⟨hempty, hp⟩ := Bool.and_eq_true_iff.mp h
    have hnil : diagnostics = [] := List.isEmpty_iff.mp hempty
    exact ⟨p, ⟨hlimit, by rw [houtcome, hnil]⟩, hp⟩

end Bindery
