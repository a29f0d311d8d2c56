import Bindery.Proofs.Binding.FileTyping
import Bindery.Proofs.Binding.Signatures

/-!
# Calls and the signatures of the finished file

The type of a call is the return type of the called function under the type arguments that the call
records, and a function used by name has the type of the function. Both are read off the signature
that the function has when the call is bound. In the statements at the top level that is the
signature of the finished file. In the body of a function it is too, except for functions whose
return type is inferred and whose body is this one or a later one: those still return `Unit`.
-/

namespace Bindery

open Bindery.Bound

/-- A call by name has the return type of the given signature of the function, with the recorded
type arguments put in, and a function used by name has the type of its signature. -/
def Bound.Node.Heeds (sig? : SymId → Option Sig) : Node → Prop
  | .expr ⟨.call id tyArgs _, ty, _⟩ =>
    ∃ f, sig? id = some f ∧ (f.isBuiltin = false → ty = f.ret.subst (.ofArguments f.tyParams tyArgs))
  | .expr ⟨.fnRef id, ty, _⟩ => ∃ f, sig? id = some f ∧ ty = f.ty
  | _ => True

/-- The recorded type arguments say all that a closed substitution does, if it knows nothing but the
parameters. -/
theorem Subst.subst_instantiate {σ : Subst} {params : List String}
    (h : ∀ n, n ∉ params → σ.get? n = none) (ty : Ty) :
    ty.subst (σ.closeWith params) =
      ty.subst (.ofArguments params ((σ.closeWith params).instantiate params)) := by
  apply Ty.subst_congr
  intro n _
  rw [get?_closeWith]
  by_cases hn : n ∈ params
  · rw [instantiate, get?_ofArguments_map _ hn, get?_closeWith, if_pos hn]
    rfl
  · rw [if_neg hn, h n hn, get?_ofArguments_of_not_mem _ hn]

namespace Binding

variable {Γ : Symbols} {s t : State}

/-! ## One expression -/

variable {args : List Expr} {expected : Option Ty} {name : Ast.Name} {stmts : List Ast.Stmt}

/-- A quiet call of a function heeds the signature it is called with. -/
theorem heeds_finishFnCall {id : SymId} {f : Sig} {explicit : Subst} {isExplicit : Bool}
    {range : Range} {e : Expr} {sig? : SymId → Option Sig} (hf : sig? id = some f)
    (hscoped : f.isBuiltin = false → f.Scoped)
    (hexplicit : ∀ n, n ∉ f.tyParams → explicit.get? n = none)
    (h : Quiet Γ (finishFnCall id f explicit isExplicit true args range) s e t) :
    (Node.expr e).Heeds sig? := by
  obtain ⟨-, -, -, closed, rfl, rfl⟩ := h.finishFnCall
  refine ⟨f, hf, fun hb => ?_⟩
  apply Subst.subst_instantiate
  intro n hn
  split
  · -- what is inferred stands for placeholders of the parameters
    rw [Ty.get?_inferAll, hexplicit n hn]
    rintro hmem
    obtain ⟨ty, hty, hn'⟩ := Ty.mem_allPlaceholders.mp hmem
    exact hn (hscoped hb ty hty n hn')
  · exact hexplicit n hn

theorem heeds_finishCall {tyArgs : List Ast.TyExpr} {range : Range} {callee : Callee} {e : Expr}
    {u : State}
    (hsigned : s.syms.Signed) (hcallee : Quiet Γ (namedCallee expected name tyArgs range) s callee s)
    (h : Quiet Γ (finishCall callee args range) u e t) : (Node.expr e).Heeds s.syms.sig? := by
  rcases hcallee.namedCallee with ⟨id, f, -, hf, hcallee⟩ | ⟨sum, d, -, -, rfl⟩
  · have hscoped := hsigned.scoped_of_sig? hf
    obtain ⟨-, explicit, -, ⟨builtin, hb, -, -, rfl⟩ | ⟨-, ⟨-, rfl⟩ | ⟨-, -, rfl⟩⟩⟩ := hcallee.fnCallee
    · obtain ⟨-, ty, -, rfl⟩ := Quiet.finishBuiltinCall h
      refine ⟨f, hf, fun hb' => ?_⟩
      rw [hb] at hb'
      cases hb'
    · exact heeds_finishFnCall hf hscoped (fun n _ => OrderedMap.get?_empty n) h
    · exact heeds_finishFnCall hf hscoped (fun n hn => Subst.get?_ofArguments_of_not_mem _ hn) h
  · obtain ⟨-, ⟨-, rfl, rfl⟩ | ⟨payload, arg, -, rfl, -, rfl⟩⟩ := Quiet.finishVariantCall h <;> trivial

/-- An expression that is bound quietly heeds the signatures of the place where it is bound. -/
theorem heeds_bindExpr {e : Ast.Expr} {b : Expr} (hs : s.Valid) (hsigned : s.syms.Signed)
    (h : Quiet Γ (bindExpr expected e) s b t) : (Node.expr b).Heeds s.syms.sig? := by
  rcases mentions_bindExpr h with ⟨name, rfl⟩ | ⟨name, tyArgs, range, target, bs, hnamed,
    hfinish⟩ | hnone
  · rcases h.bindExpr_name.nameExpr hs with ⟨id, -, rfl⟩ | ⟨-, hname⟩
    · trivial
    · obtain ⟨-, ⟨id, hlookup, rfl⟩ | ⟨sum, d, -, -, rfl⟩⟩ := hname.nonVarExpr
      · obtain ⟨c, sc, -, hsc, hid⟩ := Scopes.exists_of_lookup hlookup
        obtain ⟨sym, f, hsym, hkind⟩ := hs.fn_known c sc name.text id hsc hid
        refine ⟨f, Symbols.sig?_eq_some_iff.mpr ⟨sym, hsym, hkind⟩, ?_⟩
        rw [hsym]
        exact (hsigned id sym f hsym hkind).1
      · trivial
  · exact heeds_finishCall hsigned hnamed hfinish
  · obtain ⟨kind, ty, range⟩ := b
    cases kind with
    | fnRef | call => cases hnone
    | _ => trivial

/-- Every node that was made inside a tree heeds the signatures of its start. -/
theorem IsSited.heeds {n : Node} (hsigned : s.syms.Signed) (h : IsSited Γ s n) :
    n.Heeds s.syms.sig? := by
  cases n with
  | expr b =>
    obtain ⟨expected, e, u, t, hinside, hu, hquiet⟩ := h
    have hheeds := heeds_bindExpr hu (hsigned.of_inside hinside) hquiet
    rwa [show u.syms.sig? = s.syms.sig? from funext hinside.sig?_eq] at hheeds
  | _ => trivial

/-! ## Files -/

/-- The body of a function that is bound quietly heeds the signatures of the state in which it is
bound. -/
theorem heeds_bindFnScope {f : Sig} {params : List Ast.Param} {body : Ast.Block}
    {syms : List SymId} {block : Block} {frame : Option FnFrame} (hs : s.Valid)
    (hsigned : s.syms.Signed) (h : Quiet Γ (bindFnScope f name params body) s (syms, block, frame) t) :
    ∀ n ∈ block.nodes true, n.Heeds s.syms.sig? := by
  obtain ⟨u, stmts, v, hparams, hstmts, rfl, -, -⟩ := h.bindFnScope
  have hu := hparams.grows (keeps_declareLocals rfl _)
  have henter : (s.enteringFn f).Valid := (hs.opened .fn).congr rfl rfl rfl rfl
  have hbody : (u.enteringStatements (bodyFrame f name)).Valid :=
    (hu.valid henter).congr rfl rfl rfl rfl
  have hinside : Inside s (u.enteringStatements (bodyFrame f name)) := ⟨hu.registry, hu.syms, hu.added⟩
  have hsites := Sites.traversal.bindStmts body.stmts hbody hstmts
  intro n hn
  rcases List.mem_cons.mp hn with rfl | hn
  · trivial
  · exact ((hsites.sited n hn).of_inside hinside).heeds hsigned

/-- In the body of each function, the signatures that are still open return `Unit`. -/
theorem Bodies.heeds {sigs : List (Nat × SymId)} {index : Nat} {fns : List FnDecl}
    (h : Bodies sigs index stmts s fns t)
    (hannounced : Announced sigs index stmts s.syms) (hsigned : s.syms.Signed)
    (hsilent : t.findings = s.findings) {before after : List (FnDecl × Ast.Stmt)}
    {q : FnDecl × Ast.Stmt}
    (hsplit : fns.zip (stmts.filter Ast.Stmt.isFn) = before ++ q :: after) :
    ∀ n ∈ q.1.body.nodes true, n.Heeds (t.syms.sigDuring? (q :: after)) := by
  induction h generalizing before with
  | nil => simp at hsplit
  | skip hskip _ ih =>
    rw [List.filter_cons_of_neg (by simp [hskip])] at hsplit
    exact ih (hannounced.tail fun _ _ _ _ => rfl) hsigned hsilent hsplit
  | @body index origin name tyParams params ret body stmts s t fns id f syms block returns htop hid
      hf hb hparams hscope hrest ih =>
    have hbodies : Bodies sigs index (.fn origin name tyParams params ret body :: stmts) s
        (⟨id, syms, block, origin.range⟩ :: fns) t := .body htop hid hf hb hparams hscope hrest
    have hsig := hbodies.sig?_eq hannounced
    have hgrows := Keeps.grows [] (bindFnScope f name params body) s
    obtain ⟨hbody, hsettled⟩ := hrest.silent htop hgrows hf hb hsilent
    rcases List.cons_eq_append_iff.mp hsplit with ⟨rfl, hq⟩ | ⟨before', rfl, hrest'⟩
    · -- the first function, whose body is bound in `s`
      have hquiet : Quiet (Binding.after (bindFnScope f name params body) s).syms
          (bindFnScope f name params body) s _ _ := ⟨hscope, rfl, hbody, Symbols.le_refl _⟩
      have hheeds := heeds_bindFnScope htop.valid hsigned hquiet
      obtain ⟨rfl, rfl⟩ := List.cons.inj hq
      rw [hsig] at hheeds
      exact hheeds
    · refine ih (hannounced.settled hgrows hid hf _ _) ?_ (hsilent.trans hsettled.symm) hrest'
      exact signed_settled (hsigned.of_inside (.of_grows hgrows))
        (Symbols.sig?_of_le hgrows.syms hf) _ _

/-- What the functions and statements of a file without findings take from the signatures of the
finished file. -/
theorem Phases.heeds (ph : Phases stmts) (hsilent : ph.final.findings = #[]) :
    ph.final.syms.Signed ∧
      (∀ n ∈ Stmt.allNodes true ph.program.stmts, n.Heeds ph.final.syms.sig?) ∧
      ∀ before q after, ph.fns.zip (stmts.filter Ast.Stmt.isFn) = before ++ q :: after →
        ∀ n ∈ q.1.body.nodes true, n.Heeds (ph.final.syms.sigDuring? (q :: after)) := by
  have hgrows := ph.grows_final
  have hbound := ph.silent_bound hsilent
  have hstart := ph.silent_start hsilent
  have hsigned := ph.prepares.signed top_initial (fun _ _ _ h => nomatch h)
  have hsigned' := ph.bodies.signed hsigned
  have hsame : ph.final.syms.sig? = ph.bound.syms.sig? := funext (Inside.of_grows hgrows).sig?_eq
  refine ⟨hsigned'.of_inside (.of_grows hgrows), ?_, ?_⟩
  · have hquiet : Quiet ph.final.syms (bindStmts (topStatements stmts)) ph.bound _ ph.final :=
      ⟨rfl, rfl, hsilent.trans hbound.symm, Symbols.le_refl _⟩
    have hsites := Sites.traversal.bindStmts _ ph.top_bound.valid hquiet
    intro n hn
    rw [hsame]
    exact (hsites.sited n hn).heeds hsigned'
  · intro before q after hsplit
    have hheeds := ph.bodies.heeds ph.announced hsigned (hbound.trans hstart.symm) hsplit
    have hduring : ph.final.syms.sigDuring? (q :: after) = ph.bound.syms.sigDuring? (q :: after) := by
      funext id
      rw [Symbols.sigDuring?, Symbols.sigDuring?, hsame]
    rw [hduring]
    exact hheeds

end Binding

/-- In a file that is bound without a diagnostic, calls and functions used by name agree with the
signatures of the finished file: everywhere in the statements at the top level, and in the body of
each function except that functions whose return type is inferred from this body or a later one
return `Unit` there. Every function symbol has the type of its signature, and every function
declaration is bound. -/
theorem calls_agree_with_signatures {session : Session} {file : Ast.SourceFile} {p : Program}
    (h : session.BindsQuietly file p) :
    (∀ n ∈ Stmt.allNodes true p.stmts, n.Heeds p.syms.sig?) ∧
    (∀ before q after, p.fns.zip (file.stmts.filter Ast.Stmt.isFn) = before ++ q :: after →
      ∀ n ∈ q.1.body.nodes true, n.Heeds (p.syms.sigDuring? (q :: after))) ∧
    (∀ id sym f, p.syms.get? id = some sym → sym.kind = .fn f → sym.ty = f.ty) ∧
    p.fns.length = (file.stmts.filter Ast.Stmt.isFn).length := by
  obtain ⟨ph, rfl, hsilent⟩ := h.exists_phases
  obtain ⟨hsigned, hstatements, hfns⟩ := ph.heeds hsilent
  exact ⟨hstatements, hfns, fun id sym f hsym hkind => (hsigned id sym f hsym hkind).1,
    ph.bodies.length_eq⟩

/-- A file whose first function calls and mentions one that is declared after it:

    fn early() { late()  late }
    fn late() { identity(1) }
    fn identity<T>(x: T) -> T { x }
    identity(late())
-/
def forwardUse : Ast.SourceFile :=
  let o : Origin := default
  let name (text : String) : Ast.Name := ⟨o, text⟩
  let placeholder : Ast.TyExpr := .named o (name "T") []
  let call (callee : String) (args : List Ast.Expr) : Ast.Expr := .call o (.name (name callee)) [] args
  ⟨default, o,
    [.fn o (name "early") [] [] none ⟨o, [.expr o (call "late" []), .expr o (.name (name "late"))]⟩,
      .fn o (name "late") [] [] none ⟨o, [.expr o (call "identity" [.literal o (.int 1)])]⟩,
      .fn o (name "identity") [name "T"] [⟨o, name "x", placeholder⟩] (some placeholder)
        ⟨o, [.expr o (.name (name "x"))]⟩,
      .expr o (call "identity" [call "late" []])],
    "forward", ""⟩

theorem forwardUse_agrees_with_signatures :
    ∃ p, (Session.start {}).BindsQuietly forwardUse p ∧
      (∀ n ∈ Stmt.allNodes true p.stmts, n.Heeds p.syms.sig?) ∧
      ∀ before q after, p.fns.zip (forwardUse.stmts.filter Ast.Stmt.isFn) = before ++ q :: after →
        ∀ n ∈ q.1.body.nodes true, n.Heeds (p.syms.sigDuring? (q :: after)) := by
  obtain ⟨p, hquiet, -⟩ :=
    exists_bindsQuietly {} forwardUse (fun _ => true) (by decide) (by decide +kernel)
  obtain ⟨hstatements, hfns, -⟩ := calls_agree_with_signatures hquiet
  exact ⟨p, hquiet, hstatements, hfns⟩

/-- Whether the node is a call or a mention of a function of the file whose type is not that of the
finished file. -/
def Bound.Node.isOutdated (Γ : Symbols) : Node → Bool
  | .expr ⟨.call id tyArgs _, ty, _⟩ =>
    (Γ.sig? id).any fun f => !f.isBuiltin && ty != f.ret.subst (.ofArguments f.tyParams tyArgs)
  | .expr ⟨.fnRef id, ty, _⟩ => (Γ.sig? id).any fun f => ty != f.ty
  | _ => false

theorem Bound.Node.not_heeds_of_isOutdated {Γ : Symbols} {n : Node} (h : n.isOutdated Γ = true) :
    ¬ n.Heeds Γ.sig? := by
  intro hheeds
  unfold isOutdated at h
  split at h
  · obtain ⟨f, hf, hty⟩ := hheeds
    simp_all
  · obtain ⟨f, hf, hty⟩ := hheeds
    simp_all
  · cases h

/-- A call and a mention of a function that is declared later, with an inferred return type, do not
have the types of the finished file. -/
theorem forward_use_is_outdated :
    ∃ p, (Session.start {}).BindsQuietly forwardUse p ∧
      2 ≤ ((p.nodes true).filter (Bound.Node.isOutdated p.syms)).length ∧
      ∃ n ∈ p.nodes true, ¬ n.Heeds p.syms.sig? := by
  obtain ⟨p, hquiet, hcount⟩ := exists_bindsQuietly {} forwardUse
    (fun p => decide (2 ≤ ((p.nodes true).filter (Bound.Node.isOutdated p.syms)).length)) (by decide)
    (by decide +kernel)
  have htwo := of_decide_eq_true hcount
  obtain ⟨n, hn⟩ := List.exists_mem_of_length_pos (Nat.lt_of_lt_of_le Nat.zero_lt_two htwo)
  obtain ⟨hmem, houtdated⟩ := List.mem_filter.mp hn
  exact ⟨p, hquiet, htwo, n, hmem, Bound.Node.not_heeds_of_isOutdated houtdated⟩

end Bindery
