import Bindery.Proofs.Binding.FileNames
import Bindery.Proofs.Binding.MirrorTree

/-!
# Two files side by side

A file is bound quietly, and then once more with some of its parts replaced by unknown names. What
is declared is the same in both, so the bodies of the functions are bound from the same state. From
body to body the second run stays beside the first: the inferred return types are poisoned forms of
those of the first run, and all other signatures agree.
-/

namespace Bindery

open Bindery.Bound

/-! ## Inferring return types -/

/-- The second table comes later than the first: symbols stay what they are, except that the return
types of functions may be inferred. -/
structure Symbols.Settles (Γ Γ' : Symbols) : Prop where
  syms : ∀ id sym, Γ.get? id = some sym → (∀ f, sym.kind ≠ .fn f) → Γ'.get? id = some sym
  sigs : ∀ id f, Γ.sig? id = some f → ∃ ret isFinal, Γ'.sig? id = some { f with ret, isFinal }
  final : ∀ id f, Γ.sig? id = some f → f.isFinal = true → Γ'.sig? id = some f

namespace Symbols.Settles

variable {Γ Γ' Γ'' : Symbols}

theorem of_le (h : Γ ≤ Γ') : Γ.Settles Γ' :=
  ⟨fun id sym hsym _ => h id sym hsym, fun _ f hf => ⟨f.ret, f.isFinal, sig?_of_le h hf⟩,
    fun _ _ hf _ => sig?_of_le h hf⟩

theorem trans (h : Γ.Settles Γ') (h' : Γ'.Settles Γ'') : Γ.Settles Γ'' where
  syms id sym hsym hkind := h'.syms id sym (h.syms id sym hsym hkind) hkind
  sigs id f hf := by
    obtain ⟨ret, isFinal, hf'⟩ := h.sigs id f hf
    obtain ⟨ret', isFinal', hf''⟩ := h'.sigs id _ hf'
    exact ⟨ret', isFinal', hf''⟩
  final id f hf hfinal := h'.final id f (h.final id f hf hfinal) hfinal

/-- Type arguments that agree with the later table agree with the earlier one. -/
theorem isExactCall (h : Γ.Settles Γ') {fn : SymId} {tyArgs args : List Ty}
    (hexact : Bound.isExactCall Γ' fn tyArgs args = true) :
    Bound.isExactCall Γ fn tyArgs args = true := by
  cases hf : Γ.sig? fn with
  | none => rw [Bound.isExactCall, hf]
  | some f =>
    obtain ⟨ret, isFinal, hf'⟩ := h.sigs fn f hf
    rw [Bound.isExactCall, hf'] at hexact
    rw [Bound.isExactCall, hf]
    exact hexact

theorem isExactVariant (h : Γ.Settles Γ') {variant : SymId} {payload : Option Ty} {ty : Ty}
    (hexact : Bound.isExactVariant Γ' variant payload ty = true) :
    Bound.isExactVariant Γ variant payload ty = true := by
  unfold Bound.isExactVariant at hexact ⊢
  split
  · split
    · next hsym =>
      rw [h.syms _ _ hsym (by intro f hf; cases hf)] at hexact
      exact hexact
    · rfl
  · rfl

theorem isExact (h : Γ.Settles Γ') {n : Node} (hn : n.isExact Γ' = true) : n.isExact Γ = true := by
  rw [Node.isExact, Bool.and_eq_true] at hn ⊢
  refine ⟨hn.1, ?_⟩
  have hsettled := hn.2
  unfold Node.isSettled at hsettled ⊢
  split
  · exact h.isExactCall hsettled
  · exact h.isExactVariant hsettled
  · rfl

end Symbols.Settles

/-- Whether the name is that of a variant without payload. -/
def Symbols.isBareVariant (Γ : Symbols) (name : String) : Bool :=
  Γ.toList.any fun sym => sym.name == name && sym.kind matches .variant _ none

namespace Binding

open Ast (Unknown Avoids)

/-- What both runs know of the declared types, at a place that comes before the end of the first
run. -/
theorem ground_of_settles {Γ Γ' : Symbols} {r : Registry} (h : Γ.Settles Γ') (hr : r.Recorded Γ)
    (hsound : ∀ id sym, Γ'.get? id = some sym → sym.ty.hasPoison = false) :
    Ground Γ r Γ'.isBareVariant where
  recorded := hr
  bare sum d name v hsum hv hpayload := by
    have hsym := h.syms _ _ (hr.variant_symbol hsum hv) (by intro f hf; cases hf)
    refine List.any_eq_true.mpr ⟨_, Symbols.mem_toList_iff.mpr ⟨_, hsym⟩, ?_⟩
    simp [hpayload]
  fields record d name f hrecord hf :=
    hsound _ _ (h.syms _ _ (hr.field_symbol hrecord hf) (by intro g hg; cases hg))
  locals id sym hsym hlocal := by
    refine hsound id sym (h.syms id sym hsym fun f hf => ?_)
    rw [hf] at hlocal
    cases hlocal

variable {s s' t t' u : State} {all : List Ast.Stmt}

variable {id : SymId}

/-- Binding the body of a function and settling its return type settles the table. -/
theorem settles_settled (hs : s.Top) (hsu : Grows [] s u) {f : Sig} (hf : s.syms.sig? id = some f)
    (hb : f.isBuiltin = false) (frame : FnFrame) (trailing : Option (Ty × Range)) :
    s.syms.Settles (u.settled id f frame trailing).syms where
  syms := ((Later.grows hsu).trans (later_settled hs hsu hf hb frame trailing).1).syms
  sigs j g hg := by
    obtain ⟨⟨g', hg', hfinal, hopen⟩, hother⟩ := sig?_settled hsu hf frame trailing
    by_cases hj : j = id
    · subst hj
      obtain rfl : f = g := Option.some.inj (hf.symm.trans hg)
      cases hisFinal : f.isFinal with
      | true => exact ⟨f.ret, f.isFinal, by rw [hg', hfinal hisFinal]⟩
      | false =>
        obtain ⟨ret, rfl⟩ := hopen hisFinal
        exact ⟨ret, true, hg'⟩
    · exact ⟨g.ret, g.isFinal, (hother j hj).trans hg⟩
  final j g hg hisFinal := by
    obtain ⟨⟨g', hg', hfinal, -⟩, hother⟩ := sig?_settled hsu hf frame trailing
    by_cases hj : j = id
    · subst hj
      obtain rfl : f = g := Option.some.inj (hf.symm.trans hg)
      rw [hg', hfinal hisFinal]
    · exact (hother j hj).trans hg

theorem Bodies.settles {sigs : List (Nat × SymId)} {index : Nat} {stmts : List Ast.Stmt}
    {fns : List FnDecl} (h : Bodies sigs index stmts s fns t) :
    s.syms.Settles t.syms := by
  induction h with
  | nil => exact .of_le (Symbols.le_refl _)
  | skip _ _ ih => exact ih
  | @body _ _ name _ params _ body _ s _ _ id f _ block returns htop _ hf hb _ _ _ ih =>
    exact (settles_settled htop (Keeps.grows [] (bindFnScope f name params body) s) hf hb _ _).trans ih

/-! ## Declarations -/

theorem Prepares.scoped (h : Prepares all s t) (hs : s.Top) (hscoped : s.syms.Scoped) :
    t.syms.Scoped := by
  refine Symbols.scoped_iff.mpr (h.fns hs (Symbols.scoped_iff.mp hscoped) fun _ f hf _ hgeneric => ?_)
  have hbuiltin : ∀ f ∈ Builtin.sigs, f.isGeneric = true → f.Scoped := by
    unfold Sig.Scoped
    decide
  exact hf.elim (fun hf => hbuiltin f hf hgeneric) id

section

variable {stmts stmts' : List Ast.Stmt} {xs ys : List Unknown}

/-! The passes over the declarations of a file do not look at what is replaced. -/

section

theorem bindRecord?_of_other {stmt : Ast.Stmt} (h : ∀ kind n, ¬DeclaresType kind n stmt) :
    (bindRecord? stmt : Pass _) = pure none := by
  cases stmt <;> first | rfl | exact absurd ⟨rfl, rfl⟩ (h .record _)

theorem bindSum?_of_other {stmt : Ast.Stmt} (h : ∀ kind n, ¬DeclaresType kind n stmt) :
    (bindSum? stmt : Pass _) = pure none := by
  cases stmt <;> first | rfl | exact absurd ⟨rfl, rfl⟩ (h .sum _)

variable (h : Ast.Stmt.FileReplaced stmts stmts' xs ys)

include h

theorem declareTypeNames_of_replaced (index : Nat) :
    (declareTypeNames index stmts' : Binding _) = declareTypeNames index stmts := by
  induction h generalizing index with
  | nil => rfl
  | record _ _ _ _ _ ih | sum _ _ _ _ _ ih => rw [declareTypeNames_cons, declareTypeNames_cons, ih]
  | fn _ _ _ _ _ _ _ _ ih =>
    rw [declareTypeNames_cons, ih]
    rfl
  | stmt h _ _ ih =>
    rw [declareTypeNames_cons, ih]
    cases h <;> rfl

theorem bindOwned_of_replaced {δ : Type} {bindOne? : Ast.Stmt → Pass (Option δ)}
    (hother : ∀ {stmt}, (∀ kind n, ¬DeclaresType kind n stmt) → bindOne? stmt = pure none)
    (owned : List Nat) (index : Nat) :
    bindOwned bindOne? owned index stmts' = bindOwned bindOne? owned index stmts := by
  induction h generalizing index with
  | nil => rfl
  | record _ _ _ _ _ ih | sum _ _ _ _ _ ih => simp only [bindOwned, ih]
  | fn _ _ _ _ _ _ _ _ ih =>
    rw [bindOwned, bindOwned, ih, hother, hother]
    all_goals exact fun _ _ h => h
  | stmt h _ _ ih =>
    rw [bindOwned, bindOwned, ih, hother, hother]
    all_goals cases h <;> exact fun _ _ h => h

theorem declareSigs_of_replaced (index : Nat) :
    (declareSigs index stmts' : Binding _) = declareSigs index stmts := by
  induction h generalizing index with
  | nil => rfl
  | fn _ _ _ _ _ _ _ _ ih => simp only [declareSigs, ih]
  | record _ _ _ _ _ ih | sum _ _ _ _ _ ih => exact ih (index + 1)
  | stmt h _ _ ih => cases h <;> exact ih (index + 1)

end

/-- The bodies of both files are bound from the same state. -/
theorem Phases.start_eq (ph : Phases stmts) (ph' : Phases stmts')
    (h : Ast.Stmt.FileReplaced stmts stmts' xs ys) :
    ph'.start = ph.start ∧ ph'.sigs = ph.sigs := by
  obtain ⟨u, -, htypes, hsigs, hstart⟩ := ph.declares
  obtain ⟨u', -, htypes', hsigs', hstart'⟩ := ph'.declares
  have hsame : typeDeclarations stmts' = typeDeclarations stmts := by
    simp only [typeDeclarations, declareTypeNames_of_replaced h]
    simp only [bindOwned_of_replaced h bindRecord?_of_other, bindOwned_of_replaced h bindSum?_of_other]
  have hu : u' = u := by
    rw [hsame] at htypes'
    exact congrArg Prod.snd (htypes'.symm.trans htypes)
  rw [hstart', hstart, hsigs', hsigs, declareSigs_of_replaced h, hu]
  exact ⟨rfl, rfl⟩

end

/-! ## Both runs at the top level -/

/-- Before the bodies are bound, both runs stand in the same state. -/
theorem State.Bare.poisoned {w : Setting} (h : s.Bare) (hs : s.Top) (hscoped : s.syms.Scoped)
    (hregistry : w.registry = s.registry)
    (hfn : ∀ name, s.scopes.lookup .fn s.current name = w.fn? name)
    (hdeclared : w.declared = none) : Poisoned w s s where
  valid := hs.valid
  valid' := hs.valid
  closed := hscoped
  registry := hregistry.symm
  registry' := hregistry.symm
  generics := rfl
  loopDepth := rfl
  scopeDepth := rfl
  lambdas := rfl
  fn := hfn
  fn' := hfn
  sigs id sym f hsym hkind := ⟨sym, f.ret, hsym, hkind, Ty.below_refl _, Ty.below_refl _⟩
  fns := by
    rw [hs.fns]
    exact .nil
  declared := by rw [hs.fns, hdeclared]; rfl
  scopes := by
    obtain ⟨sc, hsc⟩ := hs.exists_root
    rw [hs.chain_eq]
    refine .cons ⟨rfl, sc, sc, hsc, hsc, fun name => ?_⟩ .nil
    rw [h.bare _ sc hsc name]
    exact .unknown
  plain _ sc sc' hsc hsc' name hname := by
    cases hsc.symm.trans hsc'
    exact hname

/-- No variable is in sight. -/
theorem State.Bare.lookup_var (h : s.Bare) (hs : s.Top) (x : String) :
    s.scopes.lookup .var s.current x = none := by
  obtain ⟨sc, hsc⟩ := hs.exists_root
  rw [Scopes.lookup_eq_findSome?, Scopes.ancestors, hs.chain_eq]
  simp [hsc, Scope.table, h.bare _ sc hsc x]

/-- Both runs infer the return type of a function. -/
theorem Poisoned.resigning {w : Setting} (h : Poisoned w s s') (hs : s.Top) (hs' : s'.Top) {f : Sig}
    (hf : s.syms.sig? id = some f) (hf' : s'.syms.sig? id = some f) {ret ret' : Ty}
    (hret : ret'.Below ret) :
    Poisoned w (s.resigning id { f with ret, isFinal := true })
      (s'.resigning id { f with ret := ret', isFinal := true }) :=
  { h with
    valid := (hs.resigning hf _).valid
    valid' := (hs'.resigning hf' _).valid
    closed :=
      Symbols.scoped_iff.mpr ((Symbols.scoped_iff.mp h.closed).setSig fun _ _ => h.closed id f hf)
    sigs := by
      intro j sym g hsym hkind
      rw [State.resigning, Symbols.get?_setSig] at hsym
      rw [State.resigning, Symbols.get?_setSig]
      by_cases hj : id = j
      · subst hj
        rw [if_pos rfl] at hsym ⊢
        obtain ⟨old, hold, rfl⟩ := Option.map_eq_some_iff.mp hsym
        obtain ⟨old', hold', -⟩ := Symbols.sig?_eq_some_iff.mp hf'
        cases hkind
        refine ⟨_, ret', by rw [hold']; rfl, rfl, hret, ?_⟩
        exact .fn (Ty.belowAll_refl _) hret
      · rw [if_neg hj] at hsym ⊢
        exact h.sigs j sym g hsym hkind
    scopes := by
      refine h.scopes.imp fun c c' hscope => ⟨hscope.depth, ?_⟩
      obtain ⟨sc, sc', hsc, hsc', hnames⟩ := hscope.names
      refine ⟨sc, sc', hsc, hsc', fun name => ?_⟩
      have hname := hnames name
      cases hid : sc.varNames.get? name with
      | none =>
        rw [hid] at hname
        generalize sc'.varNames.get? name = id' at hname ⊢
        cases hname with
        | unknown => exact .unknown
        | stray hbare hsym' hkind hty =>
          refine .stray hbare (Symbols.get?_setSig_of_kind hf' _ hsym' fun g hg => ?_) hkind hty
          rw [hkind] at hg
          cases hg
      | some j =>
        obtain ⟨sym, hsym, hlocal, -⟩ := h.valid.var_known c sc name j hsc hid
        rw [hid] at hname
        generalize sc'.varNames.get? name = id' at hname ⊢
        cases hname with
        | known hold hold' hname hkind hty =>
          cases hsym.symm.trans hold
          have hother : ∀ g, sym.kind ≠ .fn g := by
            intro g hg
            rw [hg] at hlocal
            cases hlocal
          exact .known (Symbols.get?_setSig_of_kind hf _ hold hother)
            (Symbols.get?_setSig_of_kind hf' _ hold' (by rwa [hkind])) hname hkind hty }

/-! ## The bodies of functions -/

theorem Ends.withGenerics {α : Type} {w : Setting} {xs : List Unknown} {m : Binding α}
    {P : α → Prop} {names : List String}
    (h : Poisoned w s s') (hinner : Ends w xs m (s'.naming names) u P) :
    Ends w xs (withGenerics names m) s' (u.naming s.generics) P := by
  rw [← h.generics]
  exact ⟨hinner.poisoned.naming _, hinner.reports.congr rfl rfl, hinner.answer⟩

section

variable {Γ Γ' : Symbols} {w : Setting} {v : State} {xs : List Unknown} {f : Sig} {name : Ast.Name}
  {params : List Ast.Param} {body body' : Ast.Block} {syms : List SymId} {stmts : List Stmt}
  {frame : FnFrame}

/-- A function whose statements the second run binds to poisoned forms. -/
theorem ends_fnScope (h : Poisoned w s s')
    (hparams : Quiet Γ (declareLocals .parameter ((params.map Ast.Param.name).zip f.paramTys))
      (s.enteringFn f)
      syms u)
    (hstmts : Quiet Γ (bindStmts body.stmts) (u.enteringStatements (bodyFrame f name)) stmts v)
    (hfns : v.fns = frame :: u.fns)
    (hmirrored : ∀ u', Poisoned { w with isPlain := true, declared := (bodyFrame f name).declared }
      (u.enteringStatements (bodyFrame f name)) u' →
      Ends { w with isPlain := true, declared := (bodyFrame f name).declared } xs
        (bindStmts body'.stmts) u' v
        (List.Forall₂ StmtBelow stmts)) :
    Ends w xs (bindFnScope f name params body') s' (s.leavingFn u v)
      fun r => BlockBelow (.ofStatements stmts body.range) r.2.1 ∧ ∃ f', r.2.2 = some f' ∧
        SameFrame frame f' := by
  have hdeclares := hparams.grows (keeps_declareLocals rfl _)
  have hruns := (hstmts.grows (keeps_bindStmts body.stmts)).withScopeDepth.withLoopDepth.withFn
  have hinside := ((hdeclares.mono fun _ => List.mem_append_left _).trans
    (hruns.mono fun _ => List.mem_append_right _)).withGenerics
  refine Ends.inScope
    (v := (((v.inScopeBlocks u.scopeDepth).inLoops u.loopDepth).inFns v.fns.tail).naming
    (s.opened .fn).generics) true h (Ends.withGenerics (h.opened .fn true) ?_) hinside
      (keeps_withGenerics _
      (.seq ((keeps_declareLocals rfl _).mono fun _ => List.mem_append_left _) fun _ =>
        .seq ((keeps_fnBody _ _).mono fun _ => List.mem_append_right _) fun _ => ?_))
  · refine (ends_declareLocals ((h.opened .fn true).naming f.tyParams) rfl hparams).prepared
      fun syms' u' hu _ => ?_
    have hentered := hu.inFns (bodyFrame f name) rfl
    rw [hfns]
    refine Ends.andThen
      (Ends.withFn hu (Ends.withLoopDepth hentered (Ends.withScopeDepth (hentered.inLoops 0)
      (hmirrored _ ((hentered.inLoops 0).inScopeBlocks 0)))) hfns) ?_
    rintro ⟨stmts', frame'⟩ v' hv ⟨hbelow, f', rfl, hf⟩
    exact .pure hv ⟨.ofStatements hbelow _ _, f', rfl, hf⟩
  · infer_instance

variable {c : Option (Ty × Range)} {returns : List (Ty × Range)}

/-- Settling a return type declares nothing. -/
theorem lookup_settled (hs : s.Valid) (hsu : Grows [] s u) (x : String) :
    (u.settled id f frame c).scopes.lookup .var (u.settled id f frame c).current x =
      s.scopes.lookup .var s.current x := by
  have hgrows := hsu.trans (Keeps.grows [] (settleReturn frame c) u)
  rw [State.settled]
  split <;> exact hgrows.lookup_var hs List.not_mem_nil

/-- The return type of a function is settled in silence. -/
theorem quiet_settleReturn (h : (u.settled id f frame c).findings = u.findings) :
    Quiet u.syms (settleReturn frame c) u (out (settleReturn frame c) u) u := by
  have hfindings : (after (settleReturn frame c) u).findings = u.findings := by
    rw [State.settled] at h
    split at h
    · exact h
    · exact h
  have hquiet : Quiet (after (settleReturn frame c) u).syms (settleReturn frame c) u _ _ :=
    ⟨rfl, rfl, hfindings, Symbols.le_refl _⟩
  have hafter := hquiet.checks.2
  exact ⟨rfl, hafter, rfl, Symbols.le_refl _⟩

/-- Both runs settle the return type of a function. -/
theorem mirrored_settled {f' : FnFrame} {c' : Option (Ty × Range)} (h : Poisoned w u s') (hu : u.Top)
    (hs' : s'.Top) (hf : u.syms.sig? id = some f) (hf' : s'.syms.sig? id = some f)
    (hframe : SameFrame frame f') (hc : CandidateBelow c c')
    (hdeclared : frame.declared = if f.isFinal then some f.ret else none)
    (hvalue : ∀ r, c = some r → r.1.hasPoison = false)
    (hallowed : f.isFinal = false → frame.returns ≠ [] →
      w.allowed ⟨frame.range, .inconsistentReturns frame.name⟩)
    (hsilent : (u.settled id f frame c).findings = u.findings) :
    Poisoned w (u.settled id f frame c) (s'.settled id f f' c') ∧
      Reports w.allowed [] s' (s'.settled id f f' c') := by
  have hquiet := quiet_settleReturn hsilent
  rw [State.settled, State.settled, hquiet.after_eq]
  cases hfinal : f.isFinal with
  | true =>
    rw [hfinal] at hdeclared
    obtain ⟨-, hafter⟩ := repeats_settleReturn hframe hc hdeclared hquiet s'
    rw [hafter]
    exact ⟨h, .of_eq rfl⟩
  | false =>
    rw [hfinal] at hdeclared
    have hends := ends_settleReturn h hframe hc hvalue hdeclared (hallowed hfinal) hquiet
    have hgrows' := Keeps.grows [] (settleReturn f' c') s'
    refine ⟨?_, hends.reports.congr rfl rfl⟩
    exact hends.poisoned.resigning hu (hs'.grows hgrows') hf (Symbols.sig?_of_le hgrows'.syms hf')
      hends.answer

/-- The statements of a function. -/
theorem Premises.fnBody {n : Ast.Node} {source : List Ast.Node} {range : Range} {own : List String}
    {declared : Option Ty}
    (hp : Premises Γ w xs (n :: source) (fun _ => (Block.ofStatements stmts range).nodes true) s)
    (hs : s.Valid) (hsettles : Γ'.Settles Γ) (hg : Grows own (s.enteringFn f) u)
    (havoids : Avoids own xs)
    (hreturned : ∀ r ∈ returnedBy (Stmt.allNodes false stmts), ∀ ty, declared = some ty → ty.Below r.1)
    (frame : FnFrame) :
    Premises Γ' { w with isPlain := true, declared } xs source (Stmt.allNodes · stmts)
      (u.enteringStatements frame) where
  lacks x hx := by
    have henter : (s.enteringFn f).Valid := (hs.opened .fn).congr rfl rfl rfl rfl
    have hsame : u.scopes.lookup .var u.current x.name.text =
        (s.enteringFn f).scopes.lookup .var (s.enteringFn f).current x.name.text :=
      hg.lookup_var henter (havoids x hx)
    exact hsame.trans ((hs.lookup_opened .fn .var x.name.text).trans (hp.lacks x hx))
  unknown := hp.unknown
  allowed := hp.source_tail.allowed
  tame := hp.source_tail.tame
  exact n hn := hsettles.isExact (hp.exact n (List.mem_cons_of_mem _ hn))
  returned := hreturned

/-- What a function returns has the type that is written for it. -/
theorem below_written (hf : Γ'.sig? id = some f) (hsettles : Γ'.Settles Γ) (hsigned : Γ.Signed)
    (hsound : ∀ id sym, Γ.get? id = some sym → sym.ty.hasPoison = false)
    (hreturns : ∀ r ∈ returns, r.1.hasPoison = false) {ret : Ty}
    (hq : Quiet Γ' (settleReturn ((bodyFrame f name).noting returns) c) u ret u) :
    ∀ r ∈ returns, ∀ ty, (bodyFrame f name).declared = some ty → ty.Below r.1 := by
  intro r hr ty hty
  have hfinal : f.isFinal = true := by
    by_contra hopen
    rw [bodyFrame, if_neg hopen] at hty
    cases hty
  obtain ⟨sym, hsym, hkind⟩ := Symbols.sig?_eq_some_iff.mp (hsettles.final id f hf hfinal)
  have hty' := hsound id sym hsym
  rw [(hsigned id sym f hsym hkind).1, Sig.ty, Ty.hasPoison, Bool.or_eq_false_iff] at hty'
  obtain ⟨-, rfl, -, -⟩ := hq.settleReturn_of_declared hty
  refine below_returned ?_ hreturns hq r hr ret hty
  rw [bodyFrame, if_pos hfinal] at hty
  exact Option.some.inj hty ▸ hty'.2

/-- The second run stays beside the first one while a function is bound and its return type is
settled. -/
theorem mirrored_fn {origin : Origin} {tyParams : List Ast.Name} {ret : Option Ast.TyExpr}
    {syms' : List SymId} {block block' : Block} {returns' : List (Ty × Range)} (h : Poisoned w s s')
    (hs : s.Top)
    (hs' : s'.Top) (hf : s.syms.sig? id = some f) (hf' : s'.syms.sig? id = some f)
    (hwritten : f.isFinal = ret.isSome) (hname : f.name = name.text)
    (hreplaced : body.Replaced body' xs)
    (havoids : Avoids (params.map fun p => p.name.text) xs)
    (hscope : out (bindFnScope f name params body) s =
      (syms, block, some ((bodyFrame f name).noting returns)))
    (hscope' : out (bindFnScope f name params body') s' =
      (syms', block', some ((bodyFrame f name).noting returns')))
    (hu : after (bindFnScope f name params body) s = u) (hbody : u.findings = s.findings)
    (hsettled : (u.settled id f ((bodyFrame f name).noting returns) (blockCandidate block)).findings
      = u.findings)
    (hsettles : u.syms.Settles Γ) (hsigned : Γ.Signed)
    (hsound : ∀ id sym, Γ.get? id = some sym → sym.ty.hasPoison = false)
    (hbare : w.bare = Γ.isBareVariant)
    (hp : Premises Γ w xs ((Ast.Stmt.fn origin name tyParams params ret body').nodes true)
      (fun _ => block.nodes true) s) :
    Poisoned w (u.settled id f ((bodyFrame f name).noting returns) (blockCandidate block))
        ((after (bindFnScope f name params body') s').settled id f ((bodyFrame f name).noting returns')
          (blockCandidate block')) ∧
      Reports w.allowed xs s' ((after (bindFnScope f name params body') s').settled id f
        ((bodyFrame f name).noting returns') (blockCandidate block')) := by
  have hquiet : Quiet u.syms (bindFnScope f name params body) s
      (syms, block, some ((bodyFrame f name).noting returns)) u :=
        ⟨hscope, hu, hbody, Symbols.le_refl _⟩
  have hgrows : Grows [] s u := hquiet.grows inferInstance
  have hgrows' := Keeps.grows [] (bindFnScope f name params body') s'
  have hfu := Symbols.sig?_of_le hgrows.syms hf
  have hexact : ∀ n ∈ block.nodes true, n.isExact u.syms = true :=
    fun n hn => hsettles.isExact (hp.exact n hn)
  obtain ⟨hground, hvalue⟩ : Ground u.syms w.registry w.bare ∧ ∀ r, blockCandidate block = some r →
      r.1.hasPoison = false := by
    refine ⟨?_, fun r => hasPoison_blockCandidate hexact⟩
    rw [hbare, ← h.registry, ← hgrows.registry]
    exact ground_of_settles hsettles (hs.grows hgrows).recorded hsound
  obtain rfl : returns = returnedBy (block.nodes false) := by
    have hframe := (hquiet.lawful_bindFnScope hs.valid).2
    simpa [FnFrame.noting, bodyFrame] using hframe
  have hreturns : ∀ r ∈ returnedBy (block.nodes false), r.1.hasPoison = false := by
    intro r hr
    obtain ⟨n, hn, hr⟩ := List.mem_flatMap.mp hr
    exact Node.hasPoison_returned_of_isExact (hexact n (block.nodes_sublist.subset hn)) r hr
  have hbelow := below_written hfu hsettles hsigned hsound hreturns (quiet_settleReturn hsettled)
  obtain ⟨u₁, stmts, v, hparams, hstmts, rfl, -, hleave⟩ := hquiet.bindFnScope
  have hdeclares := hparams.grows (keeps_declareLocals rfl _)
  have henter : (s.enteringFn f).Valid := (hs.valid.opened .fn).congr rfl rfl rfl rfl
  have hvalid : (u₁.enteringStatements (bodyFrame f name)).Valid :=
    (hdeclares.valid henter).congr rfl rfl rfl rfl
  have hfns : v.fns =
      (bodyFrame f name).noting (returnedBy ((Block.ofStatements stmts body.range).nodes false))
        :: u₁.fns :=
    (Accounts.traversal.bindStmts body.stmts hvalid hstmts).returned
  obtain ⟨o, ss⟩ := body
  cases hreplaced with
  | @mk _ _ ss' _ hss =>
    have hbody' : Premises u.syms _ xs (Ast.Stmt.allNodes true (Ast.Block.mk o ss').stmts) _ _ :=
      hp.fnBody hs.valid hsettles hdeclares (avoids_params havoids f.paramTys) hbelow
        (bodyFrame f name)
    have hends := ends_fnScope h hparams hstmts hfns fun u' hu' =>
      ends_bindStmts ss hu' hground hss hbody' rfl hstmts
    rw [← hleave] at hends
    have hanswer := hends.answer
    rw [hscope'] at hanswer
    obtain ⟨hblock, f', heq, hsame⟩ := hanswer
    cases heq
    -- Results can disagree only if there is a `return` among them.
    have hallowed : f.isFinal = false →
        ((bodyFrame f name).noting
        (returnedBy ((Block.ofStatements stmts o.range).nodes false))).returns ≠ [] →
        w.allowed ⟨name.range, .inconsistentReturns f.name⟩ := by
      intro hopen hnoted
      have hret : ret = none := by
        rw [hopen] at hwritten
        exact Option.not_isSome_iff_eq_none.mp (by rw [← hwritten]; decide)
      have hreturned : Ast.returns (Ast.Stmt.allNodes false ss) = true := by
        by_contra hnone
        have hstays := stays_bindStmts ss hvalid hstmts (Bool.eq_false_iff.mpr hnone)
        rw [hfns] at hstays
        exact hnoted (congrArg FnFrame.returns (List.cons.inj hstays).1)
      refine hp.allowed_head _ ?_
      rw [hret, Ast.Node.followUps, Ast.Block.nodes, Ast.Stmt.returns_of_allReplaced ss hss,
        hreturned, ← hname]
      exact List.mem_cons_self
    obtain ⟨hpoisoned, hreports⟩ :=
      mirrored_settled hends.poisoned (hs.grows hgrows) (hs'.grows hgrows') hfu
      (Symbols.sig?_of_le hgrows'.syms hf') hsame hblock.candidate rfl hvalue hallowed hsettled
    refine ⟨hpoisoned, ?_⟩
    have hall := hends.reports.trans hreports
    rwa [List.append_nil] at hall

end

namespace Bodies

variable {sigs : List (Nat × SymId)} {index : Nat} {stmts stmts' : List Ast.Stmt}
  {fns fns' : List FnDecl}

/-- A statement that declares no function is passed over. -/
theorem tail {stmt : Ast.Stmt} (h : Bodies sigs index (stmt :: stmts) s fns t)
    (hskip : stmt.isFn = false) : Bodies sigs (index + 1) stmts s fns t := by
  cases h with
  | skip _ hrest => exact hrest
  | body => cases hskip

/-- Binding the bodies of functions declares nothing at the top level. -/
theorem lookup_var (h : Bodies sigs index stmts s fns t) (x : String) :
    t.scopes.lookup .var t.current x = s.scopes.lookup .var s.current x := by
  induction h with
  | nil => rfl
  | skip _ _ ih => exact ih
  | @body _ _ name _ params _ body _ s _ _ _ f _ _ _ htop _ _ _ _ _ _ ih =>
    exact ih.trans (lookup_settled htop.valid (Keeps.grows [] (bindFnScope f name params body) s) x)

/-- The second run stays beside the first one while the bodies of all functions are bound. -/
theorem mirrored {Γ : Symbols} {w : Setting} {xs ys : List Unknown}
    (hreplaced : Ast.Stmt.FileReplaced stmts stmts' xs ys)
    (h : Bodies sigs index stmts s fns t) (h' : Bodies sigs index stmts' s' fns' t')
    (hannounced : Announced sigs index stmts s.syms) (hpoisoned : Poisoned w s s')
    (hsame : ∀ i id, index ≤ i → sigs.lookup i = some id → s'.syms.sig? id = s.syms.sig? id)
    (hsilent : t.findings = s.findings) (hsettles : t.syms.Settles Γ) (hsigned : Γ.Signed)
    (hsound : ∀ id sym, Γ.get? id = some sym → sym.ty.hasPoison = false)
    (hbare : w.bare = Γ.isBareVariant)
    (hp : Premises Γ w xs (Ast.Stmt.allNodes true stmts') (fun _ => fns.flatMap fun d =>
      d.body.nodes true) s) :
    Poisoned w t t' ∧ Reports w.allowed xs s' t' := by
  induction hreplaced generalizing index s s' fns fns' with
  | nil =>
    cases h
    cases h'
    exact ⟨hpoisoned, .of_eq rfl⟩
  | record _ _ _ _ _ ih | sum _ _ _ _ _ ih =>
    exact ih (h.tail rfl) (h'.tail rfl) (hannounced.tail fun _ _ _ _ => rfl) hpoisoned
      (fun i id hi => hsame i id (Nat.le_of_succ_le hi)) hsilent hp.source_right
  | stmt hstatement _ _ ih =>
    have hskip : ∀ st : Ast.Stmt, st.isDeclaration = false → st.isFn = false := by
      intro st hst
      cases st <;> first | rfl | cases hst
    obtain ⟨hfirst, hfirst'⟩ := Ast.Stmt.isDeclaration_of_replaced hstatement
    exact ih (h.tail (hskip _ hfirst)) (h'.tail (hskip _ hfirst')) (hannounced.tail fun _ _ _ _ =>
      rfl) hpoisoned
      (fun i id hi => hsame i id (Nat.le_of_succ_le hi)) hsilent hp.source_right
  | @fn _ name tyParams params ret body body' _ _ _ _ _ hblock havoids _ ih =>
    cases h with
    | skip hskip => cases hskip
    | @body _ _ _ _ _ _ _ _ _ _ fns id f syms block returns htop hid hf hb _ hscope hrest =>
      cases h' with
      | skip hskip => cases hskip
      | @body _ _ _ _ _ _ _ _ _ _ _ _ _ _ block' returns' htop' hid' hf' hb' _ hscope' hrest' =>
        cases hid.symm.trans hid'
        have hself := hsame _ _ (Nat.le_refl _) hid
        cases hf.symm.trans (hself.symm.trans hf')
        obtain ⟨_, _, hlookup, hwritten, hfinal, -, hname⟩ := hannounced.written 0 _ _ _ _ _ _ rfl
        cases hid.symm.trans hlookup
        cases hf.symm.trans hwritten
        have hgrows := Keeps.grows [] (bindFnScope f name params body) s
        have hgrows' := Keeps.grows [] (bindFnScope f name params body') s'
        obtain ⟨hbody, hsettled⟩ := hrest.silent htop hgrows hf hb hsilent
        have hfu := Symbols.sig?_of_le hgrows.syms hf
        have hearlier :=
          (settles_settled (htop.grows hgrows) (.refl [] _) hfu hb
          ((bodyFrame f name).noting returns)
          (blockCandidate block)).trans (hrest.settles.trans hsettles)
        obtain ⟨hpoisoned', hreports⟩ :=
          mirrored_fn hpoisoned htop htop' hf hf' hfinal hname hblock havoids hscope
          hscope' rfl hbody (hsettled.trans hbody.symm) hearlier hsigned hsound hbare hp.left
        refine And.imp_right hreports.trans (ih hrest hrest' (hannounced.settled hgrows hid hf _ _)
          hpoisoned' ?_
          (hsilent.trans hsettled.symm) (hp.right.elsewhere (lookup_settled htop.valid hgrows)))
        -- No later function has the symbol of this one.
        intro i j hi hj
        have hne := hannounced.ne_of_lookup hid hi hj
        rw [(sig?_settled hgrows' hf' _ _).2 j hne, (sig?_settled hgrows hf _ _).2 j hne]
        exact hsame i j (Nat.le_of_succ_le hi) hj

end Bodies

/-! ## Files -/

/-- A name that stands for no function and no variant. -/
theorem isBareVariant_of_unknown {Γ : Symbols} {x : String} (h : Γ.globals.declaration? x = none) :
    Γ.globals.fn? x = none ∧ Γ.globals.variant? x = none ∧ Γ.isBareVariant x = false := by
  rw [Resolver.Globals.declaration?, Option.or_eq_none_iff, Option.map_eq_none_iff,
    Option.map_eq_none_iff] at h
  refine ⟨h.1, h.2, List.any_eq_false.mpr fun sym hsym hbare => ?_⟩
  rw [Bool.and_eq_true, beq_iff_eq] at hbare
  obtain ⟨id, hid⟩ := Symbols.mem_toList_iff.mp hsym
  have hvariant : sym.kind.isVariant = true := by
    cases hkind : sym.kind with
    | variant => rfl
    | _ => simp [hkind] at hbare
  have hmem : (x, sym.id) ∈ Γ.named SymKind.isVariant :=
    Symbols.mem_named_iff.mpr ⟨id, sym, hid, hvariant, hbare.1, rfl⟩
  exact absurd h.2 (by
    rw [Symbols.globals, List.lookup_eq_none_iff]
    intro hnone
    simpa using hnone _ hmem)

namespace Phases

variable {stmts stmts' : List Ast.Stmt} {xs ys : List Unknown}

/-- The findings of the file with unknown names: these names, in the order in which they are bound,
and apart from them only follow-ups. -/
theorem mirrored (ph : Phases stmts) (ph' : Phases stmts')
    (hreplaced : Ast.Stmt.FileReplaced stmts stmts' xs ys) (hsilent : ph.final.findings = #[])
    (hexact : ph.program.isExact = true)
    (hunknown : ∀ x ∈ xs ++ ys, ph.final.syms.globals.declaration? x.name.text = none)
    (htame : ∀ n ∈ Ast.Stmt.allNodes true stmts', n.isTame ph.final.syms.isBareVariant = true) :
    Reports (· ∈ Ast.followUps ph.final.syms.isBareVariant (Ast.Stmt.allNodes true stmts')) (xs ++ ys)
      .initial ph'.final := by
  obtain ⟨hstart, hsigs⟩ := ph.start_eq ph' hreplaced
  have htop : ph.start.Top := ph.prepares.top top_initial
  have hbare := ph.prepares.bare top_initial .initial
  have hsees := (ph.prepares.listed top_initial .initial).sees hbare htop
  rw [← ph.globals_final] at hsees
  rw [Bound.Program.isExact, Bool.and_eq_true, List.all_eq_true, List.all_eq_true] at hexact
  have hsound : ∀ id sym, ph.final.syms.get? id = some sym → sym.ty.hasPoison = false := by
    intro id sym hsym
    simpa using hexact.1 sym (Symbols.mem_toList_iff.mpr ⟨id, hsym⟩)
  have hsigned := ph.signed_final
  have hscoped : ph.start.syms.Scoped := ph.prepares.scoped top_initial (by intro _ _ h; cases h)
  let w : Setting := ⟨ph.start.registry, ph.final.syms.isBareVariant,
    (· ∈ Ast.followUps ph.final.syms.isBareVariant (Ast.Stmt.allNodes true stmts')),
    ph.final.syms.globals.fn?, none, true⟩
  have hpoisoned : Poisoned w ph.start ph'.start := by
    rw [hstart]
    exact hbare.poisoned htop hscoped rfl hsees.fns rfl
  have hnames : ∀ x ∈ xs ++ ys, w.fn? x.name.text = none ∧ w.registry.variant? x.name.text = none ∧
      w.bare x.name.text = false := by
    intro x hx
    obtain ⟨hfn, hvariant, hnot⟩ := isBareVariant_of_unknown (hunknown x hx)
    refine ⟨hfn, ?_, hnot⟩
    rw [← hsees.variants, Option.map_eq_none_iff] at hvariant
    exact hvariant
  have hlacks : ∀ x, ph.start.scopes.lookup .var ph.start.current x = none := hbare.lookup_var htop
  have hbound := ph.silent_bound hsilent
  obtain ⟨hend, hreports⟩ :=
    Bodies.mirrored hreplaced ph.bodies (hstart ▸ hsigs ▸ ph'.bodies) ph.announced
    (hstart ▸ hpoisoned) (fun _ _ _ _ => rfl) (hbound.trans (ph.silent_start hsilent).symm)
    (.of_le ph.grows_final.syms) hsigned hsound rfl
    { lacks := fun x _ => hlacks x.name.text
      unknown := fun x hx => hnames x (List.mem_append_left _ hx)
      allowed := fun _ hf => hf
      tame := htame
      exact := fun n hn => hexact.2 n (List.mem_append_left _ hn)
      returned := fun _ _ _ hdeclared => by cases hdeclared }
  have hquiet : Quiet ph.final.syms (bindStmts (topStatements stmts)) ph.bound _ ph.final :=
    ⟨rfl, rfl, hsilent.trans hbound.symm, Symbols.le_refl _⟩
  have hground : Ground ph.final.syms w.registry w.bare := by
    refine ground_of_settles (.of_le (Symbols.le_refl _)) ?_ hsound
    rw [show w.registry = ph.final.registry from
      (ph.grows_final.registry.trans ph.bodies.later.2).symm]
    exact ph.top_final.recorded
  have hstmts := ends_bindStmts (topStatements stmts) hend hground hreplaced.stmts
    { lacks := fun x _ => (ph.bodies.lookup_var x.name.text).trans (hlacks x.name.text)
      unknown := fun x hx => hnames x (List.mem_append_right _ hx)
      allowed := fun f hf => by
        obtain ⟨n, hn, hf⟩ := List.mem_flatMap.mp hf
        exact List.mem_flatMap.mpr ⟨n, Ast.Stmt.mem_allNodes_of_filter hn, hf⟩
      tame := fun n hn => htame n (Ast.Stmt.mem_allNodes_of_filter hn)
      exact := fun n hn => hexact.2 n (List.mem_append_right _ hn)
      returned := fun _ _ _ hdeclared => by cases hdeclared } rfl hquiet
  refine (hreports.trans hstmts.reports).congr ?_ rfl
  rw [ph.silent_start hsilent]
  rfl

end Phases

end Binding

end Bindery
