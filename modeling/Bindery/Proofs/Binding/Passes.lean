import Bindery.Proofs.Binding.Members
import Bindery.Session

/-!
# The passes of a bind never fail

The bodies of the functions are bound one after another (`Bodies`), each settling the return type of
its function, and then the other statements. `Phases` collects what the passes of a bind do, and
`exists_phases` says that every bind gets through all of them.
-/

namespace Bindery

open Ast (Name Param)

/-- Whether a statement declares a function. -/
def Ast.Stmt.isFn : Ast.Stmt → Bool
  | .fn .. => true
  | _ => false

namespace Binding

variable {s : State}

/-! ## Bodies of functions -/

/-- The frame in which the body of a function is bound. -/
def bodyFrame (f : Sig) (name : Name) : FnFrame :=
  ⟨f.name, if f.isFinal then some f.ret else none, [], name.range⟩

theorem keeps_fnBody (frame : FnFrame) (stmts : List Ast.Stmt) :
    Keeps (stmts.flatMap Ast.Stmt.identifiers) (withFn frame <|
      withLoopDepth (fun _ => 0) <| withScopeDepth (fun _ => 0) <| bindStmts stmts) :=
  keeps_withFn _ (keeps_withLoopDepth _ (keeps_withScopeDepth _ (keeps_bindStmts stmts)))

instance keeps_bindFnScope (f : Sig) (name : Name) (params : List Param)
    (body : Ast.Block) : Keeps [] (bindFnScope f name params body) := by
  refine keeps_inScope .fn (keeps_withGenerics _ (.seq
    ((keeps_declareLocals rfl _).mono fun _ h => List.mem_append_left _ h) fun _ =>
      .seq ((keeps_fnBody _ _).mono fun _ h => List.mem_append_right _ h) fun _ => ?_))
  infer_instance

/-- The frame of a function comes back with the `return` statements met. -/
theorem exists_frame_bindFnScope (f : Sig) (name : Name)
    (params : List Param) (body : Ast.Block) (s : State) :
    ∃ returns, (out (bindFnScope f name params body) s).2.2 =
      some ((bodyFrame f name).noting returns) := by
  rw [bindFnScope, out_inScope, out_withGenerics, out_bind, out_bind]
  have hkeeps := keeps_withLoopDepth (fun _ => 0)
    (keeps_withScopeDepth (fun _ => 0) (keeps_bindStmts body.stmts))
  obtain ⟨returns, hout⟩ := exists_out_withFn (bodyFrame f name) hkeeps
    (after (declareLocals .parameter ((params.map Param.name).zip f.paramTys))
      ((s.opened .fn).naming f.tyParams))
  refine ⟨returns, ?_⟩
  rw [bodyFrame] at hout ⊢
  rw [hout]
  rfl

/-- The state in which the return type of a function is settled. -/
def State.settled (s : State) (id : SymId) (f : Sig) (frame : FnFrame)
    (trailing : Option (Ty × Range)) : State :=
  if f.isFinal then after (settleReturn frame trailing) s
  else (after (settleReturn frame trailing) s).resigning id
    { f with ret := out (settleReturn frame trailing) s, isFinal := true }

variable {id : SymId} {f : Sig}

theorem ran_finalizeFn (hf : s.syms.sig? id = some f) (hfinal : f.isFinal = false)
    (hb : f.isBuiltin = false) (ret : Ty) :
    Ran (finalizeFn id f ret) s () (s.resigning id { f with ret, isFinal := true }) := by
  rw [finalizeFn, ran_bind]
  refine ⟨s, s, ran_lift.mpr ⟨rfl, rfl⟩, ?_⟩
  rw [hf]
  dsimp only
  rw [hfinal, hb]
  exact ran_lift.mpr ⟨rfl, rfl⟩

/-- Binding the body of a function of the file never fails. -/
theorem ran_bindFnBody (hf : s.syms.sig? id = some f) (hb : f.isBuiltin = false) (origin : Origin)
    (name : Name) (params : List Param) (body : Ast.Block) {frame : FnFrame}
    (hframe : (out (bindFnScope f name params body) s).2.2 = some frame) :
    Ran (bindFnBody id origin name params body) s
      ⟨id, (out (bindFnScope f name params body) s).1,
        (out (bindFnScope f name params body) s).2.1, origin.range⟩
      ((after (bindFnScope f name params body) s).settled id f frame
        (blockCandidate (out (bindFnScope f name params body) s).2.1)) := by
  have hgrows := Keeps.grows [] (bindFnScope f name params body) s
  rw [bindFnBody, ran_bind]
  refine ⟨s, s, ran_lift.mpr ⟨rfl, rfl⟩, ?_⟩
  rw [hf]
  refine ran_bind.mpr ⟨_, _, ran_lift.mpr ⟨rfl, rfl⟩, ?_⟩
  generalize out (bindFnScope f name params body) s = o at hframe ⊢
  generalize after (bindFnScope f name params body) s = u at hgrows ⊢
  obtain ⟨syms, block, frame'⟩ := o
  subst hframe
  refine ran_bind.mpr ⟨_, _, ran_lift.mpr ⟨rfl, rfl⟩, ?_⟩
  have hsettle := hgrows.trans (Keeps.grows [] (settleReturn frame (blockCandidate block)) u)
  rw [State.settled]
  cases hfinal : f.isFinal with
  | true => exact ran_pure.mpr ⟨rfl, rfl⟩
  | false =>
    have hsig := Symbols.sig?_of_le hsettle.syms hf
    exact ran_bind.mpr ⟨(), _, ran_finalizeFn hsig hfinal hb _, ran_pure.mpr ⟨rfl, rfl⟩⟩

/-- Settling the return type keeps the top level. -/
theorem top_settled (hs : s.Top) (hf : s.syms.sig? id = some f) (hb : f.isBuiltin = false)
    (frame : FnFrame) (trailing : Option (Ty × Range)) :
    (s.settled id f frame trailing).Top ∧ Later s (s.settled id f frame trailing) := by
  have hgrows := Keeps.grows [] (settleReturn frame trailing) s
  have htop := hs.grows hgrows
  rw [State.settled]
  split
  · exact ⟨htop, .grows hgrows⟩
  · have hsig := Symbols.sig?_of_le hgrows.syms hf
    refine ⟨htop.resigning hsig _, (Later.grows hgrows).trans ⟨List.prefix_rfl, ?_, ?_, .refl _⟩⟩
    · exact fun _ _ hsym hkind => Symbols.get?_setSig_of_kind hsig _ hsym hkind
    · exact fun _ _ hw => hw.setSig hsig hb rfl

/-- The bodies of the functions among the statements, bound one after another: each in a scope of
its own, after which its return type is settled. -/
inductive Bodies (sigs : List (Nat × SymId)) :
    Nat → List Ast.Stmt → State → List Bound.FnDecl → State → Prop
  | nil (index : Nat) (s : State) : Bodies sigs index [] s [] s
  | skip {index : Nat} {stmt : Ast.Stmt} {stmts : List Ast.Stmt} {s t : State}
      {fns : List Bound.FnDecl} (hskip : stmt.isFn = false)
      (hrest : Bodies sigs (index + 1) stmts s fns t) :
      Bodies sigs index (stmt :: stmts) s fns t
  | body {index : Nat} {origin : Origin} {name : Name} {tyParams : List Name}
      {params : List Param} {ret : Option Ast.TyExpr} {body : Ast.Block}
      {stmts : List Ast.Stmt} {s t : State} {fns : List Bound.FnDecl} {id : SymId}
      {f : Sig} {syms : List SymId} {block : Bound.Block} {returns : List (Ty × Range)}
      (htop : s.Top) (hid : sigs.lookup index = some id)
      (hf : s.syms.sig? id = some f) (hb : f.isBuiltin = false)
      (hparams : f.params.length = params.length)
      (hscope : out (bindFnScope f name params body) s =
        (syms, block, some ((bodyFrame f name).noting returns)))
      (hrest : Bodies sigs (index + 1) stmts
        ((after (bindFnScope f name params body) s).settled id f ((bodyFrame f name).noting returns)
          (blockCandidate block)) fns t) :
      Bodies sigs index (.fn origin name tyParams params ret body :: stmts) s
        (⟨id, syms, block, origin.range⟩ :: fns) t

theorem completes_bindFns (sigs : List (Nat × SymId)) (index : Nat)
    (stmts : List Ast.Stmt) (hs : s.Top)
    (hdeclared : Declared sigs index stmts s.syms) :
    Completes (bindFns sigs index stmts) s fun fns t =>
      t.Top ∧ Later s t ∧ Bodies sigs index stmts s fns t := by
  induction stmts generalizing index s with
  | nil => exact .pure ⟨hs, .refl s, .nil index s⟩
  | cons stmt stmts ih =>
    have hrest : ∀ {t : State}, t.Top → Later s t →
        Completes (bindFns sigs (index + 1) stmts) t fun fns u =>
          u.Top ∧ Later s u ∧ Bodies sigs (index + 1) stmts t fns u := by
      intro t ht hlater
      refine (ih (index + 1) ht ?_).mono fun _ u hu => ⟨hu.1, hlater.trans hu.2.1, hu.2.2⟩
      intro j origin name tyParams params ret body hj
      obtain ⟨id, hid, hw⟩ := hdeclared (j + 1) _ _ _ _ _ _ hj
      exact ⟨id, by rwa [Nat.succ_add_eq_add_succ], hlater.written id _ hw⟩
    by_cases hfn : ∃ origin name tyParams params ret body,
        stmt = .fn origin name tyParams params ret body
    · obtain ⟨origin, name, tyParams, params, ret, body, rfl⟩ := hfn
      obtain ⟨id, hid, f, hf, hb, hparams⟩ := hdeclared 0 _ _ _ _ _ _ rfl
      obtain ⟨returns, hframe⟩ := exists_frame_bindFnScope f name params body s
      have hgrows := Keeps.grows [] (bindFnScope f name params body) s
      have hsig := Symbols.sig?_of_le hgrows.syms hf
      obtain ⟨htop, hlater⟩ := top_settled (hs.grows hgrows) hsig hb
        ((bodyFrame f name).noting returns)
        (blockCandidate (out (bindFnScope f name params body) s).2.1)
      rw [bindFns, show sigs.lookup index = some id from hid]
      refine .bind ⟨_, _, ran_bindFnBody hf hb origin name params body hframe, .bind ?_⟩
      refine (hrest htop ((Later.grows hgrows).trans hlater)).mono fun fns u hu =>
        .pure ⟨hu.1, hu.2.1, ?_⟩
      exact .body hs hid hf hb hparams (by rw [← hframe]) hu.2.2
    · rw [bindFns]
      · refine (hrest hs (.refl s)).mono fun fns u hu => ⟨hu.1, hu.2.1, .skip ?_ hu.2.2⟩
        cases stmt with
        | fn origin name tyParams params ret body =>
          exact absurd ⟨origin, name, tyParams, params, ret, body, rfl⟩ hfn
        | _ => rfl
      · exact fun origin name tyParams params ret body h =>
          hfn ⟨origin, name, tyParams, params, ret, body, h⟩

/-! ## Files -/

theorem get?_initial {c : ScopeId} {sc : Scope} (h : Scopes.initial.get? c = some sc) :
    sc = .fresh .root none 0 := by
  obtain ⟨hlt, hsc⟩ := Array.getElem?_eq_some_iff.mp h
  have hc : c = 0 := Nat.lt_one_iff.mp hlt
  subst hc
  exact hsc.symm

theorem top_initial : State.initial.Top where
  valid := by
    refine ⟨by decide, Scopes.nested_initial, ?_, ?_, ?_⟩
    · intro c sc name id hsc hid
      cases get?_initial hsc
      cases hid
    · intro c sc name id hsc hid
      cases get?_initial hsc
      cases hid
    · intro b hb
      cases hb
  current := rfl
  fns := rfl
  boundaries := rfl
  recorded := Registry.recorded_empty
  unstrayed := rfl

theorem completes_checkBalanced (hs : s.Top) : Completes checkBalanced s fun _ t => t = s := by
  have hdepth : s.captures.depth = 0 := by
    have hlength := congrArg List.length hs.boundaries
    rwa [Captures.boundaries, List.length_map] at hlength
  refine .bind (.get ?_)
  rw [if_neg (by simp [hs.current, hs.fns, hdepth])]
  exact .pure rfl

/-- The statements of a file that are no declarations. -/
def topStatements (stmts : List Ast.Stmt) : List Ast.Stmt :=
  stmts.filter fun stmt => !stmt.isDeclaration

/-- The passes over the built-in functions and the types of a file. -/
def typeDeclarations (stmts : List Ast.Stmt) : Pass (List Bound.RecordDecl × List Bound.SumDecl) := do
  declareBuiltins Builtin.sigs
  let owned ← (declareTypeNames 0 stmts : Binding _)
  let records ← bindOwned bindRecord? owned 0 stmts
  let sums ← bindOwned bindSum? owned 0 stmts
  return (records, sums)

theorem completes_typeDeclarations (stmts : List Ast.Stmt) :
    Completes (typeDeclarations stmts) .initial fun p t =>
      Prepares stmts .initial t ∧ TypePasses stmts p.1 p.2 t := by
  have hbuiltins : Completes (declareBuiltins Builtin.sigs) .initial fun _ t =>
      Prepares stmts .initial t := by
    refine completes_declareBuiltins _ top_initial (fun _ h => h) (by decide) fun f _ sc hsc => ?_
    cases get?_initial hsc
    rfl
  obtain ⟨⟨⟩, s₁, hbuiltins, h₁⟩ := hbuiltins
  obtain ⟨hnames, -, hknown⟩ := prepares_declareTypeNames 0 stmts (fun _ h => h) (h₁.top top_initial)
  have h₂ := h₁.trans hnames
  refine .bind ⟨(), s₁, hbuiltins, .bind (.lift (.bind ?_))⟩
  refine (@completes_bindOwned _ stmts _ _ _ _ completes_bindRecord? 0 stmts (h₂.top top_initial)
    h₂.generics hknown).mono ?_
  rintro records s₃ ⟨hfields, hrecords⟩
  have h₃ := h₂.trans hfields
  refine .bind
    ((@completes_bindOwned _ stmts _ _ _ _ completes_bindSum? 0 stmts (h₃.top top_initial)
      h₃.generics
    fun j stmt hj hi => ?_).mono ?_)
  · exact (hknown j stmt hj hi).of_extends (hfields.later (h₂.top top_initial)).registry
  · exact fun sums t ht => .pure ⟨h₃.trans ht.1, s₁, s₃, hbuiltins, hrecords, ht.2⟩

/-- The passes over the types have done what they do whenever they complete. -/
theorem TypePasses.of_ran {stmts : List Ast.Stmt} {records : List Bound.RecordDecl}
    {sums : List Bound.SumDecl}
    {u : State} (h : Ran (typeDeclarations stmts) .initial (records, sums) u) :
    TypePasses stmts records sums u := by
  obtain ⟨p, t, hran, -, hpasses⟩ := completes_typeDeclarations stmts
  cases h.symm.trans hran
  exact hpasses

/-- What the passes of a bind do one after another. -/
structure Phases (stmts : List Ast.Stmt) where
  /-- After the declarations. -/
  start : State
  /-- After the bodies of the functions. -/
  bound : State
  sigs : List (Nat × SymId)
  records : List Bound.RecordDecl
  sums : List Bound.SumDecl
  fns : List Bound.FnDecl
  /-- The types are declared first, and then the signatures. -/
  declares : ∃ u : State, u.Top ∧ Ran (typeDeclarations stmts) .initial (records, sums) u ∧
    sigs = out (declareSigs 0 stmts) u ∧ start = after (declareSigs 0 stmts) u
  prepares : Prepares stmts .initial start
  declared : Declared sigs 0 stmts start.syms
  bodies : Bodies sigs 0 stmts start fns bound
  top_bound : bound.Top

namespace Phases

variable {stmts : List Ast.Stmt} (ph : Phases stmts)

/-- The state that the bind leaves behind. -/
def final : State := after (bindStmts (topStatements stmts)) ph.bound

/-- The bound file. -/
def program : Bound.Program :=
  ⟨ph.records, ph.sums, ph.fns, out (bindStmts (topStatements stmts)) ph.bound, ph.final.syms⟩

theorem grows_final : Grows ((topStatements stmts).flatMap Ast.Stmt.identifiers) ph.bound ph.final :=
  (keeps_bindStmts _).grows _

theorem top_final : ph.final.Top := ph.top_bound.grows ph.grows_final

end Phases

/-- Every pass of a bind completes. -/
theorem exists_phases (stmts : List Ast.Stmt) (s : State) :
    ∃ ph : Phases stmts, Ran (bindProgram stmts) s ph.program ph.final := by
  obtain ⟨⟨records, sums⟩, s₄, htypes, h₄, -⟩ := completes_typeDeclarations stmts
  obtain ⟨hsigs, declared⟩ := prepares_declareSigs 0 stmts (fun _ h => h) (h₄.top top_initial)
  have hstart := h₄.trans hsigs
  obtain ⟨fns, bound, hfns, top_bound, -, bodies⟩ :=
    completes_bindFns _ 0 stmts (hstart.top top_initial) declared
  let ph : Phases stmts :=
    ⟨_, bound, _, records, sums, fns, ⟨s₄, h₄.top top_initial, htypes, rfl, rfl⟩, hstart, declared,
      bodies,
      top_bound⟩
  refine ⟨ph, ?_⟩
  obtain ⟨⟨⟩, _, hbalanced, rfl⟩ := completes_checkBalanced ph.top_final
  refine ran_bind.mpr ⟨(), _, ran_lift.mpr ⟨rfl, rfl⟩, ?_⟩
  obtain ⟨⟨⟩, s₁, hbuiltins, htypes⟩ := ran_bind.mp htypes
  obtain ⟨owned, s₂, hnames, htypes⟩ := ran_bind.mp htypes
  obtain ⟨_, s₃, hrecords, htypes⟩ := ran_bind.mp htypes
  obtain ⟨_, _, hsums, htypes⟩ := ran_bind.mp htypes
  cases (ran_pure.mp htypes).1
  cases (ran_pure.mp htypes).2
  refine ran_bind.mpr ⟨_, _, hbuiltins, ran_bind.mpr ⟨_, _, hnames, ?_⟩⟩
  refine ran_bind.mpr ⟨_, _, hrecords, ran_bind.mpr ⟨_, _, hsums, ?_⟩⟩
  refine ran_bind.mpr ⟨_, _, ran_lift.mpr ⟨rfl, rfl⟩, ran_bind.mpr ⟨_, _, hfns, ?_⟩⟩
  refine ran_bind.mpr ⟨_, _, ran_lift.mpr ⟨rfl, rfl⟩, ran_bind.mpr ⟨_, _, hbalanced, ?_⟩⟩
  exact ran_bind.mpr ⟨_, _, ran_lift.mpr ⟨rfl, rfl⟩, ran_pure.mpr ⟨rfl, rfl⟩⟩

end Binding

/-- The outcome of a bind is that of its passes. -/
theorem Session.bind_eq_of_ran {κ : Type} [DecidableEq κ] [Keyed κ] {session : Session κ}
    {file : Ast.SourceFile}
    {p : Bound.Program} {t : Binding.State κ}
    (h : Binding.Ran (Binding.bindProgram file.stmts) session.state p t) :
    session.bind file = (.ok ⟨p, session.options.limit (t.diagnostics file)⟩,
      { session with state := t }) := by
  have hrun : (Binding.bindProgram file.stmts).run session.state = (.ok p, t) := h
  simp only [Session.bind, hrun, Except.map]

end Bindery
