import Bindery.Proofs.Binding.MirrorMatches

/-!
# Nodes on poisoned parts

What the second run makes of a collection, a statement, a lambda, a call or a record whose parts it
has bound. Where the parts are bound in between, what the second run makes of them is a hypothesis.
-/

namespace Bindery.Binding

open Bindery.Bound
open Ast (Unknown)

variable {Γ : Symbols} {w : Setting} {s s' t u v : State} {range : Range} {xs ys : List Unknown}
  {expected expected' : Option Ty}

variable {o : Origin} {record : RecordDef} {name : Ast.Name} {hint declared : Option Ty} {e : Expr}
    {tyArgs : List Ast.TyExpr} {bs : List Expr} {known : Subst} {ty : Ty} {b : Expr}
    {returns : List (Ty × Range)} {ret : Ty}

/-- What is poisoned as a whole. -/
theorem ExprBelow.poison {n : Expr} (hdiverges : b.diverges = false) (hty : n.ty = .error)
    (hdiverges' : n.diverges = false) (hcandidate : bodyCandidate n = some (n.ty, n.range))
    (hname : isFnRef n = false) : ExprBelow b n := by
  refine ⟨hty ▸ .error _, hdiverges'.trans hdiverges.symm, ?_, fun _ => hname⟩
  rw [hcandidate, hty]
  cases bodyCandidate b with
  | none => exact .poison n.range
  | some candidate => exact .some (.error _)

theorem CandidateBelow.refl (c : Option (Ty × Range)) : CandidateBelow c c := by
  cases c with
  | none => exact .none
  | some candidate => exact .some (Ty.below_refl _)

theorem ExprBelow.refl (n : Expr) : ExprBelow n n := ⟨Ty.below_refl _, rfl, .refl _, id⟩

/-! ## What the first run has checked -/

/-- A value that is called is given no type arguments. -/
theorem Quiet.tyArgs_of_call {callee : Ast.Expr} {args : List Ast.Expr}
    (h : Quiet Γ (bindExpr expected (.call o callee tyArgs args)) s b t)
    (hname : ∀ name, callee = .name name → s.scopes.lookup .var s.current name.text ≠ none) :
    tyArgs = [] := by
  obtain ⟨target, u, hresolve, hrest⟩ := h.seq (by
    intro target
    cases target <;> infer_instance)
  rcases hresolve.resolveCallee with ⟨name, target, rfl, hvar, -, -⟩ | ⟨rfl, -, -⟩
  · exact absurd hvar (hname name rfl)
  · obtain ⟨value, u, -, hrest⟩ := hrest.bind
    obtain ⟨_, _, hcheck, -⟩ := hrest.bind
    exact tyArgs_eq_nil hcheck

theorem Quiet.scopeDepth_of_spawn {body : Ast.Block}
    (h : Quiet Γ (bindExpr expected (.spawn o body)) s b t) :
    (s.scopeDepth != 0) = true := by
  obtain ⟨_, _, hcheck, -⟩ := h.bind
  exact (hcheck.read rfl).reportUnless.1

variable {result : Option Stmt} {symbol : SymId} {r : Ty × Range} {args' : List Ast.Expr}
  {known' k : Subst} {fields : List Ast.FieldInit} {values : List FieldValue} {seen : List String}

theorem Quiet.loopDepth_of_jump {keyword : String} {range : Range} {f : Unit → Binding (Option Stmt)}
    [∀ a, (f a).Forward] (h : Quiet Γ (checkInLoop keyword range >>= f) s result t) :
    (s.loopDepth != 0) = true := by
  obtain ⟨_, _, hcheck, -⟩ := h.bind
  exact (hcheck.read rfl).reportUnless.1

/-- A result that an arm of a match has settled stays. -/
theorem result_bindArms {target : Ty} {agreed agreed' : ArmTypes} {arms : List Ast.Arm} {bs : List Arm}
    (hq : Quiet Γ (bindArms target expected agreed arms) s (bs, agreed') t)
    (h : agreed.result = some ty) :
    agreed'.result = some ty := by
  induction arms generalizing s agreed bs with
  | nil =>
    obtain ⟨heq, -⟩ := hq.bindArms_nil
    cases heq
    exact h
  | cons arm arms ih =>
    obtain ⟨origin, pattern, body⟩ := arm
    obtain ⟨p, b, u, v, agreed₁, arms', agreed₂, -, -, hnote, hrest, heq⟩ := hq.bindArms_cons
    cases heq
    refine ih hrest ?_
    unfold noteArm at hnote
    rw [h] at hnote
    split at hnote
    · obtain ⟨rfl, -⟩ := hnote.pure
      rfl
    · split at hnote
      · obtain ⟨rfl, -⟩ := hnote.pure
        exact h
      · dsimp only at hnote
        split at hnote
        · obtain ⟨rfl, -⟩ := hnote.pure
          exact h
        · exact absurd hnote Quiet.not_report_bind

/-! ## Expected types of parts -/

theorem suitsAll_tupleHints (h : Suits expected' ⟨.tuple bs, .tuple (bs.map Expr.ty), range⟩)
    (count : Nat) :
    SuitsAll (tupleHints expected' count) bs := by
  unfold tupleHints
  split
  · next tys =>
    split
    · rcases h _ rfl with hunit | hbelow | hdiverges | ⟨b, hb⟩
      · cases hunit
      · cases hbelow with
        | tuple hbelow => exact suitsAll_of_belowAll hbelow
      · cases hdiverges
      · cases hb
    · exact suitsAll_nil bs
  · exact suitsAll_nil bs

theorem suits_par (h : Suits expected' ⟨.par e, e.ty, range⟩) : Suits expected' e := by
  intro ty hty
  rcases h ty hty with hunit | hbelow | hdiverges | ⟨b, hb⟩
  · exact .inl hunit
  · exact .inr (.inl hbelow)
  · cases hdiverges
  · cases hb

/-- An `else` branch that has a value has the type of the whole. -/
theorem suits_elseBranch {cond : Expr} {b : Block}
    (h : Suits expected' ⟨.ifElse cond b (some e), ty, range⟩) (hb : b.ty.hasPoison = false)
    (he : e.ty.hasPoison = false) (hq : Quiet Γ (branchTy b e range) s ty t) : Suits expected' e := by
  obtain ⟨-, hbranch⟩ := hq.branchTy
  obtain ⟨hleft, hright⟩ := hbranch (Ty.ne_error_of_hasPoison hb) (Ty.ne_error_of_hasPoison he)
  intro expectedTy hexpected
  rcases h expectedTy hexpected with hunit | hbelow | hdiverges | ⟨block, hblock⟩
  · exact .inl hunit
  · cases hb' : b.diverges with
    | true =>
      refine .inr (.inl ?_)
      rw [← hleft hb']
      exact hbelow
    | false =>
      obtain ⟨rfl, haccepts⟩ := hright hb'
      cases he' : e.diverges with
      | true => exact .inr (.inr (.inl rfl))
      | false =>
        refine .inr (.inl ?_)
        rw [← Ty.eq_of_compatible hb he (by simp) (haccepts he')]
        exact hbelow
  · have hboth : (b.diverges && e.diverges) = true := hdiverges
    exact .inr (.inr (.inl (Bool.and_eq_true_iff.mp hboth).2))
  · cases hblock

/-! ## Collections -/

theorem ends_listExpr {element : Ty} {bs' : List Expr} (h : Poisoned w t s')
    (hint_below : hint = none ∨ ∃ a, hint = some a ∧ a.Below element) (hall : ∀ b ∈ bs, b.ty = element)
    (hbs : List.Forall₂ ExprBelow bs bs')
    (hallowed : bs = [] → w.allowed ⟨range, .emptyLiteral "list"⟩) :
    Ends w [] (listExpr hint bs' range) s' t (ExprBelow ⟨.list bs, .list element, range⟩) := by
  have hbelow : ∀ ty' : Ty, ty'.Below (.list element) →
      ExprBelow ⟨.list bs, .list element, range⟩ ⟨.list bs', ty', range⟩ :=
    fun ty' hty => ⟨hty, rfl, .some hty, fun _ => rfl⟩
  cases hbs with
  | nil =>
    exact (ends_emptyCollectionTy h hint_below (hallowed rfl)).andThen fun ty' _ hu hty =>
      .pure hu (hbelow ty' hty)
  | @cons b b' bs bs' hb hbs =>
    have htys : ∀ ty ∈ (b :: bs).map Expr.ty, ty = element := List.forall_mem_map.mpr hall
    obtain ⟨element', helement, hsettle⟩ :=
      repeats_settleElements hint_below htys (belowAll_map_ty (.cons hb hbs)) s'
    exact .repeats h (hsettle.seq (.pure _ s')) (hbelow _ (.container .list helement))

theorem ends_mapExpr {value : Ty} {entries entries' : List Entry} (h : Poisoned w t s')
    (hint_below : hint = none ∨ ∃ a, hint = some a ∧ a.Below value)
    (hall : ∀ e ∈ entries, e.value.ty = value)
    (hentries : List.Forall₂ (fun e e' => ExprBelow e.value e'.value) entries entries')
    (hallowed : entries = [] → w.allowed ⟨range, .emptyLiteral "map"⟩) :
    Ends w [] (mapExpr hint entries' range) s' t (ExprBelow ⟨.map entries, .map value, range⟩) := by
  have hbelow : ∀ ty' : Ty, ty'.Below (.map value) →
      ExprBelow ⟨.map entries, .map value, range⟩ ⟨.map entries', ty', range⟩ :=
    fun ty' hty => ⟨hty, rfl, .some hty, fun _ => rfl⟩
  cases hentries with
  | nil =>
    exact (ends_emptyCollectionTy h hint_below (hallowed rfl)).andThen fun ty' _ hu hty =>
      .pure hu (hbelow ty' hty)
  | @cons e e' es es' he hes =>
    have htys : ∀ ty ∈ ((e :: es).map Entry.value).map Expr.ty, ty = value := by
      rw [List.map_map]
      exact List.forall_mem_map.mpr hall
    have hvalues : List.Forall₂ ExprBelow ((e :: es).map Entry.value) ((e' :: es').map Entry.value) :=
      List.forall₂_map_left_iff.mpr (List.forall₂_map_right_iff.mpr (.cons he hes))
    obtain ⟨value', hvalue, hsettle⟩ :=
      repeats_settleElements hint_below htys (belowAll_map_ty hvalues) s'
    exact .repeats h (hsettle.seq (.pure _ s')) (hbelow _ (.container .map hvalue))

/-! ## Statements -/

/-- A `let` declares its name with a poisoned form of the type, unless the type is written. -/
theorem ends_finishLet {isMutable : Bool} {e' : Expr} (h : Poisoned w u s') (hplain : w.isPlain = true)
    (he : e'.ty.Below e.ty) (haccepts : ∀ ty, declared = some ty → ty.accepts e.ty = true)
    (hq : Quiet Γ (declareLocal name (.var isMutable) (declared.getD e.ty)) u symbol t) :
    Ends w [] (finishLet name isMutable declared e') s' t fun kind => ∃ symbol',
      kind = .bindName symbol' e' := by
  cases declared with
  | none =>
    exact (ends_declareLocal h rfl hq he (.inl hplain)).andThen fun symbol' _ hu _ =>
      .pure hu ⟨symbol', rfl⟩
  | some ty =>
    have haccepts' : ty.accepts e'.ty = true :=
      Ty.compatible_mono (haccepts ty rfl) (Ty.below_refl ty) he
    refine .past (.reportUnless haccepts' _ _ s') ?_
    exact (ends_declareLocal h rfl hq (Ty.below_refl ty) (.inl hplain)).andThen
      fun symbol' _ hu _ => .pure hu ⟨symbol', rfl⟩

/-- The target of an assignment has a poisoned form of its type. A stray may not be assigned. -/
theorem ends_assignTarget {sym : Symbol} (h : Poisoned w s s')
    (hq : Quiet Γ (resolveVar name) s (some symbol) u)
    (hsym : u.syms.get? symbol = some sym) :
    Ends w [] (assignTarget name) s' u fun target => ∃ ty' isMutable',
      target.2 = some (ty', isMutable') ∧
      ty'.Below sym.ty ∧ (isMutable' = sym.isMutable ∨ w.bare name.text = true) := by
  obtain ⟨hpoisoned, hfindings⟩ := h.resolveVar hq
  have hout := out_resolveVar h.valid' name
  have hsyms := (resolveVar_neutral h.valid' name).1
  have hresolve : Ends w [] (resolveVar name) s' u fun _ => True :=
    ⟨hpoisoned, .of_eq hfindings, trivial⟩
  refine hresolve.followed (.past (.get _) (.pure hpoisoned ?_))
  have hseen := h.seen name.text
  rw [(hq.resolveVar h.valid).1] at hseen
  rw [hout, hsyms]
  generalize s'.scopes.lookup .var s'.current name.text = result' at hseen
  have hgrows : Grows [] s u := hq.grows inferInstance
  cases hseen with
  | known hsym₁ hsym' hname hkind hty hscope hscope' hc hc' hdepth =>
    cases Option.some.inj ((hgrows.syms _ _ hsym₁).symm.trans hsym)
    refine ⟨_, _, by rw [Option.bind_some, hsym', Option.map_some], hty, .inl ?_⟩
    rw [Symbol.isMutable, Symbol.isMutable, hkind]
  | stray hbare hsym' hkind hty hscope' hc' =>
    refine ⟨_, _, by rw [Option.bind_some, hsym', Option.map_some], ?_, .inr hbare⟩
    rw [hty]
    exact .error _

theorem ends_finishAssign {ty' : Ty} {isMutable' : Bool} {e' : Expr} (h : Poisoned w t s')
    (hty : ty'.Below ty)
    (he : e'.ty.Below e.ty) (haccepts : ty.accepts e.ty = true)
    (hmutable : isMutable' = true ∨ w.allowed ⟨name.range, .assignToImmutable name.text⟩) :
    Ends w [] (finishAssign name (some (ty', isMutable')) e') s' t fun _ => True := by
  have haccepts' : ty'.accepts e'.ty = true := Ty.compatible_mono haccepts hty he
  have hfirst : Ends w [] (reportUnless isMutable' name.range (.assignToImmutable name.text)) s' t
    fun _ => True := by
    rcases hmutable with rfl | hallowed
    · exact .repeats h (.reportUnless rfl _ _ s') trivial
    · cases isMutable' with
      | true => exact .repeats h (.reportUnless rfl _ _ s') trivial
      | false => exact .report h rfl hallowed
  exact hfirst.andThen fun _ u' hu _ => .repeats hu (.reportUnless haccepts' _ _ u') trivial

/-- A `return` is noted in both runs. -/
theorem ends_finishReturn {ty' : Ty} {candidate candidate' : Range} {a : Unit} (h : Poisoned w u s')
    (hty : ty'.Below ty) (hsound : ty.hasPoison = false)
    (hq : Quiet Γ (finishReturn ty candidate range) u a t) :
    Ends w [] (finishReturn ty' candidate' range) s' t fun _ => True := by
  obtain ⟨hinside, rfl⟩ := hq.finishReturn
  have hfns := h.fns
  have hdeclared := h.declared
  cases hfs : u.fns with
  | nil => exact absurd hfs hinside
  | cons f fs =>
    rw [hfs] at hfns hdeclared
    cases hfs' : s'.fns with
    | nil =>
      rw [hfs'] at hfns
      cases hfns
    | cons f' fs' =>
      rw [hfs'] at hfns
      obtain ⟨hf, hrest⟩ := List.forall₂_cons.mp hfns
      have hafter := after_noteReturn ty' candidate' s'
      have hout : out (noteReturn ty' candidate') s' = true := by rw [noteReturn, out_modifyGet, hfs']
      have hnoted : Poisoned w (u.inFns ((f :: fs).modifyHead (·.noting [(ty, candidate)])))
          (after (noteReturn ty' candidate') s') := by
        rw [hafter, hfs']
        exact { h with
          valid := h.valid.congr rfl rfl rfl rfl
          valid' := h.valid'.congr rfl rfl rfl rfl
          fns := .cons (hf.noting hty hsound candidate candidate') hrest
          declared := hdeclared }
      have hnote : Ends w [] (noteReturn ty' candidate') s'
          (u.inFns ((f :: fs).modifyHead (·.noting [(ty, candidate)]))) (· = true) :=
        ⟨hnoted, .of_eq (by rw [hafter]; rfl), hout⟩
      exact hnote.andThen fun inside u' hu hok => .repeats hu (.reportUnless hok _ _ u') trivial

/-! ## Lambdas -/

theorem ends_inLambda {α : Type} {m : Binding α} {P : α → Prop} {own : List String}
    (h : Poisoned w s s')
    (hinner : Ends { w with isPlain := true } xs m s'.enteringLambda v P)
    (hg : Grows own s.enteringLambda v)
    (hm : Keeps own m) :
    Ends w xs (inScope .lambda (withLambda m)) s' ((v.capturing v.captures.exit.2).at s.current)
      fun r => P r.1 :=
  hinner.leaving rfl h hg.withLambda.inScope ((keeps_inScope .lambda (keeps_withLambda hm)).grows s')
    hinner.poisoned.fns rfl rfl hinner.answer

theorem mem_nodes_of_mem {ss : List Stmt} (h : ⟨.expr e, range⟩ ∈ ss) (deep : Bool) :
    Node.expr e ∈ Stmt.allNodes deep ss := by
  induction ss with
  | nil => cases h
  | cons st ss ih =>
    rcases List.mem_cons.mp h with rfl | h
    · refine List.mem_append_left _ (List.mem_cons_of_mem _ ?_)
      obtain ⟨kind, ty, range⟩ := e
      exact List.mem_cons_self
    · exact List.mem_append_right _ (ih h)

/-- The value of a block is among its nodes. -/
theorem mem_nodes_of_value? {b : Block} (h : b.value? = some e) (deep : Bool) :
    Node.expr e ∈ b.nodes deep := by
  obtain ⟨stmts, ty, diverges, range⟩ := b
  unfold Block.value? Block.lastExpr? at h
  split at h
  · next st range hlast =>
    obtain rfl := Option.some.inj h
    exact List.mem_cons_of_mem _ (mem_nodes_of_mem (List.mem_of_getLast? hlast) deep)
  · cases h

theorem hasPoison_blockCandidate {b : Block} (hexact : ∀ n ∈ b.nodes true, n.isExact Γ = true)
    (h : blockCandidate b = some r) : r.1.hasPoison = false := by
  obtain ⟨e, he, -, rfl⟩ := exists_of_blockCandidate h
  exact Node.hasPoison_expr_of_isExact (hexact _ (mem_nodes_of_value? he true))

theorem hasPoison_bodyCandidate (hexact : ∀ n ∈ b.nodes true, n.isExact Γ = true)
    (h : bodyCandidate b = some r) :
    r.1.hasPoison = false := by
  obtain ⟨kind, ty, range⟩ := b
  rcases bodyCandidate_cases h with ⟨block, rfl, h⟩ | ⟨-, rfl⟩
  · exact hasPoison_blockCandidate (fun n hn => hexact n (List.mem_cons_of_mem _ hn)) h
  · exact Node.hasPoison_expr_of_isExact (hexact _ List.mem_cons_self)

/-- What is returned has the type that is written. -/
theorem below_returned {name : String} {c : Option (Ty × Range)} (hret : ret.hasPoison = false)
    (hreturns : ∀ r ∈ returns, r.1.hasPoison = false)
    (hq : Quiet Γ (settleReturn ⟨name, declared, returns, range⟩ c) s ret t) :
    ∀ r ∈ returns, ∀ ty, declared = some ty → ty.Below r.1 := by
  rintro r hr ty rfl
  obtain ⟨-, rfl, haccepts, -⟩ := hq.settleReturn_of_declared rfl
  exact Ty.below_of_eq (Ty.eq_of_compatible hret (hreturns r hr) (by simp) (haccepts r hr))

/-- The type that is written for a lambda suits its body. -/
theorem suits_body {name : String} (hret : ret.hasPoison = false) (hb : b.ty.hasPoison = false)
    (hq : Quiet Γ (settleReturn ⟨name, declared, returns, range⟩ (bodyCandidate b)) s ret t) :
    Suits declared b := by
  rintro ty rfl
  obtain ⟨-, rfl, -, hvalue⟩ := hq.settleReturn_of_declared rfl
  by_cases hunit : ret = .unit
  · exact .inl hunit
  · by_cases hblock : ∃ block, b.kind = .block block
    · exact .inr (.inr (.inr hblock))
    · cases hdiverges : b.diverges with
      | true => exact .inr (.inr (.inl rfl))
      | false =>
        have hcandidate : bodyCandidate b = some (b.ty, b.range) := by
          unfold bodyCandidate
          split
          · next block hkind => exact absurd ⟨block, hkind⟩ hblock
          · rw [hdiverges]
            rfl
        have haccepts := hvalue hunit _ hcandidate
        exact .inr (.inl (Ty.below_of_eq (Ty.eq_of_compatible hret hb (by simp) haccepts)))

/-- Nothing is poisoned that a lambda without poison consists of. -/
theorem sound_lambda {syms captures : List SymId} {params : List Ty}
    (h : ∀ n ∈ Expr.nodes true ⟨.lambda syms ret captures b, .fn params ret, range⟩,
      n.isExact Γ = true) :
    ret.hasPoison = false ∧ b.ty.hasPoison = false ∧
      (∀ r ∈ returnedBy (b.nodes false), r.1.hasPoison = false) ∧
      ∀ r, bodyCandidate b = some r → r.1.hasPoison = false := by
  have hbody : ∀ n ∈ b.nodes true, n.isExact Γ = true := fun n hn => h n (List.mem_cons_of_mem _ hn)
  have hty := Node.hasPoison_expr_of_isExact (h _ List.mem_cons_self)
  simp only [Ty.hasPoison, Bool.or_eq_false_iff] at hty
  refine ⟨hty.2, ?_, fun r hr => ?_, fun r hr => hasPoison_bodyCandidate hbody hr⟩
  · obtain ⟨kind, ty, range⟩ := b
    exact Node.hasPoison_expr_of_isExact (hbody _ List.mem_cons_self)
  · obtain ⟨n, hn, hr⟩ := List.mem_flatMap.mp hr
    exact Node.hasPoison_returned_of_isExact (hbody n (b.nodes_sublist.subset hn)) r hr

/-- A body that returns something has a `return`. -/
theorem returns_of_noted {name : String} {body : Ast.Expr}
    (hu : (u.enteringBody ⟨name, declared, [], range⟩).Valid)
    (hq : Quiet Γ (bindExpr hint body) (u.enteringBody ⟨name, declared, [], range⟩) b v)
    (hframe : v.fns = ⟨name, declared, returns, range⟩ :: u.fns) (hreturns : returns ≠ []) :
    Ast.returns (body.nodes false) = true := by
  by_contra hnone
  have hsame := (stays_bindExpr body hu hq).1 (Bool.eq_false_iff.mpr hnone)
  rw [hframe] at hsame
  cases (List.cons.inj hsame).1
  exact hreturns rfl

/-- A lambda whose body the second run binds to a poisoned form. -/
theorem ends_lambdaExpr {params : List (Ast.Name × Ty)} {body body' : Binding Expr} {syms : List SymId}
    (h : Poisoned w s s') (hbody : Keeps [] body) (hbody' : Keeps [] body')
    (hparams : Quiet Γ (declareLocals .parameter params) s.enteringLambda syms u)
    (hq : Quiet Γ body (u.enteringBody ⟨"<lambda>", declared, [], range⟩) b v)
    (hfns : v.fns = ⟨"<lambda>", declared, returns, range⟩ :: u.fns)
    (hsettle : Quiet Γ (settleReturn ⟨"<lambda>", declared, returns, range⟩ (bodyCandidate b))
      (s.leavingLambda u v) ret (s.leavingLambda u v))
    (hvalue : ∀ r, bodyCandidate b = some r → r.1.hasPoison = false)
    (hallowed : declared = none → returns ≠ [] → w.allowed ⟨range, .inconsistentReturns "<lambda>"⟩)
    (hmirrored : ∀ u', Poisoned { w with isPlain := true, declared }
      (u.enteringBody ⟨"<lambda>", declared, [], range⟩) u' →
      Ends { w with isPlain := true, declared } xs body' u' v (ExprBelow b)) :
    Ends w xs (lambdaExpr params declared body' range) s' (s.leavingLambda u v)
      (ExprBelow ⟨.lambda syms ret v.captures.exit.1 b, .fn (params.map Prod.snd) ret, range⟩) := by
  have hdeclares : Grows (params.map (·.1.text)) s.enteringLambda u :=
    hparams.grows (keeps_declareLocals rfl params)
  have hruns : Grows [] u ((v.inLoops u.loopDepth).inFns v.fns.tail) :=
    (hq.grows hbody).withLoopDepth.withFn
  refine Ends.andThen (ends_inLambda (P := fun r => ExprBelow b r.2.1 ∧ ∃ f', r.2.2 = some f' ∧
    SameFrame ⟨"<lambda>", declared, returns, range⟩ f') h ?_ (hdeclares.trans (hruns.mono ?_)) ?_) ?_
  · refine (ends_declareLocals (h.enteringLambda true) rfl hparams).prepared fun syms' u' hu _ => ?_
    have hentered := hu.inFns ⟨"<lambda>", declared, [], range⟩ rfl
    rw [hfns]
    refine Ends.andThen
      (Ends.withFn hu (Ends.withLoopDepth hentered (hmirrored _ (hentered.inLoops 0))) hfns) ?_
    exact fun r v' hv hr => .pure hv hr
  · intro name hname
    cases hname
  · exact .seq (keeps_declareLocals rfl params) fun _ =>
      .seq (keeps_withFn _ (keeps_withLoopDepth _ hbody')).of_nil fun _ => inferInstance
  · rintro ⟨⟨syms', b', frame⟩, captures⟩ u' hu ⟨hb, f', rfl, hf⟩
    have hbelow : ∀ ret' : Ty, ret'.Below ret → ExprBelow
        ⟨.lambda syms ret v.captures.exit.1 b, .fn (params.map Prod.snd) ret, range⟩
        ⟨.lambda syms' ret' captures b', .fn (params.map Prod.snd) ret', range⟩ := by
      intro ret' hret
      have hty : Ty.Below (.fn (params.map Prod.snd) ret') (.fn (params.map Prod.snd) ret) :=
        .fn (Ty.belowAll_refl _) hret
      exact ⟨hty, rfl, .some hty, fun _ => rfl⟩
    cases declared with
    | some ty =>
      have hrepeats := repeats_settleReturn hf hb.candidate rfl hsettle u'
      exact .past hrepeats (.pure hu (hbelow ret (Ty.below_refl ret)))
    | none =>
      have hends := ends_settleReturn hu hf hb.candidate hvalue rfl (hallowed rfl) hsettle
      exact hends.andThen fun ret' _ hv hret => .pure hv (hbelow ret' hret)

/-! ## Calls -/

/-- A call of a function or variant. In the second run a stray may hide the variant that is
called. -/
theorem ends_namedCall {target : Callee} {n : Expr} (h : Poisoned w s s')
    (hground : Ground Γ w.registry w.bare)
    (hexact : (Node.expr n).isExact Γ = true) (hsuits : Suits expected' n)
    (htame : w.bare name.text = true → tyArgs = [])
    (hlookup : s.scopes.lookup .var s.current name.text = none)
    (hcallee : Quiet Γ (namedCallee expected name tyArgs o.range) s target s)
    (hfinish : Quiet Γ (finishCall target bs o.range) t n t)
    (hargs : ∀ hints u', Poisoned w s u' → SuitsAll hints bs → Ends w xs (bindExprs hints args') u'
      t (List.Forall₂ ExprBelow bs)) :
    Ends w xs (bindExpr expected' (.call o (.name name) tyArgs args')) s' t (ExprBelow n) := by
  have hseen := h.seen name.text
  rw [hlookup] at hseen
  cases hlookup' : s'.scopes.lookup .var s'.current name.text with
  | none =>
    obtain ⟨target', hbelow, hrepeats⟩ : ∃ target', CalleeBelow Γ expected' target target' ∧
        Repeats (namedCallee expected' name tyArgs o.range) s' target' :=
          repeats_namedCallee h hground hcallee
    have hresolve : Repeats (resolveCallee expected' (.name name) tyArgs o.range) s'
      (some target') := by
      have hnone : Repeats (lookup .var name.text) s' none := ⟨hlookup', rfl⟩
      exact hnone.seq (hrepeats.seq (.pure _ s'))
    refine .past hresolve ?_
    refine (hargs target'.hints s' h (hbelow.suitsAll hexact hsuits hfinish)).andThen
      fun bs' u' hu hbs => ?_
    obtain ⟨n', hn, hrepeats'⟩ := hbelow.repeats_finishCall hexact hsuits hbs hfinish u'
    exact .repeats hu hrepeats' hn
  | some id' =>
    rw [hlookup'] at hseen
    cases hseen with
    | stray hbare hsym' hkind hty hscope' hc' =>
      obtain rfl := htame hbare
      have hresolve : Repeats (resolveCallee expected' (.name name) [] o.range) s' none := by
        have hsome : Repeats (lookup .var name.text) s' (some id') := ⟨hlookup', rfl⟩
        exact hsome.seq (.pure _ s')
      have hquiet : Quiet Γ (resolveVar name) s none s :=
        ⟨(out_resolveVar h.valid name).trans hlookup, after_resolveVar_of_none hlookup, rfl,
        hcallee.syms_le⟩
      have hvalue : Ends w [] (nameExpr none name) s' s fun value => value.ty = .error := by
        refine (ends_var (n := .error name.range) h hquiet hlookup' hsym' ?_).mono fun _ hb =>
          hb.ty.eq_error
        exact ⟨Ty.below_of_eq hty, rfl, .some (Ty.below_of_eq hty), fun _ => rfl⟩
      refine .past hresolve (hvalue.prepared fun value u' hu hpoison => ?_)
      have hnoArgs : Repeats (checkValueTyArgs name.text [] o.range) u' () := ⟨rfl, rfl⟩
      rw [hpoison]
      refine .past hnoArgs ((hargs _ u' hu (suitsAll_nil bs)).andThen fun bs' v' hv _ => ?_)
      have hfinish' : Repeats (finishValueCall value name.text bs' o.range) v'
        ⟨.callValue value bs', .error, o.range⟩ := by
        unfold finishValueCall valueCallTy
        rw [hpoison]
        exact .pure _ v'
      exact .repeats hv hfinish' (.poison hfinish.diverges_finishCall rfl rfl rfl rfl)

/-- A call of a value. -/
theorem ends_valueCall {callee' : Ast.Expr} {value : Expr}
    (hname : ∀ name, callee' = .name name → s'.scopes.lookup .var s'.current name.text ≠ none)
    (hvalue : Ends w xs (bindExpr none callee') s' u (ExprBelow value))
    (hty : value.ty = .fn (bs.map Expr.ty) ret) (href : isFnRef value = false)
    (hargs : ∀ hints u', Poisoned w u u' → SuitsAll hints bs → Ends w ys (bindExprs hints args') u'
      t (List.Forall₂ ExprBelow bs)) :
    Ends w (xs ++ ys) (bindExpr expected' (.call o callee' [] args')) s' t
      (ExprBelow ⟨.callValue value bs, ret, o.range⟩) := by
  have hresolve : Repeats (resolveCallee expected' callee' [] o.range) s' none := by
    cases callee' with
    | name name =>
      obtain ⟨id, hid⟩ := Option.ne_none_iff_exists'.mp (hname name rfl)
      have hsome : Repeats (lookup .var name.text) s' (some id) := ⟨hid, rfl⟩
      exact hsome.seq (.pure _ s')
    | _ => exact .pure none s'
  refine .past hresolve (hvalue.seq fun value' u' hu hbelow => ?_)
  have hty' : value'.ty.Below (.fn (bs.map Expr.ty) ret) := hty ▸ hbelow.ty
  have hnoArgs : Repeats (checkValueTyArgs (calleeName callee' value'.ty) [] o.range) u' () :=
    ⟨rfl, rfl⟩
  refine .past hnoArgs ((hargs _ u' hu (suitsAll_valueHints hty')).andThen fun bs' v' hv hbs => ?_)
  obtain ⟨n', hn, hrepeats⟩ : ∃ n', ExprBelow ⟨.callValue value bs, ret, o.range⟩ n' ∧
      Repeats (finishValueCall value' (calleeName callee' value'.ty) bs' o.range) v' n' :=
    repeats_finishValueCall hty' (hbelow.fnRef href) hbs _ _ v'
  exact .repeats hv hrepeats hn

/-! ## Records -/

/-- What the fields say of the type arguments of a record is not poisoned. -/
theorem sound_bindFields {n : String} {a : Ty} (hvalues : ∀ v ∈ values, v.value.ty.hasPoison = false)
    (hq : Quiet Γ (bindFields record seen known fields) s (values, known') t)
    (h : known'.get? n = some a) :
    known.get? n = some a ∨ a.hasPoison = false := by
  induction fields generalizing s seen known values with
  | nil =>
    obtain ⟨heq, -⟩ := hq.bindFields_nil
    cases heq
    exact .inl h
  | cons field fields ih =>
    obtain ⟨origin, name, value⟩ := field
    obtain ⟨-, d, v, values', known'', u, -, -, -, hrest, heq⟩ := hq.bindFields_cons
    cases heq
    rcases ih (fun v hv => hvalues v (List.mem_cons_of_mem _ hv)) hrest with hknown | hsound
    · exact Ty.hasPoison_of_infer (hvalues _ List.mem_cons_self) hknown
    · exact .inr hsound

/-- Every type argument of a record without poison is known. -/
theorem settled_of_instantiate
    (h : (Ty.record record.name (known.instantiate record.tyParams)).hasPoison = false) :
    ∀ p ∈ record.tyParams, ∃ a, known.get? p = some a ∧ a.hasPoison = false := by
  intro p hp
  have hall := Ty.anyPoison_eq_false_iff.mp h _ (List.mem_map_of_mem hp)
  cases hget : known.get? p with
  | none =>
    rw [hget] at hall
    cases hall
  | some a =>
    rw [hget] at hall
    exact ⟨a, rfl, hall⟩

/-- Nothing that is known of a record without poison is poisoned. -/
theorem sound_known {type : Ast.Name}
    (hsettled : ∀ p ∈ record.tyParams, ∃ a, known'.get? p = some a ∧ a.hasPoison = false)
    (hvalues : ∀ v ∈ values, v.value.ty.hasPoison = false)
    (hargs : Quiet Γ (recordArgs expected record type tyArgs) s known u)
    (hfields : Quiet Γ (bindFields record seen known fields) s (values, known') t) :
    ∀ n a, known'.get? n = some a → a.hasPoison = false := by
  intro n a ha
  rcases sound_bindFields hvalues hfields ha with hknown | hsound
  · by_cases hn : n ∈ record.tyParams
    · obtain ⟨a', ha', hsound⟩ := hsettled n hn
      obtain rfl : a = a' := Option.some.inj (ha.symm.trans ha')
      exact hsound
    · rw [get?_recordArgs hargs hn] at hknown
      cases hknown
  · exact hsound

/-- The value of a field has the declared type, filled in with what the first run knows in the
end. -/
theorem suits_field {declared : Ty} {v : Expr} (h : v.ty = declared.subst known) (hk : k.Under known) :
    Suits (closedHint (declared.subst k)) v := by
  unfold closedHint
  split
  · exact suits_none v
  · next hclosed =>
    apply suits_of_below
    rw [h]
    exact Ty.below_of_hasGenerics (by simpa using hclosed) hk

theorem repeats_checkField {name : String} {declared : Ty} {v' : Expr}
    (h : v'.ty.Below (declared.subst known))
    (hk : k.Under known) (s' : State) :
    (declared.infer v'.ty k).Under known ∧ Repeats (checkField name declared v' k) s'
      (declared.infer v'.ty k) := by
  have hunder := Ty.under_infer h hk
  have haccepts : (declared.subst (declared.infer v'.ty k)).accepts v'.ty = true :=
    Ty.accepts_of_infer h hunder (Subst.kept_refl _)
  exact ⟨hunder, (Repeats.reportUnless haccepts _ _ s').seq (.pure _ s')⟩

theorem repeats_checkMissing {record : String} {given fields : List String}
    (h : ∀ field ∈ fields, field ∈ given)
    (range : Range) (s' : State) : Repeats (checkMissing record given range fields) s' () := by
  induction fields with
  | nil => exact .pure () s'
  | cons field fields ih =>
    have hgiven : given.contains field = true := List.contains_iff_mem.mpr (h field List.mem_cons_self)
    exact (Repeats.reportUnless hgiven _ _ s').seq (ih fun f hf => h f (List.mem_cons_of_mem _ hf))

end Bindery.Binding
