import Bindery.Proofs.Binding.Account
import Bindery.Proofs.Binding.Proper

/-!
# Trees that are properly typed

In a file without type parameters, whatever is bound quietly is properly typed, and binding goes on
in a sane state. The proof follows the syntax: each case binds its parts, takes what is known of
them by induction, and adds the one node that the rule of binding makes.
-/

namespace Bindery.Binding

open Bindery.Bound

/-- What a quiet step that makes the given nodes leaves behind: proper nodes and a sane state. -/
structure Makes (Γ : Symbols) (r : Registry) (nodes : Bool → List Node) (t : State) : Prop where
  sane : t.Sane r
  proper : ∀ deep, ∀ n ∈ nodes deep, n.Proper Γ

namespace Makes

variable {Γ : Symbols} {r : Registry} {s t : State} {nodes nodes' : Bool → List Node} {n : Node}

theorem nil (ht : t.Sane r) : Makes Γ r (fun _ => []) t := ⟨ht, by simp⟩

theorem node (ht : t.Sane r) (hn : n.Proper Γ) : Makes Γ r (fun _ => [n]) t := ⟨ht, by simpa using hn⟩

theorem append (h : Makes Γ r nodes s) (h' : Makes Γ r nodes' t) :
    Makes Γ r (fun deep => nodes deep ++ nodes' deep) t := by
  refine ⟨h'.sane, fun deep n hn => ?_⟩
  rcases List.mem_append.mp hn with hn | hn
  · exact h.proper deep n hn
  · exact h'.proper deep n hn

theorem under (h : Makes Γ r nodes t) (hn : n.Proper Γ) : Makes Γ r (fun deep => n :: nodes deep) t :=
  ⟨h.sane, fun deep => List.forall_mem_cons.mpr ⟨hn, h.proper deep⟩⟩

theorem moved (h : Makes Γ r nodes s) (ht : t.Sane r) : Makes Γ r nodes t := ⟨ht, h.proper⟩

end Makes

/-! ## Patterns -/

variable {Γ : Symbols} {r : Registry}

theorem State.Sane.typeLaw {s : State} (hs : s.Sane r) (hr : r.Describes Γ) : TypeLaw s Ty.Plain :=
  typeLaw_plain (hs.registry ▸ hr.plain) hs.generics

theorem eq_of_literalMatches {ty target : Ty} (htarget : target.Sound)
    (h : literalMatches ty target = true) : ty = target := by
  unfold literalMatches at h
  split at h
  · exact absurd rfl htarget.ne_error
  · cases htarget
  · exact (beq_iff_eq.mp h).symm

mutual

/-- A pattern that is bound quietly has the type of the matched value. -/
theorem typed_bindPattern {target : Ty} (p : Ast.Pattern) {b : Pattern} {s t : State}
    (hr : r.Describes Γ) (hs : s.Sane r) (htarget : target.Sound)
    (h : Quiet Γ (bindPattern target p) s b t) :
    b.ty = target ∧ Makes Γ r (fun _ => b.nodes) t := by
  match p with
  | .literal origin value =>
    obtain ⟨rfl, rfl, hmatches⟩ := h.literalPattern
    have hty := eq_of_literalMatches htarget hmatches
    exact ⟨hty, .node hs (.pattern (value.sound_ty) (.literal value))⟩
  | .wildcard origin =>
    obtain ⟨rfl, rfl⟩ := h.pure
    exact ⟨rfl, .node hs (.pattern htarget (.wildcard target))⟩
  | .name name =>
    rcases h.namePattern with ⟨symbol, hbare, rfl, rfl⟩ | ⟨-, symbol, hdeclare, rfl⟩
    · -- a variant without payload
      rw [hs.registry] at hbare
      obtain ⟨sum, args, sd, rfl, hsd, hd⟩ := exists_of_bareVariant? hbare
      obtain rfl := htarget.args_eq_nil
      obtain ⟨-, -, hvariants⟩ := hr.sum hsd
      refine ⟨rfl, .node hs (.pattern htarget ?_)⟩
      exact .variant (hvariants hd).1 rfl rfl
    · -- a new variable
      obtain ⟨ht, sym, hsym, hname, hkind, hty⟩ := sound_declareLocal rfl hs htarget hdeclare
      refine ⟨rfl, .node ht (.pattern htarget ?_)⟩
      exact hname ▸ hty ▸ .binding hsym hkind
  | .tuple origin elems =>
    obtain ⟨tys, _, htargets, hrest⟩ := h.bind
    obtain ⟨rfl, hlength, rfl | ⟨rfl | ⟨_, rfl⟩, -⟩⟩ := htargets.tupleTargets
    · obtain ⟨bs, helems, rfl⟩ := hrest.bind_pure
      obtain ⟨htys, hbs⟩ := typed_bindPatterns elems hr hs hlength htarget.elems helems
      refine ⟨rfl, hbs.under (.pattern htarget ?_)⟩
      exact htys ▸ .tuple bs
    · exact absurd rfl htarget.ne_error
    · cases htarget
  | .variant origin name none =>
    obtain ⟨resolved, _, hresolve, hrest⟩ := h.bind
    obtain ⟨_, hcheck, rfl⟩ := hrest.bind_pure
    obtain ⟨rfl, ⟨rfl, -⟩ | ⟨sum, args, sd, d, rfl, hsd, hd, rfl⟩⟩ := hresolve.resolveVariant
    · exact absurd rfl htarget.ne_error
    · obtain ⟨rfl, hnone⟩ := hcheck.checkNoPayload
      rw [hs.registry] at hsd
      obtain rfl := htarget.args_eq_nil
      obtain ⟨-, -, hvariants⟩ := hr.sum hsd
      have hpayload : d.payload = none := by simpa using hnone _ _ rfl
      refine ⟨rfl, .node hs (.pattern htarget ?_)⟩
      exact .variant (hvariants hd).1 rfl hpayload.symm
  | .variant origin name (some payload) =>
    obtain ⟨resolved, _, hresolve, hrest⟩ := h.bind
    obtain ⟨ty, _, hpayload, hrest'⟩ := hrest.bind
    obtain ⟨b', hbind, rfl⟩ := hrest'.bind_pure
    obtain ⟨rfl, ⟨rfl, -⟩ | ⟨sum, args, sd, d, rfl, hsd, hd, rfl⟩⟩ := hresolve.resolveVariant
    · exact absurd rfl htarget.ne_error
    · obtain ⟨rfl, ⟨hnone, -⟩ | ⟨symbol, hsome⟩⟩ := hpayload.payloadTarget
      · cases hnone
      rw [hs.registry] at hsd
      obtain rfl := htarget.args_eq_nil
      obtain ⟨-, htyParams, hvariants⟩ := hr.sum hsd
      obtain ⟨hsym, hplain⟩ := hvariants hd
      simp only [Option.some.injEq, Prod.mk.injEq, Option.map_eq_some_iff] at hsome
      obtain ⟨rfl, declared, hdeclared, rfl⟩ := hsome
      rw [htyParams] at hbind
      have hsubst : declared.subst (.ofArguments [] []) = declared := Ty.subst_empty _
      rw [hsubst] at hbind
      obtain ⟨hty, hb'⟩ := typed_bindPattern payload hr hs (hplain declared hdeclared).sound hbind
      refine ⟨rfl, hb'.under (.pattern htarget ?_)⟩
      exact .variant hsym rfl (by rw [hdeclared, ← hty]; rfl)

theorem typed_bindPatterns {tys : List Ty} (ps : List Ast.Pattern) {bs : List Pattern} {s t : State}
    (hr : r.Describes Γ) (hs : s.Sane r) (hlength : tys.length = ps.length)
    (htys : ∀ ty ∈ tys, ty.Sound)
    (h : Quiet Γ (bindPatterns tys ps) s bs t) :
    bs.map Pattern.ty = tys ∧ Makes Γ r (fun _ => Pattern.allNodes bs) t := by
  match tys, ps, hlength with
  | [], [], _ =>
    rw [bindPatterns] at h
    · obtain ⟨rfl, rfl⟩ := h.pure
      exact ⟨rfl, .nil hs⟩
    · simp
  | ty :: tys, p :: ps, hlength =>
    obtain ⟨b, u, hfirst, hrest⟩ := h.bind
    obtain ⟨bs', htail, rfl⟩ := hrest.bind_pure
    rw [List.forall_mem_cons] at htys
    obtain ⟨hty, hb⟩ := typed_bindPattern p hr hs htys.1 hfirst
    obtain ⟨htys', hbs⟩ := typed_bindPatterns ps hr hb.sane (Nat.succ.inj hlength) htys.2 htail
    exact ⟨by rw [List.map_cons, hty, htys'], hb.append hbs⟩

end

/-! ## Lambdas -/

/-- A lambda is proper if its body is. -/
theorem typed_lambdaExpr {params : List (Ast.Name × Ty)} {declared : Option Ty} {body : Ast.Expr}
    {range : Range} {e : Expr} {s t : State} (hs : s.Sane r) (hparams : ∀ p ∈ params, p.2.Sound)
    (hdeclared : ∀ ty ∈ declared, ty.Sound)
    (hbody : ∀ {u v : State} {b : Expr}, u.Sane r → Quiet Γ (bindExpr declared body) u b v →
      b.ty.Sound ∧ Makes Γ r (Expr.nodes · b) v)
    (h : Quiet Γ (lambdaExpr params declared (bindExpr declared body) range) s e t) :
    e.ty.Sound ∧ Makes Γ r (Expr.nodes · e) t := by
  have hgrows := h.grows (keeps_lambdaExpr _ _ _ (keeps_bindExpr declared body))
  obtain ⟨syms, u, b, v, returns, ret, hdeclare, hquiet, hframe, rfl, hsettle, rfl⟩ :=
    h.lambdaExpr (keeps_bindExpr declared body)
  obtain ⟨hu, hsyms⟩ := sound_declareLocals hs.enteringLambda hparams hdeclare
  have hinside : (u.enteringBody ⟨"<lambda>", declared, [], range⟩).Sane r := hu.enteringBody hdeclared
  obtain ⟨hb, hv⟩ := hbody hinside hquiet
  -- the returns that the frame has noted are those of the body
  obtain rfl := returns_eq_returnedBy hinside.valid hquiet hframe
  obtain ⟨hret, hfit⟩ := returnsFit_settleReturn hdeclared (sound_returnedBy (hv.proper false))
    (sound_bodyCandidate hb (hv.proper false)) (fun _ => bodyCandidate_eq) hsettle
  have hty : (Ty.fn (params.map Prod.snd) ret).Sound := .fn (List.forall_mem_map.mpr hparams) hret
  have ht : (s.leavingLambda u v).Sane r := by
    refine hv.sane.congr (hgrows.valid hs.valid) rfl rfl rfl fun f hf => ?_
    exact hv.sane.frames f (List.mem_of_mem_tail hf)
  have hnode : (Node.expr ⟨.lambda syms ret v.captures.exit.1 b,
      .fn (params.map Prod.snd) ret, range⟩).Proper Γ :=
    ⟨by simpa [Node.types] using ⟨hty, hret⟩, by simp [Node.returned], .lambda hsyms hfit⟩
  refine ⟨hty, ht, fun deep n hn => ?_⟩
  rw [Expr.nodes, ExprKind.nodes, List.mem_cons] at hn
  rcases hn with rfl | hn
  · exact hnode
  · split at hn
    · exact hv.proper deep n hn
    · cases hn

/-! ## Expressions and statements -/

theorem usable_none : ∀ ty ∈ (none : Option Ty), ty.Usable := by simp

theorem usable_head {hints : List (Option Ty)} (h : ∀ hint ∈ hints, ∀ ty ∈ hint, ty.Usable) :
    ∀ ty ∈ hints.head?.join, ty.Usable := by
  cases hints with
  | nil => simp
  | cons hint hints => simpa using h hint (by simp)

theorem usable_orElse {expected result : Option Ty} (hexpected : ∀ ty ∈ expected, ty.Usable)
    (hresult : ∀ ty ∈ result, ty.Sound) : ∀ ty ∈ expected <|> result, ty.Usable := by
  cases expected with
  | none => exact fun ty hty => (hresult ty (by simpa using hty)).usable
  | some ty => simpa using hexpected ty rfl

mutual

/-- Whatever is bound quietly is properly typed. -/
theorem typed_bindExpr {expected : Option Ty} (e : Ast.Expr) {b : Expr} {s t : State}
    (hr : r.Describes Γ) (hs : s.Sane r) (hexpected : ∀ ty ∈ expected, ty.Usable)
    (h : Quiet Γ (bindExpr expected e) s b t) : b.ty.Sound ∧ Makes Γ r (Expr.nodes · b) t := by
  match e with
  | .literal origin value =>
    obtain ⟨rfl, rfl⟩ := h.bindExpr_literal
    exact ⟨value.sound_ty, .node hs (.expr value.sound_ty rfl (.literal value))⟩
  | .name name =>
    obtain ⟨ht, hty, hnode, hnodes⟩ := proper_nameExpr hr hs hexpected h.bindExpr_name
    simp only [hnodes]
    exact ⟨hty, .node ht hnode⟩
  | .binary origin op left right =>
    obtain ⟨l, r, u, ty, hleft, hright, rfl, hresult⟩ := h.bindExpr_binary
    obtain ⟨hlty, hl⟩ := typed_bindExpr left hr hs usable_none hleft
    obtain ⟨hrty, hr'⟩ := typed_bindExpr right hr hl.sane usable_none hright
    obtain ⟨htakes, hsame⟩ := BinaryOp.takes_of_resultTy? (hresult hlty.ne_error hrty.ne_error)
    have hty := htakes.sound
    exact ⟨hty, (hl.append hr').under (.expr hty rfl (.binary htakes hsame))⟩
  | .unary origin op operand =>
    obtain ⟨e, ty, hoperand, rfl, hresult⟩ := h.bindExpr_unary
    obtain ⟨hety, he⟩ := typed_bindExpr operand hr hs usable_none hoperand
    have htakes := UnaryOp.takes_of_resultTy? (hresult hety.ne_error)
    have hty := htakes.sound
    exact ⟨hty, he.under (.expr hty rfl (.unary htakes))⟩
  | .call origin callee tyArgs args =>
    rcases h.bindExpr_call with ⟨name, target, bs, rfl, -, hnamed, hargs, hfinish⟩ |
      ⟨value, u, bs, ty, hname, hcallee, hargs, hcall, rfl⟩
    · -- a function or a variant is called by its name
      have hknown := known_namedCallee hr hs hnamed
      obtain ⟨htys, hbs⟩ := typed_bindExprs args hr hs hknown.usable_hints hargs
      obtain ⟨hty, hnode⟩ := hknown.proper_finishCall htys hfinish
      simp only [(nodes_finishCall hnamed hfinish).2.2.2]
      exact ⟨hty, hbs.under hnode⟩
    · -- a value is called
      obtain ⟨hvty, hv⟩ := typed_bindExpr callee hr hs usable_none hcallee
      obtain ⟨htys, hbs⟩ := typed_bindExprs args hr hv.sane (usable_valueHints hvty) hargs
      have hvalue := hcallee.out_eq ▸ isFnRef_bindExpr hs.valid hname
      obtain ⟨hty, hnode⟩ := proper_callValue hvty htys hvalue hcall
      exact ⟨hty, (hv.append hbs).under hnode⟩
  | .lambda origin params ret body =>
    obtain ⟨tys, declared, hparams, hret, hlambda⟩ := h.bindExpr_lambda
    have hlaw := hs.typeLaw hr
    have htys := hlaw.of_resolveTypes _ hparams
    have hdeclared := (hlaw.of_resolveType? _ hret).2
    refine typed_lambdaExpr hs ?_ (fun ty hty => (hdeclared ty hty).sound) ?_ hlambda
    · intro p hp
      exact (htys _ (List.of_mem_zip hp).2).sound
    · intro u v b hu hbody
      exact typed_bindExpr body hr hu (fun ty hty => (hdeclared ty hty).sound.usable) hbody
  | .record origin type tyArgs fields =>
    obtain ⟨record, known, values, known', hrecord, hknown, hfields, hall, rfl⟩ := h.bindExpr_record
    rw [hs.registry] at hrecord
    obtain ⟨-, htyParams, -⟩ := hr.record hrecord
    obtain rfl := recordArgs_eq htyParams hknown
    obtain ⟨hgives, hdistinct, -, hvalues⟩ := typed_bindFields fields hr hs hrecord hfields
    rw [htyParams]
    exact ⟨.nominal _ _, hvalues.under (proper_record hr hrecord hgives hdistinct hall)⟩
  | .field origin target name =>
    obtain ⟨e, field, ty, htarget, rfl, hfield⟩ := h.bindExpr_field
    obtain ⟨hety, he⟩ := typed_bindExpr target hr hs usable_none htarget
    obtain ⟨record, args, symbol, hrecord, hof, rfl⟩ := hfield hety.ne_error
    rw [he.sane.registry] at hof
    obtain ⟨hty, hnode⟩ := proper_field hr hety hrecord hof
    exact ⟨hty, he.under hnode⟩
  | .tuple origin elems =>
    obtain ⟨bs, helems, rfl⟩ := h.bindExpr_tuple
    obtain ⟨htys, hbs⟩ := typed_bindExprs elems hr hs (usable_tupleHints hexpected _) helems
    have hty : (Ty.tuple (bs.map Expr.ty)).Sound := .tuple (List.forall_mem_map.mpr htys)
    exact ⟨hty, hbs.under (.expr hty rfl (.tuple bs))⟩
  | .list origin elems =>
    obtain ⟨bs, helems, hlist⟩ := h.bindExpr_list
    have hhint := sound_elementHint hexpected (.inl rfl)
    have hhints : ∀ hint ∈ List.replicate elems.length (elementHint .list expected), ∀ ty ∈ hint,
      ty.Usable := by
      intro hint h ty hty
      obtain rfl := List.eq_of_mem_replicate h
      exact (hhint ty hty).usable
    obtain ⟨htys, hbs⟩ := typed_bindExprs elems hr hs hhints helems
    obtain ⟨hty, hnode, hnodes⟩ := proper_list hhint htys hlist
    simp only [hnodes]
    exact ⟨hty, hbs.under hnode⟩
  | .map origin entries =>
    obtain ⟨bs, hentries, hmap⟩ := h.bindExpr_map
    have hhint := sound_elementHint hexpected (.inr rfl)
    obtain ⟨hkeys, htys, hbs⟩ :=
      typed_bindEntries entries hr hs (fun ty hty => (hhint ty hty).usable) hentries
    obtain ⟨hty, hnode, hnodes⟩ := proper_map hhint hkeys htys hmap
    simp only [hnodes]
    exact ⟨hty, hbs.under hnode⟩
  | .index origin target index =>
    obtain ⟨e, i, u, ty, htarget, hindex, rfl, hresult⟩ := h.bindExpr_index
    obtain ⟨hety, he⟩ := typed_bindExpr target hr hs usable_none htarget
    obtain ⟨hity, hi⟩ := typed_bindExpr index hr he.sane usable_none hindex
    obtain ⟨hty, hnode⟩ := proper_index hety (hresult hety.ne_error hity.ne_error)
    exact ⟨hty, (he.append hi).under hnode⟩
  | .ifElse origin cond thenBranch none =>
    obtain ⟨c, block, u, hcond, hbool, hthen, rfl⟩ := h.bindExpr_if
    obtain ⟨hcty, hc⟩ := typed_bindExpr cond hr hs usable_none hcond
    obtain ⟨-, hb⟩ := typed_bindBlock thenBranch hr hc.sane hthen
    exact ⟨.prim _, (hc.append hb).under (.expr (.prim _) rfl (.ifOnly (hbool hcty.ne_error)))⟩
  | .ifElse origin cond thenBranch (some elseBranch) =>
    obtain ⟨c, block, e, u, v, ty, hcond, hbool, hthen, helse, hbranch, rfl⟩ := h.bindExpr_ifElse
    obtain ⟨hcty, hc⟩ := typed_bindExpr cond hr hs usable_none hcond
    obtain ⟨hbty, hb⟩ := typed_bindBlock thenBranch hr hc.sane hthen
    obtain ⟨hety, he⟩ := typed_bindExpr elseBranch hr hb.sane hexpected helse
    obtain ⟨hty, hnode⟩ := proper_ifElse (hbool hcty.ne_error) hbty hety hbranch
    exact ⟨hty, ((hc.append hb).append he).under hnode⟩
  | .block block =>
    obtain ⟨b', hblock, rfl⟩ := h.bindExpr_block
    obtain ⟨hty, hb⟩ := typed_bindBlock block hr hs hblock
    exact ⟨hty, hb.under (.expr hty rfl (.block b'))⟩
  | .matchOn origin scrutinee arms =>
    obtain ⟨e, arms', agreed, u, hscrutinee, harms, rfl, -⟩ := h.bindExpr_matchOn
    obtain ⟨hety, he⟩ := typed_bindExpr scrutinee hr hs usable_none hscrutinee
    obtain ⟨hsound, hagree, hpatterns, has⟩ :=
      typed_bindArms arms hr he.sane hety hexpected ⟨rfl, rfl, by simp [ArmTypes.initial]⟩ harms
    obtain ⟨hty, hnode⟩ := proper_match hsound hagree hpatterns
    exact ⟨hty, (he.append has).under hnode⟩
  | .spawn origin body =>
    obtain ⟨b', hbody, rfl⟩ := h.bindExpr_spawn
    obtain ⟨hty, hb⟩ := typed_bindBlock body hr hs hbody
    exact ⟨.container _ hty, hb.under (.expr (.container _ hty) rfl (.spawn b'))⟩
  | .scope origin body =>
    obtain ⟨b', u, hbody, rfl, rfl⟩ := h.bindExpr_scope
    obtain ⟨hty, hb⟩ := typed_bindBlock body hr (hs.inScopeBlocks _) hbody
    exact ⟨hty, (hb.moved (hb.sane.inScopeBlocks _)).under (.expr hty rfl (.scope b'))⟩
  | .channel origin element =>
    obtain ⟨ty, helement, rfl, rfl⟩ := h.bindExpr_channel
    have helementTy := ((hs.typeLaw hr).of_resolveType element helement).sound
    have hty : (Ty.tuple [.sender ty, .receiver ty]).Sound := .tuple (by
      simpa using ⟨helementTy.container .sender, helementTy.container .receiver⟩)
    exact ⟨hty, .node hs
      ⟨by simpa [Node.types] using ⟨hty, helementTy⟩, by simp [Node.returned], .channel ty⟩⟩
  | .par origin inner =>
    obtain ⟨e, hinner, rfl⟩ := h.bindExpr_par
    obtain ⟨hty, he⟩ := typed_bindExpr inner hr hs hexpected hinner
    exact ⟨hty, he.under (.expr hty rfl (.par e))⟩

theorem typed_bindExprs {hints : List (Option Ty)} (es : List Ast.Expr) {bs : List Expr}
    {s t : State} (hr : r.Describes Γ) (hs : s.Sane r)
    (hhints : ∀ hint ∈ hints, ∀ ty ∈ hint, ty.Usable)
    (h : Quiet Γ (bindExprs hints es) s bs t) :
    (∀ b ∈ bs, b.ty.Sound) ∧ Makes Γ r (Expr.allNodes · bs) t := by
  match es with
  | [] =>
    obtain ⟨rfl, rfl⟩ := h.bindExprs_nil
    exact ⟨by simp, .nil hs⟩
  | e :: es =>
    obtain ⟨b, bs', u, hfirst, htail, rfl⟩ := h.bindExprs_cons
    obtain ⟨hty, hb⟩ := typed_bindExpr e hr hs (usable_head hhints) hfirst
    obtain ⟨htys, hbs⟩ :=
      typed_bindExprs es hr hb.sane (fun hint hhint => hhints hint (List.mem_of_mem_tail hhint)) htail
    exact ⟨List.forall_mem_cons.mpr ⟨hty, htys⟩, hb.append hbs⟩

theorem typed_bindEntries {hint : Option Ty} (entries : List Ast.MapEntry) {bs : List Entry}
    {s t : State} (hr : r.Describes Γ) (hs : s.Sane r) (hhint : ∀ ty ∈ hint, ty.Usable)
    (h : Quiet Γ (bindEntries hint entries) s bs t) :
    (∀ b ∈ bs, b.key.ty = .string) ∧ (∀ b ∈ bs, b.value.ty.Sound) ∧ Makes Γ r (Entry.allNodes · bs)
      t := by
  match entries with
  | [] =>
    obtain ⟨rfl, rfl⟩ := h.bindEntries_nil
    exact ⟨by simp, by simp, .nil hs⟩
  | ⟨origin, key, value⟩ :: entries =>
    obtain ⟨k, v, bs', u, w, hkey, hvalue, htail, rfl, hstring⟩ := h.bindEntries_cons
    obtain ⟨hkty, hk⟩ := typed_bindExpr key hr hs (by simpa using (Ty.Sound.prim .string).usable) hkey
    obtain ⟨hvty, hv⟩ := typed_bindExpr value hr hk.sane hhint hvalue
    obtain ⟨hkeys, htys, hbs⟩ := typed_bindEntries entries hr hv.sane hhint htail
    exact ⟨List.forall_mem_cons.mpr ⟨hstring hkty.ne_error, hkeys⟩,
      List.forall_mem_cons.mpr ⟨hvty, htys⟩, (hk.append hv).append hbs⟩

theorem typed_bindFields {name : String} {record : RecordDef} {seen : List String}
    (fields : List Ast.FieldInit) {result : List FieldValue × Subst} {s t : State}
    (hr : r.Describes Γ) (hs : s.Sane r) (hrecord : r.record? name = some record)
    (h : Quiet Γ (bindFields record seen .empty fields) s result t) :
    GivesFields Γ record (fields.map fun f => f.name.text) result.1 ∧
      (fields.map fun f => f.name.text).Nodup ∧ (∀ f ∈ fields, f.name.text ∉ seen) ∧
      Makes Γ r (FieldValue.allNodes · result.1) t := by
  match fields with
  | [] =>
    obtain ⟨rfl, rfl⟩ := h.bindFields_nil
    exact ⟨⟨rfl, by simp⟩, .nil, by simp, .nil hs⟩
  | ⟨origin, field, value⟩ :: fields =>
    obtain ⟨hnew, d, v, values, known', u, hd, hvalue, haccepts, htail, rfl⟩ := h.bindFields_cons
    obtain ⟨-, -, hfields⟩ := hr.record hrecord
    obtain ⟨hsym, hplain⟩ := hfields hd
    rw [Ty.subst_empty, hplain.closedHint] at hvalue
    obtain ⟨hvty, hv⟩ := typed_bindExpr value hr hs (by simpa using hplain.sound.usable) hvalue
    rw [hplain.infer] at haccepts htail
    rw [Ty.subst_empty] at haccepts
    obtain ⟨hgives, hdistinct, hseen, hvalues⟩ := typed_bindFields fields hr hv.sane hrecord htail
    refine ⟨⟨?_, ?_⟩, ?_, ?_, hv.append hvalues⟩
    · rw [List.map_cons, hgives.names_eq, hsym]
      rfl
    · refine List.forall_mem_cons.mpr ⟨⟨field.text, d, hd, rfl, ?_⟩, hgives.field⟩
      exact (hplain.eq_of_compatible hvty haccepts).symm
    · refine List.nodup_cons.mpr ⟨fun hmem => ?_, hdistinct⟩
      obtain ⟨f, hf, hname⟩ := List.mem_map.mp hmem
      exact hseen f hf (hname ▸ List.mem_cons_self)
    · exact List.forall_mem_cons.mpr ⟨hnew, fun f hf hmem => hseen f hf (List.mem_cons_of_mem _ hmem)⟩

theorem typed_bindArms {target : Ty} {expected : Option Ty} {agreed : ArmTypes} (arms : List Ast.Arm)
    {result : List Arm × ArmTypes} {s t : State} (hr : r.Describes Γ) (hs : s.Sane r)
    (htarget : target.Sound) (hexpected : ∀ ty ∈ expected, ty.Usable) (hagreed : agreed.Sound)
    (h : Quiet Γ (bindArms target expected agreed arms) s result t) :
    result.2.Sound ∧ Agree agreed (result.1.map Arm.body) result.2 ∧
      (∀ arm ∈ result.1, arm.pattern.ty = target) ∧ Makes Γ r (Arm.allNodes · result.1) t := by
  match arms with
  | [] =>
    obtain ⟨rfl, rfl⟩ := h.bindArms_nil
    exact ⟨hagreed, .nil _, by simp, .nil hs⟩
  | ⟨origin, pattern, body⟩ :: arms =>
    obtain ⟨p, b, u, v, agreed', arms', agreed'', hpattern, hbody, hnote, htail, rfl⟩ :=
      h.bindArms_cons
    obtain ⟨hpty, hp⟩ := typed_bindPattern pattern hr (hs.opened .matchArm) htarget hpattern
    obtain ⟨hbty, hb⟩ := typed_bindExpr body hr hp.sane (usable_orElse hexpected hagreed.result) hbody
    obtain ⟨hagreed', hagree⟩ := agree_noteArm hagreed hbty hnote
    have hgrows := (hpattern.grows (keeps_bindPattern target pattern)).trans
      ((hbody.grows_nil).mono (by simp))
    have hv := hs.inScope hgrows hb.sane
    obtain ⟨hsound, hrest, hpatterns, has⟩ :=
      typed_bindArms arms hr hv htarget hexpected hagreed' htail
    exact ⟨hsound, hagree.cons hrest, List.forall_mem_cons.mpr ⟨hpty, hpatterns⟩,
      (hp.append hb).append has⟩

theorem typed_bindBlock (block : Ast.Block) {b : Block} {s t : State} (hr : r.Describes Γ)
    (hs : s.Sane r) (h : Quiet Γ (bindBlock block) s b t) :
    b.ty.Sound ∧ Makes Γ r (Block.nodes · b) t := by
  match block with
  | ⟨origin, stmts⟩ =>
    obtain ⟨bs, u, hstmts, rfl, rfl⟩ := h.bindBlock_mk
    obtain ⟨-, hvalues, hbs⟩ := typed_bindStmts stmts hr (hs.opened .block) hstmts
    have ht := hs.inScope (hstmts.grows (keeps_bindStmts stmts)) hbs.sane
    have hty := Block.sound_ofStatements origin.range hvalues
    exact ⟨hty, (hbs.moved ht).under (.block hty)⟩

theorem typed_bindStmts (stmts : List Ast.Stmt) {bs : List Stmt} {s t : State}
    (hr : r.Describes Γ) (hs : s.Sane r) (h : Quiet Γ (bindStmts stmts) s bs t) :
    bs.length = stmts.length ∧ (∀ b ∈ bs, ∀ e, b.kind = .expr e → e.ty.Sound) ∧
      Makes Γ r (Stmt.allNodes · bs) t := by
  match stmts with
  | [] =>
    obtain ⟨rfl, rfl⟩ := h.bindStmts_nil
    exact ⟨rfl, by simp, .nil hs⟩
  | stmt :: stmts =>
    obtain ⟨result, bs', u, hfirst, htail, rfl⟩ := h.bindStmts_cons
    obtain ⟨b, rfl, hvalue, hb⟩ := typed_bindStmt stmt hr hs hfirst
    obtain ⟨hlength, hvalues, hbs⟩ := typed_bindStmts stmts hr hb.sane htail
    exact ⟨congrArg Nat.succ hlength, List.forall_mem_cons.mpr ⟨hvalue, hvalues⟩, hb.append hbs⟩

theorem typed_bindStmt (stmt : Ast.Stmt) {result : Option Stmt} {s t : State}
    (hr : r.Describes Γ) (hs : s.Sane r) (h : Quiet Γ (bindStmt stmt) s result t) :
    ∃ b, result = some b ∧ (∀ e, b.kind = .expr e → e.ty.Sound) ∧ Makes Γ r (Stmt.nodes · b) t := by
  match stmt with
  | .bindName origin name isMutable annot init =>
    obtain ⟨declared, e, symbol, u, hresolve, hinit, hdeclare, haccepts, rfl⟩ := h.bindStmt_bindName
    have hdeclared := ((hs.typeLaw hr).of_resolveType? _ hresolve).2
    obtain ⟨hety, he⟩ := typed_bindExpr init hr hs (fun ty hty => (hdeclared ty hty).sound.usable)
      hinit
    -- an ascription that accepts the value is its type
    have hty : declared.getD e.ty = e.ty := by
      cases declared with
      | none => rfl
      | some ty => exact (hdeclared ty rfl).eq_of_compatible hety (haccepts ty rfl)
    rw [hty] at hdeclare
    obtain ⟨ht, sym, hsym, -, hkind, hsymTy⟩ := sound_declareLocal rfl he.sane hety hdeclare
    refine ⟨_, rfl, by simp, he.append (.node ht (.stmt rfl ?_))⟩
    exact .bindName hsym hkind hsymTy.symm
  | .assign origin name value =>
    obtain ⟨symbol, sym, e, u, hresolve, hsym, hmutable, hvalue, haccepts, rfl⟩ := h.bindStmt_assign
    obtain ⟨hu, sym', hsym', hΓ, -, hsound⟩ := sound_resolveVar hs hresolve
    obtain rfl : sym = sym' := Option.some.inj (hsym.symm.trans hsym')
    obtain ⟨hety, he⟩ := typed_bindExpr value hr hu (by simpa using hsound.usable) hvalue
    refine ⟨_, rfl, by simp, he.under (.stmt rfl ?_)⟩
    exact .assign hΓ (kind_of_isMutable hmutable) (hsound.eq_of_accepts hety haccepts).symm
  | .expr origin value =>
    obtain ⟨e, hvalue, rfl⟩ := h.bindStmt_expr
    obtain ⟨hety, he⟩ := typed_bindExpr value hr hs usable_none hvalue
    refine ⟨_, rfl, ?_, he.under (.stmt rfl (.expr e))⟩
    rintro _ ⟨⟩
    exact hety
  | .print origin value =>
    obtain ⟨e, hvalue, rfl⟩ := h.bindStmt_print
    obtain ⟨-, he⟩ := typed_bindExpr value hr hs usable_none hvalue
    exact ⟨_, rfl, by simp, he.under (.stmt rfl (.print e))⟩
  | .ret origin none =>
    obtain ⟨⟨_, hreturn⟩, rfl⟩ := h.bindStmt_ret
    have ht := sane_finishReturn hs hreturn
    refine ⟨_, rfl, by simp, .node ht ⟨by simp [Node.types], ?_, .ret none⟩⟩
    simpa [Node.returned] using Ty.Sound.prim .unit
  | .ret origin (some value) =>
    obtain ⟨e, u, _, hvalue, hreturn, rfl⟩ := h.bindStmt_retValue
    obtain ⟨hety, he⟩ := typed_bindExpr value hr hs (usable_declared hs) hvalue
    have ht := sane_finishReturn he.sane hreturn
    refine ⟨_, rfl, by simp, he.append (.node ht ⟨by simp [Node.types], ?_, .ret (some e)⟩)⟩
    simpa [Node.returned] using hety
  | .block block =>
    obtain ⟨b, hblock, rfl⟩ := h.bindStmt_block
    obtain ⟨-, hb⟩ := typed_bindBlock block hr hs hblock
    exact ⟨_, rfl, by simp, hb.under (.stmt rfl (.block b))⟩
  | .whileLoop origin cond body =>
    obtain ⟨c, b, u, v, hcond, hbool, hbody, rfl, rfl⟩ := h.bindStmt_whileLoop
    obtain ⟨hcty, hc⟩ := typed_bindExpr cond hr hs usable_none hcond
    obtain ⟨-, hb⟩ := typed_bindBlock body hr (hc.sane.inLoops _) hbody
    refine ⟨_, rfl, by simp, (hc.append (hb.moved (hb.sane.inLoops _))).under (.stmt rfl ?_)⟩
    exact .whileLoop (hbool hcty.ne_error)
  | .forLoop origin item iterable body =>
    obtain ⟨e, ty, symbol, b, u, v, w, hiterable, hiterated, hdeclare, hbody, rfl, rfl⟩ :=
      h.bindStmt_forLoop
    obtain ⟨hety, he⟩ := typed_bindExpr iterable hr hs usable_none hiterable
    have hty := sound_iteratedTy? hety hiterated
    obtain ⟨hv, sym, hsym, -, hkind, hsymTy⟩ :=
      sound_declareLocal rfl (he.sane.opened .block) hty hdeclare
    obtain ⟨-, hb⟩ := typed_bindBlock body hr (hv.inLoops _) hbody
    have hgrows := (hdeclare.grows (keeps_declareLocal item ty rfl)).trans
      ((hbody.grows_nil).withLoopDepth.mono (by simp))
    have ht := he.sane.inScope hgrows (hb.sane.inLoops _)
    refine ⟨_, rfl, by simp, he.append ((hb.moved ht).under (.stmt rfl ?_))⟩
    exact forLoop_rule hety hsym hkind (hsymTy ▸ hiterated)
  | .breakLoop origin =>
    obtain ⟨rfl, rfl⟩ := h.bindStmt_breakLoop
    exact ⟨_, rfl, by simp, .node hs (.stmt rfl .breakLoop)⟩
  | .continueLoop origin =>
    obtain ⟨rfl, rfl⟩ := h.bindStmt_continueLoop
    exact ⟨_, rfl, by simp, .node hs (.stmt rfl .continueLoop)⟩
  | .fn .. | .record .. | .sum .. => exact absurd h (Quiet.not_bindStmt_of_isDeclaration rfl)

end

end Bindery.Binding
