import Bindery.Proofs.Binding.MirrorPremises

/-!
# Trees with unknown parts

A tree that is bound quietly is bound once more with some of its parts replaced by names that stand
for nothing. The second run reports these names and, apart from them, only follow-ups, and the nodes
that it makes are poisoned forms of those of the first run. The proof goes along the tree, with the
rules for poisoned parts at the nodes.
-/

namespace Bindery.Binding

open Bindery.Bound
open Ast (Unknown)

variable {Γ : Symbols} {w : Setting} {s s' t : State}

/-- The name of a function that is not known. -/
theorem ends_unknownCallee {x : Ast.Name} {expected expected' : Option Ty} {tyArgs : List Ast.TyExpr}
    {callee : Ast.Expr} {value : Expr} {range : Range} {source : List Ast.Node}
    {bound : Bool → List Node}
    (h : Poisoned w s s') (hp : Premises Γ w [⟨x, true⟩] source bound s)
    (hjumps : Ast.jumps (callee.nodes false) = false)
    (hq : Quiet Γ (bindExpr expected callee) s value t) :
    Ends w [⟨x, true⟩] (resolveCallee expected' (.name x) tyArgs range) s' t
      (· = some .undefined) := by
  obtain ⟨ht, -⟩ := h.skip hjumps hq
  have hlookup : Repeats (lookup .var x.text) s' none := ⟨h.lookup_unknown hp List.mem_cons_self, rfl⟩
  obtain ⟨hfn, hvariant, -⟩ := hp.unknown _ List.mem_cons_self
  have hfn' : s'.scopes.lookup .fn s'.current x.text = none := (h.fn' x.text).trans hfn
  refine .past hlookup ?_
  have hnamed : Ends w [⟨x, true⟩] (namedCallee expected' x tyArgs range) s' t (· = .undefined) := by
    refine .past (.get s') ?_
    rw [hfn', h.registry', hvariant]
    exact (Ends.unknown (x := ⟨x, true⟩) ht).andThen fun _ _ hu _ => .pure hu rfl
  exact hnamed.andThen fun target _ hu htarget => .pure hu (congrArg some htarget)

theorem Poisoned.repeats_resolveType? (h : Poisoned w s s') {e : Option Ast.TyExpr} {ty : Option Ty}
    (hq : Quiet Γ (resolveType? e) s ty t) : Repeats (resolveType? e) s' ty :=
  Binding.repeats_resolveType? (h.registry'.trans h.registry.symm) h.generics hq

theorem Poisoned.repeats_declaredReturn (h : Poisoned w s s') :
    Repeats declaredReturn s' w.declared := by
  refine ⟨?_, rfl⟩
  show s'.fns.head?.bind FnFrame.declared = w.declared
  rw [← h.declared]
  have hfns := h.fns
  generalize s.fns = fs at hfns
  generalize s'.fns = fs' at hfns
  cases hfns with
  | nil => rfl
  | cons hf _ => exact hf.declared

theorem ExprBelow.ifElse {c c' e e' : Expr} {b b' : Block} {ty ty' : Ty} (hb : BlockBelow b b')
    (he : ExprBelow e e')
    (hty : ty'.Below ty) (range : Range) :
    ExprBelow ⟨.ifElse c b (some e), ty, range⟩ ⟨.ifElse c' b' (some e'), ty', range⟩ := by
  have hdiverges : (⟨.ifElse c' b' (some e'), ty', range⟩ : Expr).diverges =
      (⟨.ifElse c b (some e), ty, range⟩ : Expr).diverges := by
    show (b'.diverges && e'.diverges) = (b.diverges && e.diverges)
    rw [hb.diverges, he.diverges]
  refine ⟨hty, hdiverges, ?_, fun _ => rfl⟩
  unfold bodyCandidate
  dsimp only
  rw [hdiverges]
  split
  · exact .none
  · exact .some hty

/-! ## What is shown of each kind of node -/

/-- An expression that is bound quietly ends as a poisoned form of it when parts of it are
unknown. -/
def EndsExpr (Γ : Symbols) (e : Ast.Expr) : Prop :=
  ∀ ⦃e' w s s' t xs expected expected' b⦄, Poisoned w s s' → Ground Γ w.registry w.bare →
    e.Replaced e' xs → Premises Γ w xs (e'.nodes true) (Expr.nodes · b) s → Suits expected' b →
    Quiet Γ (bindExpr expected e) s b t → Ends w xs (bindExpr expected' e') s' t (ExprBelow b)

/-- The same for an expression that is not itself replaced. -/
def EndsParts (Γ : Symbols) (e : Ast.Expr) : Prop :=
  ∀ ⦃e' w s s' t xs expected expected' b⦄, Poisoned w s s' → Ground Γ w.registry w.bare →
    e.PartsReplaced e' xs → Premises Γ w xs (e'.nodes true) (Expr.nodes · b) s → Suits expected' b →
    Quiet Γ (bindExpr expected e) s b t → Ends w xs (bindExpr expected' e') s' t (ExprBelow b)

def EndsExprs (Γ : Symbols) (es : List Ast.Expr) : Prop :=
  ∀ ⦃es' w s s' t xs hints hints' bs⦄, Poisoned w s s' → Ground Γ w.registry w.bare →
    Ast.Expr.AllReplaced es es' xs →
    Premises Γ w xs (Ast.Expr.allNodes true es') (Expr.allNodes · bs) s → SuitsAll hints' bs →
    Quiet Γ (bindExprs hints es) s bs t →
    Ends w xs (bindExprs hints' es') s' t (List.Forall₂ ExprBelow bs)

def EndsEntries (Γ : Symbols) (entries : List Ast.MapEntry) : Prop :=
  ∀ ⦃entries' w s s' t xs hint hint' bs⦄, Poisoned w s s' → Ground Γ w.registry w.bare →
    Ast.MapEntry.AllReplaced entries entries' xs →
    Premises Γ w xs (Ast.MapEntry.allNodes true entries') (Entry.allNodes · bs) s →
    (∀ e ∈ bs, Suits hint' e.value) → Quiet Γ (bindEntries hint entries) s bs t →
    Ends w xs (bindEntries hint' entries') s' t
      (List.Forall₂ (fun e e' => ExprBelow e.value e'.value) bs)

def EndsFields (Γ : Symbols) (fields : List Ast.FieldInit) : Prop :=
  ∀ ⦃fields' w s s' t xs name record seen known known' k values⦄, Poisoned w s s' →
    Ground Γ w.registry w.bare → Ast.FieldInit.AllReplaced fields fields' xs →
    Premises Γ w xs (Ast.FieldInit.allNodes true fields') (FieldValue.allNodes · values) s →
    w.registry.record? name = some record →
    (∀ n a, known'.get? n = some a → a.hasPoison = false) → k.Under known' →
    Quiet Γ (bindFields record seen known fields) s (values, known') t →
    Ends w xs (bindFields record seen k fields') s' t fun r => r.2.Under known'

def EndsArms (Γ : Symbols) (arms : List Ast.Arm) : Prop :=
  ∀ ⦃arms' w s s' t xs target target' expected expected' agreed agreed' final bs⦄, Poisoned w s s' →
    Ground Γ w.registry w.bare → Ast.Arm.AllReplaced arms arms' xs →
    Premises Γ w xs (Ast.Arm.allNodes true arms') (Arm.allNodes · bs) s → target'.Below target →
    ArmsBelow agreed agreed' →
    (∀ arm ∈ arms', ∀ name ∈ arm.pattern.tupled, w.bare name.text = true →
      w.allowed ⟨name.range, .alreadyDeclared name.text⟩) →
    (∀ ty, expected' = some ty → ty = .unit ∨ ∀ result, final.result = some result → ty.Below result) →
    Quiet Γ (bindArms target expected agreed arms) s (bs, final) t →
    Ends w xs (bindArms target' expected' agreed' arms') s' t fun r => ArmsBelow final r.2 ∧
      PatternsMatch w.bare target target' (arms'.map Ast.Arm.pattern) (bs.map Arm.pattern)
        (r.1.map Arm.pattern)

def EndsBlock (Γ : Symbols) (block : Ast.Block) : Prop :=
  ∀ ⦃block' w s s' t xs b⦄, Poisoned w s s' → Ground Γ w.registry w.bare → block.Replaced block' xs →
    Premises Γ w xs (block'.nodes true) (Block.nodes · b) s → Quiet Γ (bindBlock block) s b t →
    Ends w xs (bindBlock block') s' t (BlockBelow b)

/-! ## Expressions -/

section

variable {o : Origin}

theorem EndsParts.whole {e : Ast.Expr} (hparts : EndsParts Γ e) : EndsExpr Γ e := by
  intro e' w s s' t xs expected expected' b h hground hreplaced hp hsuits hq
  rcases hreplaced.whole_or_parts with ⟨x, -, hjumps, rfl, rfl⟩ | hreplaced
  · exact ends_unknownValue h hp hjumps hq
  · exact hparts h hground hreplaced hp hsuits hq

theorem ends_literal {v : Literal} : EndsParts Γ (.literal o v) := by
  intro e' w s s' t xs expected expected' b h hground hparts hp hsuits hq
  cases hparts
  obtain ⟨rfl, rfl⟩ := hq.bindExpr_literal
  exact .pure h (.refl _)

theorem ends_name {n : Ast.Name} : EndsParts Γ (.name n) := by
  intro e' w s s' t xs expected expected' b h hground hparts hp hsuits hq
  cases hparts
  exact ends_nameExpr h hground hp.exact_expr hsuits hq.bindExpr_name

theorem ends_binary {op : BinaryOp} {left right : Ast.Expr}
    (ih : EndsExpr Γ left) (ih' : EndsExpr Γ right) :
    EndsParts Γ (.binary o op left right) := by
  intro e' w s s' t xs expected expected' b h hground hparts hp hsuits hq
  cases hparts with
  | binary _ _ hleft hright =>
    obtain ⟨l, r, u, ty, hl, hr, rfl, hresult⟩ := hq.bindExpr_binary
    have hpl := hp.below.left
    have hpr := hp.below.right.grown h.valid (hl.grows_nil)
    refine (ih h hground hleft hpl (suits_none l) hl).seq fun l' u' hu hbl => ?_
    refine (ih' hu hground hright hpr (suits_none r) hr).andThen fun r' v' hv hbr => ?_
    obtain ⟨ty', hty, hrepeats⟩ :=
      repeats_binaryExpr hbl.ty hbr.ty (hresult hpl.ne_error hpr.ne_error) o.range v'
    exact .repeats hv hrepeats ⟨hty, rfl, .some hty, fun _ => rfl⟩

theorem ends_unary {op : UnaryOp} {operand : Ast.Expr} (ih : EndsExpr Γ operand) :
    EndsParts Γ (.unary o op operand) := by
  intro e' w s s' t xs expected expected' b h hground hparts hp hsuits hq
  cases hparts with
  | unary _ _ hoperand =>
    obtain ⟨b₁, ty, hb₁, rfl, hresult⟩ := hq.bindExpr_unary
    refine (ih h hground hoperand hp.below (suits_none b₁) hb₁).andThen fun b₁' u' hu hb => ?_
    obtain ⟨ty', hty, hrepeats⟩ := repeats_unaryExpr hb.ty (hresult hp.below.ne_error) o.range u'
    exact .repeats hu hrepeats ⟨hty, rfl, .some hty, fun _ => rfl⟩

theorem ends_call {callee : Ast.Expr} {tyArgs : List Ast.TyExpr} {args : List Ast.Expr}
    (ih : EndsExpr Γ callee) (ih' : EndsExprs Γ args) :
    EndsParts Γ (.call o callee tyArgs args) := by
  intro e' w s s' t xs expected expected' b h hground hparts hp hsuits hq
  cases hparts with
  | call _ _ hcallee hargs =>
    rcases hq.bindExpr_call with ⟨name, target, bs, rfl, hvar, hnamed, hbs, hfinish⟩ |
      ⟨value, u, bs, ty, hname, hvalue, hbs, hty, rfl⟩
    · cases hcallee
      have hpargs := hp
      simp only [(nodes_finishCall hnamed hfinish).2.2.2] at hpargs
      replace hpargs := hpargs.below.source_tail
      refine ends_namedCall h hground hp.exact_expr hsuits ?_ hvar hnamed hfinish
        fun hints u' hu hsuits => ih' hu hground hargs hpargs hsuits hbs
      intro hbare
      have htame := hp.tame _ List.mem_cons_self
      cases tyArgs with
      | nil => rfl
      | cons typeArg tyArgs =>
        rw [Ast.Node.isTame, hbare] at htame
        cases htame
    · obtain rfl := hq.tyArgs_of_call hname
      have hpv := hp.below.left
      have hpargs := hp.below.right.grown h.valid (hvalue.grows_nil)
      have href := hvalue.out_eq ▸ isFnRef_bindExpr h.valid hname
      have hvalueTy := ty_eq_of_valueCallTy hpv.sound hpargs.sound_all href hty
      refine ends_valueCall ?_ (ih h hground (.parts hcallee) hpv (suits_none value) hvalue) hvalueTy
        href fun hints u' hu hsuits => ih' hu hground hargs hpargs hsuits hbs
      rintro name rfl
      cases hcallee with
      | name =>
        obtain ⟨id, hid⟩ := Option.ne_none_iff_exists'.mp (hname name rfl)
        intro hnone
        have hseen := h.seen name.text
        rw [hid, hnone] at hseen
        cases hseen
  | callee _ _ hcallee _ hjumps hargs =>
    rcases hq.bindExpr_call with ⟨name, target, bs, rfl, -⟩ | ⟨value, u, bs, ty, -, hvalue, hbs, -,
      rfl⟩
    · exact absurd rfl (hcallee name)
    · have hpargs := hp.below.right.grown h.valid (hvalue.grows_nil)
      refine (ends_unknownCallee h hp.below.left hjumps hvalue).seq fun target u' hu htarget => ?_
      rw [htarget]
      exact (ih' hu hground hargs hpargs (suitsAll_nil bs) hbs).andThen
        fun bs' v' hv _ => .pure hv (.poison rfl rfl rfl rfl rfl)

theorem ends_lambda {params : List Ast.Param} {written : Option Ast.TyExpr} {body : Ast.Expr}
    (ih : EndsExpr Γ body) :
    EndsParts Γ (.lambda o params written body) := by
  intro e' w s s' t xs expected expected' b h hground hparts hp hsuits hq
  cases hparts with
  | lambda _ _ _ hbody havoids =>
    obtain ⟨tys, declared, htys, hdeclared, hlambda⟩ := hq.bindExpr_lambda
    obtain ⟨syms, u, b₁, v, returns, ret, hparams, hb₁, hfns, rfl, hsettle, rfl⟩ :=
      hlambda.lambdaExpr (keeps_bindExpr declared body)
    have hdeclares := hparams.grows (keeps_declareLocals rfl _)
    have hvalid : (u.enteringBody ⟨"<lambda>", declared, [], o.range⟩).Valid :=
      (hdeclares.valid (h.valid.opened .lambda).entering).congr rfl rfl rfl rfl
    obtain rfl := returns_eq_returnedBy hvalid hb₁ hfns
    obtain ⟨hret, hbodyTy, hreturns, hvalue⟩ := sound_lambda hp.exact
    have hpb :=
      hp.body h.valid hdeclares (avoids_params havoids tys) (below_returned hret hreturns hsettle)
      ⟨"<lambda>", declared, [], o.range⟩
    refine .past (repeats_resolveTypes _ (h.registry'.trans h.registry.symm) h.generics htys)
      (.past (h.repeats_resolveType? hdeclared) ?_)
    refine ends_lambdaExpr h (keeps_bindExpr declared body) (keeps_bindExpr declared _) hparams hb₁
      hfns hsettle
      hvalue ?_ fun u' hu => ih hu hground hbody hpb (suits_body hret hbodyTy hsettle) hb₁
    intro hnone hreturned
    have hwritten : written = none := by
      rw [← Option.isNone_iff_eq_none, ← Option.not_isSome, ← isSome_resolveType? written s,
        hdeclared.out_eq, hnone]
      rfl
    refine hp.allowed_head _ ?_
    rw [hwritten, Ast.Node.followUps, body.returns_of_replaced hbody,
      returns_of_noted hvalid hb₁ hfns hreturned]
    exact List.mem_cons_self

theorem ends_record {type : Ast.Name} {tyArgs : List Ast.TyExpr} {fields : List Ast.FieldInit}
    (ih : EndsFields Γ fields) :
    EndsParts Γ (.record o type tyArgs fields) := by
  intro e' w s s' t xs expected expected' b h hground hparts hp hsuits hq
  cases hparts with
  | record _ _ _ hfields =>
    obtain ⟨record, known, values, known', hrecord, hargs, hvalues, hgiven, rfl⟩ := hq.bindExpr_record
    rw [h.registry] at hrecord
    have hsettled := settled_of_instantiate hp.sound
    obtain ⟨k, hk, hrepeats⟩ := repeats_recordArgs h (kept_bindFields hvalues)
      (fun p hp => Option.isSome_iff_exists.mpr ((hsettled p hp).imp fun _ ha => ha.1)) hsuits hargs
    have hsound := sound_known hsettled hp.below.sound_fields hargs hvalues
    refine .past (.get s') ?_
    rw [h.registry', hrecord]
    refine .past hrepeats ?_
    refine (ih h hground hfields hp.below hrecord hsound hk hvalues).andThen fun r u' hu hr => ?_
    obtain ⟨values', k'⟩ := r
    refine .past (repeats_checkMissing ?_ o.range u') (.pure hu ?_)
    · rw [Ast.FieldInit.names_of_allReplaced fields hfields]
      exact hgiven
    · have hty : Ty.Below (.record record.name (k'.instantiate record.tyParams))
          (.record record.name (known'.instantiate record.tyParams)) := by
        refine .nominal _ _ (hr.instantiate fun p hp => ?_)
        obtain ⟨a, ha, -⟩ := hsettled p hp
        rw [ha]
        rfl
      exact ⟨hty, rfl, .some hty, fun _ => rfl⟩

theorem ends_field {target : Ast.Expr} {name : Ast.Name} (ih : EndsExpr Γ target) :
    EndsParts Γ (.field o target name) := by
  intro e' w s s' t xs expected expected' b h hground hparts hp hsuits hq
  cases hparts with
  | field _ _ htarget =>
    obtain ⟨b₁, field, ty, hb₁, rfl, hfield⟩ := hq.bindExpr_field
    refine (ih h hground htarget hp.below (suits_none b₁) hb₁).andThen fun b₁' u' hu hb => ?_
    obtain ⟨record, args, symbol, hrecord, hof, -⟩ := hfield hp.below.ne_error
    have hty := hb.ty
    rw [hrecord] at hty
    obtain ⟨ty', field', hty', hrepeats⟩ :=
      repeats_fieldExpr hty hof o.range (hu.registry'.trans hu.registry.symm)
    exact .repeats hu hrepeats ⟨hty', rfl, .some hty', fun _ => rfl⟩

theorem ends_tuple {elems : List Ast.Expr} (ih : EndsExprs Γ elems) :
    EndsParts Γ (.tuple o elems) := by
  intro e' w s s' t xs expected expected' b h hground hparts hp hsuits hq
  cases hparts with
  | tuple _ helems =>
    obtain ⟨bs, hbs, rfl⟩ := hq.bindExpr_tuple
    refine (ih h hground helems hp.below (suitsAll_tupleHints hsuits _) hbs).andThen
      fun bs' u' hu hb => .pure hu ?_
    have hty := Ty.Below.tuple (belowAll_map_ty hb)
    exact ⟨hty, rfl, .some hty, fun _ => rfl⟩

theorem ends_list {elems : List Ast.Expr} (ih : EndsExprs Γ elems) :
    EndsParts Γ (.list o elems) := by
  intro e' w s s' t xs expected expected' b h hground hparts hp hsuits hq
  cases hparts with
  | list _ helems =>
    obtain ⟨bs, hbs, hlist⟩ := hq.bindExpr_list
    obtain ⟨-, element, rfl, haccepts, -⟩ := hlist.listExpr
    have hsound := hp.below.sound_all
    have helement : element.hasPoison = false := hp.sound
    have hall : ∀ b ∈ bs, b.ty = element := fun b hb =>
      (Ty.eq_of_compatible helement (hsound b hb) (by simp) (haccepts b hb)).symm
    have hint := suits_elementHint hsuits rfl rfl (by intro b hb; cases hb)
    have hsuitsAll := suitsAll_replicate (fun b hb => suits_element hint (hall b hb))
    rw [bindExpr_list]
    refine (ih h hground helems hp.below (hsuitsAll _) hbs).andThen
      fun bs' u' hu hb => ends_listExpr hu hint hall hb ?_
    rintro rfl
    cases helems with
    | nil => exact hp.allowed_head _ List.mem_cons_self
    | cons _ _ =>
      obtain ⟨_, _, _, -, -, heq⟩ := hbs.bindExprs_cons
      cases heq

theorem ends_map {entries : List Ast.MapEntry} (ih : EndsEntries Γ entries) :
    EndsParts Γ (.map o entries) := by
  intro e' w s s' t xs expected expected' b h hground hparts hp hsuits hq
  cases hparts with
  | map _ hentries =>
    obtain ⟨bs, hbs, hmap⟩ := hq.bindExpr_map
    obtain ⟨-, value, rfl, haccepts, -⟩ := hmap.mapExpr
    have hsound := hp.below.sound_entries
    have hvalue : value.hasPoison = false := hp.sound
    have hall : ∀ e ∈ bs, e.value.ty = value := fun e he =>
      (Ty.eq_of_compatible hvalue (hsound e he) (by simp) (haccepts e he)).symm
    have hint := suits_elementHint hsuits rfl rfl (by intro b hb; cases hb)
    refine (ih h hground hentries hp.below (fun e he => suits_element hint (hall e he)) hbs).andThen
      fun bs' u' hu hb => ends_mapExpr hu hint hall hb ?_
    rintro rfl
    cases hentries with
    | nil => exact hp.allowed_head _ List.mem_cons_self
    | cons _ _ _ _ =>
      obtain ⟨_, _, _, _, _, -, -, -, heq, -⟩ := hbs.bindEntries_cons
      cases heq

theorem ends_index {target index : Ast.Expr} (ih : EndsExpr Γ target) (ih' : EndsExpr Γ index) :
    EndsParts Γ (.index o target index) := by
  intro e' w s s' t xs expected expected' b h hground hparts hp hsuits hq
  cases hparts with
  | index _ htarget hindex =>
    obtain ⟨b₁, i, u, ty, hb₁, hi, rfl, hresult⟩ := hq.bindExpr_index
    have hpt := hp.below.left
    have hpi := hp.below.right.grown h.valid (hb₁.grows_nil)
    refine (ih h hground htarget hpt (suits_none b₁) hb₁).seq fun b₁' u' hu hbt => ?_
    refine (ih' hu hground hindex hpi (suits_none i) hi).andThen fun i' v' hv hbi => ?_
    obtain ⟨ty', hty, hrepeats⟩ :=
      repeats_indexExpr hbt.ty hbi.ty (hresult hpt.ne_error hpi.ne_error) o.range v'
    exact .repeats hv hrepeats ⟨hty, rfl, .some hty, fun _ => rfl⟩

theorem ends_ifOnly {cond : Ast.Expr} {thenBranch : Ast.Block}
    (ih : EndsExpr Γ cond) (ih' : EndsBlock Γ thenBranch) :
    EndsParts Γ (.ifElse o cond thenBranch none) := by
  intro e' w s s' t xs expected expected' b h hground hparts hp hsuits hq
  cases hparts with
  | ifOnly _ hcond hthen =>
    obtain ⟨c, block, u, hc, hbool, hblock, rfl⟩ := hq.bindExpr_if
    have hpc := hp.below.left
    have hpb := hp.below.right.grown h.valid (hc.grows_nil)
    refine (ih h hground hcond hpc (suits_none c) hc).seq fun c' u' hu hbc => ?_
    refine .past (repeats_checkCondition (hbool hpc.ne_error ▸ hbc.ty) u') ?_
    exact (ih' hu hground hthen hpb hblock).andThen
      fun block' v' hv _ => .pure hv ⟨Ty.below_refl _, rfl, .some (Ty.below_refl _), fun _ => rfl⟩

theorem ends_ifElse {cond elseBranch : Ast.Expr} {thenBranch : Ast.Block}
    (ih : EndsExpr Γ cond) (ih' : EndsBlock Γ thenBranch) (ih'' : EndsExpr Γ elseBranch) :
    EndsParts Γ (.ifElse o cond thenBranch (some elseBranch)) := by
  intro e' w s s' t xs expected expected' b h hground hparts hp hsuits hq
  cases hparts with
  | ifElse _ hcond hthen helse =>
    obtain ⟨c, block, b₁, u, v, ty, hc, hbool, hblock, hb₁, hbranch, rfl⟩ := hq.bindExpr_ifElse
    have hgc := hc.grows_nil
    have hgb := hblock.grows_nil
    have hpc := hp.below.assoc.left
    have hpb := hp.below.assoc.right.left.grown h.valid hgc
    have hpe := (hp.below.assoc.right.right.grown h.valid hgc).grown (hgc.valid h.valid) hgb
    refine (ih h hground hcond hpc (suits_none c) hc).seq fun c' u' hu hbc => ?_
    refine .past (repeats_checkCondition (hbool hpc.ne_error ▸ hbc.ty) u') ?_
    refine (ih' hu hground hthen hpb hblock).seq fun block' v' hv hbb => ?_
    refine (ih'' hv hground helse hpe
      (suits_elseBranch hsuits hpb.sound_block hpe.sound hbranch) hb₁).andThen fun b₁' x' hx hbe => ?_
    obtain ⟨ty', hty, hrepeats⟩ := repeats_branchTy hbb hbe hpb.sound_block hpe.sound hbranch x'
    exact .repeats hx (hrepeats.seq (.pure _ x')) (.ifElse hbb hbe hty o.range)

theorem ends_block {block : Ast.Block} (ih : EndsBlock Γ block) : EndsParts Γ (.block block) := by
  intro e' w s s' t xs expected expected' b h hground hparts hp hsuits hq
  cases hparts with
  | block hblock =>
    obtain ⟨block₁, hb₁, rfl⟩ := hq.bindExpr_block
    exact (ih h hground hblock hp.below hb₁).andThen
      fun block' u' hu hb => .pure hu ⟨hb.ty, hb.diverges, hb.candidate, fun _ => rfl⟩

theorem ends_matchOn {scrutinee : Ast.Expr} {arms : List Ast.Arm}
    (ih : EndsExpr Γ scrutinee) (ih' : EndsArms Γ arms) :
    EndsParts Γ (.matchOn o scrutinee arms) := by
  intro e' w s s' t xs expected expected' b h hground hparts hp hsuits hq
  cases hparts with
  | matchOn _ hscrutinee harms =>
    obtain ⟨b₁, arms₁, agreed, u, hb₁, harms₁, rfl, hclean⟩ := hq.bindExpr_matchOn
    have hpa := hp.below.right.grown h.valid (hb₁.grows_nil)
    obtain ⟨hnames, hovertaken⟩ := hp.allowed_arms
    refine (ih h hground hscrutinee hp.below.left (suits_none b₁) hb₁).seq fun b₁' u' hu hbe => ?_
    refine (ih' hu hground harms hpa hbe.ty .initial hnames (suits_arms hsuits hp.sound)
      harms₁).andThen
      fun r v' hv hr => ?_
    obtain ⟨arms', agreed'⟩ := r
    rw [hv.registry] at hclean
    exact ends_matchExpr hv hbe.ty hr.1 hr.2 hclean hovertaken

theorem ends_spawn {body : Ast.Block} (ih : EndsBlock Γ body) : EndsParts Γ (.spawn o body) := by
  intro e' w s s' t xs expected expected' b h hground hparts hp hsuits hq
  cases hparts with
  | spawn _ hbody =>
    obtain ⟨block, hblock, rfl⟩ := hq.bindExpr_spawn
    have hdepth : (s'.scopeDepth != 0) = true := h.scopeDepth ▸ hq.scopeDepth_of_spawn
    have hcheck : Repeats (checkSpawn o.range) s' () :=
      (Repeats.get s').seq (.reportUnless hdepth _ _ s')
    refine .past hcheck ?_
    refine (ih h hground hbody hp.below hblock).andThen fun block' u' hu hb => .pure hu ?_
    have hty := Ty.Below.container .task hb.ty
    exact ⟨hty, rfl, .some hty, fun _ => rfl⟩

theorem ends_scope {body : Ast.Block} (ih : EndsBlock Γ body) : EndsParts Γ (.scope o body) := by
  intro e' w s s' t xs expected expected' b h hground hparts hp hsuits hq
  cases hparts with
  | scope _ hbody =>
    obtain ⟨block, u, hblock, rfl, rfl⟩ := hq.bindExpr_scope
    rw [bindExpr_scope_eq]
    refine Ends.andThen (Ends.withScopeDepth h
      (ih (h.inScopeBlocks _) hground hbody (hp.below.congr rfl rfl) hblock)) ?_
    exact fun block' u' hu hb => .pure hu ⟨hb.ty, rfl, .some hb.ty, fun _ => rfl⟩

theorem ends_channel {element : Ast.TyExpr} : EndsParts Γ (.channel o element) := by
  intro e' w s s' t xs expected expected' b h hground hparts hp hsuits hq
  cases hparts
  obtain ⟨ty, hty, rfl, rfl⟩ := hq.bindExpr_channel
  exact .past (repeats_resolveType element (h.registry'.trans h.registry.symm) h.generics hty)
    (.pure h (.refl _))

theorem ends_par {inner : Ast.Expr} (ih : EndsExpr Γ inner) : EndsParts Γ (.par o inner) := by
  intro e' w s s' t xs expected expected' b h hground hparts hp hsuits hq
  cases hparts with
  | par _ hinner =>
    obtain ⟨b₁, hb₁, rfl⟩ := hq.bindExpr_par
    exact (ih h hground hinner hp.below (suits_par hsuits) hb₁).andThen
      fun b₁' u' hu hb => .pure hu ⟨hb.ty, rfl, .some hb.ty, fun _ => rfl⟩

end

/-! ## The tree -/

mutual

theorem ends_bindExpr (e : Ast.Expr) : EndsExpr Γ e := by
  refine EndsParts.whole ?_
  match e with
  | .literal .. => exact ends_literal
  | .name _ => exact ends_name
  | .binary _ _ left right => exact ends_binary (ends_bindExpr left) (ends_bindExpr right)
  | .unary _ _ operand => exact ends_unary (ends_bindExpr operand)
  | .call _ callee _ args => exact ends_call (ends_bindExpr callee) (ends_bindExprs args)
  | .lambda _ _ _ body => exact ends_lambda (ends_bindExpr body)
  | .record _ _ _ fields => exact ends_record (ends_bindFields fields)
  | .field _ target _ => exact ends_field (ends_bindExpr target)
  | .tuple _ elems => exact ends_tuple (ends_bindExprs elems)
  | .list _ elems => exact ends_list (ends_bindExprs elems)
  | .map _ entries => exact ends_map (ends_bindEntries entries)
  | .index _ target index => exact ends_index (ends_bindExpr target) (ends_bindExpr index)
  | .ifElse _ cond thenBranch none =>
    exact ends_ifOnly (ends_bindExpr cond) (ends_bindBlock thenBranch)
  | .ifElse _ cond thenBranch (some elseBranch) =>
    exact ends_ifElse (ends_bindExpr cond) (ends_bindBlock thenBranch) (ends_bindExpr elseBranch)
  | .block block => exact ends_block (ends_bindBlock block)
  | .matchOn _ scrutinee arms => exact ends_matchOn (ends_bindExpr scrutinee) (ends_bindArms arms)
  | .spawn _ body => exact ends_spawn (ends_bindBlock body)
  | .scope _ body => exact ends_scope (ends_bindBlock body)
  | .channel .. => exact ends_channel
  | .par _ inner => exact ends_par (ends_bindExpr inner)
termination_by structural e

theorem ends_bindExprs (es : List Ast.Expr) : EndsExprs Γ es := by
  intro es' w s s' t xs hints hints' bs h hground hreplaced hp hsuits hq
  match es with
  | [] =>
    cases hreplaced
    obtain ⟨rfl, rfl⟩ := hq.bindExprs_nil
    exact .pure h .nil
  | e :: es =>
    cases hreplaced with
    | cons he hes =>
      obtain ⟨b, bs', u, hb, hbs, rfl⟩ := hq.bindExprs_cons
      refine (ends_bindExpr e h hground he hp.left hsuits.1 hb).seq fun b' u' hu hbelow => ?_
      have hgrown := hp.right.grown h.valid (hb.grows_nil)
      exact (ends_bindExprs es hu hground hes hgrown hsuits.2 hbs).andThen
        fun bs'' v' hv hrest => .pure hv (.cons hbelow hrest)
termination_by structural es

theorem ends_bindEntries (entries : List Ast.MapEntry) : EndsEntries Γ entries := by
  intro entries' w s s' t xs hint hint' bs h hground hreplaced hp hsuits hq
  match entries with
  | [] =>
    cases hreplaced
    obtain ⟨rfl, rfl⟩ := hq.bindEntries_nil
    exact .pure h .nil
  | ⟨o, key, value⟩ :: entries =>
    cases hreplaced with
    | cons _ hkey hvalue hrest =>
      obtain ⟨k, v, bs', u, x, hk, hv, hbs, rfl, hstring⟩ := hq.bindEntries_cons
      have hgk := hk.grows_nil
      have hgv := hv.grows_nil
      have hpk := hp.assoc.left
      have hpv := hp.assoc.right.left.grown h.valid hgk
      have hpr := (hp.assoc.right.right.grown h.valid hgk).grown (hgk.valid h.valid) hgv
      have hkey' := hstring hpk.ne_error
      refine (ends_bindExpr key h hground hkey hpk (suits_of_below (Ty.below_of_eq hkey'.symm)) hk).seq
        fun k' u' hu hbk => ?_
      refine .past (repeats_checkKey (hkey' ▸ hbk.ty) u') ?_
      refine (ends_bindExpr value hu hground hvalue hpv (hsuits _ List.mem_cons_self) hv).seq
        fun v' x' hx hbv => ?_
      exact (ends_bindEntries entries hx hground hrest hpr
        (fun e he => hsuits e (List.mem_cons_of_mem _ he)) hbs).andThen
        fun bs'' y' hy hbs => .pure hy (.cons hbv hbs)
termination_by structural entries

theorem ends_bindFields (fields : List Ast.FieldInit) : EndsFields Γ fields := by
  intro fields' w s s' t xs name record seen known known' k values h hground hreplaced hp hrecord
    hsound hk hq
  match fields with
  | [] =>
    cases hreplaced
    obtain ⟨heq, rfl⟩ := hq.bindFields_nil
    exact .pure h hk
  | ⟨o, field, value⟩ :: fields =>
    cases hreplaced with
    | cons _ _ hvalue hrest =>
      obtain ⟨hseen, d, v, values', known'', u, hfield, hv, haccepts, hvalues, heq⟩ :=
        hq.bindFields_cons
      cases heq
      have hkept := kept_bindFields hvalues
      have hty : v.ty = d.ty.subst known' :=
        Ty.eq_subst_of_infer (hground.fields _ _ _ _ hrecord hfield)
        hp.left.sound haccepts (fun n a ha => hsound n a (hkept n a ha)) hkept
      have hgrown := hp.right.grown h.valid (hv.grows_nil)
      rw [bindFields, if_neg (by simpa using hseen), hfield]
      refine (ends_bindExpr value h hground hvalue hp.left (suits_field hty hk) hv).seq
        fun v' u' hu hb => ?_
      obtain ⟨hk', hrepeats⟩ : (d.ty.infer v'.ty k).Under known' ∧
          Repeats (checkField field.text d.ty v' k) u' (d.ty.infer v'.ty k) :=
            repeats_checkField (hty ▸ hb.ty) hk u'
      refine .past hrepeats ?_
      exact (ends_bindFields fields hu hground hrest hgrown hrecord hsound hk' hvalues).andThen
        fun r x' hx hr => .pure hx hr
termination_by structural fields

theorem ends_bindArms (arms : List Ast.Arm) : EndsArms Γ arms := by
  intro arms' w s s' t xs target target' expected expected' agreed agreed' final bs h hground
    hreplaced hp hbelow
    hagreed hnames hsuits hq
  match arms with
  | [] =>
    cases hreplaced
    obtain ⟨heq, rfl⟩ := hq.bindArms_nil
    cases heq
    exact .pure h ⟨hagreed, .nil⟩
  | ⟨o, pattern, body⟩ :: arms =>
    cases hreplaced with
    | cons _ _ hbody havoids hrest =>
      obtain ⟨p, b, u, v, agreed₁, arms₁, agreed₂, hpattern, hb, hnote, harms, heq⟩ := hq.bindArms_cons
      cases heq
      have hgp := hpattern.grows (keeps_bindPattern target pattern)
      have hgb := hb.grows_nil
      have hpb := (hp.left.bound_right.opened h.valid .matchArm).moved (h.valid.opened .matchArm)
        hgp havoids
      have hgrows : Grows [] s (v.at s.current) := Grows.inScope (hgp.trans (hgb.mono (by simp)))
      have hpr := hp.right.grown h.valid hgrows
      have hbody' := suits_arm hagreed hpb.sound hsuits hnote harms
      refine (ends_arm h hground hbelow (hnames _ List.mem_cons_self) hpattern hb fun u' hu =>
        ends_bindExpr body hu hground hbody (hpb.within false) hbody' hb).seq fun arm' v' hv harm => ?_
      obtain ⟨-, -, agreed₁', hagreed₁, hrepeats⟩ := hagreed.noteArm harm.2 hpb.sound hnote v'
      refine .past hrepeats ?_
      refine (ends_bindArms arms hv hground hrest hpr hbelow hagreed₁
        (fun arm harm => hnames arm (List.mem_cons_of_mem _ harm)) hsuits harms).andThen
          fun r x' hx hr => .pure hx ?_
      refine ⟨hr.1, .cons ⟨pattern, List.mem_cons_self, harm.1⟩ ?_⟩
      exact hr.2.imp fun _ _ hmatch => hmatch.imp fun _ hpattern =>
        ⟨List.mem_cons_of_mem _ hpattern.1, hpattern.2⟩
termination_by structural arms

theorem ends_bindBlock (block : Ast.Block) : EndsBlock Γ block := by
  intro block' w s s' t xs b h hground hreplaced hp hq
  match block with
  | ⟨o, stmts⟩ =>
    cases hreplaced with
    | mk _ hstatements =>
      obtain ⟨bs, u, hbs, rfl, rfl⟩ := hq.bindBlock_mk
      refine Ends.andThen
        (Ends.inScope true h (ends_bindStmts stmts (h.opened .block true) hground hstatements
        ((hp.bound_tail.opened h.valid .block).within true) rfl hbs)
          (hbs.grows (keeps_bindStmts stmts))
        (keeps_bindStmts _)) ?_
      exact fun bs' u' hu hb => .pure hu (.ofStatements hb _ _)
termination_by structural block

theorem ends_bindStmts (stmts : List Ast.Stmt) {stmts' : List Ast.Stmt} {w : Setting} {s s' t : State}
    {xs : List Unknown} {bs : List Stmt} (h : Poisoned w s s') (hground : Ground Γ w.registry w.bare)
    (hreplaced : Ast.Stmt.AllReplaced stmts stmts' xs)
    (hp : Premises Γ w xs (Ast.Stmt.allNodes true stmts') (Stmt.allNodes · bs) s)
    (hplain : w.isPlain = true)
    (hq : Quiet Γ (bindStmts stmts) s bs t) :
    Ends w xs (bindStmts stmts') s' t (List.Forall₂ StmtBelow bs) := by
  match stmts with
  | [] =>
    cases hreplaced
    obtain ⟨rfl, rfl⟩ := hq.bindStmts_nil
    exact .pure h .nil
  | stmt :: stmts =>
    cases hreplaced with
    | cons hstatement hrest havoids =>
      obtain ⟨result, bs', u, hfirst, hbs, rfl⟩ := hq.bindStmts_cons
      obtain ⟨b, rfl, -⟩ := Accounts.traversal.bindStmt stmt h.valid hfirst
      have hpr := hp.right.moved h.valid (hfirst.grows (keeps_bindStmt stmt)) havoids
      refine (ends_bindStmt stmt h hground hstatement hp.left hplain hfirst).seq
        fun result' u' hu hr => ?_
      obtain ⟨b', rfl, hb⟩ := hr
      exact (ends_bindStmts stmts hu hground hrest hpr hplain hbs).andThen
        fun bs'' v' hv hrest => .pure hv (.cons hb hrest)
termination_by structural stmts

theorem ends_bindStmt (stmt : Ast.Stmt) {stmt' : Ast.Stmt} {w : Setting} {s s' t : State}
    {xs : List Unknown} {b : Stmt} (h : Poisoned w s s') (hground : Ground Γ w.registry w.bare)
    (hreplaced : stmt.Replaced stmt' xs)
    (hp : Premises Γ w xs (stmt'.nodes true) (Stmt.nodes · b) s) (hplain : w.isPlain = true)
    (hq : Quiet Γ (bindStmt stmt) s (some b) t) :
    Ends w xs (bindStmt stmt') s' t fun result => ∃ b', result = some b' ∧ StmtBelow b b' := by
  match stmt with
  | .bindName o name isMutable written init =>
    cases hreplaced with
    | bindName _ _ _ _ hinit =>
      obtain ⟨declared, b₁, symbol, u, hdeclared, hb₁, hdeclare, haccepts, heq⟩ := hq.bindStmt_bindName
      cases heq
      have hpi := hp.source_tail.bound_left
      refine .past (h.repeats_resolveType? hdeclared) ?_
      refine (ends_bindExpr init h hground hinit hpi (suits_written hdeclared hpi.sound haccepts)
        hb₁).andThen
        fun b₁' u' hu hb => ?_
      refine (ends_finishLet hu hplain hb.ty haccepts hdeclare).andThen fun kind v' hv hkind =>
        .pure hv ?_
      obtain ⟨symbol', rfl⟩ := hkind
      exact ⟨_, rfl, .other (by simp) (by simp) rfl⟩
  | .assign o name value =>
    cases hreplaced with
    | assign _ _ hvalue =>
      obtain ⟨symbol, sym, b₁, u, hresolve, hsym, hmutable, hb₁, haccepts, heq⟩ := hq.bindStmt_assign
      cases heq
      have hpv := hp.below.grown h.valid (hresolve.grows inferInstance)
      have hlocal : sym.kind.isLocal = true := by
        rw [kind_of_isMutable hmutable]
        rfl
      have hsound := hground.locals symbol sym (hresolve.syms_le _ _ hsym) hlocal
      have hty := Ty.eq_of_compatible hsound hpv.sound (by simp) haccepts
      refine (ends_assignTarget h hresolve hsym).prepared fun target u' hu htarget => ?_
      obtain ⟨symbol', target'⟩ := target
      obtain ⟨ty', isMutable', rfl, hty', hkind⟩ := htarget
      refine (ends_bindExpr value hu hground hvalue hpv (suits_of_below (hty ▸ hty')) hb₁).andThen
        fun b₁' v' hv hb => ?_
      refine (ends_finishAssign hv hty' hb.ty haccepts ?_).andThen
        fun _ x' hx _ => .pure hx ⟨_, rfl, .other (by simp) (by simp) rfl⟩
      refine hkind.imp (fun heq => heq.trans hmutable) fun hbare => hp.allowed_head _ ?_
      rw [Ast.Node.followUps, hbare]
      exact List.mem_cons_self
  | .expr o value =>
    cases hreplaced with
    | expr _ hvalue =>
      obtain ⟨b₁, hb₁, heq⟩ := hq.bindStmt_expr
      cases heq
      exact (ends_bindExpr value h hground hvalue hp.below (suits_none b₁) hb₁).andThen
        fun b₁' u' hu hb => .pure hu ⟨_, rfl, .expr hb⟩
  | .print o value =>
    cases hreplaced with
    | print _ hvalue =>
      obtain ⟨b₁, hb₁, heq⟩ := hq.bindStmt_print
      cases heq
      exact (ends_bindExpr value h hground hvalue hp.below (suits_none b₁) hb₁).andThen
        fun b₁' u' hu hb => .pure hu ⟨_, rfl, .other (by simp) (by simp) rfl⟩
  | .ret o none =>
    cases hreplaced
    obtain ⟨⟨a, hfinish⟩, heq⟩ := hq.bindStmt_ret
    cases heq
    exact (ends_finishReturn h (Ty.below_refl _) rfl hfinish).andThen
      fun _ u' hu _ => .pure hu ⟨_, rfl, .other (by simp) (by simp) rfl⟩
  | .ret o (some value) =>
    cases hreplaced with
    | retValue _ hvalue =>
      obtain ⟨b₁, u, a, hb₁, hfinish, heq⟩ := hq.bindStmt_retValue
      cases heq
      have hpv := hp.source_tail.bound_left
      have hsuits : Suits w.declared b₁ := by
        intro ty hty
        refine .inr (.inl (hp.returned (b₁.ty, b₁.range) ?_ ty hty))
        exact List.mem_flatMap.mpr ⟨_, List.mem_append_right _ List.mem_cons_self, List.mem_cons_self⟩
      refine .past h.repeats_declaredReturn ?_
      refine (ends_bindExpr value h hground hvalue hpv hsuits hb₁).andThen fun b₁' u' hu hb => ?_
      exact (ends_finishReturn hu hb.ty hpv.sound hfinish).andThen
        fun _ v' hv _ => .pure hv ⟨_, rfl, .other (by simp) (by simp) rfl⟩
  | .block block =>
    cases hreplaced with
    | block hblock =>
      obtain ⟨b₁, hb₁, heq⟩ := hq.bindStmt_block
      cases heq
      exact (ends_bindBlock block h hground hblock hp.below hb₁).andThen
        fun b₁' u' hu hb => .pure hu ⟨_, rfl, .other (by simp) (by simp) hb.diverges⟩
  | .whileLoop o cond body =>
    cases hreplaced with
    | whileLoop _ hcond hbody =>
      obtain ⟨c, b₁, u, v, hc, hbool, hb₁, rfl, heq⟩ := hq.bindStmt_whileLoop
      cases heq
      have hpc := hp.below.left
      have hpb := hp.below.right.grown h.valid (hc.grows_nil)
      rw [bindStmt_whileLoop_eq]
      refine (ends_bindExpr cond h hground hcond hpc (suits_none c) hc).seq fun c' u' hu hbc => ?_
      refine .past (repeats_checkCondition (hbool hpc.ne_error ▸ hbc.ty) u') ?_
      refine Ends.andThen (Ends.withLoopDepth hu
        (ends_bindBlock body (hu.inLoops _) hground hbody (hpb.congr rfl rfl) hb₁)) ?_
      exact fun b₁' v' hv _ => .pure hv ⟨_, rfl, .other (by simp) (by simp) rfl⟩
  | .forLoop o item iterable body =>
    cases hreplaced with
    | forLoop _ _ hiterable hbody havoids =>
      obtain ⟨b₁, ty, symbol, block, u, v, x, hb₁, hty, hdeclare, hblock, rfl, heq⟩ :=
        hq.bindStmt_forLoop
      cases heq
      have hgi := hb₁.grows_nil
      have hgd := hdeclare.grows (keeps_declareVar item false ty)
      have hgb : Grows [] v (x.inLoops v.loopDepth) := (hblock.grows_nil).withLoopDepth
      have hu := hgi.valid h.valid
      have hpb := ((hp.source_tail.right.bound_tail.grown h.valid hgi).opened hu .block).moved
        (hu.opened .block) hgd havoids
      rw [bindStmt_forLoop_eq]
      refine (ends_bindExpr iterable h hground hiterable hp.source_tail.left (suits_none b₁)
        hb₁).seq fun b₁' u' hu' hb => ?_
      obtain ⟨ty', hty', hrepeats⟩ := repeats_itemTy hb.ty hty u'
      refine .past hrepeats
        (Ends.andThen
        (Ends.inScope (P := fun _ => True) true hu' ?_ (hgd.trans (hgb.mono (by simp)))
        (.seq (keeps_declareVar item false ty') fun _ =>
          .seq (keeps_withLoopDepth _ (keeps_bindBlock _)).of_nil fun _ => inferInstance)) ?_)
      · refine (ends_declareLocal (hu'.opened .block true) rfl hdeclare hty' (.inl rfl)).prepared
          fun symbol' v' hv _ => ?_
        refine Ends.andThen (Ends.withLoopDepth hv (ends_bindBlock body (hv.inLoops _) hground hbody
          ((hpb.within true).congr rfl rfl) hblock)) ?_
        exact fun block' x' hx _ => .pure hx trivial
      · rintro ⟨symbol', block'⟩ x' hx -
        exact .pure hx ⟨_, rfl, .other (by simp) (by simp) rfl⟩
  | .breakLoop o =>
    cases hreplaced
    obtain ⟨rfl, heq⟩ := hq.bindStmt_breakLoop
    cases heq
    have hdepth : (s'.loopDepth != 0) = true := h.loopDepth ▸ Quiet.loopDepth_of_jump hq
    have hcheck : Repeats (checkInLoop "break" o.range) s' () :=
      (Repeats.get s').seq (.reportUnless hdepth _ _ s')
    exact .past hcheck (.pure h ⟨_, rfl, .other (by simp) (by simp) rfl⟩)
  | .continueLoop o =>
    cases hreplaced
    obtain ⟨rfl, heq⟩ := hq.bindStmt_continueLoop
    cases heq
    have hdepth : (s'.loopDepth != 0) = true := h.loopDepth ▸ Quiet.loopDepth_of_jump hq
    have hcheck : Repeats (checkInLoop "continue" o.range) s' () :=
      (Repeats.get s').seq (.reportUnless hdepth _ _ s')
    exact .past hcheck (.pure h ⟨_, rfl, .other (by simp) (by simp) rfl⟩)
  | .fn .. | .record .. | .sum .. => cases hreplaced
termination_by structural stmt

end

end Bindery.Binding
