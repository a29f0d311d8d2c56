import Bindery.Proofs.Binding.Kinds
import Bindery.Proofs.Binding.Links

/-!
# Bound trees are linked

Every rule of binding gives a node whose numbers are those of symbols of the right kind, with the
names that are written, whether it reports something or not. So does binding any tree, by the same
recursion: `links_bindExpr`, `links_bindPattern` and `links_bindStmts`.
-/

namespace Bindery

namespace Binding

open Ast

variable {Γ : Symbols} {around : List (List String)} {range : Range}

/-! ## Names of references -/

/-- Every name that the nodes refer by is known to the lambdas around. -/
def Foreseen (around : List (List String)) (nodes : List Ast.Node) : Prop :=
  ∀ names ∈ around, ∀ n ∈ references nodes, n ∈ names

namespace Foreseen

variable {node : Ast.Node} {nodes nodes' : List Ast.Node}

theorem mono (h : Foreseen around nodes) (hsub : ∀ n ∈ nodes', n ∈ nodes) :
    Foreseen around nodes' := by
  intro names hnames n hn
  obtain ⟨node, hnode, hname⟩ := List.mem_filterMap.mp hn
  exact h names hnames n (List.mem_filterMap.mpr ⟨node, hsub node hnode, hname⟩)

theorem tail (h : Foreseen around (node :: nodes)) : Foreseen around nodes :=
  h.mono fun _ => List.mem_cons_of_mem _

theorem head {name : String} (h : Foreseen around (node :: nodes))
    (hname : node.referred? = some name) :
    ∀ names ∈ around, name ∈ names :=
  fun names hnames => h names hnames name (List.mem_filterMap.mpr ⟨node, List.mem_cons_self, hname⟩)

theorem left (h : Foreseen around (nodes ++ nodes')) : Foreseen around nodes :=
  h.mono fun _ => List.mem_append_left _

theorem right (h : Foreseen around (nodes ++ nodes')) : Foreseen around nodes' :=
  h.mono fun _ => List.mem_append_right _

/-- The body of a lambda knows its own references. -/
theorem entering (h : Foreseen around nodes) : Foreseen (references nodes :: around) nodes :=
  List.forall_mem_cons.mpr ⟨fun _ hn => hn, h⟩

theorem nil (nodes : List Ast.Node) : Foreseen [] nodes := List.forall_mem_nil _

end Foreseen

/-! ## Names -/

theorem links_lookupFn (name : String) :
    Links Γ around (lookup .fn name) fun o => ∀ id ∈ o, Γ.label? id = some (.fn, name) :=
  .checks _ fun _ hs hle _ hid => hle _ _ (hs.lookup_fn hid)

variable (expected : Option Ty) (id : SymId) (target : Ty) (name n : Ast.Name)

theorem links_nonVarExpr : Links Γ around (nonVarExpr expected name) (name.BindsTo Γ) := by
  refine (links_lookupFn name.text).seq fun found => ?_
  cases found with
  | some id =>
    exact .seq (.check _) fun ty => .pure fun _ hfound => .inr (.inl ⟨id, rfl, hfound id rfl⟩)
  | none =>
    refine .seq .get fun s => ?_
    cases hvariant : s.registry.variant? name.text with
    | none => exact .seq (.report _ _) fun _ => .pure fun _ _ _ => .inr (.inr (.inr rfl))
    | some found =>
      obtain ⟨sum, d⟩ := found
      dsimp only
      cases d.payload with
      | some payload => exact .seq (.report _ _) fun _ => .pure fun _ _ _ => .inr (.inr (.inr rfl))
      | none =>
        refine .pure fun hs _ => .inr (.inr (.inl ⟨d.symbol, rfl, ?_⟩))
        obtain ⟨args, hargs⟩ := exists_bareVariantTy expected sum
        exact ⟨sum.name, args, hargs, hs.2 _ _ (hs.1.variant hvariant)⟩

theorem links_nameExpr (hname : ∀ names ∈ around, name.text ∈ names) :
    Links Γ around (nameExpr expected name) (name.BindsTo Γ) := by
  refine (Links.resolveVar name hname).seq fun found => ?_
  cases found with
  | some id => exact .seq (.check _) fun ty => .pure fun _ hfound => .inl ⟨id, rfl, hfound id rfl⟩
  | none => exact (links_nonVarExpr expected name).mono fun _ hb _ => hb

/-! ## Fields -/

/-- A field that is found is a field of the record that the type of the target is. -/
theorem links_fieldExpr (target : Bound.Expr) (name : Ast.Name) :
    Links Γ around (fieldExpr target name range) fun b =>
      ∃ field, b.kind = .field target field ∧ ∀ id ∈ field, FieldOf Γ target.ty name.text id := by
  have hnone : ∀ id ∈ (none : Option SymId), FieldOf Γ target.ty name.text id := fun _ h => by cases h
  rw [fieldExpr]
  split
  · exact .pure ⟨none, rfl, hnone⟩
  · next record args hty =>
    refine .seq .get fun s => ?_
    cases hfield : fieldOf? s.registry record name.text args with
    | none => exact .seq (.report _ _) fun _ => .pure fun _ _ => ⟨none, rfl, hnone⟩
    | some found =>
      obtain ⟨symbol, ty⟩ := found
      refine .pure fun hs => ⟨some symbol, rfl, fun id hid => ?_⟩
      obtain ⟨d, f, hd, hf, rfl, -⟩ := fieldOf?_eq_some_iff.mp hfield
      obtain rfl := Option.some.inj hid
      exact ⟨record, args, hty, hs.2 _ _ (hs.1.field hd hf)⟩
  · exact .seq (.report _ _) fun _ => .pure fun _ => ⟨none, rfl, hnone⟩

/-! ## Calls -/

/-- What is called is a function or a variant of that name. -/
def CalleeLinked (Γ : Symbols) (name : String) : Callee → Prop
  | .fn id .. | .builtin id .. => Γ.label? id = some (.fn, name)
  | .variant sum _ d _ => Γ.label? d.symbol = some (.variant sum.name, name)
  | .undefined => True

theorem links_fnCallee (f : Sig) (callee : Ast.Name) (tyArgs : List Ast.TyExpr) :
    Links Γ around (fnCallee id f callee tyArgs range) fun c =>
      Γ.label? id = some (.fn, callee.text) → CalleeLinked Γ callee.text c := by
  refine .seq (.check _) fun explicit => ?_
  dsimp only
  split
  · split
    · exact .seq (.check _) fun _ => .pure fun _ _ h => h
    · exact .pure fun _ h => h
  · split
    · exact .pure fun _ h => h
    · refine .seq (.check _) fun ok => ?_
      split
      · exact .pure fun _ _ h => h
      · exact .pure fun _ _ h => h

theorem links_namedCallee (callee : Ast.Name) (tyArgs : List Ast.TyExpr) :
    Links Γ around (namedCallee expected callee tyArgs range) (CalleeLinked Γ callee.text) := by
  refine .seq .get fun s => ?_
  dsimp only
  split
  · next id f hfn =>
    obtain ⟨id', hid, hfn⟩ := Option.bind_eq_some_iff.mp hfn
    obtain ⟨f', -, hfn⟩ := Option.bind_eq_some_iff.mp hfn
    obtain ⟨rfl, rfl⟩ := Prod.mk.inj (Option.some.inj hfn)
    exact (links_fnCallee id' f' callee tyArgs).mono fun c hc hs => hc (hs.2 _ _ (hs.1.lookup_fn hid))
  · split
    · next sum d hvariant => exact .pure fun hs => hs.2 _ _ (hs.1.variant hvariant)
    · exact .seq (.report _ _) fun _ => .pure fun _ _ => trivial

theorem links_resolveCallee (callee : Ast.Expr) (tyArgs : List Ast.TyExpr) :
    Links Γ around (resolveCallee expected callee tyArgs range) fun o =>
      ∀ c ∈ o, ∃ n, callee = .name n ∧ CalleeLinked Γ n.text c := by
  unfold resolveCallee
  split
  · next name =>
    refine .seq (.check _) fun found => ?_
    cases found with
    | some id => exact .pure fun _ _ h => by cases h
    | none =>
      exact .seq (links_namedCallee expected name tyArgs) fun c => .pure fun hc _ c' hc' =>
        ⟨name, rfl, Option.some.inj hc' ▸ hc⟩
  · exact .pure fun _ h => by cases h

theorem links_finishCall (callee : Callee) (args : List Bound.Expr) :
    Links Γ around (finishCall callee args range) fun b => CalleeLinked Γ n.text callee →
      n.CallsTo Γ args b := by
  cases callee with
  | fn id f explicit isExplicit agrees =>
    refine .checks _ fun s _ _ hcallee => ?_
    obtain ⟨tyArgs, hkind⟩ := kind_finishFnCall s id f explicit isExplicit agrees args
    exact .inl ⟨id, tyArgs, hkind, hcallee⟩
  | builtin id name b =>
    refine .checks _ fun s _ _ hcallee => ?_
    obtain ⟨tyArgs, hkind⟩ := kind_finishBuiltinCall s id name b args
    exact .inl ⟨id, tyArgs, hkind, hcallee⟩
  | variant sum name d known =>
    refine .checks _ fun s _ _ hcallee => ?_
    obtain ⟨payload, tys, hkind, hargs, hty⟩ := kind_finishVariantCall s sum name d known args
    exact .inr (.inl ⟨d.symbol, payload, hkind, hargs, sum.name, tys, hty, hcallee⟩)
  | undefined => exact .pure fun _ => .inr (.inr rfl)

/-! ## Returns and statements -/

theorem links_finishReturn (ty : Ty) (candidate : Range) :
    Links Γ around (finishReturn ty candidate range) fun _ => True := by
  have hnote : Links Γ around (noteReturn ty candidate) fun _ => True := by
    refine ⟨fun s => ?_, fun s hs _ => ⟨?_, trivial⟩⟩
    · rw [after_noteReturn]
      exact Symbols.le_refl _
    · rw [after_noteReturn]
      exact hs.congr rfl rfl rfl rfl
  exact hnote.seq fun _ => (Links.reportUnless _ _ _).mono fun _ h _ => h

theorem links_finishLet (isMutable : Bool) (annot : Option Ty) (init : Bound.Expr) :
    Links Γ around (finishLet name isMutable annot init) fun kind =>
      ∃ id, kind = .bindName id init ∧ Γ.label? id = some (.var, name.text) := by
  cases annot with
  | some ty =>
    exact .seq (.reportUnless _ _ _) fun _ => .seq (.declareLocal name rfl ty) fun id =>
      .pure fun hid _ =>
      ⟨id, rfl, hid⟩
  | none => exact .seq (.declareLocal name rfl init.ty) fun id => .pure fun hid => ⟨id, rfl, hid⟩

theorem links_assignTarget (hname : ∀ names ∈ around, name.text ∈ names) :
    Links Γ around (assignTarget name) fun target => ∀ id ∈ target.1, Γ.IsLocal id name.text :=
  (Links.resolveVar name hname).seq fun _ => .seq .get fun _ => .pure fun _ htarget => htarget

theorem links_lambdaExpr (params : List Ast.Param) (tys : List Ty) (declared : Option Ty)
    {names : List String}
    {body : Binding Bound.Expr} {Q : Bound.Expr → Prop} (hbody : Links Γ (names :: around) body Q) :
    Links Γ around (lambdaExpr ((params.map Ast.Param.name).zip tys) declared body range) fun b =>
      ∃ ids ret captures e, b.kind = .lambda ids ret captures e ∧
        (tys.length = params.length → Γ.AreParameters params ids) ∧
        (∀ id ∈ captures, ∃ n ∈ names, Γ.IsLocal id n) ∧ Q e := by
  refine .seq (.inScope .lambda (.withLambda (.seq (.declareParameters params tys) fun ids =>
    .seq (.withFn _ (.withLoopDepth _ hbody)) fun bound =>
      .pure (Q := fun r : List SymId × Bound.Expr × Option FnFrame => Q bound.1 →
        (tys.length = params.length → Γ.AreParameters params ids) →
        (tys.length = params.length → Γ.AreParameters params r.1) ∧ Q r.2.1) fun hb hids =>
          ⟨hids, hb⟩)))
    fun found => ?_
  obtain ⟨⟨ids, e, frame⟩, captures⟩ := found
  cases frame with
  | none => exact .pure fun h => ⟨ids, _, captures, e, rfl, h.1.1, h.2, h.1.2⟩
  | some frame =>
    exact .seq (.check _) fun ret => .pure fun _ h =>
      ⟨ids, ret, captures, e, rfl, h.1.1, h.2, h.1.2⟩

/-! ## Patterns -/

theorem links_namePattern : Links Γ around (namePattern target n) (Pattern.BindsTo Γ (.name n)) := by
  refine .seq .get fun s => ?_
  cases hbare : bareVariant? s.registry target n.text with
  | none => exact .seq (.declareLocal n rfl target) fun id => .pure fun hid _ => .inl ⟨id, rfl, hid⟩
  | some id =>
    refine .pure fun hs => .inr ⟨id, rfl, ?_⟩
    obtain ⟨sum, args, sd, rfl, hsd, hd⟩ := exists_of_bareVariant? hbare
    exact ⟨sum, args, rfl, hs.2 _ _ (hs.1.variantOf hsd hd)⟩

/-- As many types as the pattern has elements. -/
theorem links_tupleTargets (count : Nat) :
    Links Γ around (tupleTargets target count range) fun tys => tys.length = count := by
  unfold tupleTargets
  split
  · split
    · next hlength => exact .pure hlength
    · exact .seq (.report _ _) fun _ => .pure fun _ => List.length_replicate
  · exact .pure List.length_replicate
  · exact .pure List.length_replicate
  · exact .seq (.report _ _) fun _ => .pure fun _ => List.length_replicate

theorem links_resolveVariant :
    Links Γ around (resolveVariant target n range) fun o => ∀ r ∈ o,
      VariantOf Γ target n.text r.1 := by
  refine .seq .get fun s => ?_
  split
  · exact .pure fun _ _ h => by cases h
  · next sum args =>
    refine .seq (.reportUnless _ _ _) fun _ => .pure fun _ hs r hr => ?_
    obtain ⟨sd, hsd, hr⟩ := Option.bind_eq_some_iff.mp hr
    obtain ⟨v, hv, hr⟩ := Option.bind_eq_some_iff.mp hr
    obtain ⟨payload, -, hr⟩ := Option.bind_eq_some_iff.mp hr
    obtain rfl := Option.some.inj hr
    exact ⟨sum, args, rfl, hs.2 _ _ (hs.1.variantOf hsd hv)⟩
  · exact .seq (.report _ _) fun _ => .pure fun _ _ _ h => by cases h

theorem variantOf_variantPattern {target : Ty} {resolved : Option (SymId × Option Ty)} {name : String}
    (h : ∀ r ∈ resolved, VariantOf Γ target name r.1) (payload : Option Bound.Pattern) :
    ∀ id ∈ resolved.map Prod.fst, VariantOf Γ (variantPattern target resolved name payload range).ty
      name id := by
  intro id hid
  obtain ⟨r, hr, rfl⟩ := Option.map_eq_some_iff.mp hid
  rw [variantPattern, hr]
  exact h r hr

mutual

theorem links_bindPattern (target : Ty) (p : Ast.Pattern) :
    Links Γ around (bindPattern target p) (p.BindsTo Γ) := by
  match p with
  | .literal _ value =>
    rw [bindPattern]
    exact .checks _ fun _ _ _ => rfl
  | .wildcard _ => exact .pure rfl
  | .name n => exact links_namePattern target n
  | .tuple _ elems =>
    exact .seq (links_tupleTargets target elems.length) fun tys => .seq (links_bindPatterns tys elems)
      fun ps => .pure fun hps hlength => ⟨ps, rfl, hps hlength⟩
  | .variant _ n none =>
    exact .seq (links_resolveVariant target n) fun resolved => .seq (.check _) fun _ =>
      .pure fun _ hresolved =>
      ⟨_, rfl, variantOf_variantPattern hresolved none⟩
  | .variant _ n (some payload) =>
    exact .seq (links_resolveVariant target n) fun resolved => .seq (.check _) fun ty =>
      .seq (links_bindPattern ty payload) fun p => .pure fun hp _ hresolved =>
        ⟨_, p, rfl, variantOf_variantPattern hresolved (some p), hp⟩

theorem links_bindPatterns (tys : List Ty) (ps : List Ast.Pattern) :
    Links Γ around (bindPatterns tys ps) fun bs => tys.length = ps.length →
      Pattern.AllBindTo Γ ps bs := by
  match tys, ps with
  | [], [] =>
    rw [bindPatterns]
    · exact .pure fun _ => rfl
    · simp
  | _ :: _, [] | [], _ :: _ =>
    rw [bindPatterns]
    · exact .pure fun h => by cases h
    · simp
  | ty :: tys, p :: ps =>
    exact .seq (links_bindPattern ty p) fun b => .seq (links_bindPatterns tys ps) fun bs =>
      .pure fun hbs hb hlength => ⟨b, bs, rfl, hb, hbs (Nat.succ.inj hlength)⟩

end

/-! ## Trees -/

mutual

/-- A bound expression is linked to the table that the bind ends with. -/
theorem links_bindExpr {around : List (List String)} (expected : Option Ty) (e : Ast.Expr)
    (h : Foreseen around (e.nodes true)) :
    Links Γ around (bindExpr expected e) (e.BindsTo Γ) := by
  match e with
  | .literal _ value => exact .pure rfl
  | .name name => exact links_nameExpr expected name (h.head rfl)
  | .binary _ op left right =>
    exact .seq (links_bindExpr none left h.tail.left) fun l =>
      .seq (links_bindExpr none right h.tail.right) fun r =>
      .checks _ fun s _ _ hr hl => ⟨l, r, kind_binaryExpr s op l r, hl, hr⟩
  | .unary _ op operand =>
    exact .seq (links_bindExpr none operand h.tail) fun e => .checks _ fun s _ _ he =>
      ⟨e, kind_unaryExpr s op e, he⟩
  | .call _ callee tyArgs args =>
    refine .seq (links_resolveCallee expected callee tyArgs) fun found => ?_
    cases found with
    | some target =>
      refine .seq (links_bindExprs target.hints args h.tail.right) fun bs => ?_
      by_cases hcallee : ∃ n, callee = .name n
      · obtain ⟨n, rfl⟩ := hcallee
        refine (links_finishCall n target bs).mono fun b hb hbs hfound => ?_
        obtain ⟨n', hn, htarget⟩ := hfound target rfl
        obtain rfl := Ast.Expr.name.inj hn
        exact ⟨bs, hbs, .inr ⟨n, rfl, hb htarget⟩⟩
      · refine (Links.check _).mono fun b _ _ hfound => ?_
        obtain ⟨n, hn, -⟩ := hfound target rfl
        exact absurd ⟨n, hn⟩ hcallee
    | none =>
      exact .seq (links_bindExpr none callee h.tail.left) fun value => .seq (.check _) fun _ =>
        .seq (links_bindExprs (valueHints value.ty) args h.tail.right) fun bs =>
          .seq (.check _) fun ty =>
          .pure fun _ hbs _ hvalue _ => ⟨bs, hbs, .inl ⟨value, rfl, hvalue⟩⟩
  | .lambda _ params ret body =>
    refine .seq (.checks _ (Q := fun tys => tys.length = params.length) fun s _ _ => ?_) fun tys =>
      .seq (.check _) fun declared =>
        (links_lambdaExpr params tys declared (links_bindExpr declared body h.tail.entering)).mono
          fun b hb _ htys => ?_
    · exact (length_resolveTypes _ s).trans (List.length_map _)
    · obtain ⟨ids, ret, captures, e, hkind, hids, hcaptures, he⟩ := hb
      exact ⟨ids, ret, captures, e, hkind, hids htys, hcaptures, he⟩
  | .record _ type tyArgs fields =>
    refine .seq .get fun s => ?_
    cases hrecord : s.registry.record? type.text with
    | none =>
      exact .seq (.check _) fun _ => .seq (links_bindUnused fields h.tail) fun _ => .pure
        fun _ _ _ => .inl rfl
    | some record =>
      refine .seq (.check _) fun known => .seq (links_bindFields record [] known fields h.tail)
        fun r =>
        .seq (.check _) fun _ => .pure fun _ hr _ hs =>
          .inr ⟨r.1, r.2.instantiate record.tyParams, rfl, ?_, ?_⟩
      · rw [hs.1.recorded.record_name hrecord]
      · exact hr _ fun name d hd => hs.2 _ _ (hs.1.field hrecord hd)
  | .field _ target name =>
    refine .seq (links_bindExpr none target h.tail) fun e => (links_fieldExpr e name).mono
      fun b hb he => ?_
    obtain ⟨field, hkind, hfield⟩ := hb
    exact ⟨e, field, hkind, he, hfield⟩
  | .tuple _ elems =>
    exact .seq (links_bindExprs _ elems h.tail) fun bs => .pure fun hbs => ⟨bs, rfl, hbs⟩
  | .list _ elems =>
    rw [bindExpr_list]
    exact .seq (links_bindExprs _ elems h.tail) fun bs =>
      .checks _ fun s _ _ hbs => ⟨bs, kind_listExpr s _ bs, hbs⟩
  | .map _ entries =>
    exact .seq (links_bindEntries _ entries h.tail) fun bs =>
      .checks _ fun s _ _ hbs => ⟨bs, kind_mapExpr s _ bs, hbs⟩
  | .index _ target index =>
    exact .seq (links_bindExpr none target h.tail.left) fun e =>
      .seq (links_bindExpr none index h.tail.right) fun i =>
      .checks _ fun s _ _ hi he => ⟨e, i, kind_indexExpr s e i, he, hi⟩
  | .ifElse _ cond thenBranch none =>
    exact .seq (links_bindExpr none cond h.tail.left) fun c => .seq (.check _) fun _ =>
      .seq (links_bindBlock thenBranch h.tail.right) fun t =>
        .checks _ fun s _ _ ht _ hc => ⟨c, t, kind_ifExpr s c t none, hc, ht⟩
  | .ifElse _ cond thenBranch (some elseBranch) =>
    exact .seq (links_bindExpr none cond h.tail.left.left) fun c => .seq (.check _) fun _ =>
      .seq (links_bindBlock thenBranch h.tail.left.right) fun t =>
        .seq (links_bindExpr expected elseBranch h.tail.right) fun e =>
          .checks _ fun s _ _ he ht _ hc => ⟨c, t, e, kind_ifExpr s c t (some e), hc, ht, he⟩
  | .block block => exact .seq (links_bindBlock block h.tail) fun b => .pure fun hb => ⟨b, rfl, hb⟩
  | .matchOn _ scrutinee arms =>
    exact .seq (links_bindExpr none scrutinee h.tail.left) fun e =>
      .seq (links_bindArms e.ty expected .initial arms h.tail.right) fun r =>
        .checks _ fun _ _ _ hr he => ⟨e, r.1, rfl, he, hr⟩
  | .spawn _ body =>
    exact .seq (.check _) fun _ => .seq (links_bindBlock body h.tail) fun b => .pure fun hb _ =>
      ⟨b, rfl, hb⟩
  | .scope _ body =>
    rw [bindExpr_scope_eq]
    exact .seq (.withScopeDepth _ (links_bindBlock body h.tail)) fun b => .pure fun hb => ⟨b, rfl, hb⟩
  | .channel _ element => exact .seq (.check _) fun ty => .pure fun _ => ⟨ty, rfl⟩
  | .par _ inner =>
    exact .seq (links_bindExpr expected inner h.tail) fun e => .pure fun he => ⟨e, rfl, he⟩

theorem links_bindExprs {around : List (List String)} (hints : List (Option Ty)) (es : List Ast.Expr)
    (h : Foreseen around (Expr.allNodes true es)) :
    Links Γ around (bindExprs hints es) (Expr.AllBindTo Γ es) := by
  match es with
  | [] => exact .pure rfl
  | e :: es =>
    exact .seq (links_bindExpr _ e h.left) fun b => .seq (links_bindExprs hints.tail es h.right)
      fun bs =>
      .pure fun hbs hb => ⟨b, bs, rfl, hb, hbs⟩

theorem links_bindEntries {around : List (List String)} (hint : Option Ty)
    (entries : List Ast.MapEntry)
    (h : Foreseen around (MapEntry.allNodes true entries)) :
    Links Γ around (bindEntries hint entries) (MapEntry.AllBindTo Γ entries) := by
  match entries with
  | [] => exact .pure rfl
  | ⟨_, key, value⟩ :: entries =>
    exact .seq (links_bindExpr _ key h.left.left) fun k => .seq (.check _) fun _ =>
      .seq (links_bindExpr hint value h.left.right) fun v =>
        .seq (links_bindEntries hint entries h.right) fun bs =>
        .pure fun hbs hv _ hk => ⟨k, v, bs, rfl, hk, hv, hbs⟩

theorem links_bindUnused {around : List (List String)} (fields : List Ast.FieldInit)
    (h : Foreseen around (FieldInit.allNodes true fields)) :
    Links Γ around (bindUnused fields) fun _ => True := by
  match fields with
  | [] => exact .pure trivial
  | ⟨_, _, value⟩ :: fields =>
    exact .seq (links_bindExpr none value h.left) fun _ => (links_bindUnused fields h.right).mono
      fun _ h _ => h

theorem links_bindFields {around : List (List String)} (record : RecordDef) (seen : List String)
    (known : Subst) (fields : List Ast.FieldInit)
    (h : Foreseen around (FieldInit.allNodes true fields)) :
    Links Γ around (bindFields record seen known fields) fun r =>
      ∀ owner, (∀ name d, record.fields.get? name = some d → Γ.label? d.symbol =
      some (.field owner, name)) →
        FieldInit.AllBindTo Γ owner fields r.1 := by
  match fields with
  | [] => exact .pure fun _ _ => rfl
  | ⟨_, name, value⟩ :: fields =>
    rw [bindFields]
    split
    · exact .seq (.report _ _) fun _ => .seq (links_bindExpr none value h.left) fun _ =>
        (links_bindFields record seen known fields h.right).mono fun r hr _ _ owner hfields =>
          .inl (hr owner hfields)
    · cases hd : record.fields.get? name.text with
      | none =>
        exact .seq (.report _ _) fun _ => .seq (links_bindExpr none value h.left) fun _ =>
          (links_bindFields record _ known fields h.right).mono fun r hr _ _ owner hfields =>
            .inl (hr owner hfields)
      | some d =>
        exact .seq (links_bindExpr _ value h.left) fun b => .seq (.check _) fun known =>
          .seq (links_bindFields record _ known fields h.right) fun r =>
            .pure fun hr _ hb owner hfields =>
              .inr ⟨d.symbol, b, r.1, rfl, hfields _ d hd, hb, hr owner hfields⟩

theorem links_bindArms {around : List (List String)} (target : Ty) (expected : Option Ty)
    (agreed : ArmTypes)
    (arms : List Ast.Arm)
    (h : Foreseen around (Arm.allNodes true arms)) :
    Links Γ around (bindArms target expected agreed arms) fun r => Arm.AllBindTo Γ arms r.1 := by
  match arms with
  | [] => exact .pure rfl
  | ⟨_, pattern, body⟩ :: arms =>
    refine .seq (.inScope .matchArm (.seq (links_bindPattern target pattern) fun p =>
      .seq (links_bindExpr _ body h.left) fun e =>
        .pure (Q := fun arm : Bound.Arm => body.BindsTo Γ e → pattern.BindsTo Γ p →
          pattern.BindsTo Γ arm.pattern ∧ body.BindsTo Γ arm.body) fun he hp => ⟨hp, he⟩)) fun arm =>
      .seq (.check _) fun agreed => .seq (links_bindArms target expected agreed arms h.right) fun r =>
        .pure fun hr _ harm => ⟨arm, r.1, rfl, harm.1, harm.2, hr⟩

theorem links_bindBlock {around : List (List String)} (block : Ast.Block)
    (h : Foreseen around (block.nodes true)) :
    Links Γ around (bindBlock block) (block.BindsTo Γ) := by
  match block with
  | ⟨_, stmts⟩ => exact .seq (.inScope .block (links_bindStmts stmts h)) fun bs => .pure fun hbs => hbs

/-- Bound statements are linked to the table that the bind ends with. -/
theorem links_bindStmts {around : List (List String)} (stmts : List Ast.Stmt)
    (h : Foreseen around (Stmt.allNodes true stmts)) :
    Links Γ around (bindStmts stmts) (Stmt.AllBindTo Γ stmts) := by
  match stmts with
  | [] => exact .pure rfl
  | stmt :: stmts =>
    refine .seq (links_bindStmt stmt h.left) fun bound => .seq (links_bindStmts stmts h.right)
      fun bs =>
      .pure fun hbs hbound => ?_
    rcases hbound with ⟨rfl, hdeclaration⟩ | ⟨b, rfl, hb⟩
    · exact .inl ⟨hdeclaration, hbs⟩
    · exact .inr ⟨b, bs, rfl, hb, hbs⟩

theorem links_bindStmt {around : List (List String)} (stmt : Ast.Stmt)
    (h : Foreseen around (stmt.nodes true)) :
    Links Γ around (bindStmt stmt) fun o =>
      (o = none ∧ stmt.isDeclaration = true) ∨ ∃ b, o = some b ∧ stmt.BindsTo Γ b := by
  match stmt with
  | .bindName _ name isMutable annot init =>
    refine .seq (.check _) fun annot => .seq (links_bindExpr annot init h.tail) fun e =>
      .seq (links_finishLet name isMutable annot e) fun kind => .pure fun hkind he _ => ?_
    obtain ⟨id, rfl, hid⟩ := hkind
    exact .inr ⟨_, rfl, id, e, rfl, hid, he⟩
  | .assign _ name value =>
    exact .seq (links_assignTarget name (h.head rfl)) fun target =>
      .seq (links_bindExpr _ value h.tail) fun e =>
      .seq (.check _) fun _ => .pure fun _ he htarget => .inr ⟨_, rfl, target.1, e, rfl, htarget, he⟩
  | .expr _ value | .print _ value =>
    exact .seq (links_bindExpr none value h.tail) fun e => .pure fun he => .inr ⟨_, rfl, e, rfl, he⟩
  | .ret _ none => exact .seq (links_finishReturn _ _) fun _ => .pure fun _ => .inr ⟨_, rfl, rfl⟩
  | .ret _ (some value) =>
    exact .seq (.check _) fun declared => .seq (links_bindExpr declared value h.tail) fun e =>
      .seq (links_finishReturn _ _) fun _ => .pure fun _ he _ => .inr ⟨_, rfl, e, rfl, he⟩
  | .block block =>
    exact .seq (links_bindBlock block h.tail) fun b => .pure fun hb => .inr ⟨_, rfl, b, rfl, hb⟩
  | .whileLoop _ cond body =>
    rw [bindStmt_whileLoop_eq]
    exact .seq (links_bindExpr none cond h.tail.left) fun c => .seq (.check _) fun _ =>
      .seq (.withLoopDepth _ (links_bindBlock body h.tail.right)) fun b => .pure fun hb _ hc =>
        .inr ⟨_, rfl, c, b, rfl, hc, hb⟩
  | .forLoop _ item iterable body =>
    rw [bindStmt_forLoop_eq]
    refine .seq (links_bindExpr none iterable h.tail.left) fun e => .seq (.check _) fun ty =>
      .seq (.inScope .block (.seq (.declareLocal item rfl ty) fun id =>
        .seq (.withLoopDepth _ (links_bindBlock body h.tail.right)) fun b =>
          .pure (Q := fun r : SymId × Bound.Block => body.BindsTo Γ b →
          Γ.label? id = some (.var, item.text) →
            Γ.label? r.1 = some (.var, item.text) ∧ body.BindsTo Γ r.2) fun hb hid => ⟨hid, hb⟩))
              fun r =>
        .pure fun hr _ he => .inr ⟨_, rfl, r.1, e, r.2, rfl, hr.1, he, hr.2⟩
  | .breakLoop _ | .continueLoop _ => exact .seq (.check _) fun _ => .pure fun _ => .inr ⟨_, rfl, rfl⟩
  | .fn .. | .record .. | .sum .. => exact .seq (.report _ _) fun _ => .pure fun _ => .inl ⟨rfl, rfl⟩

end

end Binding

end Bindery
