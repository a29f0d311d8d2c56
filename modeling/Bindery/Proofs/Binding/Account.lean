import Bindery.Proofs.Binding.Marks
import Bindery.Proofs.Binding.Traversal

/-!
# Accounting for symbols, references and returns

`Accounts Γ s nodes t` compares the states before and after a quiet step with the nodes that the
step has made. The new symbols are those that the nodes declare, each lambda around the step has
captured what the nodes refer to from outside it, and the innermost function has noted what the
nodes return. A sequence of steps accounts for the nodes of all of them, so `Accounts` is a
traversal by one lemma for each kind of effect: declaring, referring, returning, and leaving a
lambda.
-/

namespace Bindery.Binding

open Bindery.Bound

/-- What lies between the states before and after a quiet step that makes the given nodes: they
declare exactly the new symbols, every lambda around them captures what they refer to from outside
it, and the innermost function notes what they return; outside all functions they return nothing. -/
structure Accounts (Γ : Symbols) (s : State) (nodes : Bool → List Node) (t : State) : Prop where
  grows : ∃ own, Grows own s t
  declared : ∀ id : Nat, id ∈ declaredBy (nodes true) ↔ s.syms.size ≤ id ∧ id < t.syms.size
  referred : ∀ id : Nat, id ∈ referredBy (nodes true) → id < t.syms.size
  captured : ∀ (i : Nat) b cs m, s.captures.frames[i]? = some ⟨b, cs⟩ → s.Marked b m →
    t.captures.frames[i]? = some ⟨b, capturedBy m cs (referredBy (nodes true))⟩ ∧
      ∀ id : Nat, id ∈ referredBy (nodes true) → id < m → Capturable Γ id
  returned : t.fns = s.fns.modifyHead (·.noting (returnedBy (nodes false)))
  outside : s.fns = [] → returnedBy (nodes false) = []
  lawful : ∀ n ∈ nodes true, Lawful Γ s.registry n

variable {range : Range}

namespace Accounts

variable {Γ : Symbols} {s t u : State} {nodes nodes' : Bool → List Node} {own : List String}

theorem valid (h : Accounts Γ s nodes t) (hs : s.Valid) : t.Valid := by
  obtain ⟨own, hgrows⟩ := h.grows
  exact hgrows.valid hs

variable {n : Node} {symbol : SymId} {name : Ast.Name}

theorem node (hplain : n.IsPlain) (hlawful : Lawful Γ s.registry n) :
    Accounts Γ s (fun _ => [n]) s := by
  obtain ⟨hdeclared, hreferred, hreturned⟩ := hplain
  refine ⟨⟨[], .refl _ _⟩, ?_, ?_, ?_, ?_, ?_, by simpa using hlawful⟩
  · simp [hdeclared]
  · simp [hreferred]
  · intro i b cs m hframe hm
    simp [hreferred, hframe, capturedBy]
  · simp [hreturned, modifyHead_noting_nil]
  · simp [hreturned]

theorem nil (Γ : Symbols) (s : State) : Accounts Γ s (fun _ => []) s where
  grows := ⟨[], .refl _ _⟩
  declared id := by simp
  referred id hid := by simp at hid
  captured i b cs m hframe hm := by simp [hframe, capturedBy]
  returned := by simp [modifyHead_noting_nil]
  outside _ := rfl
  lawful := by simp

theorem trans (hs : s.Valid) (h : Accounts Γ s nodes t) (h' : Accounts Γ t nodes' u) :
    Accounts Γ s (fun deep => nodes deep ++ nodes' deep) u := by
  obtain ⟨own, hgrows⟩ := h.grows
  obtain ⟨own', hgrows'⟩ := h'.grows
  have hsize := Symbols.size_le hgrows.syms
  have hsize' := Symbols.size_le hgrows'.syms
  refine ⟨⟨own ++ own', (hgrows.mono fun n hn => List.mem_append_left _ hn).trans
    (hgrows'.mono fun n hn => List.mem_append_right _ hn)⟩, ?_, ?_, ?_, ?_, ?_, ?_⟩
  · intro (id : Nat)
    have hdeclared := h.declared id
    have hdeclared' := h'.declared id
    rw [declaredBy_append, List.mem_append, hdeclared, hdeclared']
    omega
  · intro id hid
    rw [referredBy_append, List.mem_append] at hid
    rcases hid with hid | hid
    · exact Nat.lt_of_lt_of_le (h.referred id hid) hsize'
    · exact h'.referred id hid
  · intro i b cs m hframe hm
    obtain ⟨hfirst, hfree⟩ := h.captured i b cs m hframe hm
    obtain ⟨hsecond, hfree'⟩ := h'.captured i b _ m hfirst (hm.grows hs hgrows)
    rw [referredBy_append, capturedBy_append]
    refine ⟨hsecond, fun id hid => ?_⟩
    rcases List.mem_append.mp hid with hid | hid
    · exact hfree id hid
    · exact hfree' id hid
  · rw [h'.returned, h.returned]
    cases s.fns with
    | nil => rfl
    | cons f fs => simp [FnFrame.noting]
  · intro houtside
    have houtside' : t.fns = [] := by rw [h.returned, houtside]; rfl
    rw [returnedBy_append, h.outside houtside, h'.outside houtside', List.append_nil]
  · intro n hn
    rcases List.mem_append.mp hn with hn | hn
    · exact h.lawful n hn
    · exact hgrows.registry ▸ h'.lawful n hn

/-- The same between states that differ only in where they stand. -/
theorem congr {s' t' : State} (h : Accounts Γ s nodes t) (hgrows : Grows own s' t')
    (hmarked : ∀ b m, s'.Marked b m → s.Marked b m) (hsyms : s'.syms = s.syms)
    (hcaptures : s'.captures = s.captures) (hfns : s'.fns = s.fns)
    (hregistry : s'.registry = s.registry) (hsyms' : t'.syms = t.syms)
    (hcaptures' : t'.captures = t.captures) (hfns' : t'.fns = t.fns) :
    Accounts Γ s' nodes t' where
  grows := ⟨own, hgrows⟩
  declared := by rw [hsyms, hsyms']; exact h.declared
  referred := by rw [hsyms']; exact h.referred
  captured i b cs m hframe hm := by
    rw [hcaptures']
    exact h.captured i b cs m (hcaptures ▸ hframe) (hmarked b m hm)
  returned := by rw [hfns', hfns]; exact h.returned
  outside := by rw [hfns]; exact h.outside
  lawful := by rw [hregistry]; exact h.lawful

theorem inScope (hs : s.Valid) {kind : ScopeKind} (h : Accounts Γ (s.opened kind) nodes t) :
    Accounts Γ s nodes (t.at s.current) := by
  obtain ⟨own, hgrows⟩ := h.grows
  exact h.congr hgrows.inScope (fun _ _ hm => hm.opened hs kind) rfl rfl rfl rfl rfl rfl rfl

theorem withLoopDepth {depth : Nat} (h : Accounts Γ (s.inLoops depth) nodes t) :
    Accounts Γ s nodes (t.inLoops s.loopDepth) := by
  obtain ⟨own, hgrows⟩ := h.grows
  exact h.congr hgrows.withLoopDepth (fun _ _ hm => ⟨hm.mem, hm.le, hm.split⟩) rfl rfl rfl rfl rfl
    rfl rfl

theorem withScopeDepth {depth : Nat} (h : Accounts Γ (s.inScopeBlocks depth) nodes t) :
    Accounts Γ s nodes (t.inScopeBlocks s.scopeDepth) := by
  obtain ⟨own, hgrows⟩ := h.grows
  exact h.congr hgrows.withScopeDepth (fun _ _ hm => ⟨hm.mem, hm.le, hm.split⟩) rfl rfl rfl rfl rfl
    rfl rfl

/-- A node that declares a variable. -/
theorem declaring {kind : SymKind} {ty : Ty} (hlocal : kind.isLocal = true)
    (h : Quiet Γ (declareLocal name kind ty) s symbol t) (hdeclared : n.declared = [symbol])
    (hreferred : n.referred = []) (hreturned : n.returned = []) (hlawful : Lawful Γ s.registry n) :
    Accounts Γ s (fun _ => [n]) t := by
  have hgrows := h.grows (keeps_declareLocal name ty hlocal)
  obtain ⟨rfl, rfl⟩ := h.declareLocal
  refine ⟨⟨_, hgrows⟩, fun (id : Nat) => ?_, ?_, ?_, ?_, ?_, by simpa using hlawful⟩
  · have hsize : (s.addingLocal name.text kind ty).syms.size = s.syms.size + 1 := Symbols.size_add ..
    simp only [declaredBy_cons, hdeclared, declaredBy_nil, List.append_nil, List.mem_singleton, hsize]
    omega
  · intro id hid
    simp [hreferred] at hid
  · intro i b cs m hframe hm
    simp only [referredBy_cons, hreferred, referredBy_nil, List.append_nil]
    exact ⟨hframe, fun id hid => nomatch hid⟩
  · simp only [returnedBy_cons, hreturned, returnedBy_nil, List.append_nil, modifyHead_noting_nil]
    rfl
  · simp [hreturned]

/-- A node that refers to a variable. -/
theorem referring (hs : s.Valid) (h : Quiet Γ (resolveVar name) s (some symbol) t)
    (hdeclared : n.declared = [])
    (hreferred : n.referred = [symbol]) (hreturned : n.returned = [])
    (hlawful : Lawful Γ s.registry n) :
    Accounts Γ s (fun _ => [n]) t := by
  have hgrows : Grows [] s t := h.grows inferInstance
  obtain ⟨hlookup, ⟨hnone, -⟩ | ⟨id, sym, c, hsome, hc, hsym, hlocal, hscope, hobserve, rfl⟩⟩ :=
    h.resolveVar hs
  · cases hnone
  cases hsome
  obtain ⟨c', sc, hc', hsc, hid⟩ := Scopes.exists_of_lookup hlookup
  obtain ⟨sym', hsym', -, hscope'⟩ := hs.var_known c' sc name.text _ hsc hid
  obtain rfl : sym = sym' := Option.some.inj (hsym.symm.trans hsym')
  obtain rfl : c = c' := Option.some.inj (hscope.symm.trans hscope')
  refine ⟨⟨_, hgrows⟩, fun (id : Nat) => ?_, ?_, ?_, ?_, ?_, by simpa using hlawful⟩
  · simp [hdeclared, State.capturing]
  · intro id hid
    simp only [referredBy_cons, hreferred, referredBy_nil, List.append_nil, List.mem_singleton] at hid
    subst hid
    exact Symbols.get?_eq_some_lt hsym
  · intro i b cs m hframe hm
    have hfree := hm.isFree_iff hs hc hsc hid
    simp only [referredBy_cons, hreferred, referredBy_nil, List.append_nil,
      capturedBy, List.foldl_cons, List.foldl_nil, List.mem_singleton, State.capturing]
    rw [Captures.frames_observe hobserve, List.getElem?_map, hframe, Option.map_some]
    refine ⟨?_, ?_⟩
    · rw [if_congr hfree rfl rfl]
      by_cases hlt : symbol < m
      · by_cases hcs : symbol ∈ cs <;> simp [hlt, hcs, LambdaFrame.capture]
      · simp [hlt]
    · rintro id rfl hlt
      have himmutable := Captures.isMutable_of_isFree hobserve (List.mem_of_getElem? hframe)
        (hfree.mpr hlt)
      exact ⟨sym, h.syms_le _ _ hsym, capturable_of_isLocal hlocal himmutable⟩
  · simp [hreturned, modifyHead_noting_nil, State.capturing]
  · simp [hreturned]

/-- A node that returns a value. -/
theorem returning {ty : Ty} {candidate : Range} {u : Unit}
    (h : Quiet Γ (finishReturn ty candidate range) s u t)
    (hdeclared : n.declared = []) (hreferred : n.referred = [])
    (hreturned : n.returned = [(ty, candidate)])
    (hlawful : Lawful Γ s.registry n) : Accounts Γ s (fun _ => [n]) t := by
  have hgrows : Grows [] s t := h.grows inferInstance
  obtain ⟨hinside, rfl⟩ := h.finishReturn
  refine ⟨⟨_, hgrows⟩, ?_, ?_, ?_, ?_, fun houtside => absurd houtside hinside, by simpa using hlawful⟩
  · simp [hdeclared, State.inFns]
  · simp [hreferred]
  · intro i b cs m hframe hm
    simpa [hreferred, capturedBy, State.inFns] using hframe
  · simp [hreturned, State.inFns]

/-- A lambda, whose parameters were declared in `u` and whose body ended in `v`. -/
theorem lambda {params : List (Ast.Name × Ty)} {syms : List SymId} {frame : FnFrame} {ret ty : Ty}
    {body : Expr} {v : State} (hs : s.Valid) (hgrows : Grows [] s (s.leavingLambda u v))
    (hparams : Quiet Γ (Binding.declareLocals .parameter params) s.enteringLambda syms u)
    (hbody : Accounts Γ (u.enteringBody frame) body.nodes v) :
    Accounts Γ s (Expr.nodes · ⟨.lambda syms ret v.captures.exit.1 body, ty, range⟩)
      (s.leavingLambda u v) := by
  have henter : s.enteringLambda.Valid := (hs.opened .lambda).entering
  have hu := hparams.grows (keeps_declareLocals rfl params)
  obtain ⟨hsyms, hcaptures, hfns⟩ := hparams.declareLocals
  have hsize := Symbols.size_le hu.syms
  obtain ⟨_, hv⟩ := hbody.grows
  have hsize' := Symbols.size_le hv.syms
  have hframes : (u.enteringBody frame).captures.frames = ⟨s.scopes.size, []⟩ :: s.captures.frames :=
    congrArg Captures.frames hcaptures
  have hmarked : ∀ b m, s.enteringLambda.Marked b m → (u.enteringBody frame).Marked b m := by
    intro b m hm
    have hm' := hm.grows henter hu
    exact ⟨hm'.mem, hm'.le, hm'.split⟩
  have hnodes : ∀ deep, Expr.nodes deep ⟨.lambda syms ret v.captures.exit.1 body, ty, range⟩ =
      .expr ⟨.lambda syms ret v.captures.exit.1 body, ty, range⟩ ::
        if deep then body.nodes deep else [] := by
    intro deep
    rw [Expr.nodes, ExprKind.nodes]
  have hdeclared : ∀ id : Nat, id ∈ syms ++ declaredBy (body.nodes true) ↔
      s.syms.size ≤ id ∧ id < v.syms.size := by
    intro id
    have hid := hsyms id
    have hid' := hbody.declared id
    rw [List.mem_append, hid, hid']
    simp only [State.enteringLambda, State.enteringBody, State.capturing, State.opened, State.inFns,
      State.inLoops] at hsize hsize' ⊢
    omega
  refine ⟨⟨_, hgrows⟩, ?_, ?_, ?_, ?_, fun _ => ?_, ?_⟩
  · simp only [hnodes, declaredBy_cons]
    exact hdeclared
  · simp only [hnodes, referredBy_cons]
    exact hbody.referred
  · intro i b cs m hframe hm
    obtain ⟨hcaptured, hfree⟩ := hbody.captured (i + 1) b cs m (by rw [hframes]; exact hframe)
      (hmarked b m (hm.entering hs))
    exact ⟨(Captures.getElem?_exit v.captures i).trans hcaptured, hfree⟩
  · have hreturned := congrArg List.tail hbody.returned
    refine Eq.trans ?_ (modifyHead_noting_nil _).symm
    exact hreturned.trans hfns
  · simp only [hnodes, returnedBy_cons]
    rfl
  · obtain ⟨hcaptured, hfree⟩ := hbody.captured 0 s.scopes.size [] s.syms.size
      (by rw [hframes]; rfl) (hmarked _ _ (.entered hs))
    have hcaptures : v.captures.exit.1 = capturedBy s.syms.size [] (referredBy (body.nodes true)) :=
      Captures.exit_eq hcaptured
    simp only [hnodes, if_true, List.mem_cons]
    rintro n (rfl | hn)
    · refine ⟨?_, fun id hid => ?_⟩
      · rw [hcaptures, capturedBy_nil]
        congr 1
        refine List.filter_congr fun id hid => ?_
        have hlt := hbody.referred id hid
        rw [Bool.eq_iff_iff, decide_eq_true_iff, Bool.not_eq_true', List.contains_eq_mem,
          decide_eq_false_iff_not, hdeclared]
        omega
      · rw [hcaptures, capturedBy_nil, List.mem_eraseDups, List.mem_filter] at hid
        exact hfree id hid.1 (by simpa using hid.2)
    · have hlawful := hbody.lawful n hn
      have hregistry : (u.enteringBody frame).registry = s.registry := hu.registry
      rwa [hregistry] at hlawful

/-- A node that only has parts. -/
theorem under (hs : s.Valid) (h : Accounts Γ s nodes t) (hplain : n.IsPlain)
    (hlawful : Lawful Γ s.registry n) :
    Accounts Γ s (fun deep => n :: nodes deep) t :=
  (node hplain hlawful).trans hs h

end Accounts

variable {Γ : Symbols}

mutual

theorem accounts_bindPattern {target : Ty} (p : Ast.Pattern) {b : Pattern} {s t : State}
    (hs : s.Valid) (h : Quiet Γ (bindPattern target p) s b t) : Accounts Γ s (fun _ => b.nodes) t := by
  match p with
  | .literal origin value =>
    obtain ⟨rfl, rfl, -⟩ := h.literalPattern
    exact .node ⟨rfl, rfl, rfl⟩ trivial
  | .wildcard origin =>
    obtain ⟨rfl, rfl⟩ := h.pure
    exact .node ⟨rfl, rfl, rfl⟩ trivial
  | .name name =>
    rcases h.namePattern with ⟨symbol, -, rfl, rfl⟩ | ⟨-, symbol, hdeclare, rfl⟩
    · exact .node ⟨rfl, rfl, rfl⟩ trivial
    · exact .declaring rfl hdeclare rfl rfl rfl trivial
  | .tuple origin elems =>
    obtain ⟨tys, _, htargets, hrest⟩ := h.bind
    obtain ⟨rfl, -, -⟩ := htargets.tupleTargets
    obtain ⟨bs, helems, rfl⟩ := hrest.bind_pure
    exact (accounts_bindPatterns elems hs helems).under hs ⟨rfl, rfl, rfl⟩ trivial
  | .variant origin name none =>
    obtain ⟨resolved, _, hresolve, hrest⟩ := h.bind
    obtain ⟨_, hcheck, rfl⟩ := hrest.bind_pure
    obtain ⟨rfl, -⟩ := hresolve.resolveVariant
    obtain ⟨rfl, -⟩ := hcheck.checkNoPayload
    exact .node ⟨rfl, rfl, rfl⟩ trivial
  | .variant origin name (some payload) =>
    obtain ⟨resolved, _, hresolve, hrest⟩ := h.bind
    obtain ⟨ty, _, htarget, hrest⟩ := hrest.bind
    obtain ⟨b', hpayload, rfl⟩ := hrest.bind_pure
    obtain ⟨rfl, -⟩ := hresolve.resolveVariant
    obtain ⟨rfl, -⟩ := htarget.payloadTarget
    exact (accounts_bindPattern payload hs hpayload).under hs ⟨rfl, rfl, rfl⟩ trivial

theorem accounts_bindPatterns {tys : List Ty} (ps : List Ast.Pattern) {bs : List Pattern}
    {s t : State} (hs : s.Valid) (h : Quiet Γ (bindPatterns tys ps) s bs t) :
    Accounts Γ s (fun _ => Pattern.allNodes bs) t := by
  match tys, ps with
  | ty :: tys, p :: ps =>
    obtain ⟨b, u, hfirst, hrest⟩ := h.bind
    obtain ⟨bs', htail, rfl⟩ := hrest.bind_pure
    have hp := accounts_bindPattern p hs hfirst
    exact hp.trans hs (accounts_bindPatterns ps (hp.valid hs) htail)
  | [], ps =>
    rw [bindPatterns] at h
    · obtain ⟨rfl, rfl⟩ := h.pure
      exact .nil _ _
    · simp
  | _ :: _, [] =>
    rw [bindPatterns] at h
    · obtain ⟨rfl, rfl⟩ := h.pure
      exact .nil _ _
    · simp

end

/-- What a tree declares, refers to and returns when it is bound quietly. -/
theorem Accounts.traversal : Traversal Γ fun _ s nodes t => Accounts Γ s nodes t where
  nil := .nil _ _
  trans hs h h' := h.trans hs h'
  inScope hs h := h.inScope hs
  withLoopDepth h := h.withLoopDepth
  withScopeDepth h := h.withScopeDepth
  pattern hs h := accounts_bindPattern _ hs h
  name hs h _ := by
    rcases h.bindExpr_name.nameExpr hs with ⟨id, hresolve, rfl⟩ | ⟨-, hname⟩
    · exact .referring hs hresolve rfl rfl rfl trivial
    · obtain ⟨rfl, ⟨id, -, rfl⟩ | ⟨sum, d, -, -, rfl⟩⟩ := hname.nonVarExpr
      · exact .node ⟨rfl, rfl, rfl⟩ trivial
      · exact .node ⟨rfl, rfl, rfl⟩ trivial
  callee := .nil _ _
  lambda hs h ih := by
    obtain ⟨tys, declared, -, -, hlambda⟩ := h.bindExpr_lambda
    have hgrows := hlambda.grows (keeps_lambdaExpr _ _ _ (keeps_bindExpr declared _))
    obtain ⟨syms, u, b, v, returns, ret, hparams, hbody, -, rfl, -, rfl⟩ :=
      hlambda.lambdaExpr (keeps_bindExpr declared _)
    have hu := (hparams.grows (keeps_declareLocals rfl _)).valid (hs.opened .lambda).entering
    exact .lambda hs hgrows hparams (ih (hu.congr rfl rfl rfl rfl) hbody)
  expr hs _ hb h := h.under hs hb.plain hb.lawful
  block hs h := h.under hs ⟨rfl, rfl, rfl⟩ trivial
  stmt hs hb _ h := h.under hs hb trivial
  started h := h
  declaring h hdeclared hreferred hreturned _ := .declaring rfl h hdeclared hreferred hreturned trivial
  assigning hs h := .referring hs h rfl rfl rfl trivial
  returning hs h hreturn hdeclared hreferred hreturned :=
    h.trans hs (.returning hreturn hdeclared hreferred hreturned trivial)

/-- The frame of a body has noted what the body returns outside of nested lambdas. -/
theorem returns_eq_returnedBy {name : String} {declared expected : Option Ty} {body : Ast.Expr}
    {b : Expr}
    {returns : List (Ty × Range)} {u v : State}
    (hu : (u.enteringBody ⟨name, declared, [], range⟩).Valid)
    (h : Quiet Γ (bindExpr expected body) (u.enteringBody ⟨name, declared, [], range⟩) b v)
    (hframe : v.fns = ⟨name, declared, returns, range⟩ :: u.fns) :
    returns = returnedBy (b.nodes false) := by
  have hreturned := hframe.symm.trans (Accounts.traversal.bindExpr body hu h).returned
  simpa [State.enteringBody, State.inFns, State.inLoops, FnFrame.noting] using hreturned

end Bindery.Binding
