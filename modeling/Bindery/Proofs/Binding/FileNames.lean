import Bindery.Proofs.Binding.FileCaptures
import Bindery.Proofs.Binding.Following

/-!
# The names of a file

The functions and variants of a file are all in the symbol table before the first body is bound, and
from then on only variables are added to it. So a name stands for the first function, or else the
variant, of this name in the table that a bind leaves behind (`Symbols.globals`). With these,
binding a whole file and the resolver stay in step: through the bodies of the functions, where no
variable of the file is in sight, and then through the other statements.
-/

namespace Bindery

/-! ## Functions and variants by name -/

namespace SymKind

/-- Whether a symbol of this kind is a function. -/
def isFn : SymKind → Bool
  | .fn _ => true
  | _ => false

/-- Whether a symbol of this kind is a variant. -/
def isVariant : SymKind → Bool
  | .variant .. => true
  | _ => false

/-- Whether a symbol of this kind is no variable and no parameter. -/
def isGlobal (kind : SymKind) : Bool := !kind.isLocal

/-- A choice of kinds that has no local ones and makes no difference between functions. -/
structure IsCoarse (choice : SymKind → Bool) : Prop where
  not_local : ∀ kind, kind.isLocal = true → choice kind = false
  fns : ∀ f g, choice (.fn f) = choice (.fn g)

theorem isCoarse_isFn : IsCoarse isFn where
  not_local kind h := by cases kind <;> first | rfl | cases h
  fns _ _ := rfl

theorem isCoarse_isVariant : IsCoarse isVariant where
  not_local kind h := by cases kind <;> first | rfl | cases h
  fns _ _ := rfl

theorem isCoarse_isGlobal : IsCoarse isGlobal where
  not_local kind h := by rw [isGlobal, h]; rfl
  fns _ _ := rfl

end SymKind

variable {f : Sig} {id : SymId}

namespace Symbols

variable {t u : Symbols} {choice : SymKind → Bool}

/-- The name and number of a symbol of the chosen kinds. -/
def listing? (choice : SymKind → Bool) (sym : Symbol) : Option (String × SymId) :=
  if choice sym.kind then some (sym.name, sym.id) else none

/-- The symbols of the chosen kinds by name, in the order of their numbers. -/
def named (t : Symbols) (choice : SymKind → Bool) : List (String × SymId) :=
  t.toList.filterMap (listing? choice)

/-- The functions and variants by name. The first one of a name counts. -/
def globals (t : Symbols) : Resolver.Globals where
  fn? name := (t.named SymKind.isFn).lookup name
  variant? name := (t.named SymKind.isVariant).lookup name

/-- How many symbols are not local. -/
def globalCount (t : Symbols) : Nat := (t.named SymKind.isGlobal).length

theorem mem_toList_iff {sym : Symbol} : sym ∈ t.toList ↔ ∃ id, t.get? id = some sym := by
  rw [List.mem_iff_getElem?]
  simp only [get?, toList, Array.getElem?_toList]

theorem mem_named_iff {name : String} :
    (name, id) ∈ t.named choice ↔
      ∃ j sym, t.get? j = some sym ∧ choice sym.kind = true ∧ sym.name = name ∧ sym.id = id := by
  rw [named, List.mem_filterMap]
  constructor
  · rintro ⟨sym, hmem, hentry⟩
    obtain ⟨j, hj⟩ := mem_toList_iff.mp hmem
    rw [listing?] at hentry
    split at hentry
    · next hchoice =>
      obtain ⟨hname, hid⟩ := Prod.mk.inj (Option.some.inj hentry)
      exact ⟨j, sym, hj, hchoice, hname, hid⟩
    · cases hentry
  · rintro ⟨j, sym, hj, hchoice, rfl, rfl⟩
    exact ⟨sym, mem_toList_iff.mpr ⟨j, hj⟩, if_pos hchoice⟩

theorem named_add (t : Symbols) (choice : SymKind → Bool) (name : String) (kind : SymKind) (ty : Ty)
    (scope : Option ScopeId) (depth : Nat) :
    (t.add name kind ty scope depth).2.named choice =
      t.named choice ++ (listing? choice ⟨t.size, name, kind, ty, scope, depth⟩).toList := by
  rw [named, add, toList, Array.toList_push, List.filterMap_append]
  rfl

/-- Local symbols that are added do not matter. -/
theorem named_eq_of_le (hchoice : SymKind.IsCoarse choice) (hle : t ≤ u)
    (hadded : ∀ id sym, u.get? id = some sym → t.get? id = some sym ∨ sym.kind.isLocal = true) :
    u.named choice = t.named choice := by
  have hsplit : u.toList = t.toList ++ u.toList.drop t.size := by
    refine (List.prefix_iff_eq_append.mp ?_).symm
    refine List.prefix_iff_getElem?.mpr fun i hi => ?_
    have hget := hle i t.toList[i]
      (by rw [get?, ← Array.getElem?_toList]; exact List.getElem?_eq_getElem hi)
    rwa [get?, ← Array.getElem?_toList] at hget
  rw [named, hsplit, List.filterMap_append]
  refine (congrArg _ (List.filterMap_eq_nil_iff.mpr fun sym hmem => ?_)).trans (List.append_nil _)
  obtain ⟨i, hi⟩ := List.mem_iff_getElem?.mp hmem
  rw [List.getElem?_drop] at hi
  have hget : u.get? (t.size + i) = some sym := by rw [get?, ← Array.getElem?_toList]; exact hi
  rcases hadded _ sym hget with hold | hlocal
  · exact absurd (get?_eq_some_lt hold) (by omega)
  · rw [listing?, hchoice.not_local _ hlocal]
    rfl

theorem named_setSig (hchoice : SymKind.IsCoarse choice) (hf : t.sig? id = some f) (g : Sig) :
    (t.setSig id g).named choice = t.named choice := by
  have hmap : (t.setSig id g).toList.map (listing? choice) = t.toList.map (listing? choice) := by
    refine List.ext_getElem? fun j => ?_
    have hj := get?_setSig t id g j
    rw [get?, get?] at hj
    rw [List.getElem?_map, List.getElem?_map, toList, toList, Array.getElem?_toList,
      Array.getElem?_toList, hj]
    split
    · next hid =>
      obtain ⟨sym, hsym, hkind⟩ := sig?_eq_some_iff.mp hf
      rw [← hid]
      rw [get?] at hsym
      rw [hsym, Option.map_some, Option.map_some, Option.map_some, listing?, listing?, hkind,
        hchoice.fns g f]
    · rfl
  rw [named, named, ← Function.id_comp (listing? choice), ← List.filterMap_map, hmap,
    List.filterMap_map]

end Symbols

/-- Looking up a key that is there with one value only. -/
theorem lookup_eq_some_of_unique {β : Type} {a : String} {b : β} {l : List (String × β)}
    (hmem : (a, b) ∈ l)
    (hunique : ∀ b', (a, b') ∈ l → b' = b) : l.lookup a = some b := by
  induction l with
  | nil => cases hmem
  | cons p l ih =>
    obtain ⟨a', b'⟩ := p
    rw [List.lookup_cons]
    by_cases ha : a = a'
    · subst ha
      rw [beq_self_eq_true, hunique b' List.mem_cons_self]
    · rw [beq_false_of_ne ha]
      refine ih ?_ fun b'' h => hunique b'' (List.mem_cons_of_mem _ h)
      rcases List.mem_cons.mp hmem with h | h
      · exact absurd (Prod.mk.inj h).1 ha
      · exact h

/-- The variants of the registry are those of the symbol table. -/
theorem Registry.Recorded.lookup_variant {r : Registry} {t : Symbols} (h : r.Recorded t)
    (name : String) :
    (r.variant? name).map (·.2.symbol) = (t.named SymKind.isVariant).lookup name := by
  -- a variant symbol of the name belongs to the sum that owns the name
  have hsymbol : ∀ id, (name, id) ∈ t.named SymKind.isVariant →
      ∃ n sd d, r.owners.get? name = some n ∧ r.sum? n = some sd ∧ sd.variants.get? name = some d ∧
        d.symbol = id := by
    intro id hid
    obtain ⟨j, sym, hj, hkind, rfl, rfl⟩ := Symbols.mem_named_iff.mp hid
    obtain ⟨n, payload, hvariant⟩ : ∃ n payload, sym.kind = .variant n payload := by
      cases hk : sym.kind with
      | variant n payload => exact ⟨n, payload, rfl⟩
      | _ => rw [hk] at hkind; cases hkind
    obtain ⟨sd, hsum, hget⟩ := h.symbol_variant hj hvariant
    have hsym := hj.symm.trans (h.variant_symbol hsum hget)
    refine ⟨n, sd, _, h.owner.mpr ⟨sd, _, hsum, hget⟩, hsum, hget, ?_⟩
    rw [Option.some.inj hsym]
  cases howner : r.owners.get? name with
  | none =>
    have hlookup : (t.named SymKind.isVariant).lookup name = none := by
      refine List.lookup_eq_none_iff.mpr fun p hp => ?_
      obtain ⟨name', id⟩ := p
      rw [bne_iff_ne]
      rintro rfl
      obtain ⟨n, -, -, hn, -⟩ := hsymbol id hp
      cases howner.symm.trans hn
    rw [hlookup, variant?, howner]
    rfl
  | some n =>
    obtain ⟨sd, d, hsum, hd⟩ := h.owner.mp howner
    have hvariant : r.variant? name = some (sd, d) := by simp [variant?, howner, hsum, hd]
    rw [hvariant]
    refine (lookup_eq_some_of_unique ?_ fun id hid => ?_).symm
    · exact Symbols.mem_named_iff.mpr ⟨_, _, h.variant_symbol hsum hd, rfl, rfl, rfl⟩
    · obtain ⟨n', sd', d', hn', hsum', hd', hid⟩ := hsymbol id hid
      cases howner.symm.trans hn'
      cases hsum.symm.trans hsum'
      cases hd.symm.trans hd'
      exact hid.symm

namespace Binding

open Resolver

variable {α : Type} {g : Globals} {env : Env} {s t : State}

/-! ## The start of the bodies -/

/-- The root scope has the functions of the symbol table, which has no local symbols. Nothing
undefined was found. -/
structure State.Listed (s : State) : Prop where
  fns : ∀ name, s.fnNamed? name = (s.syms.named SymKind.isFn).lookup name
  globals : ∀ id sym, s.syms.get? id = some sym → sym.kind.isLocal = false
  undefinedFindings : s.undefinedFindings = []

variable {all : List Ast.Stmt} {past : List Visit} {rest : List (List String)} {stmt : Ast.Stmt}

namespace State.Listed

theorem initial : State.initial.Listed where
  fns name := rfl
  globals id sym h := by cases h
  undefinedFindings := rfl

theorem congr (h : s.Listed) (hscopes : t.scopes = s.scopes) (hsyms : t.syms = s.syms)
    (hfindings : t.undefinedFindings = s.undefinedFindings) : t.Listed where
  fns name := by
    rw [State.fnNamed?, hscopes, hsyms]
    exact h.fns name
  globals := by
    rw [hsyms]
    exact h.globals
  undefinedFindings := hfindings.trans h.undefinedFindings

theorem checks (h : s.Listed) (m : Binding α) [hm : Neutral m] : (after m s).Listed := by
  obtain ⟨fs, hfs⟩ := Checks.exists_reporting m s
  refine h.congr ?_ ?_ (Neutral.undefinedFindings_eq m s)
  · rw [hfs]
    rfl
  · rw [hfs]
    rfl

/-- A member of a type gets a symbol. -/
theorem addingMember (h : s.Listed) (name : String) {kind : SymKind} (ty : Ty) (scope : Option ScopeId)
    (depth : Nat) (hlocal : kind.isLocal = false) (hfn : kind.isFn = false) :
    (s.adding name kind ty scope depth).Listed where
  fns x := by
    refine (h.fns x).trans ?_
    rw [State.adding, Symbols.named_add, Symbols.listing?, hfn]
    exact (congrArg _ (List.append_nil _)).symm
  globals id sym hsym := by
    rcases Symbols.get?_add_cases hsym with ⟨-, rfl⟩ | hsym
    · exact hlocal
    · exact h.globals id sym hsym
  undefinedFindings := h.undefinedFindings

theorem globals_addingFn (h : s.Listed) (f : Sig) {sym : Symbol}
    (hsym : (s.addingFn f).syms.get? id = some sym) : sym.kind.isLocal = false := by
  rcases Symbols.get?_add_cases hsym with ⟨-, rfl⟩ | hsym
  · rfl
  · exact h.globals id sym hsym

theorem lookup_addingFn (s : State) (f : Sig) (name : String) :
    ((s.addingFn f).syms.named SymKind.isFn).lookup name =
      ((s.syms.named SymKind.isFn).lookup name).or
        (if name = f.name then some s.syms.size else none) := by
  rw [State.addingFn, State.adding, Symbols.named_add, List.lookup_append]
  congr 1
  show List.lookup name [(f.name, s.syms.size)] = _
  by_cases hname : name = f.name
  · rw [if_pos hname, List.lookup_cons, beq_iff_eq.mpr hname]
  · rw [if_neg hname, List.lookup_cons, beq_false_of_ne hname]
    rfl

/-- A function whose name is free is found under its name. -/
theorem declaringFn (h : s.Listed) (hs : s.Top) (hfree : s.fnNamed? f.name = none) :
    ((s.addingFn f).declaringFn f.name s.syms.size).Listed where
  fns name := by
    refine Eq.trans ?_ (lookup_addingFn s f name).symm
    rw [← h.fns name]
    obtain ⟨sc, hsc⟩ := hs.exists_root
    have hnamed : ((s.addingFn f).declaringFn f.name s.syms.size).fnNamed? name =
        ((sc.addName .fn f.name s.syms.size).table .fn).get? name := by
      rw [State.fnNamed?, State.declaringFn, Scopes.get?_adding]
      show ((s.scopes.get? Scopes.rootId).map _).bind _ = _
      rw [hsc]
      rfl
    rw [hnamed, Scopes.get?_table_addName]
    by_cases hname : name = f.name
    · rw [hname, hfree]
      simp
    · rw [if_neg (by simp [hname]), if_neg hname, Option.or_none, State.fnNamed?, hsc]
      rfl
  globals _ _ hsym := h.globals_addingFn f hsym
  undefinedFindings := h.undefinedFindings

/-- A function whose name is taken is not found under its name. -/
theorem addingFn (h : s.Listed) (htaken : (s.fnNamed? f.name).isSome = true) :
    (s.addingFn f).Listed where
  fns name := by
    refine Eq.trans ?_ (lookup_addingFn s f name).symm
    rw [← h.fns name]
    show s.fnNamed? name = _
    by_cases hname : name = f.name
    · obtain ⟨id, hid⟩ := Option.isSome_iff_exists.mp htaken
      rw [hname, hid]
      rfl
    · rw [if_neg hname, Option.or_none]
  globals _ _ hsym := h.globals_addingFn f hsym
  undefinedFindings := h.undefinedFindings

theorem step (h : s.Listed) (hs : s.Top) (hstep : Step all s t) : t.Listed := by
  cases hstep with
  | checks m => exact h.checks m
  | naming => exact h.congr rfl rfl rfl
  | type => exact h.congr rfl rfl rfl
  | field field hu =>
    rw [hu]
    exact ((h.checks (resolveType field.annot)).addingMember _ _ _ _ rfl rfl).congr rfl rfl rfl
  | variant variant hu =>
    rw [hu]
    exact ((h.checks (resolveType? variant.payload)).addingMember _ _ _ _ rfl rfl).congr rfl rfl rfl
  | builtin hf _ hfree => exact h.declaringFn hs hfree
  | @sig _ name tyParams params ret _ _ _ =>
    obtain ⟨u, f, rfl, rfl, -, hafter⟩ := declareSig_cases name tyParams params ret hs
    have hu := h.checks (writtenSig name tyParams params ret)
    have htop := hs.grows (Keeps.grows [] (writtenSig name tyParams params ret) s)
    have hname : (out (writtenSig name tyParams params ret) s).name = name.text := rfl
    rcases hafter with ⟨hfree, hafter⟩ | ⟨htaken, hafter⟩
    · rw [hafter]
      exact hu.declaringFn htop hfree
    · rw [hafter, ← after_report]
      have : Neutral (report name.range (.alreadyDeclared name.text)) := .report _ rfl
      exact (hu.addingFn htaken).checks _

/-- What is in sight before the first body. -/
theorem sees (h : s.Listed) (hbare : s.Bare) (hs : s.Top) : Sees s.syms.globals [[]] s := by
  obtain ⟨sc, hsc⟩ := hs.exists_root
  refine ⟨?_, fun name => ?_, fun name => hs.recorded.lookup_variant name⟩
  · rw [hs.chain_eq]
    exact .cons ⟨sc, hsc, fun name => (hbare.bare _ sc hsc name).symm⟩ .nil
  · refine Eq.trans ?_ (h.fns name)
    rw [Scopes.lookup_eq_findSome?, Scopes.ancestors, hs.chain_eq, State.fnNamed?]
    simp [hsc, Scope.table]

/-- Every symbol is global before the first body. -/
theorem globalCount_eq (h : s.Listed) : s.syms.globalCount = s.syms.size := by
  have hentry : ∀ sym ∈ s.syms.toList, Symbols.listing? SymKind.isGlobal sym =
    some (sym.name, sym.id) := by
    intro sym hsym
    obtain ⟨id, hid⟩ := Symbols.mem_toList_iff.mp hsym
    rw [Symbols.listing?, SymKind.isGlobal, h.globals id sym hid]
    rfl
  rw [Symbols.globalCount, Symbols.named, List.filterMap_congr hentry, List.filterMap_eq_map',
    List.length_map]
  exact Array.length_toList

end State.Listed

theorem Prepares.listed (h : Prepares all s t) (hs : s.Top) (hlisted : s.Listed) :
    t.Listed := h.keeps hs (fun htop hstep hu => hu.step htop hstep) hlisted

/-! ## Functions -/

/-- The body of a function is resolved in a frame with its parameters. -/
theorem follows_bindFnScope {params : List Ast.Param} (hparams : f.params.length = params.length)
    (name : Ast.Name) (body : Ast.Block) :
    Follows g env (resolveFn g env params body) (fun _ => env) (bindFnScope f name params body)
      (eventsFn f name params body s) s := by
  have hlength : f.paramTys.length = params.length := by rw [Sig.paramTys, List.length_map, hparams]
  have hdeclare : Follows g env.opened (declareAll env.opened (params.map (·.name.text))) id
      (declareLocals .parameter ((params.map Ast.Param.name).zip f.paramTys)) [] (s.enteringFn f) := by
    rw [← map_text_zip hlength]
    exact follows_declareLocals _
  have hinner : Leads g env.opened
      (declareAll env.opened (params.map (·.name.text)) >>= fun inner =>
      resolveStmts g inner body.stmts)
      (declareLocals .parameter ((params.map Ast.Param.name).zip f.paramTys) >>= fun syms =>
        withFn (bodyFrame f name) (withLoopDepth (fun _ => 0) (withScopeDepth (fun _ => 0)
          (bindStmts body.stmts))) >>= fun result =>
            pure (syms, Bound.Block.ofStatements result.1 body.range, result.2))
      (eventsFn f name params body s) (s.enteringFn f) :=
    hdeclare.leadsTo fun inner =>
      (follows_bindStmts body.stmts).withScopeDepth.withLoopDepth.withFn.thenChecks.leads
  have henter : ∀ {past rest n}, InStep g env past rest s n →
      InStep g env.opened past rest (s.enteringFn f) n := by
    intro past rest n hn
    exact (hn.opened .fn).congr rfl rfl rfl rfl rfl rfl
  exact (Follows.within hinner (keeps_bindFnScope f name params body) henter rfl rfl).discarding

/-- Settling the return type of a function changes nothing that is in sight. -/
theorem InStep.settled {n : Progress} (h : InStep g env past rest s n) (hs : s.Top)
    (hf : s.syms.sig? id = some f) (hb : f.isBuiltin = false) (frame : FnFrame)
    (trailing : Option (Ty × Range)) : InStep g env past rest (s.settled id f frame trailing) n := by
  have hvalid := (top_settled hs hf hb frame trailing).1.valid
  have hchecks := h.checks (settleReturn frame trailing)
  rw [State.settled] at hvalid ⊢
  split at hvalid
  · next hfinal =>
    rw [if_pos hfinal]
    exact hchecks
  · next hfinal =>
    rw [if_neg hfinal]
    exact { hchecks with
      valid := hvalid
      sees := hchecks.sees.congr rfl rfl rfl
      next := hchecks.next.trans (Symbols.size_setSig _ _ _).symm }

theorem State.named_settled {choice : SymKind → Bool} (hchoice : SymKind.IsCoarse choice)
    (hf : s.syms.sig? id = some f) (frame : FnFrame) (trailing : Option (Ty × Range)) :
    (s.settled id f frame trailing).syms.named choice = s.syms.named choice := by
  obtain ⟨fs, hafter⟩ := Checks.exists_reporting (settleReturn frame trailing) s
  rw [State.settled, hafter]
  split
  · rfl
  · exact Symbols.named_setSig hchoice hf _

namespace Bodies

variable {sigs : List (Nat × SymId)} {index : Nat} {stmts : List Ast.Stmt}
  {fns : List Bound.FnDecl}

/-- The bodies are what the pass over the functions binds. -/
theorem ran (h : Bodies sigs index stmts s fns t) :
    Ran (bindFns sigs index stmts) s fns t := by
  induction h with
  | nil => exact ran_pure.mpr ⟨rfl, rfl⟩
  | @skip _ stmt _ _ _ _ hskip _ ih =>
    cases stmt with
    | fn => cases hskip
    | _ => exact ih
  | @body _ origin name _ params _ body _ s _ _ id f _ block returns _ hid hf hb _ hscope _ ih =>
    have hbody := ran_bindFnBody hf hb origin name params body (by rw [hscope])
    rw [hscope] at hbody
    rw [bindFns, show sigs.lookup _ = some id from hid]
    exact ran_bind.mpr ⟨_, _, hbody, ran_bind.mpr ⟨_, _, ih, ran_pure.mpr ⟨rfl, rfl⟩⟩⟩

/-- The bodies add nothing but local symbols. -/
theorem named {choice : SymKind → Bool} (hchoice : SymKind.IsCoarse choice)
    (h : Bodies sigs index stmts s fns t) : t.syms.named choice = s.syms.named choice := by
  induction h with
  | nil => rfl
  | skip _ _ ih => exact ih
  | @body _ _ name _ params _ body _ s _ _ id f _ block returns _ _ hf _ _ _ _ ih =>
    have hgrows := Keeps.grows [] (bindFnScope f name params body) s
    have hsig := Symbols.sig?_of_le hgrows.syms hf
    rw [ih, State.named_settled hchoice hsig]
    exact Symbols.named_eq_of_le hchoice hgrows.syms hgrows.added

/-- The bodies of the functions and the resolver stay in step. -/
theorem inStep {n : Progress} (h : Bodies sigs index stmts s fns t)
    (hn : InStep g [[]] past (patterns (eventsFns sigs index stmts s) ++ rest) s n) :
    InStep g [[]] (past ++ visits (eventsFns sigs index stmts s)) rest t
      ((resolveFns g stmts).run n).2 := by
  induction h generalizing past rest n with
  | nil => exact (List.append_nil past).symm ▸ hn
  | @skip _ stmt _ _ _ _ hskip _ ih =>
    cases stmt with
    | fn => cases hskip
    | _ => exact ih hn
  | @body index origin name tyParams params ret body stmts s t _ id f syms block returns htop hid hf hb
      hparams hscope hrest ih =>
    have hgrows := Keeps.grows [] (bindFnScope f name params body) s
    have hsig := Symbols.sig?_of_le hgrows.syms hf
    have hran := ran_bindFnBody hf hb origin name params body (by rw [hscope])
    rw [hscope] at hran
    have hevents : eventsFns sigs index
        (.fn origin name tyParams params ret body :: stmts) s =
        eventsFn f name params body s ++ eventsFns sigs (index + 1) stmts
          ((after (bindFnScope f name params body) s).settled id f ((bodyFrame f name).noting returns)
            (blockCandidate block)) := by
      rw [eventsFns, hid]
      dsimp only [Option.bind_some]
      rw [hf]
      exact congrArg (fun u => eventsFn f name params body s ++ eventsFns sigs (index + 1)
        stmts u) (congrArg Prod.snd hran)
    rw [hevents, patterns_append, List.append_assoc] at hn
    rw [hevents, visits_append, ← List.append_assoc]
    have hbody := follows_bindFnScope hparams name body n past _ hn
    exact ih (hbody.settled (htop.grows hgrows) hsig hb _ _)

end Bodies

/-! ## Files -/

namespace Phases

variable {stmts : List Ast.Stmt} (ph : Phases stmts)

theorem named_final {choice : SymKind → Bool} (hchoice : SymKind.IsCoarse choice) :
    ph.final.syms.named choice = ph.start.syms.named choice :=
  (Symbols.named_eq_of_le hchoice ph.grows_final.syms ph.grows_final.added).trans
    (ph.bodies.named hchoice)

theorem globals_final : ph.final.syms.globals = ph.start.syms.globals := by
  rw [Symbols.globals, Symbols.globals, ph.named_final SymKind.isCoarse_isFn,
    ph.named_final SymKind.isCoarse_isVariant]

theorem globalCount_final : ph.final.syms.globalCount = ph.start.syms.globalCount := by
  rw [Symbols.globalCount, Symbols.globalCount, ph.named_final SymKind.isCoarse_isGlobal]

/-- The events of a file are those of its functions and then those of its other statements. -/
theorem eventsFile_eq : eventsFile stmts =
    eventsFns ph.sigs 0 stmts ph.start ++ eventsStmts (topStatements stmts) ph.bound := by
  obtain ⟨u, -, htypes, hsigs, hstart⟩ := ph.declares
  have hu : after (typeDeclarations stmts).run .initial = u := congrArg Prod.snd htypes
  have hbound : after (bindFns ph.sigs 0 stmts).run ph.start = ph.bound :=
    congrArg Prod.snd ph.bodies.ran
  rw [eventsFile, Trace.past, Trace.andThen, hu, Trace.past, Trace.andThen, ← hsigs, ← hstart,
    Trace.andThen, hbound]
  rfl

/-- Binding a file and the resolver are in step at the end. -/
theorem inStep_final :
    ∃ env, InStep ph.final.syms.globals env (visits (eventsFile stmts)) [] ph.final
      ((resolveFile ph.final.syms.globals stmts).run
        ⟨ph.final.syms.globalCount, patterns (eventsFile stmts), []⟩).2 := by
  have htop := ph.prepares.top top_initial
  have hbare := ph.prepares.bare top_initial .initial
  have hlisted := ph.prepares.listed top_initial .initial
  rw [ph.globals_final, ph.globalCount_final, hlisted.globalCount_eq, ph.eventsFile_eq,
    visits_append, patterns_append]
  have hstart : InStep ph.start.syms.globals [[]] []
      (patterns (eventsFns ph.sigs 0 stmts ph.start) ++
        (patterns (eventsStmts (topStatements stmts) ph.bound) ++ [])) ph.start
      ⟨ph.start.syms.size, patterns (eventsFns ph.sigs 0 stmts ph.start) ++
        patterns (eventsStmts (topStatements stmts) ph.bound), []⟩ := {
    valid := htop.valid
    sees := hlisted.sees hbare htop
    next := rfl
    patterns := by rw [List.append_nil]
    meets := .nil
    undefined := hlisted.undefinedFindings }
  exact ⟨_, follows_bindStmts (topStatements stmts) _ _ _ (ph.bodies.inStep hstart)⟩

end Phases

end Binding

end Bindery
