import Bindery.Proofs.Binding.InSight
import Bindery.Proofs.Binding.Visits

/-!
# Binding and the resolver in step

The resolver stands where binding stands if its frames have the variables of the scopes around, its
tables the functions and variants, and if both have met the same names with the same outcome
(`InStep`). `Follows` says of a step of binding and a part of resolving that they keep this, along
with the events of the step.
-/

namespace Bindery

/-- What is found at a name that stands for nothing. -/
def Resolver.Occurrence.undefined? (r : Occurrence) : Option Finding :=
  match r.declaration, r.role with
  | some _, _ => none
  | none, .callee => some ⟨r.name.range, .undefinedFn r.name.text⟩
  | none, _ => some ⟨r.name.range, .undefinedVar r.name.text⟩

/-- A lookup depends only on the chain and on the tables of the scopes on it. -/
theorem Scopes.lookup_congr {a b : Scopes} {c d : ScopeId} {space : NameSpace}
    (hchain : b.chain d = a.chain c)
    (htable : ∀ k ∈ a.chain c, (b.get? k).map (·.table space) = (a.get? k).map (·.table space))
    (name : String) :
    b.lookup space d name = a.lookup space c name := by
  rw [lookup, lookup, ancestors, ancestors, hchain]
  generalize a.chain c = ks at htable
  induction ks with
  | nil => rfl
  | cons k ks ih =>
    have hk := htable k List.mem_cons_self
    have hrest := ih fun k hk => htable k (List.mem_cons_of_mem _ hk)
    rw [List.filterMap_cons, List.filterMap_cons]
    cases ha : a.get? k with
    | none =>
      rw [ha, Option.map_none, Option.map_eq_none_iff] at hk
      rw [hk]
      exact hrest
    | some sc =>
      rw [ha, Option.map_some] at hk
      obtain ⟨sc', hsc', htables⟩ := Option.map_eq_some_iff.mp hk
      simp only [hsc', List.findSome?_cons, htables, hrest]

namespace Binding

open Resolver

variable {α β γ δ : Type} {g : Globals} {env : Env} {s t : State}

/-! ## What is in sight -/

/-- The frame has the variables of the scope. -/
def State.HasFrame (s : State) (frame : List (String × SymId)) (c : ScopeId) : Prop :=
  ∃ sc, s.scopes.get? c = some sc ∧ ∀ name, frame.lookup name = sc.varNames.get? name

/-- The frames have the variables of the scopes around, and the tables the functions and
variants. -/
structure Sees (g : Globals) (env : Env) (s : State) : Prop where
  frames : List.Forall₂ s.HasFrame env (s.scopes.chain s.current)
  fns : ∀ name, s.scopes.lookup .fn s.current name = g.fn? name
  variants : ∀ name, (s.registry.variant? name).map (·.2.symbol) = g.variant? name

theorem State.HasFrame.of_get? {frame : List (String × SymId)} {c : ScopeId} (h : s.HasFrame frame c)
    (hscopes : ∀ sc, s.scopes.get? c = some sc → t.scopes.get? c = some sc) : t.HasFrame frame c := by
  obtain ⟨sc, hsc, hframe⟩ := h
  exact ⟨sc, hscopes sc hsc, hframe⟩

variable {own : List String} {kind : SymKind}

/-- No step declares a function inside a file. -/
theorem Grows.lookup_fn (hs : s.Valid) (hg : Grows own s t) (name : String) :
    t.scopes.lookup .fn t.current name = s.scopes.lookup .fn s.current name := by
  rw [hg.current]
  refine Scopes.lookup_congr
    (Scopes.chain_eq_of_agrees hs.nested (hg.valid hs).nested hg.scopes.agrees hs.current_lt)
    (fun k hk => ?_) name
  have hlt : k < s.scopes.size :=
    Nat.lt_of_le_of_lt (Scopes.le_of_mem_chain hs.nested hs.current_lt hk) hs.current_lt
  obtain ⟨sc, hsc⟩ := Scopes.exists_get?_of_lt hlt
  obtain ⟨sc', hsc', hgrows⟩ := hg.scopes k sc hsc
  rw [hsc, hsc', Option.map_some, Option.map_some]
  exact congrArg some hgrows.fnNames

/-- A scope that was just opened has no names of its own. -/
theorem State.Valid.lookup_opened (hs : s.Valid) (kind : ScopeKind) (space : NameSpace)
    (name : String) :
    (s.opened kind).scopes.lookup space (s.opened kind).current name = s.scopes.lookup space
      s.current name := by
  have hnew : (s.opened kind).scopes.lookup space (s.opened kind).current name =
      (s.opened kind).scopes.lookup space s.current name := by
    have hempty := Scopes.get?_push_size s.scopes s.current kind
    cases space
    · exact Scopes.lookup_eq (hs.opened kind).nested hempty .var name
    · exact Scopes.lookup_eq (hs.opened kind).nested hempty .fn name
  have hgrows := Scopes.Grows.push [] 0 0 s.current kind s.scopes
  rw [hnew]
  refine Scopes.lookup_congr
    (Scopes.chain_eq_of_agrees hs.nested (hs.opened kind).nested hgrows.agrees hs.current_lt)
    (fun k hk => ?_) name
  have hlt : k < s.scopes.size :=
    Nat.lt_of_le_of_lt (Scopes.le_of_mem_chain hs.nested hs.current_lt hk) hs.current_lt
  exact congrArg _ (Scopes.get?_push_of_lt s.current kind hlt)

/-- A step leaves alone the names that it may not declare. -/
theorem Grows.lookup_var (hs : s.Valid) (hg : Grows own s t) {name : String} (hname : name ∉ own) :
    t.scopes.lookup .var t.current name = s.scopes.lookup .var s.current name := by
  obtain ⟨sc, hsc⟩ := Scopes.exists_get?_of_lt hs.current_lt
  obtain ⟨sc', hsc', hgrows⟩ := hg.scopes s.current sc hsc
  rw [if_pos rfl] at hgrows
  have htable : sc'.varNames.get? name = sc.varNames.get? name := by
    obtain ⟨added, hown, hentries⟩ := hgrows.varNames
    exact OrderedMap.get?_of_append hentries fun e he hkey => hname (hkey ▸ (hown e he).1)
  rw [hg.current, Scopes.lookup_eq hs.nested hsc, Scopes.lookup_eq (hg.valid hs).nested hsc',
    hgrows.parent]
  refine congrArg₂ Option.or htable ?_
  cases hparent : sc.parent with
  | none => rfl
  | some p =>
    -- the scopes around the current one are not changed
    have hlt : p < s.current := hs.nested.parent_lt (by rw [Scopes.parent?_eq hsc, hparent])
    have hp := Nat.lt_trans hlt hs.current_lt
    refine Scopes.lookup_congr (Scopes.chain_eq_of_agrees hs.nested (hg.valid hs).nested
      hg.scopes.agrees hp)
      (fun k hk => ?_) name
    have hle := Scopes.le_of_mem_chain hs.nested hp hk
    obtain ⟨sc, hsc⟩ := Scopes.exists_get?_of_lt (Nat.lt_of_le_of_lt hle hp)
    rw [hsc, hg.scopes.get?_of_ne hsc (Nat.ne_of_lt (Nat.lt_of_le_of_lt hle hlt))]

namespace Sees

variable (h : Sees g env s)

include h

theorem lookup_eq (name : String) : env.lookup name = s.scopes.lookup .var s.current name := by
  obtain ⟨hframes, -, -⟩ := h
  rw [Env.lookup, Scopes.lookup_eq_findSome?, Scopes.ancestors]
  generalize s.scopes.chain s.current = cs at hframes ⊢
  induction hframes with
  | nil => rfl
  | @cons frame c frames cs hframe _ ih =>
    obtain ⟨sc, hsc, hlookup⟩ := hframe
    rw [List.findSome?_cons, List.filterMap_cons, hsc, hlookup, ih]
    rfl

/-- Steps that declare nothing where they stand keep what is in sight. -/
theorem grows (hs : s.Valid) (hg : Grows [] s t) : Sees g env t where
  frames := by
    rw [hg.current, Scopes.chain_eq_of_agrees hs.nested (hg.valid hs).nested hg.scopes.agrees
      hs.current_lt]
    exact h.frames.imp fun frame c hframe => hframe.of_get? fun sc hsc => hg.scopes.get?_of_nil hsc
  fns name := (hg.lookup_fn hs name).trans (h.fns name)
  variants := by
    rw [hg.registry]
    exact h.variants

theorem congr (hscopes : t.scopes = s.scopes) (hcurrent : t.current = s.current)
    (hregistry : t.registry = s.registry) : Sees g env t where
  frames := by
    have hframe : t.HasFrame = s.HasFrame := by
      funext frame c
      rw [State.HasFrame, State.HasFrame, hscopes]
    rw [hframe, hscopes, hcurrent]
    exact h.frames
  fns := by
    rw [hscopes, hcurrent]
    exact h.fns
  variants := by
    rw [hregistry]
    exact h.variants

/-- A new scope has an empty frame. -/
theorem opened (hs : s.Valid) (kind : ScopeKind) : Sees g env.opened (s.opened kind) where
  frames := by
    rw [hs.chain_opened kind]
    refine .cons ⟨_, Scopes.get?_push_size s.scopes s.current kind, fun name => rfl⟩ ?_
    refine h.frames.imp fun frame c hframe => hframe.of_get? fun sc hsc => ?_
    exact (Scopes.get?_push_of_lt s.current kind (Scopes.get?_eq_some_lt hsc)).trans hsc
  fns name := (hs.lookup_opened kind .fn name).trans (h.fns name)
  variants := h.variants

/-- A variable that is declared is in the innermost frame, unless that has one of this name. -/
theorem declaring (hs : s.Valid) (name : Ast.Name) (ty : Ty) (hlocal : kind.isLocal = true) :
    Sees g (env.declare name.text s.syms.size) (Binding.after (declareLocal name kind ty) s) := by
  have hg := (keeps_declareLocal name ty hlocal).grows s
  obtain ⟨rest, hchain, hlt⟩ := Scopes.exists_chain_eq_cons hs.nested hs.current_lt
  have hframes := h.frames
  rw [hchain] at hframes
  refine ⟨?_, fun x => (hg.lookup_fn hs x).trans (h.fns x), hg.registry ▸ h.variants⟩
  rw [hg.current, Scopes.chain_eq_of_agrees hs.nested (hg.valid hs).nested hg.scopes.agrees
    hs.current_lt, hchain]
  cases hframes with
  | @cons frame _ frames _ hcurrent hrest =>
    refine .cons ?_ (forall₂_imp_of_mem hrest fun frame c hc hframe => hframe.of_get? fun sc hsc =>
      hg.scopes.get?_of_ne hsc (Nat.ne_of_lt (hlt c hc)))
    obtain ⟨sc, hsc, hframe⟩ := hcurrent
    obtain ⟨new, hnew, hnames⟩ := exists_current_declareLocal hsc name kind ty
    refine ⟨new, hnew, fun x => ?_⟩
    rw [hnames, hframe]
    cases hid : sc.varNames.get? name.text with
    | some id =>
      rw [Option.isSome_some, if_pos (Eq.refl true), hframe, Option.some_or, ← hid]
      split
      · next hx => rw [hx]
      · rfl
    | none =>
      rw [Option.isSome_none, if_neg Bool.false_ne_true, List.lookup_cons]
      by_cases hx : x = name.text
      · simp [hx]
      · rw [if_neg hx, beq_false_of_ne hx]
        exact hframe x

end Sees

/-! ## In step -/

/-- Binding stands in `s` and the resolver has come as far. `past` are the visits so far and `rest`
the variables of the patterns to come. -/
structure InStep (g : Globals) (env : Env) (past : List Visit) (rest : List (List String)) (s : State)
    (n : Progress) : Prop where
  valid : s.Valid
  sees : Sees g env s
  next : n.next = s.syms.size
  patterns : n.patterns = rest
  meets : List.Forall₂ Visit.Meets past n.occurrences
  undefined : s.undefinedFindings = n.occurrences.filterMap Occurrence.undefined?

/-- From `s` on, the step `m` with its events and the part `r` of resolving stay in step. Then
`next` is in sight. -/
def Follows (g : Globals) (env : Env) (r : Resolving β) (next : β → Env) (m : Binding α)
    (events : List Event)
    (s : State) : Prop :=
  ∀ n past rest, InStep g env past (patterns events ++ rest) s n →
    InStep g (next (r.run n).1) (past ++ visits events) rest (after m s) (r.run n).2

/-- The same for a step in a scope of its own, of which it does not matter what is in sight at its
end. -/
def Leads (g : Globals) (env : Env) (r : Resolving β) (m : Binding α) (events : List Event)
    (s : State) : Prop :=
  ∀ n past rest, InStep g env past (patterns events ++ rest) s n →
    ∃ env', InStep g env' (past ++ visits events) rest (after m s) (r.run n).2

@[simp]
theorem visits_append (events events' : List Event) :
    visits (events ++ events') = visits events ++ visits events' :=
  List.filterMap_append

@[simp]
theorem patterns_append (events events' : List Event) :
    patterns (events ++ events') = patterns events ++ patterns events' :=
  List.filterMap_append

namespace InStep

variable {past : List Visit} {rest : List (List String)} {n : Progress} {u : State}

/-- What was in sight before a scope was entered is in sight again once it is left. -/
theorem leaving {inner : Env} (h : InStep g inner past rest t n) (hs : s.Valid) (hsees : Sees g env s)
    (hg : Grows [] s u) (hsyms : u.syms = t.syms)
    (hundefined : u.undefinedFindings = t.undefinedFindings) :
    InStep g env past rest u n :=
  { h with
    valid := hg.valid hs
    sees := hsees.grows hs hg
    next := by rw [h.next, hsyms]
    undefined := hundefined.trans h.undefined }

variable (h : InStep g env past rest s n)

include h

/-- A state in which the same symbols, scopes and findings are at hand. -/
theorem congr (hsyms : t.syms = s.syms) (hscopes : t.scopes = s.scopes)
    (hcurrent : t.current = s.current) (hregistry : t.registry = s.registry)
    (hboundaries : t.captures.boundaries = s.captures.boundaries)
    (hfindings : t.findings = s.findings) :
    InStep g env past rest t n where
  valid := h.valid.congr hsyms hscopes hcurrent hboundaries
  sees := h.sees.congr hscopes hcurrent hregistry
  next := by rw [h.next, hsyms]
  patterns := h.patterns
  meets := h.meets
  undefined := by
    rw [State.undefinedFindings, hfindings]
    exact h.undefined

theorem opened (kind : ScopeKind) : InStep g env.opened past rest (s.opened kind) n :=
  { h with valid := h.valid.opened kind, sees := h.sees.opened h.valid kind }

theorem enteringLambda : InStep g env.opened past rest s.enteringLambda n :=
  { h with
    valid := (h.valid.opened .lambda).entering
    sees := (h.sees.opened h.valid .lambda).congr rfl rfl rfl }

/-- A step that is about nothing in sight. -/
theorem checks (m : Binding α) [hm : Neutral m] : InStep g env past rest (after m s) n :=
  { h with
    valid := (Keeps.grows [] m s).valid h.valid
    sees := h.sees.grows h.valid (Keeps.grows [] m s)
    next := by rw [h.next, Checks.syms_eq]
    undefined := (Neutral.undefinedFindings_eq m s).trans h.undefined }

/-- A name is met, and reported if it stands for nothing. -/
theorem refer {v : Visit} {role : Role} {name : Ast.Name}
    {d : Option Declaration} (hmeets : v.Meets ⟨role, name, d⟩) (hg : Grows [] s t)
    (hsize : t.syms.size = s.syms.size)
    (hundefined : t.undefinedFindings = s.undefinedFindings ++
      (Occurrence.undefined? ⟨role, name, d⟩).toList) :
    InStep g env (past ++ [v]) rest t ((Resolver.refer role name d).run n).2 where
  valid := hg.valid h.valid
  sees := h.sees.grows h.valid hg
  next := h.next.trans hsize.symm
  patterns := h.patterns
  meets := List.rel_append h.meets (.cons hmeets .nil)
  undefined := by
    rw [hundefined, h.undefined]
    show _ = (n.occurrences ++ [_]).filterMap _
    rw [List.filterMap_append]
    congr 1

/-- A variable is declared. -/
theorem declaring (name : Ast.Name) (ty : Ty) (hlocal : kind.isLocal = true) :
    InStep g ((Resolver.declare env name.text).run n).1 past rest (after (declareLocal name kind ty) s)
      ((Resolver.declare env name.text).run n).2 where
  valid := ((keeps_declareLocal name ty hlocal).grows s).valid h.valid
  sees := by
    show Sees g (env.declare name.text n.next) _
    rw [h.next]
    exact h.sees.declaring h.valid name ty hlocal
  next := by
    show n.next + 1 = _
    rw [syms_declareLocal, State.addingLocal, State.adding, Symbols.size_add, h.next]
  patterns := h.patterns
  meets := h.meets
  undefined := by
    rw [after_declareLocal]
    split
    · exact h.undefined
    · rw [State.undefinedFindings_reporting]
      exact (List.append_nil _).trans h.undefined

end InStep

namespace Follows

variable {r : Resolving β} {next : β → Env} {m : Binding α} {events events' : List Event}

variable {f : α → Binding γ} {q : β → Resolving δ} {next' : δ → Env} {act : Binding α}
    {depth : Nat → Nat}

section

variable (hm : Follows g env r next m events s)

include hm

theorem seq (hf : ∀ b, Follows g (next b) (q b) next' (f (out m s)) events' (after m s)) :
    Follows g env (r >>= q) next' (m >>= f) (events ++ events') s := by
  intro n past rest h
  rw [patterns_append, List.append_assoc] at h
  rw [visits_append, ← List.append_assoc]
  exact hf _ _ _ _ (hm n past _ h)

/-- The same where nothing happens after the first step. -/
theorem seqSilent (hf : ∀ b, Follows g (next b) (q b) next' (f (out m s)) [] (after m s)) :
    Follows g env (r >>= q) next' (m >>= f) events s := by
  have h := hm.seq hf
  rwa [List.append_nil] at h

/-- The same where the resolver has nothing to do after the step. -/
theorem thenChecks' (hf : ∀ x, Neutral (f x)) : Follows g env r next (m >>= f) events s := by
  intro n past rest h
  have := hf (out m s)
  exact (hm n past rest h).checks (f (out m s))

theorem thenChecks [∀ x, Neutral (f x)] : Follows g env r next (m >>= f) events s :=
  hm.thenChecks' inferInstance

end

theorem checks {b : β} (m : Binding α) [Neutral m] (hb : next b = env) :
    Follows g env (pure b) next m [] s := by
  intro n past rest h
  have hcheck := h.checks m
  rw [← hb] at hcheck
  exact (List.append_nil past).symm ▸ hcheck

theorem past [Neutral m] (hf : Follows g env r next (f (out m s)) events (after m s)) :
    Follows g env r next (m >>= f) events s := by
  intro n past rest h
  exact hf n past rest (h.checks m)

/-- The resolver gives what is in sight. -/
theorem returning (h : Follows g env r (fun _ => env) m events s) :
    Follows g env (r >>= fun _ => pure env) id m events s := fun n past rest hn => h n past rest hn

/-- The resolver gives nothing. -/
theorem discarding (h : Follows g env r (fun _ => env) m events s) :
    Follows g env (r >>= fun _ => pure ()) (fun _ => env) m events s :=
      fun n past rest hn => h n past rest hn

/-- A step that runs `act` from another state with the same things at hand. -/
theorem around {act : Binding γ} {u : State} (h : Follows g env r next act events u)
    (henter : ∀ {env past rest n}, InStep g env past rest s n → InStep g env past rest u n)
    (hleave : ∀ {env past rest n}, InStep g env past rest (after act u) n →
      InStep g env past rest (after m s) n) :
    Follows g env r next m events s :=
  fun n past rest hn => hleave (h n past rest (henter hn))

theorem leads (h : Follows g env r next m events s) : Leads g env r m events s :=
  fun n past rest hn => ⟨_, h n past rest hn⟩

theorem leadsTo (hm : Follows g env r next m events s)
    (hf : ∀ b, Leads g (next b) (q b) (f (out m s)) events' (after m s)) :
    Leads g env (r >>= q) (m >>= f) (events ++ events') s := by
  intro n past rest h
  rw [patterns_append, List.append_assoc] at h
  rw [visits_append, ← List.append_assoc]
  exact hf _ _ _ _ (hm n past _ h)

/-- A step that runs `act` in a scope of its own. -/
theorem within {act : Binding γ} {u : State} {inner : Env} (h : Leads g inner r act events u)
    (hkeeps : Keeps [] m)
    (henter : ∀ {past rest n}, InStep g env past rest s n → InStep g inner past rest u n)
    (hsyms : (after m s).syms = (after act u).syms)
    (hundefined : (after m s).undefinedFindings = (after act u).undefinedFindings) :
    Follows g env r (fun _ => env) m events s := by
  intro n past rest hn
  obtain ⟨env', hinner⟩ := h n past rest (henter hn)
  exact hinner.leaving hn.valid hn.sees (hkeeps.grows s) hsyms hundefined

theorem inScope {kind : ScopeKind} (h : Leads g env.opened r act events (s.opened kind))
    (hkeeps : Keeps own act) :
    Follows g env r (fun _ => env) (inScope kind act) events s :=
  within h (keeps_inScope kind hkeeps) (fun hn => hn.opened kind) rfl rfl

theorem withLoopDepth (h : Follows g env r next act events (s.inLoops (depth s.loopDepth))) :
    Follows g env r next (withLoopDepth depth act) events s :=
  h.around (fun hn => hn.congr rfl rfl rfl rfl rfl rfl) fun hn => hn.congr rfl rfl rfl rfl rfl rfl

theorem withScopeDepth (h : Follows g env r next act events (s.inScopeBlocks (depth s.scopeDepth))) :
    Follows g env r next (withScopeDepth depth act) events s :=
  h.around (fun hn => hn.congr rfl rfl rfl rfl rfl rfl) fun hn => hn.congr rfl rfl rfl rfl rfl rfl

theorem withFn {frame : FnFrame}
    (h : Follows g env r next act events (s.inFns (frame :: s.fns))) :
    Follows g env r next (withFn frame act) events s := by
  refine h.around (fun hn => hn.congr rfl rfl rfl rfl rfl rfl) fun hn => ?_
  rw [after_withFn]
  exact hn.congr rfl rfl rfl rfl rfl rfl

end Follows

end Binding

end Bindery
