import Bindery.Proofs.Binding.Lexical
import Bindery.Proofs.Binding.Rules

/-!
# What is in sight where binding stands

An environment models a state if each scope on the chain of the current one declares what the
environment says it does. `Tracks a env w env' m` says that the step `m`, started in a state that
`env` models, reports the mutable captures that the walk `w` meets and no others, and ends in a
state that `env'` models.
-/

namespace Bindery.Binding

open Lexical
open Ast (Name)

variable {α β : Type}

/-! ## Environments and states -/

/-- The variable that a symbol is, as seen from where binding stands. -/
def State.localOf? (s : State) (id : SymId) : Option Variable :=
  (s.syms.get? id).bind fun sym =>
    sym.scope.map fun c => ⟨sym.isMutable, s.captures.boundaries.countP (· ≤ c)⟩

/-- The scope declares what the frame says it does. -/
def State.Shows (s : State) (frame : List (String × Variable)) (c : ScopeId) : Prop :=
  ∃ sc, s.scopes.get? c = some sc ∧ ∀ name, frame.lookup name = (sc.varNames.get? name).bind s.localOf?

/-- The environment says what is in sight where binding stands. -/
structure Models (env : Env) (s : State) : Prop where
  depth : env.depth = s.captures.boundaries.length
  frames : List.Forall₂ s.Shows env.frames (s.scopes.chain s.current)

variable {a : Scopes} {s t : State} {c : ScopeId}

variable {frame : List (String × Variable)} {sc : Scope} {isMutable : Bool} {kind : SymKind}
    {name : Name}

theorem State.Shows.of_get? (hs : s.Valid) (h : s.Shows frame c)
    (hscopes : ∀ sc, s.scopes.get? c = some sc → t.scopes.get? c = some sc)
    (hvar : ∀ id sym, s.syms.get? id = some sym → sym.scope = some c → t.localOf? id = s.localOf? id) :
    t.Shows frame c := by
  obtain ⟨sc, hsc, hframe⟩ := h
  refine ⟨sc, hscopes sc hsc, fun name => ?_⟩
  rw [hframe]
  cases hid : sc.varNames.get? name with
  | none => rfl
  | some id =>
    obtain ⟨sym, hsym, -, hscope⟩ := hs.var_known c sc name id hsc hid
    exact (hvar id sym hsym hscope).symm

theorem State.localOf?_eq (hsyms : s.syms ≤ t.syms)
    (hboundaries : t.captures.boundaries = s.captures.boundaries) {id : SymId} {sym : Symbol}
    (hsym : s.syms.get? id = some sym) : t.localOf? id = s.localOf? id := by
  rw [State.localOf?, State.localOf?, hsym, hsyms id sym hsym, hboundaries]

/-- All lambdas being bound are around the current scope. -/
theorem State.Valid.countP_boundaries (hs : s.Valid) :
    s.captures.boundaries.countP (· ≤ s.current) = s.captures.boundaries.length :=
  List.countP_eq_length.mpr fun b hb => by
    simpa using Scopes.le_of_mem_chain hs.nested hs.current_lt (hs.boundaries b hb)

/-- The states have the same scopes, symbols and findings. -/
structure State.SameView (s t : State) : Prop where
  scopes : t.scopes = s.scopes
  syms : t.syms = s.syms
  current : t.current = s.current
  boundaries : t.captures.boundaries = s.captures.boundaries
  findings : t.findings = s.findings

theorem forall₂_imp_of_mem {R S : α → β → Prop} {l : List α} {u : List β} (h : List.Forall₂ R l u)
    (himp : ∀ a, ∀ b ∈ u, R a b → S a b) : List.Forall₂ S l u := by
  induction h with
  | nil => exact .nil
  | cons hab _ ih =>
    exact .cons (himp _ _ List.mem_cons_self hab)
      (ih fun a b hb => himp a b (List.mem_cons_of_mem _ hb))

theorem syms_declareLocal (name : Name) (kind : SymKind) (ty : Ty) (s : State) :
    (after (declareLocal name kind ty) s).syms = (s.addingLocal name.text kind ty).syms := by
  rw [after_declareLocal]
  split <;> rfl

theorem scopes_declareLocal (hsc : s.scopes.get? s.current = some sc) (name : Name) (kind : SymKind)
    (ty : Ty) :
    (after (declareLocal name kind ty) s).scopes =
      if (sc.varNames.get? name.text).isSome then s.scopes
      else s.scopes.adding .var s.current name.text s.syms.size := by
  rw [after_declareLocal, Scopes.declare_eq hsc]
  cases htaken : sc.varNames.get? name.text with
  | none => rw [show (sc.table .var).get? name.text = none from htaken]; rfl
  | some id => rw [show (sc.table .var).get? name.text = some id from htaken]; rfl

/-- What a scope has after a declaration: the new name, unless it was taken. -/
theorem exists_current_declareLocal (hsc : s.scopes.get? s.current = some sc) (name : Name)
    (kind : SymKind)
    (ty : Ty) :
    ∃ new, (after (declareLocal name kind ty) s).scopes.get? s.current = some new ∧
      ∀ x, new.varNames.get? x =
        if x = name.text then (sc.varNames.get? name.text).or (some s.syms.size)
        else sc.varNames.get? x := by
  have hscopes := scopes_declareLocal hsc name kind ty
  split at hscopes
  · next htaken =>
    obtain ⟨id, hid⟩ := Option.isSome_iff_exists.mp htaken
    refine ⟨sc, by rw [hscopes, hsc], fun x => ?_⟩
    split
    · next hx => rw [hx, hid, Option.some_or]
    · rfl
  · next hfree =>
    have hnone : sc.varNames.get? name.text = none := by simpa using hfree
    refine ⟨sc.addName .var name.text s.syms.size, ?_, fun x => ?_⟩
    · rw [hscopes, Scopes.get?_adding, if_pos rfl, hsc]
      rfl
    · have htable := Scopes.get?_table_addName sc .var .var name.text x s.syms.size
      simp only [true_and] at htable
      rw [hnone]
      exact htable

/-- The symbol of a new local is a variable of the innermost lambda. -/
theorem localOf?_declareLocal (hs : s.Valid) (name : Name) (ty : Ty) (hlocal : kind.isLocal = true)
    (hmutable : ∀ id name scope depth, (⟨id, name, kind, ty, scope, depth⟩ : Symbol).isMutable =
      isMutable) :
    (after (declareLocal name kind ty) s).localOf? s.syms.size =
      some ⟨isMutable, s.captures.boundaries.length⟩ := by
  have hg := (keeps_declareLocal name ty hlocal).grows s
  rw [State.localOf?, syms_declareLocal, State.addingLocal, State.adding, Symbols.get?_add,
    if_pos rfl, Option.bind_some, Option.map_some, hg.boundaries, hs.countP_boundaries, hmutable]

theorem State.Valid.isSome_localOf? (hs : s.Valid) (hsc : s.scopes.get? c = some sc) (name : String) :
    ((sc.varNames.get? name).bind s.localOf?).isSome = (sc.varNames.get? name).isSome := by
  cases hid : sc.varNames.get? name with
  | none => rfl
  | some id =>
    obtain ⟨sym, hsym, -, hscope⟩ := hs.var_known c sc name id hsc hid
    simp [State.localOf?, hsym, hscope]

/-- The current scope declares a new local unless it has one of that name. -/
theorem State.Shows.declaring (h : s.Shows frame s.current) (hs : s.Valid) (name : Name) (ty : Ty)
    (hlocal : kind.isLocal = true)
    (hmutable : ∀ id name scope depth, (⟨id, name, kind, ty, scope, depth⟩ : Symbol).isMutable =
      isMutable) :
    (after (declareLocal name kind ty) s).Shows
      (if (frame.lookup name.text).isSome then frame
        else (name.text, ⟨isMutable, s.captures.boundaries.length⟩) :: frame) s.current := by
  obtain ⟨sc, hsc, hframe⟩ := h
  have hg := (keeps_declareLocal name ty hlocal).grows s
  have hold : ∀ x, (sc.varNames.get? x).bind s.localOf? =
      (sc.varNames.get? x).bind (after (declareLocal name kind ty) s).localOf? := by
    intro x
    cases hid : sc.varNames.get? x with
    | none => rfl
    | some id =>
      obtain ⟨sym, hsym, -, -⟩ := hs.var_known _ sc x id hsc hid
      exact (State.localOf?_eq hg.syms hg.boundaries hsym).symm
  obtain ⟨new, hnew, hnames⟩ := exists_current_declareLocal hsc name kind ty
  refine ⟨new, hnew, fun x => ?_⟩
  rw [hnames, hframe, hs.isSome_localOf? hsc]
  cases hid : sc.varNames.get? name.text with
  | some id =>
    rw [Option.isSome_some, if_pos (Eq.refl true), hframe, hold, Option.some_or, ← hid]
    split
    · next hx => rw [hx]
    · rfl
  | none =>
    rw [Option.isSome_none, if_neg Bool.false_ne_true, List.lookup_cons]
    by_cases hx : x = name.text
    · simp [hx, localOf?_declareLocal hs name ty hlocal hmutable]
    · rw [if_neg hx, beq_false_of_ne hx]
      exact (hframe x).trans (hold x)

namespace Models

variable {env : Env} {s t : State} {own : List String}

variable (h : Models env s)

include h

theorem lookup_eq (hs : s.Valid) (name : String) :
    env.lookup name = (s.scopes.lookup .var s.current name).bind s.localOf? := by
  have hframes := h.frames
  rw [Env.lookup, Scopes.lookup_eq_findSome?, Scopes.ancestors]
  generalize env.frames = frames at hframes ⊢
  generalize s.scopes.chain s.current = cs at hframes ⊢
  induction hframes with
  | nil => rfl
  | @cons frame c frames cs hshows _ ih =>
    obtain ⟨sc, hsc, hframe⟩ := hshows
    rw [List.findSome?_cons, List.filterMap_cons, hsc, hframe]
    simp only [List.findSome?_cons]
    cases hid : sc.varNames.get? name with
    | none =>
      rw [show (sc.table .var).get? name = none from hid]
      exact ih
    | some id =>
      obtain ⟨sym, hsym, -, hscope⟩ := hs.var_known c sc name id hsc hid
      rw [show (sc.table .var).get? name = some id from hid]
      simp [State.localOf?, hsym, hscope]

/-- Steps that declare nothing where they stand keep what is in sight. -/
theorem grows (hs : s.Valid) (hg : Grows [] s t) : Models env t where
  depth := by rw [h.depth, hg.boundaries]
  frames := by
    rw [hg.current, Scopes.chain_eq_of_agrees hs.nested (hg.valid hs).nested hg.scopes.agrees
      hs.current_lt]
    exact h.frames.imp fun frame c hshows =>
      hshows.of_get? hs (fun sc hsc => hg.scopes.get?_of_nil hsc)
      fun id sym hsym _ => State.localOf?_eq hg.syms hg.boundaries hsym

theorem congr (hscopes : t.scopes = s.scopes) (hcurrent : t.current = s.current)
    (hboundaries : t.captures.boundaries = s.captures.boundaries) (hvar : t.localOf? = s.localOf?) :
    Models env t where
  depth := by rw [h.depth, hboundaries]
  frames := by
    have hshows : t.Shows = s.Shows := by
      funext frame c
      rw [State.Shows, State.Shows, hscopes, hvar]
    rw [hscopes, hcurrent, hshows]
    exact h.frames

theorem sameView (hview : s.SameView t) : Models env t := by
  refine h.congr hview.scopes hview.current hview.boundaries ?_
  funext id
  rw [State.localOf?, State.localOf?, hview.syms, hview.boundaries]

theorem opened (hs : s.Valid) (kind : ScopeKind) : Models env.opened (s.opened kind) where
  depth := h.depth
  frames := by
    rw [hs.chain_opened kind]
    refine .cons ⟨_, Scopes.get?_push_size s.scopes s.current kind, fun name => rfl⟩ ?_
    refine h.frames.imp fun frame c hshows => hshows.of_get? hs (fun sc hsc => ?_) fun _ _ _ _ => rfl
    exact (Scopes.get?_push_of_lt s.current kind (Scopes.get?_eq_some_lt hsc)).trans hsc

theorem entering (hs : s.Valid) : Models env.entered s.enteringLambda where
  depth := congrArg (· + 1) h.depth
  frames := by
    show List.Forall₂ _ ([] :: env.frames) ((s.opened .lambda).scopes.chain (s.opened .lambda).current)
    rw [hs.chain_opened .lambda]
    refine .cons ⟨_, Scopes.get?_push_size s.scopes s.current .lambda, fun name => rfl⟩ ?_
    refine h.frames.imp fun frame c hshows => ?_
    have hc : c < s.scopes.size := by
      obtain ⟨sc, hsc, -⟩ := hshows
      exact Scopes.get?_eq_some_lt hsc
    refine hshows.of_get? hs (fun sc hsc => ?_) fun id sym hsym hscope => ?_
    · exact (Scopes.get?_push_of_lt s.current .lambda hc).trans hsc
    · -- The new lambda does not contain the scope of an older declaration.
      show (s.syms.get? id).bind _ = (s.syms.get? id).bind _
      rw [hsym]
      simp only [Option.bind_some, hscope, Option.map_some]
      have hboundaries : s.enteringLambda.captures.boundaries =
        s.scopes.size :: s.captures.boundaries := rfl
      rw [hboundaries, List.countP_cons_of_neg (by simpa using hc)]

/-- A variable declared where binding stands is in sight from there, unless the scope has one of
that name. -/
theorem declaring (hs : s.Valid) (name : Name) (ty : Ty) (hlocal : kind.isLocal = true)
    (hmutable : ∀ id name scope depth, (⟨id, name, kind, ty, scope, depth⟩ : Symbol).isMutable =
      isMutable) :
    Models (env.declare isMutable name.text) (Binding.after (declareLocal name kind ty) s) := by
  have hg := (keeps_declareLocal name ty hlocal).grows s
  obtain ⟨frames, depth⟩ := env
  obtain ⟨hdepth, hframes⟩ := h
  obtain ⟨rest, hchain, hlt⟩ := Scopes.exists_chain_eq_cons hs.nested hs.current_lt
  have hchain' := Scopes.chain_eq_of_agrees hs.nested (hg.valid hs).nested hg.scopes.agrees
    hs.current_lt
  rw [hchain] at hframes
  cases hframes with
  | @cons frame _ frames _ hcurrent hrest =>
    rw [Env.declare_mk]
    refine ⟨hdepth.trans (congrArg List.length hg.boundaries.symm), ?_⟩
    rw [hg.current, hchain', hchain]
    refine .cons ?_ ?_
    · rw [show depth = s.captures.boundaries.length from hdepth]
      exact hcurrent.declaring hs name ty hlocal hmutable
    · refine forall₂_imp_of_mem hrest fun frame c hc hshows => hshows.of_get? hs (fun sc hsc => ?_) ?_
      · exact hg.scopes.get?_of_ne hsc (Nat.ne_of_lt (hlt c hc))
      · exact fun id sym hsym _ => State.localOf?_eq hg.syms hg.boundaries hsym

end Models

/-! ## Steps that track a walk -/

/-- The scopes that were opened between the two states are as the arena has them. -/
def Settled (a : Scopes) (s t : State) : Prop :=
  ∀ k : Nat, s.scopes.size ≤ k → k < t.scopes.size → a.get? k = t.scopes.get? k

/-- Between the two states the scopes of the walk were opened and its mutable captures found. -/
structure Walks (w : Walk) (s t : State) : Prop where
  next : (w s.scopes.size).next = t.scopes.size
  findings : t.captureFindings = s.captureFindings ++
    ((w s.scopes.size).mentions.filter Mention.isMutableCapture).map Mention.finding

/-- The step follows the walk, from what `env` has in sight to what `env'` has in sight. -/
structure Tracks (a : Scopes) (env : Env) (w : Walk) (env' : Env) (m : Binding α) : Prop where
  grows : ∀ s, ∃ own, Grows own s (after m s)
  step : ∀ s, s.Valid → Models env s → Settled a s (after m s) → Walks w s (after m s) ∧
    Models env' (after m s)

theorem Settled.split {u : State} {own : List String} {n : Nat} (hcurrent : u.current < s.scopes.size)
    (hle : s.scopes.size ≤ u.scopes.size) (hscopes : u.scopes.Grows own n u.current t.scopes)
    (h : Settled a s t) :
    Settled a s u ∧ Settled a u t := by
  refine ⟨fun k hk hk' => ?_, fun k hk hk' => h k (Nat.le_trans hle hk) hk'⟩
  obtain ⟨sc, hsc⟩ := Scopes.exists_get?_of_lt hk'
  rw [h k hk (Nat.lt_of_lt_of_le hk' hscopes.size_le), hsc]
  exact hscopes.get?_of_ne hsc (Nat.ne_of_gt (Nat.lt_of_lt_of_le hcurrent hk))

theorem Settled.split_grows {u : State} {own own' : List String} (hs : s.Valid) (hsu : Grows own s u)
    (hut : Grows own' u t) (h : Settled a s t) : Settled a s u ∧ Settled a u t :=
  h.split (hsu.current ▸ hs.current_lt) hsu.scopes.size_le hut.scopes

namespace Walks

variable {w w' : Walk} {s u t : State}

theorem andThen (h : Walks w s u) (h' : Walks w' u t) : Walks (w.andThen w') s t where
  next := by rw [Walk.andThen, h.next, h'.next]
  findings := by
    rw [h'.findings, h.findings, Walk.andThen, h.next, List.filter_append, List.map_append,
      List.append_assoc]

end Walks

namespace Tracks

variable {a : Scopes} {env env' env'' : Env} {w w' : Walk}

variable {m : Binding α} {f : α → Binding β}

theorem seq (hm : Tracks a env w env' m) (hf : ∀ x, Tracks a env' w' env'' (f x)) :
    Tracks a env (w.andThen w') env'' (m >>= f) where
  grows s := by
    obtain ⟨own, hsu⟩ := hm.grows s
    obtain ⟨own', hut⟩ := (hf (out m s)).grows (after m s)
    exact ⟨own ++ own', (hsu.mono fun n hn => List.mem_append_left _ hn).trans
      (hut.mono fun n hn => List.mem_append_right _ hn)⟩
  step s hs hmodels hsettled := by
    obtain ⟨own, hsu⟩ := hm.grows s
    obtain ⟨own', hut⟩ := (hf (out m s)).grows (after m s)
    obtain ⟨hfirst, hsecond⟩ := hsettled.split_grows hs hsu hut
    obtain ⟨hwalks, hmodels'⟩ := hm.step s hs hmodels hfirst
    obtain ⟨hwalks', hmodels''⟩ := (hf (out m s)).step _ (hsu.valid hs) hmodels' hsecond
    exact ⟨hwalks.andThen hwalks', hmodels''⟩

/-- A step that declares nothing where it stands keeps the environment. -/
theorem of_keeps (hm : Keeps [] m)
    (h : ∀ s, s.Valid → Models env s → Settled a s (after m s) → Walks w s (after m s)) :
    Tracks a env w env m where
  grows s := ⟨[], hm.grows s⟩
  step s hs hmodels hsettled := ⟨h s hs hmodels hsettled, hmodels.grows hs (hm.grows s)⟩

theorem checks (m : Binding α) [hm : Checks m] : Tracks a env .nothing env m :=
  of_keeps inferInstance fun s _ _ _ => by
    refine ⟨?_, by simp [Checks.captureFindings_eq, Walk.nothing]⟩
    obtain ⟨fs, -, hs⟩ := hm.after_eq s
    rw [hs]
    rfl

theorem checksThen [Checks m] (hf : ∀ x, Tracks a env w env' (f x)) :
    Tracks a env w env' (m >>= f) := (checks m).seq hf

theorem reportThen {range : Range} {p : Problem} {f : Unit → Binding β}
    (hp : (⟨range, p⟩ : Finding).isCapture = false) (hf : ∀ x, Tracks a env w env' (f x)) :
    Tracks a env w env' (report range p >>= f) :=
  have := Checks.report range hp
  checksThen hf

/-- The same where what follows may depend on the answer of the check. -/
theorem checksBind [hm : Checks m] (hgrows : ∀ x s, ∃ own, Grows own s (after (f x) s))
    (hf : ∀ s, s.Valid → Models env s → Tracks a env w env' (f (out m s))) :
    Tracks a env w env' (m >>= f) where
  grows s := by
    obtain ⟨own, hg⟩ := hgrows (out m s) (after m s)
    exact ⟨own, (Keeps.grows own m s).trans hg⟩
  step s hs hmodels hsettled := by
    have hg := Keeps.grows [] m s
    obtain ⟨own, hg'⟩ := hgrows (out m s) (after m s)
    obtain ⟨hfirst, hsecond⟩ := hsettled.split_grows hs hg hg'
    obtain ⟨hwalks, hmodels'⟩ := (checks m).step s hs hmodels hfirst
    obtain ⟨hwalks', hmodels''⟩ := (hf s hs hmodels).step _ (hg.valid hs) hmodels' hsecond
    exact ⟨hwalks.andThen hwalks', hmodels''⟩

theorem thenChecks' (hm : Tracks a env w env' m) (hf : ∀ x, Checks (f x)) :
    Tracks a env w env' (m >>= f) := by
  have h := hm.seq fun x => @checks _ a env' (f x) (hf x)
  rwa [Walk.andThen_nothing] at h

theorem thenChecks (hm : Tracks a env w env' m) [∀ x, Checks (f x)] : Tracks a env w env' (m >>= f) :=
  hm.thenChecks' inferInstance

end Tracks

/-! ## References -/

theorem after_resolveVar_of_none (h : s.scopes.lookup .var s.current name.text = none) :
    after (resolveVar name) s = s := by
  rw [resolveVar, after_bind, out_lookup, h]
  rfl

theorem after_resolveVar_of_some {id : SymId} {sym : Symbol}
    (h : s.scopes.lookup .var s.current name.text = some id) (hsym : s.syms.get? id = some sym)
    (hscope : sym.scope = some c) :
    after (resolveVar name) s =
      after (reportUnless ((s.captures.observe s.scopes id c sym.isMutable).1 != .mutableCapture)
        name.range (.mutableCapture name.text))
        (s.capturing (s.captures.observe s.scopes id c sym.isMutable).2) := by
  rw [resolveVar, after_bind, after_lookup, out_lookup, h]
  rw [after_bind, out_get, hsym]
  dsimp only
  rw [hscope]
  rfl

/-- A lambda refuses a reference to a variable that is mutable and declared outside it. -/
theorem Captures.observe_eq_mutableCapture_iff (hs : s.Valid) (hc : c ∈ s.scopes.chain s.current)
    (id : SymId)
    (isMutable : Bool) :
    (s.captures.observe s.scopes id c isMutable).1 = .mutableCapture ↔
      isMutable = true ∧ s.captures.boundaries.countP (· ≤ c) < s.captures.boundaries.length := by
  have hany : (s.captures.frames.any fun f => s.scopes.isFree c f.boundary) = true ↔
      s.captures.boundaries.countP (· ≤ c) < s.captures.boundaries.length := by
    have hfree : ∀ b ∈ s.captures.boundaries, s.scopes.isFree c b = true ↔ ¬ b ≤ c := by
      intro b hb
      rw [Scopes.isFree, Scopes.isWithin, Bool.not_eq_true', List.contains_eq_mem,
        decide_eq_false_iff_not,
        Scopes.mem_chain_iff_le hs.nested hs.current_lt (hs.boundaries b hb) hc]
    have hsome : (∃ b ∈ s.captures.boundaries, ¬ b ≤ c) ↔
        s.captures.boundaries.countP (· ≤ c) ≠ s.captures.boundaries.length := by
      simp
    rw [Nat.lt_iff_le_and_ne, ← hsome, List.any_eq_true]
    constructor
    · rintro ⟨f, hf, h⟩
      have hb : f.boundary ∈ s.captures.boundaries := List.mem_map_of_mem hf
      exact ⟨List.countP_le_length, f.boundary, hb, (hfree _ hb).mp h⟩
    · rintro ⟨-, b, hb, h⟩
      obtain ⟨f, hf, rfl⟩ := List.mem_map.mp hb
      exact ⟨f, hf, (hfree _ hb).mpr h⟩
  unfold Captures.observe
  split
  · next h => cases isMutable <;> simp [hany.mp h]
  · next h => simp [← hany, h]

theorem tracks_resolveVar {env : Env} (name : Name) :
    Tracks a env (.refer env name) env (resolveVar name) :=
  .of_keeps inferInstance fun s hs hmodels _ => by
    have hlookup := hmodels.lookup_eq hs name.text
    cases h : s.scopes.lookup .var s.current name.text with
    | none =>
      rw [after_resolveVar_of_none h]
      rw [h] at hlookup
      refine ⟨rfl, ?_⟩
      simp [Walk.refer, hlookup]
    | some id =>
      obtain ⟨c, sc, hc, hsc, hid⟩ := Scopes.exists_of_lookup h
      obtain ⟨sym, hsym, -, hscope⟩ := hs.var_known c sc name.text id hsc hid
      have hobserve := Captures.observe_eq_mutableCapture_iff hs hc id sym.isMutable
      rw [after_resolveVar_of_some h hsym hscope, after_reportUnless]
      rw [h, Option.bind_some, State.localOf?, hsym, Option.bind_some, hscope,
        Option.map_some] at hlookup
      rw [← hmodels.depth] at hobserve
      refine ⟨rfl, ?_⟩
      rw [State.captureFindings_reporting, Walk.refer, hlookup]
      show s.captureFindings ++ _ = s.captureFindings ++ _
      generalize (s.captures.observe s.scopes id c sym.isMutable).1 = reference at hobserve ⊢
      generalize hvar : (⟨sym.isMutable, s.captures.boundaries.countP (· ≤ c)⟩ : Variable) = target
      have hmention : (⟨name, target, env.depth⟩ : Mention).isMutableCapture = true ↔
        reference = .mutableCapture := by
        rw [hobserve, ← hvar]
        simp [Mention.isMutableCapture]
      by_cases hcapture : reference = .mutableCapture
      · simp [hcapture, hmention.mpr hcapture, Mention.finding, Finding.isCapture]
      · simp [hcapture, mt hmention.mp hcapture]

/-! ## Going in and out -/

namespace Tracks

variable {a : Scopes} {env env' : Env} {w : Walk} {act : Binding α} {m : Binding β}

section

variable (h : Tracks a env w env' act)

include h

/-- A step that runs `act` in a state with the same scopes and symbols. -/
theorem wrapping (hgrows : ∀ s, ∃ own, Grows own s (after m s))
    (hsame : ∀ s, ∃ s', State.SameView s s' ∧ State.SameView (after act s') (after m s)) :
    Tracks a env w env' m where
  grows := hgrows
  step s hs hmodels hsettled := by
    obtain ⟨s', hin, hout⟩ := hsame s
    have hs' : s'.Valid := hs.congr hin.syms hin.scopes hin.current hin.boundaries
    have hsettled' : Settled a s' (after act s') := by
      rw [Settled, hout.scopes, ← hin.scopes] at hsettled
      exact hsettled
    obtain ⟨hwalks, hmodels'⟩ := h.step s' hs' (hmodels.sameView hin) hsettled'
    refine ⟨⟨?_, ?_⟩, hmodels'.sameView hout⟩
    · rw [hout.scopes, ← hwalks.next, hin.scopes]
    · have hfindings := hwalks.findings
      rw [hin.scopes, State.captureFindings, State.captureFindings, hin.findings] at hfindings
      rw [State.captureFindings, hout.findings]
      exact hfindings

theorem withLoopDepth (depth : Nat → Nat) : Tracks a env w env' (withLoopDepth depth act) := by
  refine h.wrapping (fun s => ?_) fun s =>
    ⟨s.inLoops (depth s.loopDepth), ⟨rfl, rfl, rfl, rfl, rfl⟩, ?_⟩
  · obtain ⟨own, hg⟩ := h.grows (s.inLoops (depth s.loopDepth))
    exact ⟨own, hg.withLoopDepth⟩
  · exact ⟨rfl, rfl, rfl, rfl, rfl⟩

theorem withScopeDepth (depth : Nat → Nat) : Tracks a env w env' (withScopeDepth depth act) := by
  refine h.wrapping (fun s => ?_) fun s =>
    ⟨s.inScopeBlocks (depth s.scopeDepth), ⟨rfl, rfl, rfl, rfl, rfl⟩, ?_⟩
  · obtain ⟨own, hg⟩ := h.grows (s.inScopeBlocks (depth s.scopeDepth))
    exact ⟨own, hg.withScopeDepth⟩
  · exact ⟨rfl, rfl, rfl, rfl, rfl⟩

theorem withGenerics (names : List String) : Tracks a env w env' (withGenerics names act) := by
  refine h.wrapping (fun s => ?_) fun s => ⟨s.naming names, ⟨rfl, rfl, rfl, rfl, rfl⟩, ?_⟩
  · obtain ⟨own, hg⟩ := h.grows (s.naming names)
    exact ⟨own, hg.withGenerics⟩
  · exact ⟨rfl, rfl, rfl, rfl, rfl⟩

theorem withFn (frame : FnFrame) : Tracks a env w env' (withFn frame act) := by
  refine h.wrapping (fun s => ?_) fun s =>
    ⟨s.inFns (frame :: s.fns), ⟨rfl, rfl, rfl, rfl, rfl⟩, ?_⟩
  · obtain ⟨own, hg⟩ := h.grows (s.inFns (frame :: s.fns))
    rw [after_withFn]
    exact ⟨own, hg.withFn⟩
  · rw [after_withFn]
    exact ⟨rfl, rfl, rfl, rfl, rfl⟩

end

/-- A step in a new scope. What it does there may depend on the number of the scope. -/
theorem inScope_of {kind : ScopeKind} {w : Nat → Walk} (hkeeps : Keeps [] (inScope kind act))
    (h : ∀ s, s.Valid → Models env s → Settled a s ((after act (s.opened kind)).at s.current) →
      Walks (w s.scopes.size) (s.opened kind) (after act (s.opened kind))) :
    Tracks a env (.inScope w) env (inScope kind act) :=
  .of_keeps hkeeps fun s hs hmodels hsettled => by
    obtain ⟨hnext, hfindings⟩ := h s hs hmodels hsettled
    have hsize : (s.opened kind).scopes.size = s.scopes.size + 1 := Scopes.size_push _ _ _
    rw [hsize] at hnext hfindings
    exact ⟨hnext, hfindings⟩

theorem inScope (h : Tracks a env.opened w env' act) (kind : ScopeKind) :
    Tracks a env (.inScope fun _ => w) env (inScope kind act) := by
  refine inScope_of ⟨fun s => ?_⟩ fun s hs hmodels hsettled => ?_
  · obtain ⟨own, hg⟩ := h.grows (s.opened kind)
    exact hg.inScope
  · refine (h.step _ (hs.opened kind) (hmodels.opened hs kind) ?_).1
    have hsize : (s.opened kind).scopes.size = s.scopes.size + 1 := Scopes.size_push _ _ _
    exact fun k hk hk' => hsettled k (by omega) hk'

end Tracks

end Bindery.Binding
