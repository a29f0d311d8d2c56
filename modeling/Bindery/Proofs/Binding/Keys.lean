import Mathlib.Data.Set.Function
import Bindery.Proofs.Run
import Bindery.Proofs.Scope.Growth

/-!
# Names under other keys

A bind may know names by any keys that tell them apart. Over an arena with other keys a step does
what it does over an arena in which names are their own keys: `Alike w m m'` says this of the two
forms `m` and `m'` of a step.

Most rules of binding never look at the arena, so that their two forms agree by instance search. The
names that a step looks up or declares have to be in the `Vocabulary`.
-/

namespace Bindery

/-- Names that a bind may meet. Their keys tell them apart. -/
structure Vocabulary (κ : Type) [Keyed κ] where
  names : Set String
  key_injOn : Set.InjOn (Keyed.key : String → κ) names

variable {κ : Type} [Keyed κ] [DecidableEq κ] {w : Vocabulary κ}

/-! ## Scopes -/

/-- The second scope is the first one with its names under their keys. -/
structure Scope.Rekeyed (w : Vocabulary κ) (sc : Scope) (sc' : Scope κ) : Prop where
  parent : sc'.parent = sc.parent
  depth : sc'.depth = sc.depth
  table : ∀ space, ∀ name ∈ w.names, (sc'.table space).get? (Keyed.key name) = (sc.table space).get?
    name

theorem Scope.rekeyed_fresh (kind : ScopeKind) (p : Option ScopeId) (depth : Nat) :
    (fresh kind p depth).Rekeyed w (fresh kind p depth) :=
  ⟨rfl, rfl, fun space _ _ => by cases space <;> rfl⟩

variable {name : String}

theorem Scope.Rekeyed.addName {sc : Scope} {sc' : Scope κ} (h : sc.Rekeyed w sc') (space : NameSpace)
    (hname : name ∈ w.names) (v : SymId) :
    (sc.addName space name v).Rekeyed w (sc'.addName space (Keyed.key name) v) := by
  refine ⟨?_, ?_, fun space' n hn => ?_⟩
  · cases space <;> exact h.parent
  · cases space <;> exact h.depth
  · simp only [Scopes.get?_table_addName, w.key_injOn.eq_iff hn hname, h.table space' n hn]

/-- The second arena has the scopes of the first one, with their names under their keys. -/
def Scopes.Rekeyed (w : Vocabulary κ) (a : Scopes) (a' : Scopes κ) : Prop :=
  ∀ id, Option.Rel (Scope.Rekeyed w) (a.get? id) (a'.get? id)

theorem Scopes.rekeyed_initial : Scopes.initial.Rekeyed w Scopes.initial
  | 0 => .some (Scope.rekeyed_fresh .root none 0)
  | _ + 1 => .none

namespace Scopes.Rekeyed

variable {a : Scopes} {a' : Scopes κ}

variable (h : a.Rekeyed w a')

include h

/-- What is the same of two scopes is read off both arenas. -/
theorem congr {β : Type} {F : Option Scope → β} {G : Option (Scope κ) → β}
    (hnone : G none = F none) (hsome : ∀ {sc sc'}, sc.Rekeyed w sc' → G (some sc') = F (some sc))
    (id : ScopeId) :
    G (a'.get? id) = F (a.get? id) := by
  have hid := h id
  generalize a.get? id = sc at hid
  generalize a'.get? id = sc' at hid
  cases hid with
  | none => exact hnone
  | some hsc => exact hsome hsc

theorem size_eq : a'.size = a.size := by
  -- an arena ends where its numbers have no scopes any more
  have hsize : ∀ id : Nat, a'.size ≤ id ↔ a.size ≤ id := by
    intro id
    have hid := h.congr (F := (· = none)) (G := (· = none)) (by simp) (by simp) id
    simpa [get?, size] using hid
  exact Nat.le_antisymm ((hsize a.size).mpr (Nat.le_refl _)) ((hsize a'.size).mp (Nat.le_refl _))

theorem parent? (id : ScopeId) : a'.parent? id = a.parent? id :=
  h.congr (F := (·.bind Scope.parent)) (G := (·.bind Scope.parent)) rfl (fun hsc => hsc.parent) id

theorem depth (id : ScopeId) : a'.depth id = a.depth id :=
  h.congr (F := fun sc => (sc.map Scope.depth).getD 0) (G := fun sc => (sc.map Scope.depth).getD 0) rfl
    (fun hsc => hsc.depth) id

theorem chain (id : ScopeId) : a'.chain id = a.chain id := by
  have hchain : ∀ fuel id, a'.chainUpTo fuel id = a.chainUpTo fuel id := by
    intro fuel
    induction fuel with
    | zero => exact fun _ => rfl
    | succ fuel ih =>
      intro id
      rw [chainUpTo, chainUpTo, h.parent?]
      cases a.parent? id with
      | none => rfl
      | some p => exact congrArg _ (ih p)
  rw [Scopes.chain, Scopes.chain, h.size_eq, hchain]

/-- A name stands for the same in both arenas. -/
theorem lookup (space : NameSpace) (id : ScopeId) (hname : name ∈ w.names) :
    a'.lookup space id name = a.lookup space id name := by
  rw [Scopes.lookup, Scopes.lookup, ancestors, ancestors, h.chain]
  induction a.chain id with
  | nil => rfl
  | cons c cs ih =>
    have hc := h c
    rw [List.filterMap_cons, List.filterMap_cons]
    generalize a.get? c = sc at hc
    generalize a'.get? c = sc' at hc
    cases hc with
    | none => exact ih
    | some hsc =>
      rw [List.findSome?_cons, List.findSome?_cons, ih, hsc.table space name hname]
      rfl

theorem isFree (declaring boundary : ScopeId) :
    a'.isFree declaring boundary = a.isFree declaring boundary := by
  rw [Scopes.isFree, Scopes.isFree, isWithin, isWithin, h.chain]

theorem observe (c : Captures) (symbol : SymId) (declaring : ScopeId) (isMutable : Bool) :
    c.observe a' symbol declaring isMutable = c.observe a symbol declaring isMutable := by
  simp only [Captures.observe, h.isFree]

theorem push (p : ScopeId) (kind : ScopeKind) : (a.push p kind).2.Rekeyed w (a'.push p kind).2 := by
  have hdepth := h.congr (F := fun sc => (sc.map (·.depth + 1)).getD 0)
    (G := fun sc => (sc.map (·.depth + 1)).getD 0)
    rfl (fun hsc => congrArg (· + 1) hsc.depth) p
  intro id
  rcases Nat.lt_trichotomy id a.size with hlt | rfl | hgt
  · rw [get?_push_of_lt p kind hlt, get?_push_of_lt p kind (h.size_eq ▸ hlt)]
    exact h id
  · rw [get?_push_size, ← h.size_eq, get?_push_size, hdepth]
    exact .some (Scope.rekeyed_fresh kind (some p) _)
  · have hnone : ∀ {κ : Type} (b : Scopes κ), b.size < id → (b.push p kind).2.get? id = none :=
      fun b hb => Array.getElem?_eq_none (by rw [Scopes.push, Array.size_push]; exact hb)
    rw [hnone a hgt, hnone a' (h.size_eq ▸ hgt)]
    exact .none

theorem adding (space : NameSpace) (c : ScopeId) (hname : name ∈ w.names) (v : SymId) :
    (a.adding space c name v).Rekeyed w (a'.adding space c (Keyed.key name) v) := by
  intro id
  rw [get?_adding, get?_adding]
  have hid := h id
  split
  · generalize a.get? id = sc at hid
    generalize a'.get? id = sc' at hid
    cases hid with
    | none => exact .none
    | some hsc => exact .some (hsc.addName space hname v)
  · exact hid

end Scopes.Rekeyed

namespace Binding

variable {α β : Type}

/-! ## Steps -/

/-- The state over another arena of scopes. -/
@[reducible]
def State.over (s : State) (a : Scopes κ) : State κ := { s with scopes := a }

/-- The second step does over an arena with other keys what the first one does. -/
class Alike (w : Vocabulary κ) (m : Binding α) (m' : BindingOver κ α) : Prop where
  run : ∀ s a, s.scopes.Rekeyed w a → ∃ b, (after m s).scopes.Rekeyed w b ∧
    out m' (s.over a) = out m s ∧ after m' (s.over a) = (after m s).over b

/-- The step does over other keys what it does over names. -/
abbrev Uniform (w : Vocabulary κ) (m : ∀ (κ : Type) [Keyed κ] [DecidableEq κ], BindingOver κ α) :
    Prop :=
  Alike w (m String) (m κ)

namespace Alike

/-- A step that leaves the arena alone. -/
theorem of_eq {m : Binding α} {m' : BindingOver κ α}
    (h : ∀ s a, after m' (s.over a) = (after m s).over a)
    (hscopes : ∀ s, (after m s).scopes = s.scopes)
    (hout : ∀ s (a : Scopes κ), out m' (s.over a) = out m s) :
    Alike w m m' where
  run s a ha := ⟨a, by rwa [hscopes], hout s a, h s a⟩

instance pure (a : α) : Alike w (pure a) (pure a) :=
  of_eq (fun _ _ => rfl) (fun _ => rfl) fun _ _ => rfl

theorem seq {m : Binding α} {m' : BindingOver κ α} {f : α → Binding β} {f' : α → BindingOver κ β}
    (hm : Alike w m m')
    (hf : ∀ a, Alike w (f a) (f' a)) : Alike w (m >>= f) (m' >>= f') where
  run s a ha := by
    obtain ⟨b, hb, hout, hafter⟩ := hm.run s a ha
    obtain ⟨c, hc, hout', hafter'⟩ := (hf (out m s)).run (after m s) b hb
    refine ⟨c, hc, ?_, ?_⟩
    · rw [out_bind, out_bind, hout, hafter, hout']
    · rw [after_bind, after_bind, hout, hafter, hafter']

instance bind (m : Binding α) (m' : BindingOver κ α) (f : α → Binding β) (f' : α → BindingOver κ β)
    [hm : Alike w m m'] [hf : ∀ a, Alike w (f a) (f' a)] : Alike w (m >>= f) (m' >>= f') := seq hm hf

/-- A step that reads the state first. -/
theorem reading {f : State → Binding β} {f' : State κ → BindingOver κ β}
    (h : ∀ s a, s.scopes.Rekeyed w a → Alike w (f s) (f' (s.over a))) :
    Alike w (get >>= f) (get >>= f') where
  run s a ha := (h s a ha).run s a ha

instance get_bind (f : State → Binding β) (f' : State κ → BindingOver κ β)
    [h : ∀ s a, Alike w (f s) (f' (s.over a))] : Alike w (get >>= f) (get >>= f') :=
      reading fun s a _ => h s a

theorem set {s : State} {a : Scopes κ} (h : s.scopes.Rekeyed w a) :
    Alike w (set s) (set (s.over a)) where
  run _ _ _ := ⟨a, h, rfl, rfl⟩

instance ite (c : Prop) [Decidable c] (m n : Binding α) (m' n' : BindingOver κ α) [hm : Alike w m m']
    [hn : Alike w n n'] : Alike w (if c then m else n) (if c then m' else n') := by
  split
  · exact hm
  · exact hn

instance discard (m : Binding α) (m' : BindingOver κ α) [hm : Alike w m m'] :
    Alike w (discard m) (discard m') where
  run s a ha := by
    obtain ⟨b, hb, -, hafter⟩ := hm.run s a ha
    exact ⟨b, hb, rfl, hafter⟩

instance report (range : Range) (p : Problem) : Uniform w fun _ => report range p :=
  of_eq (fun _ _ => rfl) (fun _ => rfl) fun _ _ => rfl

instance reportUnless (ok : Bool) (range : Range) (p : Problem) :
    Uniform w fun _ => reportUnless ok range p := by
  unfold Binding.reportUnless
  infer_instance

instance addSymbol (name : String) (kind : SymKind) (ty : Ty) (scope : Option ScopeId) (depth : Nat) :
    Uniform w fun _ => addSymbol name kind ty scope depth :=
  of_eq (fun _ _ => rfl) (fun _ => rfl) fun _ _ => rfl

variable (symbol : SymId) (space : NameSpace)

instance tyOf : Uniform w fun _ => tyOf symbol :=
  of_eq (fun _ _ => rfl) (fun _ => rfl) fun _ _ => rfl

/-! ## Places in the program -/

section

variable (m : Binding α) (m' : BindingOver κ α) [hm : Alike w m m']

instance inScope (kind : ScopeKind) : Alike w (inScope kind m) (inScope kind m') where
  run s a ha := by
    -- the arenas have equally many scopes, so that the new one has the same number in both
    have hopened : (s.over a).opened kind = (s.opened kind).over (a.push s.current kind).2 := by
      simp only [State.opened, State.over, ha.size_eq]
    obtain ⟨b, hb, hout, hafter⟩ :=
      hm.run (s.opened kind) (a.push s.current kind).2 (ha.push s.current kind)
    refine ⟨b, hb, ?_, ?_⟩
    · rw [out_inScope, out_inScope, hopened, hout]
    · rw [after_inScope, hopened, hafter]
      rfl

instance withGenerics (names : List String) :
    Alike w (withGenerics names m) (withGenerics names m') where
  run s a ha := by
    obtain ⟨b, hb, hout, hafter⟩ := hm.run (s.naming names) a ha
    exact ⟨b, hb, hout, congrArg (State.naming · s.generics) hafter⟩

instance withLoopDepth (depth : Nat → Nat) :
    Alike w (withLoopDepth depth m) (withLoopDepth depth m') where
  run s a ha := by
    obtain ⟨b, hb, hout, hafter⟩ := hm.run (s.inLoops (depth s.loopDepth)) a ha
    exact ⟨b, hb, hout, congrArg (State.inLoops · s.loopDepth) hafter⟩

instance withScopeDepth (depth : Nat → Nat) :
    Alike w (withScopeDepth depth m) (withScopeDepth depth m') where
  run s a ha := by
    obtain ⟨b, hb, hout, hafter⟩ := hm.run (s.inScopeBlocks (depth s.scopeDepth)) a ha
    exact ⟨b, hb, hout, congrArg (State.inScopeBlocks · s.scopeDepth) hafter⟩

instance inLoop : Alike w (inLoop m) (inLoop m') where
  run s a ha := by
    obtain ⟨b, hb, hout, hafter⟩ := hm.run (s.inLoops (s.loopDepth + 1)) a ha
    exact ⟨b, hb, hout, congrArg (fun t => t.inLoops (t.loopDepth - 1)) hafter⟩

instance inScopeBlock : Alike w (inScopeBlock m) (inScopeBlock m') where
  run s a ha := by
    obtain ⟨b, hb, hout, hafter⟩ := hm.run (s.inScopeBlocks (s.scopeDepth + 1)) a ha
    exact ⟨b, hb, hout, congrArg (fun t => t.inScopeBlocks (t.scopeDepth - 1)) hafter⟩

instance withFn (frame : FnFrame) : Alike w (withFn frame m) (withFn frame m') where
  run s a ha := by
    obtain ⟨b, hb, hout, hafter⟩ := hm.run (s.inFns (frame :: s.fns)) a ha
    have hpushed : (s.over a).inFns (frame :: s.fns) = (s.inFns (frame :: s.fns)).over a := rfl
    simp only [out_withFn, after_withFn, hpushed, hout, hafter]
    exact ⟨b, hb, trivial, rfl⟩

instance withLambda : Alike w (withLambda m) (withLambda m') where
  run s a ha := by
    obtain ⟨b, hb, hout, hafter⟩ := hm.run (s.capturing (s.captures.enter s.current)) a ha
    have hentered : (s.over a).capturing (s.captures.enter s.current) =
        (s.capturing (s.captures.enter s.current)).over a := rfl
    simp only [out_withLambda, after_withLambda, hentered, hout, hafter]
    exact ⟨b, hb, trivial, rfl⟩

end

/-! ## Names -/

theorem lookup (hname : name ∈ w.names) : Uniform w fun _ => lookup space name where
  run s a ha := ⟨a, ha, ha.lookup space s.current hname, rfl⟩

instance observe (declaring : ScopeId) (isMutable : Bool) :
    Uniform w fun _ => observe symbol declaring isMutable where
  run s a ha := by
    have hobserve := ha.observe s.captures symbol declaring isMutable
    refine ⟨a, ha, congrArg Prod.fst hobserve, ?_⟩
    exact congrArg (fun observed => (s.capturing observed.2).over a) hobserve

theorem resolveVar {name : Ast.Name} (hname : name.text ∈ w.names) :
    Uniform w fun _ => resolveVar name := by
  refine seq (lookup .var hname) fun found => ?_
  cases found with
  | none => infer_instance
  | some id =>
    refine reading fun s a _ => ?_
    dsimp only
    split
    · split <;> infer_instance
    · infer_instance

theorem declareName (scope : ScopeId) (hname : name ∈ w.names) (symbol : SymId) :
    Uniform w fun _ => declareName space scope name symbol where
  run s a ha := by
    -- both arenas refuse the name if the scope has it already
    have hself : (Keyed.key name : String) = name := rfl
    have hscope := ha scope
    simp only [Binding.declareName, out_modifyGet, after_modifyGet, Scopes.declare]
    generalize s.scopes.get? scope = sc at hscope
    generalize a.get? scope = sc' at hscope
    cases hscope with
    | none => exact ⟨a, ha, rfl, rfl⟩
    | @some sc sc' hsc =>
      simp only [hsc.table space name hname, hself]
      cases (sc.table space).get? name with
      | some existing => exact ⟨a, ha, rfl, rfl⟩
      | none => exact ⟨_, ha.adding space scope hname symbol, rfl, rfl⟩

theorem declareLocal {name : Ast.Name} (hname : name.text ∈ w.names) (kind : SymKind) (ty : Ty) :
    Uniform w fun _ => declareLocal name kind ty := by
  refine reading fun s a ha => ?_
  have := fun id => declareName .var s.current hname id
  rw [show (s.over a).scopes.depth (s.over a).current = s.scopes.depth s.current from ha.depth
    s.current]
  infer_instance

theorem declareLocals (kind : SymKind) {entries : List (Ast.Name × Ty)}
    (hnames : ∀ entry ∈ entries, entry.1.text ∈ w.names) :
    Uniform w fun _ => declareLocals kind entries := by
  induction entries with
  | nil => exact pure []
  | cons entry entries ih =>
    obtain ⟨hname, hnames⟩ := List.forall_mem_cons.mp hnames
    exact seq (declareLocal hname kind entry.2) fun id => seq (ih hnames) fun ids => pure (id :: ids)

end Alike

/-! ## Passes -/

namespace Alike

/-- A pass is a step that answers a fault or a value. -/
instance lift (m : Binding α) (m' : BindingOver κ α) [hm : Alike w m m'] :
    Alike w (ExceptT.run (liftM m : Pass α)) (ExceptT.run (liftM m' : PassOver κ α)) where
  run s a ha := by
    obtain ⟨b, hb, hout, hafter⟩ := hm.run s a ha
    exact ⟨b, hb, congrArg Except.ok hout, hafter⟩

instance pass_pure (a : α) :
    Alike w (ExceptT.run (Pure.pure a : Pass α)) (ExceptT.run (Pure.pure a : PassOver κ α)) :=
  pure (Except.ok a)

instance throw (fault : Fault) :
    Alike w (ExceptT.run (throw fault : Pass α)) (ExceptT.run (throw fault : PassOver κ α)) :=
      pure (Except.error fault)

theorem pass_seq {m : Pass α} {m' : PassOver κ α} {f : α → Pass β} {f' : α → PassOver κ β}
    (hm : Alike w m.run m'.run)
    (hf : ∀ a, Alike w (f a).run (f' a).run) : Alike w (m >>= f).run (m' >>= f').run := by
  -- after a fault neither form does anything more
  have hrest : ∀ r, Alike w (ExceptT.bindCont f r) (ExceptT.bindCont f' r)
    | .error fault => pure (Except.error fault)
    | .ok a => hf a
  exact seq hm hrest

instance pass_bind (m : Pass α) (m' : PassOver κ α) (f : α → Pass β) (f' : α → PassOver κ β)
    [hm : Alike w m.run m'.run]
    [hf : ∀ a, Alike w (f a).run (f' a).run] : Alike w (m >>= f).run (m' >>= f').run := pass_seq hm hf

theorem pass_reading {f : State → Pass β} {f' : State κ → PassOver κ β}
    (h : ∀ s a, Alike w (f s).run (f' (s.over a)).run) : Alike w (get >>= f).run (get >>= f').run where
  run s a ha := (h s a).run s a ha

instance pass_get_bind (f : State → Pass β) (f' : State κ → PassOver κ β)
    [h : ∀ s a, Alike w (f s).run (f' (s.over a)).run] : Alike w (get >>= f).run (get >>= f').run :=
      pass_reading h

instance pass_ite (c : Prop) [Decidable c] (m n : Pass α) (m' n' : PassOver κ α)
    [hm : Alike w m.run m'.run]
    [hn : Alike w n.run n'.run] : Alike w (if c then m else n).run (if c then m' else n').run := by
  split
  · exact hm
  · exact hn

instance passWithGenerics (names : List String) (m : Pass α) (m' : PassOver κ α)
    [hm : Alike w m.run m'.run] :
    Alike w (passWithGenerics names m).run (passWithGenerics names m').run :=
      withGenerics m.run m'.run names

instance registering (r : Registry) :
    Alike w (ExceptT.run (modify fun s => { s with registry := r } : Pass Unit))
      (ExceptT.run (modify fun s => { s with registry := r } : PassOver κ Unit)) :=
  of_eq (fun _ _ => rfl) (fun _ => rfl) fun _ _ => rfl

end Alike

end Binding

end Bindery
