import Bindery.Proofs.Binding.Following
import Bindery.Proofs.Binding.Jumps
import Bindery.Proofs.Binding.Signatures
import Bindery.Proofs.Ty.Below

/-!
# Two runs side by side

One run binds a tree without reporting anything, the other one binds the same tree with some of its
parts unknown. `Poisoned w s s'` says that the second run stands in `s'` where the first one stands
in `s`: the same names are in sight, but their types may be poisoned. A name of a pattern that means
a variant in the first run may have become a variable in the second one. Such a variable is a
*stray*: it is immutable, its type is poison, and its name is one of `w.bare`.

`Ends w xs m s' t P` says of a step `m` of the second run that it ends beside `t`, that it reports
the unknown names `xs` in this order and apart from them only what `w.allowed` lets pass, and that
its answer has the property `P`.
-/

namespace Bindery

open Ast (Name TyExpr)

/-- The type parameters of a generic function are all that its parameters mention. -/
def Symbols.Scoped (Γ : Symbols) : Prop := ∀ id f, Γ.sig? id = some f → f.isGeneric = true → f.Scoped

theorem Symbols.scoped_iff {Γ : Symbols} :
    Γ.Scoped ↔ Γ.Fns fun _ f => f.isGeneric = true → f.Scoped := by
  constructor
  · exact fun h id sym f hsym hkind => h id f (sig?_eq_some_iff.mpr ⟨sym, hsym, hkind⟩)
  · intro h id f hf
    obtain ⟨sym, hsym, hkind⟩ := sig?_eq_some_iff.mp hf
    exact h id sym f hsym hkind

namespace Binding

variable {α β : Type} {v : State}

/-! ## States -/

/-- What names are resolved with: the symbols, the scopes and the lambdas around. -/
structure View where
  syms : Symbols
  scopes : Scopes
  boundaries : List ScopeId

/-- What names are resolved with where binding stands. -/
def State.view (s : State) : View := ⟨s.syms, s.scopes, s.captures.boundaries⟩

/-- What the two runs have in common at some place. -/
structure Setting where
  /-- The declared types. -/
  registry : Registry
  /-- The names of variants without payload. -/
  bare : String → Bool
  /-- What may be found beside the unknown names. -/
  allowed : Finding → Prop
  /-- The functions in sight. -/
  fn? : String → Option SymId
  /-- The return type that is written for the innermost function. -/
  declared : Option Ty
  /-- There is no stray in the current scope. -/
  isPlain : Bool

/-- What a name stands for in a scope of both runs. -/
inductive SameName (bare : String → Bool) (v v' : View) (name : String) :
    Option SymId → Option SymId → Prop
  | unknown : SameName bare v v' name none none
  | known {id id' : SymId} {sym sym' : Symbol} (hsym : v.syms.get? id = some sym)
    (hsym' : v'.syms.get? id' = some sym') (hname : sym.name = name) (hkind : sym'.kind = sym.kind)
    (hty : sym'.ty.Below sym.ty) : SameName bare v v' name (some id) (some id')
  | stray {id' : SymId} {sym' : Symbol} (hbare : bare name = true)
    (hsym' : v'.syms.get? id' = some sym')
    (hkind : sym'.kind = .var false) (hty : sym'.ty = .error) : SameName bare v v' name none (some id')

/-- The scopes lie inside the same lambdas and have the same names. -/
structure SameScope (bare : String → Bool) (v v' : View) (c c' : ScopeId) : Prop where
  depth : v'.boundaries.countP (· ≤ c') = v.boundaries.countP (· ≤ c)
  names : ∃ sc sc', v.scopes.get? c = some sc ∧ v'.scopes.get? c' = some sc' ∧
    ∀ name, SameName bare v v' name (sc.varNames.get? name) (sc'.varNames.get? name)

/-- The frames are of the same function, and what was returned in the second run are poisoned forms
of what was returned in the first. -/
structure SameFrame (f f' : FnFrame) : Prop where
  name : f'.name = f.name
  declared : f'.declared = f.declared
  range : f'.range = f.range
  returns : List.Forall₂ (fun r r' => r'.1.Below r.1 ∧ r.1.hasPoison = false) f.returns f'.returns

/-- The second run stands where the first one stands. -/
structure Poisoned (w : Setting) (s s' : State) : Prop where
  valid : s.Valid
  valid' : s'.Valid
  closed : s.syms.Scoped
  registry : s.registry = w.registry
  registry' : s'.registry = w.registry
  generics : s'.generics = s.generics
  loopDepth : s'.loopDepth = s.loopDepth
  scopeDepth : s'.scopeDepth = s.scopeDepth
  lambdas : s'.captures.boundaries.length = s.captures.boundaries.length
  fn : ∀ name, s.scopes.lookup .fn s.current name = w.fn? name
  fn' : ∀ name, s'.scopes.lookup .fn s'.current name = w.fn? name
  sigs : ∀ id sym f, s.syms.get? id = some sym → sym.kind = .fn f →
    ∃ sym' ret, s'.syms.get? id = some sym' ∧ sym'.kind = .fn { f with ret } ∧ ret.Below f.ret ∧
      sym'.ty.Below sym.ty
  fns : List.Forall₂ SameFrame s.fns s'.fns
  declared : s.fns.head?.bind FnFrame.declared = w.declared
  scopes : List.Forall₂ (SameScope w.bare s.view s'.view) (s.scopes.chain s.current)
    (s'.scopes.chain s'.current)
  plain : w.isPlain = true → ∀ sc sc', s.scopes.get? s.current = some sc →
    s'.scopes.get? s'.current = some sc' →
    ∀ name, sc.varNames.get? name = none → sc'.varNames.get? name = none

variable {own : List String} {ty : Ty} {kind : SymKind} {id : SymId}

theorem Grows.closed {s t : State} (hg : Grows own s t) (h : s.syms.Scoped) : t.syms.Scoped :=
  Symbols.scoped_iff.mpr ((Symbols.scoped_iff.mp h).of_inside (.of_grows hg))

theorem forall₂_imp_of_mem_mem {R S : α → β → Prop} {l : List α} {u : List β} (h : List.Forall₂ R l u)
    (himp : ∀ a ∈ l, ∀ b ∈ u, R a b → S a b) : List.Forall₂ S l u := by
  induction h with
  | nil => exact .nil
  | cons hab _ ih =>
    refine .cons (himp _ List.mem_cons_self _ List.mem_cons_self hab) (ih fun a ha b hb => ?_)
    exact himp a (List.mem_cons_of_mem _ ha) b (List.mem_cons_of_mem _ hb)

section

variable {bare : String → Bool} {v v' u u' : View} {c c' : ScopeId}

theorem SameName.mono {name : String} {id id' : Option SymId} (h : SameName bare v v' name id id')
    (hle : v.syms ≤ u.syms) (hle' : v'.syms ≤ u'.syms) : SameName bare u u' name id id' := by
  cases h with
  | unknown => exact .unknown
  | known hsym hsym' hname hkind hty => exact .known (hle _ _ hsym) (hle' _ _ hsym') hname hkind hty
  | stray hbare hsym' hkind hty => exact .stray hbare (hle' _ _ hsym') hkind hty

theorem SameScope.mono (h : SameScope bare v v' c c') (hle : v.syms ≤ u.syms)
    (hle' : v'.syms ≤ u'.syms)
    (hget : ∀ sc, v.scopes.get? c = some sc → u.scopes.get? c = some sc)
    (hget' : ∀ sc, v'.scopes.get? c' = some sc → u'.scopes.get? c' = some sc)
    (hdepth : u'.boundaries.countP (· ≤ c') = u.boundaries.countP (· ≤ c)) :
    SameScope bare u u' c c' := by
  obtain ⟨sc, sc', hsc, hsc', hnames⟩ := h.names
  exact ⟨hdepth, sc, sc', hget sc hsc, hget' sc' hsc', fun name => (hnames name).mono hle hle'⟩

end

namespace SameFrame

variable {f f' : FnFrame}

theorem noting {ty' : Ty} (h : SameFrame f f') (hty : ty'.Below ty) (hsound : ty.hasPoison = false)
    (range range' : Range) : SameFrame (f.noting [(ty, range)]) (f'.noting [(ty', range')]) :=
  ⟨h.name, h.declared, h.range, List.rel_append h.returns (.cons ⟨hty, hsound⟩ .nil)⟩

/-- Nothing that the first run returns is poisoned. -/
theorem sound (h : SameFrame f f') : ∀ r ∈ f.returns, r.1.hasPoison = false :=
  ((List.forall₂_and_left (R := fun r r' : Ty × Range => r'.1.Below r.1) _ _).mp
    (h.returns.imp fun _ _ hr => ⟨hr.2, hr.1⟩)).1

end SameFrame

namespace Poisoned

variable {w : Setting} {s s' t t' : State}

variable (h : Poisoned w s s')

include h

/-- Steps of both runs after which the scope where they stand has the same names again. -/
theorem update {own' : List String} (hg : Grows own s t) (hg' : Grows own' s' t')
    (hfns : List.Forall₂ SameFrame t.fns t'.fns)
    (hcurrent : ∃ sc sc', t.scopes.get? s.current = some sc ∧ t'.scopes.get? s'.current = some sc' ∧
      (∀ name, SameName w.bare t.view t'.view name (sc.varNames.get? name) (sc'.varNames.get? name)) ∧
      (w.isPlain = true → ∀ name, sc.varNames.get? name = none → sc'.varNames.get? name = none)) :
    Poisoned w t t' where
  valid := hg.valid h.valid
  valid' := hg'.valid h.valid'
  closed := hg.closed h.closed
  registry := hg.registry.trans h.registry
  registry' := hg'.registry.trans h.registry'
  generics := by rw [hg'.generics, hg.generics, h.generics]
  loopDepth := by rw [hg'.loopDepth, hg.loopDepth, h.loopDepth]
  scopeDepth := by rw [hg'.scopeDepth, hg.scopeDepth, h.scopeDepth]
  lambdas := by rw [hg'.boundaries, hg.boundaries, h.lambdas]
  fn name := (hg.lookup_fn h.valid name).trans (h.fn name)
  fn' name := (hg'.lookup_fn h.valid' name).trans (h.fn' name)
  sigs id sym f hsym hkind := by
    have hold : s.syms.get? id = some sym := by
      rcases hg.added id sym hsym with hold | hlocal
      · exact hold
      · rw [hkind] at hlocal
        cases hlocal
    obtain ⟨sym', ret, hsym', hrest⟩ := h.sigs id sym f hold hkind
    exact ⟨sym', ret, hg'.syms id sym' hsym', hrest⟩
  fns := hfns
  declared := by
    obtain ⟨returns, hreturns⟩ := hg.fns
    rw [← h.declared, hreturns]
    cases s.fns with
    | nil => rfl
    | cons f fs => rfl
  scopes := by
    have hscopes := h.scopes
    rw [hg.current, hg'.current,
      Scopes.chain_eq_of_agrees h.valid.nested (hg.valid h.valid).nested hg.scopes.agrees
        h.valid.current_lt,
      Scopes.chain_eq_of_agrees h.valid'.nested (hg'.valid h.valid').nested hg'.scopes.agrees
        h.valid'.current_lt]
    obtain ⟨rest, hchain, hlt⟩ := Scopes.exists_chain_eq_cons h.valid.nested h.valid.current_lt
    obtain ⟨rest', hchain', hlt'⟩ := Scopes.exists_chain_eq_cons h.valid'.nested h.valid'.current_lt
    rw [hchain, hchain'] at hscopes ⊢
    obtain ⟨hfirst, hrest⟩ := List.forall₂_cons.mp hscopes
    have hdepth : ∀ c c', SameScope w.bare s.view s'.view c c' →
        t'.view.boundaries.countP (· ≤ c') = t.view.boundaries.countP (· ≤ c) := by
      intro c c' hscope
      show t'.captures.boundaries.countP _ = t.captures.boundaries.countP _
      rw [hg.boundaries, hg'.boundaries]
      exact hscope.depth
    obtain ⟨sc, sc', hsc, hsc', hnames, -⟩ := hcurrent
    refine .cons ⟨hdepth _ _ hfirst, sc, sc', hsc, hsc', hnames⟩ (forall₂_imp_of_mem_mem hrest ?_)
    intro c hc c' hc' hscope
    exact hscope.mono hg.syms hg'.syms
      (fun sc hsc => hg.scopes.get?_of_ne hsc (Nat.ne_of_lt (hlt c hc)))
      (fun sc hsc => hg'.scopes.get?_of_ne hsc (Nat.ne_of_lt (hlt' c' hc'))) (hdepth c c' hscope)
  plain hplain sc sc' hsc hsc' := by
    obtain ⟨new, new', hnew, hnew', -, hnone⟩ := hcurrent
    rw [hg.current, hnew] at hsc
    rw [hg'.current, hnew'] at hsc'
    cases hsc
    cases hsc'
    exact hnone hplain

/-- The scope where both runs stand. -/
theorem exists_current : ∃ sc sc', s.scopes.get? s.current = some sc ∧ s'.scopes.get? s'.current =
    some sc' ∧
      ∀ name, SameName w.bare s.view s'.view name (sc.varNames.get? name)
        (sc'.varNames.get? name) := by
  obtain ⟨rest, hchain, -⟩ := Scopes.exists_chain_eq_cons h.valid.nested h.valid.current_lt
  obtain ⟨rest', hchain', -⟩ := Scopes.exists_chain_eq_cons h.valid'.nested h.valid'.current_lt
  have hscopes := h.scopes
  rw [hchain'] at hscopes
  exact (List.forall₂_cons.mp hscopes).1.names

/-- Steps of both runs that declare nothing where they stand. -/
theorem grows (hg : Grows [] s t) (hg' : Grows [] s' t')
    (hfns : List.Forall₂ SameFrame t.fns t'.fns) : Poisoned w t t' := by
  obtain ⟨sc, sc', hsc, hsc', hnames⟩ := h.exists_current
  refine h.update hg hg' hfns ⟨sc, sc', hg.scopes.get?_of_nil hsc, hg'.scopes.get?_of_nil hsc', ?_, ?_⟩
  · exact fun name => (hnames name).mono hg.syms hg'.syms
  · exact fun hplain => h.plain hplain sc sc' hsc hsc'

theorem reporting (fs : List Finding) : Poisoned w s (s'.reporting fs) :=
  { h with valid' := h.valid'.congr rfl rfl rfl rfl }

theorem inLoops (depth : Nat) : Poisoned w (s.inLoops depth) (s'.inLoops depth) :=
  { h with
    valid := h.valid.congr rfl rfl rfl rfl
    valid' := h.valid'.congr rfl rfl rfl rfl
    loopDepth := rfl }

theorem inScopeBlocks (depth : Nat) : Poisoned w (s.inScopeBlocks depth) (s'.inScopeBlocks depth) :=
  { h with
    valid := h.valid.congr rfl rfl rfl rfl
    valid' := h.valid'.congr rfl rfl rfl rfl
    scopeDepth := rfl }

theorem naming (names : List String) : Poisoned w (s.naming names) (s'.naming names) :=
  { h with
    valid := h.valid.congr rfl rfl rfl rfl
    valid' := h.valid'.congr rfl rfl rfl rfl
    generics := rfl }

/-- A function is entered whose return type is written or not. -/
theorem inFns (frame : FnFrame) (hreturns : frame.returns = []) :
    Poisoned { w with declared := frame.declared } (s.inFns (frame :: s.fns))
      (s'.inFns (frame :: s'.fns)) :=
  { h with
    valid := h.valid.congr rfl rfl rfl rfl
    valid' := h.valid'.congr rfl rfl rfl rfl
    fns := .cons ⟨rfl, rfl, rfl, by rw [hreturns]; exact .nil⟩ h.fns
    declared := rfl }

/-- A new scope has no names yet, so there is no stray in it. -/
theorem opened (kind : ScopeKind) (isPlain : Bool) :
    Poisoned { w with isPlain } (s.opened kind) (s'.opened kind) :=
  { h with
    valid := h.valid.opened kind
    valid' := h.valid'.opened kind
    fn := fun name => (h.valid.lookup_opened kind .fn name).trans (h.fn name)
    fn' := fun name => (h.valid'.lookup_opened kind .fn name).trans (h.fn' name)
    scopes := by
      rw [h.valid.chain_opened kind, h.valid'.chain_opened kind]
      refine .cons ⟨?_, _, _, Scopes.get?_push_size s.scopes s.current kind,
        Scopes.get?_push_size s'.scopes s'.current kind, fun name => .unknown⟩ ?_
      · have hcount := (h.valid.opened kind).countP_boundaries
        have hcount' := (h.valid'.opened kind).countP_boundaries
        exact hcount'.trans (h.lambdas.trans hcount.symm)
      · refine h.scopes.imp fun c c' hscope => ?_
        exact hscope.mono (Symbols.le_refl _) (Symbols.le_refl _)
          (fun sc hsc => (Scopes.get?_push_of_lt s.current kind (Scopes.get?_eq_some_lt hsc)).trans
          hsc)
          (fun sc hsc => (Scopes.get?_push_of_lt s'.current kind (Scopes.get?_eq_some_lt hsc)).trans
          hsc) hscope.depth
    plain := by
      intro hplain sc sc' hsc hsc' name hname
      have hnew := Scopes.get?_push_size s'.scopes s'.current kind
      rw [show (s'.opened kind).scopes.get? (s'.opened kind).current = _ from hnew] at hsc'
      cases hsc'
      rfl }

theorem enteringLambda (isPlain : Bool) :
    Poisoned { w with isPlain } s.enteringLambda s'.enteringLambda := by
  have hopened := h.opened .lambda isPlain
  refine { hopened with
    valid := hopened.valid.entering
    valid' := hopened.valid'.entering
    lambdas := congrArg (· + 1) h.lambdas
    scopes := ?_ }
  have hcount : ∀ (u : State) (c : ScopeId), u.enteringLambda.view.boundaries.countP (· ≤ c) =
      u.captures.boundaries.countP (· ≤ c) + if u.scopes.size ≤ c then 1 else 0 := by
    intro u c
    show (u.scopes.size :: u.captures.boundaries).countP (· ≤ c) = _
    rw [List.countP_cons]
    simp
  have hscopes := hopened.scopes
  show List.Forall₂ _ ((s.opened .lambda).scopes.chain (s.opened .lambda).current)
    ((s'.opened .lambda).scopes.chain (s'.opened .lambda).current)
  rw [h.valid.chain_opened .lambda, h.valid'.chain_opened .lambda] at hscopes ⊢
  -- The new lambda is around the new scope and around no older one.
  refine .cons ?_ (h.scopes.imp fun c c' hscope => ?_)
  · have hnew := (List.forall₂_cons.mp hscopes).1
    refine hnew.mono (Symbols.le_refl _) (Symbols.le_refl _) (fun _ h => h) (fun _ h => h) ?_
    rw [hcount, hcount, if_pos (Nat.le_refl _), if_pos (Nat.le_refl _)]
    exact congrArg (· + 1) hnew.depth
  · obtain ⟨sc, sc', hsc, hsc', -⟩ := hscope.names
    have hlt : c < s.scopes.size := Scopes.get?_eq_some_lt hsc
    have hlt' : c' < s'.scopes.size := Scopes.get?_eq_some_lt hsc'
    refine hscope.mono (Symbols.le_refl _) (Symbols.le_refl _)
      (fun sc hsc => (Scopes.get?_push_of_lt s.current .lambda hlt).trans hsc)
      (fun sc hsc => (Scopes.get?_push_of_lt s'.current .lambda hlt').trans hsc) ?_
    rw [hcount, hcount, if_neg (Nat.not_le_of_lt hlt), if_neg (Nat.not_le_of_lt hlt')]
    exact hscope.depth

end Poisoned

/-! ## Names -/

/-- What a name stands for in both runs. A stray may hide what the name stands for in the first
run. -/
inductive Seen (w : Setting) (s s' : State) (name : String) : Option SymId → Option SymId → Prop
  | unknown : Seen w s s' name none none
  | known {id id' : SymId} {sym sym' : Symbol} {c c' : ScopeId} (hsym : s.syms.get? id = some sym)
    (hsym' : s'.syms.get? id' = some sym') (hname : sym.name = name) (hkind : sym'.kind = sym.kind)
    (hty : sym'.ty.Below sym.ty) (hscope : sym.scope = some c) (hscope' : sym'.scope = some c')
    (hc : c ∈ s.scopes.chain s.current) (hc' : c' ∈ s'.scopes.chain s'.current)
    (hdepth : s'.captures.boundaries.countP (· ≤ c') = s.captures.boundaries.countP (· ≤ c)) :
    Seen w s s' name (some id) (some id')
  | stray {result : Option SymId} {id' : SymId} {sym' : Symbol} {c' : ScopeId}
    (hbare : w.bare name = true)
    (hsym' : s'.syms.get? id' = some sym') (hkind : sym'.kind = .var false) (hty : sym'.ty = .error)
    (hscope' : sym'.scope = some c') (hc' : c' ∈ s'.scopes.chain s'.current) :
    Seen w s s' name result (some id')

namespace Poisoned

variable {w : Setting} {Γ : Symbols} {s s' t : State}

/-- A name is looked up in both runs. -/
theorem seen (h : Poisoned w s s') (name : String) :
    Seen w s s' name (s.scopes.lookup .var s.current name)
      (s'.scopes.lookup .var s'.current name) := by
  have hlookup : ∀ cs cs', List.Forall₂ (SameScope w.bare s.view s'.view) cs cs' →
      (∀ c ∈ cs, c ∈ s.scopes.chain s.current) → (∀ c ∈ cs', c ∈ s'.scopes.chain s'.current) →
      Seen w s s' name ((cs.filterMap s.scopes.get?).findSome? fun sc => (sc.table .var).get? name)
        ((cs'.filterMap s'.scopes.get?).findSome? fun sc => (sc.table .var).get? name) := by
    intro cs cs' hscopes
    induction hscopes with
    | nil => exact fun _ _ => .unknown
    | @cons c c' cs cs' hscope _ ih =>
      intro hchain hchain'
      obtain ⟨hc, hcs⟩ := List.forall_mem_cons.mp hchain
      obtain ⟨hc', hcs'⟩ := List.forall_mem_cons.mp hchain'
      obtain ⟨sc, sc', hsc, hsc', hnames⟩ := hscope.names
      have hsc : s.scopes.get? c = some sc := hsc
      have hsc' : s'.scopes.get? c' = some sc' := hsc'
      simp only [List.filterMap_cons, hsc, hsc', List.findSome?_cons, Scope.table]
      have hname := hnames name
      generalize hid : sc.varNames.get? name = id at hname
      generalize hid' : sc'.varNames.get? name = id' at hname
      cases hname with
      | unknown => exact ih hcs hcs'
      | known hsym hsym' hname hkind hty =>
        obtain ⟨_, hown, -, hscoped⟩ := h.valid.var_known c sc name _ hsc hid
        obtain ⟨_, hown', -, hscoped'⟩ := h.valid'.var_known c' sc' name _ hsc' hid'
        cases Option.some.inj (hown.symm.trans hsym)
        cases Option.some.inj (hown'.symm.trans hsym')
        exact .known hsym hsym' hname hkind hty hscoped hscoped' hc hc' hscope.depth
      | stray hbare hsym' hkind hty =>
        obtain ⟨_, hown', -, hscoped'⟩ := h.valid'.var_known c' sc' name _ hsc' hid'
        cases Option.some.inj (hown'.symm.trans hsym')
        exact .stray hbare hsym' hkind hty hscoped' hc'
  exact hlookup _ _ h.scopes (fun _ hc => hc) fun _ hc => hc

/-- A reference that no lambda refuses in the first run is refused by none in the second. -/
theorem resolveVar {name : Name} {result : Option SymId} (h : Poisoned w s s')
    (hq : Quiet Γ (resolveVar name) s result t) :
    Poisoned w t (after (Binding.resolveVar name) s') ∧
      (after (Binding.resolveVar name) s').findings = s'.findings := by
  have hquiet : ∀ id' sym' c', s'.scopes.lookup .var s'.current name.text = some id' →
      s'.syms.get? id' = some sym' → sym'.scope = some c' →
      (s'.captures.observe s'.scopes id' c' sym'.isMutable).1 ≠ .mutableCapture →
      Poisoned w t (after (Binding.resolveVar name) s') ∧
        (after (Binding.resolveVar name) s').findings = s'.findings := by
    intro id' sym' c' hlookup' hsym' hscope' hobserve
    have hgrows := Keeps.grows [] (Binding.resolveVar name) s'
    have hafter := after_resolveVar_of_some hlookup' hsym' hscope'
    have hok : ((s'.captures.observe s'.scopes id' c' sym'.isMutable).1 != .mutableCapture) =
      true := by
      simpa using hobserve
    rw [after_reportUnless, hok, if_pos rfl] at hafter
    rw [hafter] at hgrows ⊢
    refine ⟨h.grows (hq.grows inferInstance) hgrows ?_, rfl⟩
    rw [hq.fns_resolveVar h.valid]
    exact h.fns
  obtain ⟨hlookup, hresolved⟩ := hq.resolveVar h.valid
  have hseen := h.seen name.text
  generalize hlookup' : s'.scopes.lookup .var s'.current name.text = result' at hseen hquiet
  rw [hlookup] at hseen
  cases hseen with
  | unknown =>
    rw [after_resolveVar_of_none hlookup']
    rcases hresolved with ⟨-, rfl⟩ | ⟨_, _, _, hsome, -⟩
    · exact ⟨h, rfl⟩
    · cases hsome
  | known hsym hsym' hname hkind hty hscope hscope' hc hc' hdepth =>
    refine hquiet _ _ _ rfl hsym' hscope' fun hrefused => ?_
    rcases hresolved with ⟨hnone, -⟩ | ⟨id, sym₁, c₁, hsome, -, hsym₁, -, hscope₁, hobserve, -⟩
    · cases hnone
    · cases hsome
      cases Option.some.inj (hsym₁.symm.trans hsym)
      cases Option.some.inj (hscope₁.symm.trans hscope)
      rw [Captures.observe_eq_mutableCapture_iff h.valid' hc', hdepth, h.lambdas] at hrefused
      rw [ne_eq, Captures.observe_eq_mutableCapture_iff h.valid hc] at hobserve
      apply hobserve
      rw [Symbol.isMutable, hkind] at hrefused
      exact hrefused
  | stray hbare hsym' hkind hty hscope' hc' =>
    refine hquiet _ _ _ rfl hsym' hscope' fun hrefused => ?_
    rw [Captures.observe_eq_mutableCapture_iff h.valid' hc', Symbol.isMutable, hkind] at hrefused
    cases hrefused.1

end Poisoned

/-! ## Declarations -/

section

variable {s : State}

theorem fns_declareLocal (name : Name) (kind : SymKind) (ty : Ty) (s : State) :
    (after (declareLocal name kind ty) s).fns = s.fns := by
  rw [after_declareLocal]
  split <;> rfl

theorem get?_declareLocal (name : Name) (kind : SymKind) (ty : Ty) (s : State) :
    (after (declareLocal name kind ty) s).syms.get? s.syms.size =
      some ⟨s.syms.size, name.text, kind, ty, some s.current, s.scopes.depth s.current⟩ := by
  rw [syms_declareLocal, State.addingLocal, State.adding, Symbols.get?_add, if_pos rfl]

theorem findings_declareLocal {sc : Scope} (hsc : s.scopes.get? s.current = some sc) (name : Name)
    (kind : SymKind) (ty : Ty) :
    (after (declareLocal name kind ty) s).findings.toList = s.findings.toList ++
      if (sc.varNames.get? name.text).isSome then [⟨name.range, .alreadyDeclared name.text⟩]
        else [] := by
  rw [after_declareLocal, Scopes.declare_eq hsc]
  cases htaken : sc.varNames.get? name.text with
  | none =>
    rw [show (sc.table .var).get? name.text = none from htaken]
    exact (List.append_nil _).symm
  | some id =>
    rw [show (sc.table .var).get? name.text = some id from htaken]
    exact Array.toList_append

end

/-- A quiet declaration finds its name free. -/
theorem Quiet.free_declareLocal {Γ : Symbols} {s t : State} {name : Name} {sc : Scope}
    (h : Quiet Γ (Binding.declareLocal name kind ty) s id t)
    (hsc : s.scopes.get? s.current = some sc) :
    sc.varNames.get? name.text = none := by
  have hfindings := findings_declareLocal hsc name kind ty
  rw [h.after_eq, h.silent] at hfindings
  by_contra htaken
  rw [if_pos (Option.isSome_iff_ne_none.mpr htaken)] at hfindings
  simp at hfindings

namespace Poisoned

variable {w : Setting} {Γ : Symbols} {s s' t : State} {name : Name}

/-- Both runs declare a variable. Where the second one has a stray of that name, the stray stands
for it. -/
theorem declaring {ty' : Ty} (h : Poisoned w s s') (hlocal : kind.isLocal = true)
    (hq : Quiet Γ (declareLocal name kind ty) s id t) (hty : ty'.Below ty)
    (hkind : w.isPlain = true ∨ kind = .var false) :
    Poisoned w t (after (declareLocal name kind ty') s') := by
  have hg := hq.grows (keeps_declareLocal name ty hlocal)
  have hg' := (keeps_declareLocal name ty' hlocal).grows s'
  obtain ⟨sc, sc', hsc, hsc', hnames⟩ := h.exists_current
  have hfree := hq.free_declareLocal hsc
  obtain rfl := hq.after_eq
  obtain ⟨new, hnew, hnew_eq⟩ := exists_current_declareLocal hsc name kind ty
  obtain ⟨new', hnew', hnew_eq'⟩ := exists_current_declareLocal hsc' name kind ty'
  have hsym := get?_declareLocal name kind ty s
  have hsym' := get?_declareLocal name kind ty' s'
  rw [hfree, Option.none_or] at hnew_eq
  refine h.update hg hg' ?_ ⟨new, new', hnew, hnew', fun x => ?_, fun hplain x => ?_⟩
  · rw [fns_declareLocal, fns_declareLocal]
    exact h.fns
  · have hx : SameName w.bare (after (declareLocal name kind ty) s).view
      (after (declareLocal name kind ty') s').view
        x (sc.varNames.get? x) (sc'.varNames.get? x) := (hnames x).mono hg.syms hg'.syms
    rw [hnew_eq, hnew_eq']
    split
    · next heq =>
      subst heq
      rw [hfree] at hx
      generalize hid' : sc'.varNames.get? name.text = id' at hx
      cases hx with
      | unknown => exact .known hsym hsym' rfl rfl hty
      | stray hbare hstray hstrayKind hstrayTy =>
        rcases hkind with hplain | rfl
        · rw [h.plain hplain sc sc' hsc hsc' name.text hfree] at hid'
          cases hid'
        · exact .known hsym hstray rfl hstrayKind (by rw [hstrayTy]; exact .error _)
    · exact hx
  · rw [hnew_eq, hnew_eq']
    split
    · intro hnone
      cases hnone
    · exact h.plain hplain sc sc' hsc hsc' x

/-- Only the second run declares a variable: a name that means a variant in the first one. -/
theorem straying {name : Name} (h : Poisoned w s s') (hplain : w.isPlain = false)
    (hbare : w.bare name.text = true) :
    Poisoned w s (after (declareLocal name (.var false) .error) s') := by
  have hg' := Keeps.grows [name.text] (declareLocal name (.var false) .error) s'
  obtain ⟨sc, sc', hsc, hsc', hnames⟩ := h.exists_current
  obtain ⟨new', hnew', hnew_eq'⟩ := exists_current_declareLocal hsc' name (.var false) .error
  refine h.update (.refl [] s) hg' ?_ ⟨sc, new', hsc, hnew', fun x => ?_, fun hp => ?_⟩
  · rw [fns_declareLocal]
    exact h.fns
  · have hx : SameName w.bare s.view (after (declareLocal name (.var false) .error) s').view
        x (sc.varNames.get? x) (sc'.varNames.get? x) :=
      (hnames x).mono (Symbols.le_refl _) hg'.syms
    rw [hnew_eq']
    split
    · next heq =>
      subst heq
      generalize sc.varNames.get? name.text = id at hx
      generalize sc'.varNames.get? name.text = id' at hx
      cases hx with
      | unknown => exact .stray hbare (get?_declareLocal name (.var false) .error s') rfl rfl
      | known hsym hsym' hname hkind hty => exact .known hsym hsym' hname hkind hty
      | stray hbare hsym' hkind hty => exact .stray hbare hsym' hkind hty
    · exact hx
  · rw [hplain] at hp
    cases hp

end Poisoned

/-! ## Steps that say nothing -/

/-- The step says nothing and changes nothing when it starts in `s`, and its answer is `a`. -/
def Repeats (m : Binding α) (s : State) (a : α) : Prop := out m s = a ∧ after m s = s

namespace Repeats

variable {m : Binding α} {f : α → Binding β} {s : State} {a : α} {b : β}

theorem pure (a : α) (s : State) : Repeats (Pure.pure a) s a := ⟨rfl, rfl⟩

theorem get (s : State) : Repeats get s s := ⟨rfl, rfl⟩

theorem seq (hm : Repeats m s a) (hf : Repeats (f a) s b) : Repeats (m >>= f) s b := by
  obtain ⟨rfl, hafter⟩ := hm
  rw [Repeats, out_bind, after_bind, hafter]
  exact hf

theorem reportUnless {ok : Bool} (hok : ok = true) (range : Range) (p : Problem) (s : State) :
    Repeats (reportUnless ok range p) s () := by
  subst hok
  exact ⟨rfl, rfl⟩

end Repeats

section

variable {Γ : Symbols} {s s' : State}

theorem repeats_checkTypeArity {args : List Ty} {expected : Nat} (h : args.length = expected)
    (name : String)
    (range : Range) (s : State) : Repeats (checkTypeArity name expected args range) s true := by
  have hok : (args.length == expected) = true := by simpa using h
  refine (Repeats.reportUnless hok range _ s).seq ?_
  rw [hok]
  exact .pure true s

mutual

/-- A written type means the same where the same types are declared and the same type parameters in
scope. -/
theorem repeats_resolveType (e : TyExpr) {s t s' : State} {ty : Ty}
    (hregistry : s'.registry = s.registry)
    (hgenerics : s'.generics = s.generics) (h : Quiet Γ (resolveType e) s ty t) :
    Repeats (resolveType e) s' ty := by
  match e with
  | .named origin name args =>
    obtain ⟨tys, u, hargs, happly⟩ := h.bind
    obtain rfl := hargs.checks.2
    obtain ⟨-, head, hhead, hlength, rfl⟩ := happly.applyTypeName
    refine (repeats_resolveTypes args hregistry hgenerics hargs).seq ?_
    have hhead' : s'.typeHead? name.text = some head := by
      rw [State.typeHead?, hregistry, hgenerics]
      exact hhead
    refine (Repeats.get s').seq ?_
    rw [hhead']
    exact (repeats_checkTypeArity hlength name.text origin.range s').seq (.pure _ s')
  | .fn origin params ret =>
    obtain ⟨tys, u, hparams, hrest⟩ := h.bind
    obtain rfl := hparams.checks.2
    obtain ⟨ty, hret, rfl⟩ := hrest.bind_pure
    refine (repeats_resolveTypes params hregistry hgenerics hparams).seq ?_
    exact (repeats_resolveType ret hregistry hgenerics hret).seq (.pure _ s')
  | .tuple origin elems =>
    obtain ⟨tys, helems, rfl⟩ := h.bind_pure
    exact (repeats_resolveTypes elems hregistry hgenerics helems).seq (.pure _ s')

theorem repeats_resolveTypes (es : List TyExpr) {s t s' : State} {tys : List Ty}
    (hregistry : s'.registry = s.registry) (hgenerics : s'.generics = s.generics)
    (h : Quiet Γ (resolveTypes es) s tys t) : Repeats (resolveTypes es) s' tys := by
  match es with
  | [] =>
    obtain ⟨rfl, -⟩ := h.pure
    exact .pure [] s'
  | e :: es =>
    obtain ⟨ty, u, hfirst, hrest⟩ := h.bind
    obtain rfl := hfirst.checks.2
    obtain ⟨tys, htail, rfl⟩ := hrest.bind_pure
    refine (repeats_resolveType e hregistry hgenerics hfirst).seq ?_
    exact (repeats_resolveTypes es hregistry hgenerics htail).seq (.pure _ s')

end

theorem repeats_resolveType? {e : Option TyExpr} {t : State} {ty : Option Ty}
    (hregistry : s'.registry = s.registry) (hgenerics : s'.generics = s.generics)
    (h : Quiet Γ (resolveType? e) s ty t) : Repeats (resolveType? e) s' ty := by
  cases e with
  | none =>
    obtain ⟨rfl, -⟩ := h.pure
    exact .pure none s'
  | some e =>
    obtain ⟨ty, hresolve, rfl⟩ := h.bind_pure
    exact (repeats_resolveType e hregistry hgenerics hresolve).seq (.pure _ s')

end

/-! ## Steps of the second run -/

/-- Between the two states the unknown names were found, in this order, and apart from them only
what is allowed. -/
def Reports (allowed : Finding → Prop) (xs : List Ast.Unknown) (s t : State) : Prop :=
  ∃ fs : List Finding, t.findings.toList = s.findings.toList ++ fs ∧
    fs.filter Finding.isUndefined = xs.map Ast.Unknown.finding ∧ ∀ f ∈ fs, f.isUndefined = false →
      allowed f

namespace Reports

variable {allowed : Finding → Prop} {xs ys : List Ast.Unknown} {s t u : State}

theorem of_eq (h : t.findings = s.findings) : Reports allowed [] s t :=
  ⟨[], by rw [h, List.append_nil], rfl, by simp⟩

theorem trans (h : Reports allowed xs s t) (h' : Reports allowed ys t u) :
    Reports allowed (xs ++ ys) s u := by
  obtain ⟨fs, hfs, hnames, hallowed⟩ := h
  obtain ⟨gs, hgs, hnames', hallowed'⟩ := h'
  refine ⟨fs ++ gs, by rw [hgs, hfs, List.append_assoc], ?_, ?_⟩
  · rw [List.filter_append, List.map_append, hnames, hnames']
  · intro f hf
    rcases List.mem_append.mp hf with hf | hf
    · exact hallowed f hf
    · exact hallowed' f hf

/-- Something that is allowed is found, or nothing. -/
theorem of_append {fs : List Finding} (h : t.findings.toList = s.findings.toList ++ fs)
    (hfs : ∀ f ∈ fs, f.isUndefined = false ∧ allowed f) : Reports allowed [] s t := by
  refine ⟨fs, h, ?_, fun f hf _ => (hfs f hf).2⟩
  rw [List.map_nil, List.filter_eq_nil_iff]
  intro f hf
  simp [(hfs f hf).1]

theorem congr {s' t' : State} (h : Reports allowed xs s t) (hs : s.findings = s'.findings)
    (ht : t'.findings = t.findings) : Reports allowed xs s' t' := by
  rw [Reports, ht, ← hs]
  exact h

end Reports

/-- The step of the second run ends beside `t` with an answer that has the property, and reports the
unknown names. -/
structure Ends (w : Setting) (xs : List Ast.Unknown) (m : Binding α) (s' t : State) (P : α → Prop) :
    Prop where
  poisoned : Poisoned w t (after m s')
  reports : Reports w.allowed xs s' (after m s')
  answer : P (out m s')

namespace Ends

variable {w : Setting} {xs ys : List Ast.Unknown} {m : Binding α} {f : α → Binding β}
    {s s' t u : State}
  {P : α → Prop} {Q : β → Prop} {a : α}

theorem mono {P' : α → Prop} (h : Ends w xs m s' t P) (himp : ∀ a, P a → P' a) : Ends w xs m s' t P' :=
  ⟨h.poisoned, h.reports, himp _ h.answer⟩

theorem pure (h : Poisoned w t s') (ha : P a) : Ends w [] (Pure.pure a) s' t P := ⟨h, .of_eq rfl, ha⟩

theorem repeats (h : Poisoned w t s') (hm : Repeats m s' a) (ha : P a) : Ends w [] m s' t P := by
  obtain ⟨hout, hafter⟩ := hm
  refine ⟨?_, ?_, ?_⟩
  · rw [hafter]
    exact h
  · rw [hafter]
    exact .of_eq rfl
  · rw [hout]
    exact ha

theorem seq (hm : Ends w xs m s' u P)
    (hf : ∀ a u', Poisoned w u u' → P a → Ends w ys (f a) u' t Q) :
    Ends w (xs ++ ys) (m >>= f) s' t Q := by
  have hrest := hf _ _ hm.poisoned hm.answer
  exact ⟨hrest.poisoned, hm.reports.trans hrest.reports, hrest.answer⟩

/-- The same where the unknown names are all found by the first step. -/
theorem andThen (hm : Ends w xs m s' u P)
    (hf : ∀ a u', Poisoned w u u' → P a → Ends w [] (f a) u' t Q) : Ends w xs (m >>= f) s' t Q := by
  have h := hm.seq hf
  rwa [List.append_nil] at h

/-- The same where the first step finds none of them. -/
theorem prepared (hm : Ends w [] m s' u P)
    (hf : ∀ a u', Poisoned w u u' → P a → Ends w xs (f a) u' t Q) : Ends w xs (m >>= f) s' t Q :=
      hm.seq hf

/-- The same where the second step depends on where the first one ends. -/
theorem followed (hm : Ends w xs m s' u P) (hf : Ends w ys (f (out m s')) (after m s') t Q) :
    Ends w (xs ++ ys) (m >>= f) s' t Q := ⟨hf.poisoned, hm.reports.trans hf.reports, hf.answer⟩

/-- A step that comes after one that says nothing. -/
theorem past (hm : Repeats m s' a) (hf : Ends w xs (f a) s' t Q) : Ends w xs (m >>= f) s' t Q := by
  obtain ⟨rfl, hafter⟩ := hm
  refine ⟨?_, ?_, ?_⟩
  · rw [after_bind, hafter]
    exact hf.poisoned
  · rw [after_bind, hafter]
    exact hf.reports
  · rw [out_bind, hafter]
    exact hf.answer

theorem report {range : Range} {p : Problem} (h : Poisoned w t s')
    (hp : (⟨range, p⟩ : Finding).isUndefined = false)
    (hallowed : w.allowed ⟨range, p⟩) : Ends w [] (report range p) s' t fun _ => True := by
  have hafter := after_report range p s'
  have hfindings : (s'.reporting [⟨range, p⟩]).findings.toList = s'.findings.toList ++ [⟨range, p⟩] :=
    Array.toList_append
  refine ⟨?_, ?_, trivial⟩
  · rw [hafter]
    exact h.reporting _
  · rw [hafter]
    exact .of_append hfindings (by simpa using ⟨hp, hallowed⟩)

/-! ### Going in and out -/

/-- A step that runs `act` in another place and comes back from there. -/
theorem leaving {w' : Setting} {act : Binding β} {u' : State} (hinner : Ends w' xs act u' v Q)
    (hallowed : w'.allowed = w.allowed) (h : Poisoned w s s') (hg : Grows [] s t)
    (hg' : Grows [] s' (after m s'))
    (hfns : List.Forall₂ SameFrame t.fns (after m s').fns) (hbefore : u'.findings = s'.findings)
    (hafter : (after m s').findings = (after act u').findings) (ha : P (out m s')) :
    Ends w xs m s' t P :=
  ⟨h.grows hg hg' hfns, (hallowed ▸ hinner.reports).congr hbefore hafter, ha⟩

theorem inScope {kind : ScopeKind} (isPlain : Bool) {own' : List String} (h : Poisoned w s s')
    (hinner : Ends { w with isPlain } xs m (s'.opened kind) v P) (hg : Grows own (s.opened kind) v)
    (hm : Keeps own' m) :
    Ends w xs (inScope kind m) s' (v.at s.current) P :=
  hinner.leaving rfl h hg.inScope ((keeps_inScope kind hm).grows s') hinner.poisoned.fns rfl rfl
    hinner.answer

variable {depth : Nat → Nat}

theorem withLoopDepth (h : Poisoned w s s')
    (hinner : Ends w xs m (s'.inLoops (depth s.loopDepth)) v P) :
    Ends w xs (withLoopDepth depth m) s' (v.inLoops s.loopDepth) P := by
  rw [← h.loopDepth] at hinner ⊢
  exact ⟨hinner.poisoned.inLoops _, hinner.reports.congr rfl rfl, hinner.answer⟩

theorem withScopeDepth (h : Poisoned w s s')
    (hinner : Ends w xs m (s'.inScopeBlocks (depth s.scopeDepth)) v P) :
    Ends w xs (withScopeDepth depth m) s' (v.inScopeBlocks s.scopeDepth) P := by
  rw [← h.scopeDepth] at hinner ⊢
  exact ⟨hinner.poisoned.inScopeBlocks _, hinner.reports.congr rfl rfl, hinner.answer⟩

/-- A body leaves the frames of both runs behind. -/
theorem withFn {frame f : FnFrame} (h : Poisoned w s s')
    (hinner : Ends { w with declared := frame.declared } xs m (s'.inFns (frame :: s'.fns)) v P)
    (hv : v.fns = f :: s.fns) :
    Ends w xs (withFn frame m) s' (v.inFns s.fns)
      fun r => P r.1 ∧ ∃ f', r.2 = some f' ∧ SameFrame f f' := by
  have hfns := hinner.poisoned.fns
  rw [hv] at hfns
  cases hv' : (after m (s'.inFns (frame :: s'.fns))).fns with
  | nil =>
    rw [hv'] at hfns
    cases hfns
  | cons f' fs' =>
    rw [hv'] at hfns
    obtain ⟨hf, hrest⟩ := List.forall₂_cons.mp hfns
    have hafter := after_withFn m s' frame
    have hout := out_withFn m s' frame
    rw [hv'] at hafter hout
    have hpopped : Poisoned w (v.inFns s.fns)
        ((after m (s'.inFns (frame :: s'.fns))).inFns fs') :=
      { hinner.poisoned with
        valid := hinner.poisoned.valid.congr rfl rfl rfl rfl
        valid' := hinner.poisoned.valid'.congr rfl rfl rfl rfl
        fns := hrest
        declared := h.declared }
    refine ⟨?_, ?_, ?_⟩
    · rw [hafter]
      exact hpopped
    · rw [hafter]
      exact hinner.reports.congr rfl rfl
    · rw [hout]
      exact ⟨hinner.answer, f', rfl, hf⟩

end Ends

/-! ## Names of the second run -/

section

variable {w : Setting} {Γ : Symbols} {s s' t : State} {name : Name}

/-- The second run may find that the name is taken by a stray, or there is no such stray. -/
def Setting.MayDeclare (w : Setting) (s' : State) (name : Name) : Prop :=
  (w.bare name.text = true → w.allowed ⟨name.range, .alreadyDeclared name.text⟩) ∨
    ∀ sc', s'.scopes.get? s'.current = some sc' → sc'.varNames.get? name.text = none

/-- What is found where a name is declared that is bare if it is taken. -/
theorem reports_declareLocal {sc' : Scope} (hsc' : s'.scopes.get? s'.current = some sc')
    (hmay : w.MayDeclare s' name)
    (hbare : (sc'.varNames.get? name.text).isSome = true → w.bare name.text = true) (kind : SymKind)
    (ty : Ty) :
    Reports w.allowed [] s' (after (declareLocal name kind ty) s') := by
  refine .of_append (findings_declareLocal hsc' name kind ty) fun f hf => ?_
  split at hf
  · next htaken =>
    obtain rfl := List.mem_singleton.mp hf
    refine ⟨rfl, ?_⟩
    rcases hmay with hallowed | hfree
    · exact hallowed (hbare htaken)
    · rw [hfree sc' hsc'] at htaken
      cases htaken
  · cases hf

/-- Both runs declare a variable. -/
theorem ends_declareLocal {ty' : Ty} (h : Poisoned w s s') (hlocal : kind.isLocal = true)
    (hq : Quiet Γ (declareLocal name kind ty) s id t) (hty : ty'.Below ty)
    (hkind : w.isPlain = true ∨ kind = .var false ∧ w.MayDeclare s' name) :
    Ends w [] (declareLocal name kind ty') s' t fun _ => True := by
  obtain ⟨sc, sc', hsc, hsc', hnames⟩ := h.exists_current
  have hfree := hq.free_declareLocal hsc
  refine ⟨h.declaring hlocal hq hty (hkind.imp_right And.left), ?_, trivial⟩
  refine reports_declareLocal hsc' (hkind.elim (fun hplain => .inr fun sc₁ hsc₁ => ?_) And.right)
    (fun htaken => ?_) kind ty'
  · exact h.plain hplain sc sc₁ hsc hsc₁ name.text hfree
  · -- The name is free in the first run, so only a stray can have taken it.
    have hname := hnames name.text
    rw [hfree] at hname
    generalize sc'.varNames.get? name.text = id' at hname htaken
    cases hname with
    | unknown => cases htaken
    | stray hbare _ _ _ => exact hbare

/-- Parameters are declared alike where there are no strays. -/
theorem ends_declareLocals {params : List (Name × Ty)} {ids : List SymId} (h : Poisoned w s s')
    (hplain : w.isPlain = true) (hq : Quiet Γ (declareLocals .parameter params) s ids t) :
    Ends w [] (declareLocals .parameter params) s' t fun _ => True := by
  induction params generalizing s s' ids with
  | nil =>
    obtain ⟨-, rfl⟩ := hq.pure
    exact .pure h trivial
  | cons param params ih =>
    obtain ⟨id, u, hfirst, hrest⟩ := hq.bind
    obtain ⟨ids', hrest, -⟩ := hrest.bind_pure
    refine (ends_declareLocal h rfl hfirst (Ty.below_refl param.2) (.inl hplain)).andThen
      fun _ u' hu _ => ?_
    exact (ih hu hrest).andThen fun _ _ hv _ => .pure hv trivial

/-- Only the second run declares a variable. -/
theorem ends_straying (h : Poisoned w s s') (hplain : w.isPlain = false)
    (hbare : w.bare name.text = true)
    (hmay : w.MayDeclare s' name) :
    Ends w [] (declareLocal name (.var false) .error) s' s fun _ => True := by
  obtain ⟨-, sc', -, hsc', -⟩ := h.exists_current
  exact ⟨h.straying hplain hbare, reports_declareLocal hsc' hmay (fun _ => hbare) _ _, trivial⟩

end

end Binding

end Bindery
