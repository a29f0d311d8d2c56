import Mathlib.Data.List.Basic
import Bindery.Proofs.Scope.Growth

/-!
# What an arena of scopes remembers

An arena grows from the root scope by moves: a scope is opened inside an existing one, or a name is
declared in an existing one. `Scopes.after` makes moves, and `Scopes.Follows` says what the arena
shows of them: every scope but the root was opened inside one with a smaller number, its depth is
that of the scope around it and one more, and a table holds under a name the first symbol that was
declared for it.

The links outward from a scope therefore come to an end. `Scopes.Walk` follows them without any
bound, and every number has a walk, its chain. Looking names up, depth and nesting are read off it.
-/

namespace Bindery

namespace Scopes

variable {κ : Type}

/-! ## Walks outward -/

/-- Following the links outward from a number visits these numbers and ends. -/
inductive Walk (a : Scopes κ) : ScopeId → List ScopeId → Prop
  | stop {id} : a.parent? id = none → Walk a id [id]
  | step {id p rest} : a.parent? id = some p → Walk a p rest → Walk a id (id :: rest)

variable {a b : Scopes κ} {id c : Nat} {l l' : List Nat}

theorem walk_chain (h : a.Nested) (id : Nat) : a.Walk id (a.chain id) := by
  -- links lead to smaller numbers, so the number itself bounds the walk
  induction id using Nat.strongRecOn with
  | _ id ih =>
    cases hp : a.parent? id with
    | none =>
      rw [chain, chainUpTo, hp]
      exact .stop hp
    | some p =>
      obtain ⟨sc, hsc, -⟩ := Option.bind_eq_some_iff.mp hp
      rw [chain_eq h (get?_eq_some_lt hsc), hp]
      exact .step hp (ih p (h.parent_lt hp))

namespace Walk

theorem unique (h : a.Walk id l) (h' : a.Walk id l') : l = l' := by
  induction h generalizing l' with
  | stop hp =>
    cases h' with
    | stop => rfl
    | step hp' => rw [hp] at hp'; cases hp'
  | step hp _ ih =>
    cases h' with
    | stop hp' => rw [hp] at hp'; cases hp'
    | step hp' hrest =>
      rw [hp] at hp'
      cases hp'
      rw [ih hrest]

theorem le (h : a.Walk id l) (hnested : a.Nested) (hc : c ∈ l) : c ≤ id := by
  induction h with
  | stop => exact Nat.le_of_eq (List.mem_singleton.mp hc)
  | step hp _ ih =>
    have hlt := hnested.parent_lt hp
    rcases List.mem_cons.mp hc with rfl | hc
    · exact Nat.le_refl _
    · exact Nat.le_trans (ih hc) (Nat.le_of_lt hlt)

/-- A walk goes on from each of its numbers. -/
theorem suffix (h : a.Walk id l) (hc : c ∈ l) : ∃ l', a.Walk c l' ∧ l' <:+ l := by
  induction h with
  | stop hp =>
    cases List.mem_singleton.mp hc
    exact ⟨_, .stop hp, List.suffix_rfl⟩
  | step hp hrest ih =>
    rcases List.mem_cons.mp hc with rfl | hc
    · exact ⟨_, .step hp hrest, List.suffix_rfl⟩
    · obtain ⟨l', hwalk, hsuffix⟩ := ih hc
      exact ⟨l', hwalk, hsuffix.trans (List.suffix_cons ..)⟩

theorem congr (h : a.Walk id l) (hparent : ∀ id, b.parent? id = a.parent? id) : b.Walk id l := by
  induction h with
  | stop hp => exact .stop ((hparent _).trans hp)
  | step hp _ ih => exact .step ((hparent _).trans hp) ih

end Walk

theorem mem_chain_trans (h : a.Nested) {s t u : Nat} (hst : t ∈ a.chain s) (htu : u ∈ a.chain t) :
    u ∈ a.chain s := by
  obtain ⟨l, hwalk, hsuffix⟩ := (walk_chain h s).suffix hst
  rw [(walk_chain h t).unique hwalk] at htu
  exact hsuffix.subset htu

theorem mem_chain_antisymm (h : a.Nested) {s t : Nat} (hst : t ∈ a.chain s) (hts : s ∈ a.chain t) :
    s = t :=
  Nat.le_antisymm ((walk_chain h t).le h hts) ((walk_chain h s).le h hst)

/-! ## Views of an arena -/

/-- What one table of a scope holds under a key. -/
def declaredAt? [DecidableEq κ] (a : Scopes κ) (space : NameSpace) (scope : ScopeId) (key : κ) :
    Option SymId :=
  (a.get? scope).bind fun sc => (sc.table space).get? key

theorem get?_push (a : Scopes κ) (p : ScopeId) (kind : ScopeKind) (id : Nat) :
    (a.push p kind).2.get? id = if id = a.size then
      some (.fresh kind (some p) (((a.get? p).map (·.depth + 1)).getD 0)) else a.get? id := by
  simp only [push, get?, size]
  rw [Array.getElem?_push]
  rfl

theorem parent?_push (a : Scopes κ) (p : ScopeId) (kind : ScopeKind) (id : Nat) :
    (a.push p kind).2.parent? id = if id = a.size then some p else a.parent? id := by
  rw [parent?, get?_push]
  split <;> rfl

theorem depth_push {p : ScopeId} (hp : p < a.size) (kind : ScopeKind) (id : Nat) :
    (a.push p kind).2.depth id = if id = a.size then a.depth p + 1 else a.depth id := by
  obtain ⟨sc, hsc⟩ := exists_get?_of_lt hp
  rw [depth, get?_push, depth, hsc]
  split <;> rfl

theorem declaredAt?_push [DecidableEq κ] (a : Scopes κ) (p : ScopeId) (kind : ScopeKind)
    (space : NameSpace)
    (c : ScopeId) (key : κ) :
    (a.push p kind).2.declaredAt? space c key = a.declaredAt? space c key := by
  rw [declaredAt?, get?_push]
  split
  · next hc =>
    rw [declaredAt?, show a.get? c = none from Array.getElem?_eq_none (Nat.le_of_eq hc.symm)]
    cases space <;> rfl
  · rfl

section Adding

variable [DecidableEq κ] (a : Scopes κ) (space : NameSpace) (c : ScopeId) (key : κ) (v : SymId)
    (id : ScopeId)

theorem parent?_adding : (a.adding space c key v).parent? id = a.parent? id := by
  rw [parent?, get?_adding, parent?]
  split
  · cases a.get? id <;> cases space <;> rfl
  · rfl

theorem depth_adding : (a.adding space c key v).depth id = a.depth id := by
  rw [depth, get?_adding, depth]
  split
  · cases a.get? id <;> cases space <;> rfl
  · rfl

theorem size_adding : (a.adding space c key v).size = a.size := Array.size_modify

variable {a c}

theorem declaredAt?_adding (hc : c < a.size) (space' : NameSpace) (k : κ) :
    (a.adding space c key v).declaredAt? space' id k =
      if space = space' ∧ c = id ∧ key = k then some v else a.declaredAt? space' id k := by
  obtain ⟨sc, hsc⟩ := exists_get?_of_lt hc
  rw [declaredAt?, get?_adding]
  by_cases hid : c = id
  · subst hid
    simp [declaredAt?, hsc, get?_table_addName, eq_comm]
  · simp [declaredAt?, hid]

end Adding

/-! ## Moves -/

/-- A step that changes an arena. -/
inductive Move where
  | push (parent : ScopeId) (kind : ScopeKind)
  | declare (space : NameSpace) (scope : ScopeId) (name : String) (symbol : SymId)
deriving DecidableEq

variable [DecidableEq κ] [Keyed κ]

/-- The arena after a move; `none` if the move names a scope that does not exist. A name that is
declared already changes nothing. -/
def move (a : Scopes κ) : Move → Option (Scopes κ)
  | .push parent kind => if parent < a.size then some (a.push parent kind).2 else none
  | .declare space scope name symbol =>
    match a.declare space scope name symbol with
    | .ok b => some b
    | .error (.duplicate _) => some a
    | .error .noSuchScope => none

/-- The arena after some moves, starting with the root scope. -/
def after (moves : List Move) : Option (Scopes κ) := moves.foldlM move initial

variable (κ) in
/-- The symbol that a move offers for a name in one table of a scope. -/
def Move.offers? (space : NameSpace) (scope : ScopeId) (name : String) : Move → Option SymId
  | .push .. => none
  | .declare space' scope' name' symbol =>
    if space' = space ∧ scope' = scope ∧ (Keyed.key name' : κ) = Keyed.key name then some symbol
      else none

variable (κ) in
/-- The first symbol that the moves declare for a name in one table of a scope. -/
def first? (moves : List Move) (space : NameSpace) (scope : ScopeId) (name : String) : Option SymId :=
  moves.findSome? (Move.offers? κ space scope name)

theorem lookup_eq_entries (a : Scopes κ) (space : NameSpace) (s : Nat) (name : String) :
    a.lookup space s name = (a.chain s).findSome? fun c => a.declaredAt? space c (Keyed.key name) := by
  rw [lookup, ancestors, ← List.head?_filterMap, List.filterMap_filterMap, List.head?_filterMap]
  rfl

/-- Declaring a name in a scope off the chain, or in the other table, does not matter. -/
theorem lookup_declare (h : a.Nested) {space space' : NameSpace} {s c : Nat} {name name' : String}
    {v : SymId}
    (hb : a.declare space' c name' v = .ok b) (hoff : space' ≠ space ∨ c ∉ a.chain s) :
    b.lookup space s name = a.lookup space s name := by
  cases hsc : a.get? c with
  | none =>
    rw [declare, hsc] at hb
    cases hb
  | some sc =>
    rw [declare_of_get? hsc] at hb
    split at hb
    · cases hb
    · cases hb
      -- both arenas have the same links, so the same chain is searched in both
      have hwalk := (walk_chain h s).congr (parent?_adding a space' c (Keyed.key name') v)
      rw [lookup_eq_entries, lookup_eq_entries, ← hwalk.unique (walk_chain (h.adding _ _ _ _) s)]
      rw [← List.head?_filterMap, ← List.head?_filterMap]
      refine congrArg List.head? (List.filterMap_congr fun c' hc' => ?_)
      rw [declaredAt?_adding _ _ _ _ (get?_eq_some_lt hsc), if_neg]
      rintro ⟨rfl, rfl, -⟩
      exact hoff.elim (absurd rfl) (absurd hc')

/-- The arena shows what the moves say. -/
structure Follows (a : Scopes κ) (moves : List Move) : Prop where
  nested : a.Nested
  parent : ∀ id, id < a.size → (a.parent? id = none ↔ id = rootId)
  depth : ∀ id, a.depth id = ((a.parent? id).map fun p => a.depth p + 1).getD 0
  entries : ∀ space c name, a.declaredAt? space c (Keyed.key name) = first? κ moves space c name

namespace Follows

variable {moves : List Move}

theorem initial : Follows (initial : Scopes κ) [] := by
  refine ⟨nested_initial, fun id hid => ?_, fun id => ?_, fun space c name => ?_⟩
  · obtain rfl : id = 0 := Nat.lt_one_iff.mp hid
    exact iff_of_true rfl rfl
  · cases id <;> rfl
  · cases c <;> cases space <;> rfl

variable (h : Follows a moves)

include h

theorem push {p : ScopeId} (hp : p < a.size) (kind : ScopeKind) :
    Follows (a.push p kind).2 (moves ++ [.push p kind]) := by
  refine ⟨h.nested.push hp kind, fun id hid => ?_, fun id => ?_, fun space c name => ?_⟩
  · rw [parent?_push]
    split
    · next hsize =>
      refine iff_of_false (by simp) ?_
      rintro rfl
      rw [← hsize] at hp
      cases hp
    · next hne =>
      rw [size_push] at hid
      exact h.parent id (Nat.lt_of_le_of_ne (Nat.le_of_lt_succ hid) hne)
  · rw [parent?_push, depth_push hp]
    split
    · simp [depth_push hp, Nat.ne_of_lt hp]
    · -- an older scope lies in an older one, whose depth the new scope does not change
      rw [h.depth]
      cases hq : a.parent? id with
      | none => rfl
      | some q =>
        have hlt := h.nested.parent_lt hq
        obtain ⟨sc, hsc, -⟩ := Option.bind_eq_some_iff.mp hq
        have hne := Nat.ne_of_lt (Nat.lt_trans hlt (get?_eq_some_lt hsc))
        simp [depth_push hp, hne]
  · rw [declaredAt?_push, h.entries, first?, first?, List.findSome?_append]
    exact Option.or_none.symm

/-- A name is declared, or the symbol that stands there already is the first one. -/
theorem declare (space : NameSpace) (name : String) (v : SymId) (hc : c < a.size) :
    ∃ b, a.move (.declare space c name v) = some b ∧
      Follows b (moves ++ [.declare space c name v]) := by
  obtain ⟨sc, hsc⟩ := exists_get?_of_lt hc
  have hentry : (sc.table space).get? (Keyed.key name) = first? κ moves space c name := by
    rw [← h.entries, declaredAt?, hsc]
    rfl
  have hoffers : ∀ space' c' name', first? κ (moves ++ [.declare space c name v]) space' c' name' =
      (first? κ moves space' c' name').or
        (if space = space' ∧ c = c' ∧ (Keyed.key name : κ) = Keyed.key name' then some v
        else none) := by
    intro space' c' name'
    rw [first?, List.findSome?_append, List.findSome?_singleton]
    rfl
  rw [move, declare_of_get? hsc, hentry]
  cases hfirst : first? κ moves space c name with
  | some existing =>
    -- the symbol that is offered comes after the first one, in the arena as among the moves
    refine ⟨a, rfl, h.nested, h.parent, h.depth, fun space' c' name' => ?_⟩
    rw [hoffers, ← h.entries]
    split
    · next hsame =>
      obtain ⟨rfl, rfl, hkey⟩ := hsame
      rw [← hkey, h.entries, hfirst]
      rfl
    · exact Option.or_none.symm
  | none =>
    refine ⟨_, rfl, h.nested.adding _ _ _ _, fun id hid => ?_, fun id => ?_, fun space' c' name' => ?_⟩
    · rw [parent?_adding]
      rw [size_adding] at hid
      exact h.parent id hid
    · simp only [parent?_adding, depth_adding]
      exact h.depth id
    · rw [declaredAt?_adding _ _ _ _ hc, hoffers, ← h.entries]
      split
      · next hsame =>
        obtain ⟨rfl, rfl, hkey⟩ := hsame
        rw [← hkey, h.entries, hfirst]
        rfl
      · exact Option.or_none.symm

theorem move {b : Scopes κ} {m : Move} (hm : a.move m = some b) : Follows b (moves ++ [m]) := by
  cases m with
  | push p kind =>
    rw [Scopes.move, Option.ite_none_right_eq_some] at hm
    obtain ⟨hp, hb⟩ := hm
    cases hb
    exact h.push hp kind
  | declare space c name v =>
    have hc : c < a.size := by
      cases hsc : a.get? c with
      | none => simp [Scopes.move, Scopes.declare, hsc] at hm
      | some sc => exact get?_eq_some_lt hsc
    obtain ⟨b', hb', hfollows⟩ := h.declare space name v hc
    rw [hb'] at hm
    cases hm
    exact hfollows

theorem foldlM {more : List Move} (hmore : more.foldlM Scopes.move a = some b) :
    Follows b (moves ++ more) := by
  -- along the moves still to be made, whatever arena and moves lie behind
  induction more generalizing a moves with
  | nil =>
    cases hmore
    rwa [List.append_nil]
  | cons m more ih =>
    obtain ⟨a', hm, hmore⟩ := Option.bind_eq_some_iff.mp hmore
    rw [List.append_cons]
    exact ih (h.move hm) hmore

theorem length_chain (id : Nat) : (a.chain id).length = a.depth id + 1 := by
  have hwalk := walk_chain h.nested id
  generalize a.chain id = l at hwalk
  induction hwalk with
  | stop hp => rw [h.depth, hp]; rfl
  | step hp _ ih => rw [h.depth, hp, List.length_cons, ih]; rfl

/-- A name is looked up along the chain: the first symbol declared for it in the nearest scope that
has one. -/
theorem lookup_eq (space : NameSpace) (s : Nat) (name : String) :
    a.lookup space s name = (a.chain s).findSome? fun c => first? κ moves space c name := by
  simp only [lookup_eq_entries, h.entries]

end Follows

/-- Whatever moves have built an arena from the root scope, opening scopes inside existing ones and
declaring names in existing ones: every other scope was opened inside one with a smaller number, so
following the links outward ends from every number, with the chain. The depth is the length of the
links. Nesting is a partial order, and holds exactly along the chain, so what is free in a scope is
free in all scopes inside it. A name stands for the first symbol declared for it in the nearest
scope of the chain that declares it; names declared off the chain or in the other table do not
matter. A name that was declared is refused with its first symbol, and nothing changes. -/
theorem arena_shows_its_moves {moves : List Move} {a : Scopes κ} (h : after moves = some a) :
    (∀ id, id < a.size → id ≠ rootId → ∃ p, a.parent? id = some p ∧ p < id) ∧
    (∀ id, a.Walk id (a.chain id)) ∧
    (∀ id, (a.chain id).length = a.depth id + 1) ∧
    (∀ s t, a.isWithin s t = true ↔ t ∈ a.chain s) ∧
    (∀ s, a.isWithin s s = true) ∧
    (∀ s t, a.isWithin s t = true → a.isWithin t s = true → s = t) ∧
    (∀ s t u, a.isWithin s t = true → a.isWithin t u = true → a.isWithin s u = true) ∧
    (∀ declaring outer inner, a.isWithin inner outer = true → a.isFree declaring outer = true →
      a.isFree declaring inner = true) ∧
    (∀ space s name, a.lookup space s name = (a.chain s).findSome? fun c =>
      first? κ moves space c name) ∧
    (∀ space s name space' c name' v b, a.declare space' c name' v = .ok b → space' ≠ space ∨
      c ∉ a.chain s →
      b.lookup space s name = a.lookup space s name) ∧
    ∀ space c name existing v, c < a.size → (a.declare space c name v = .error (.duplicate existing) ↔
      first? κ moves space c name = some existing) ∧
      (first? κ moves space c name = some existing → a.move (.declare space c name v) = some a) := by
  have hfollows : Follows a moves := Follows.initial.foldlM h
  have hnested := hfollows.nested
  have hwithin : ∀ s t, a.isWithin s t = true ↔ t ∈ a.chain s := fun _ _ => List.contains_iff_mem
  have htrans : ∀ s t u, a.isWithin s t = true → a.isWithin t u = true → a.isWithin s u = true := by
    intro s t u hst htu
    rw [hwithin] at hst htu ⊢
    exact mem_chain_trans hnested hst htu
  refine ⟨fun id hid hroot => ?_, walk_chain hnested, hfollows.length_chain, hwithin,
    fun s => (hwithin s s).mpr (self_mem_chain a s), fun s t hst hts => ?_, htrans, ?_,
      hfollows.lookup_eq,
    fun _ _ _ _ _ _ _ _ => lookup_declare hnested, ?_⟩
  · cases hp : a.parent? id with
    | none => exact absurd ((hfollows.parent id hid).mp hp) hroot
    | some p => exact ⟨p, rfl, hnested.parent_lt hp⟩
  · exact mem_chain_antisymm hnested ((hwithin s t).mp hst) ((hwithin t s).mp hts)
  · intro declaring outer inner hinner hfree
    simp only [isFree, Bool.not_eq_true', Bool.eq_false_iff] at hfree ⊢
    exact fun hwithin => hfree (htrans _ _ _ hwithin hinner)
  · intro space c name existing v hc
    obtain ⟨sc, hsc⟩ := exists_get?_of_lt hc
    have hentry : (sc.table space).get? (Keyed.key name) = first? κ moves space c name := by
      rw [← hfollows.entries, declaredAt?, hsc]
      rfl
    rw [move, declare_of_get? hsc, hentry]
    cases first? κ moves space c name <;> simp

/-- A variable declared in the root scope and, twice, in the function inside it, where a lambda is
opened. -/
def shadowing : List Move :=
  [.push 0 .fn, .push 1 .lambda, .declare .var 0 "x" 7, .declare .var 1 "x" 8, .declare .var 1 "x" 9]

theorem shadowing_shows_its_moves : ∃ a : Scopes, after shadowing = some a ∧ a.Walk 2 [2, 1, 0] ∧
    a.lookup .var 2 "x" = some 8 ∧ a.lookup .var 0 "x" = some 7 ∧
    a.declare .var 1 "x" 9 = .error (.duplicate 8) := by
  refine ⟨_, rfl, ?_⟩
  obtain ⟨-, hwalk, -, -, -, -, -, -, hlookup, -, hduplicate⟩ :=
    @arena_shows_its_moves String _ _ shadowing _ rfl
  refine ⟨hwalk 2, (hlookup .var 2 "x").trans ?_, (hlookup .var 0 "x").trans ?_,
    (hduplicate .var 1 "x" 8 9 (by decide)).1.mpr ?_⟩
  all_goals rfl

end Scopes

end Bindery
