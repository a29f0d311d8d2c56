import Mathlib.Tactic.Common
import Bindery.Proofs.Scope.Chain

/-!
# Growing tables

While a file is bound, symbols and scopes are only added, and a scope changes only by names that are
added to it. `t ≤ u` says this of two symbol tables and `Scopes.Grows own n c a b` of two arenas:
every scope of `a` is in `b`, unchanged, except that the variables of scope `c` may have got names
of `own`, which stand for symbols from number `n` on.
-/

namespace Bindery

/-! ## Symbols -/

/-- Whether a symbol of this kind is a variable or a parameter. -/
def SymKind.isLocal : SymKind → Bool
  | .var _ | .parameter => true
  | _ => false

namespace Symbols

/-- The second table has every symbol of the first, under the same number. -/
instance : LE Symbols := ⟨fun t u => ∀ id sym, t.get? id = some sym → u.get? id = some sym⟩

protected theorem le_refl (t : Symbols) : t ≤ t := fun _ _ h => h

variable {t : Symbols}

protected theorem le_trans {u v : Symbols} (htu : t ≤ u) (huv : u ≤ v) : t ≤ v :=
  fun id sym h => huv id sym (htu id sym h)

theorem get?_eq_some_lt {id : Nat} {sym : Symbol} (h : t.get? id = some sym) :
    id < t.size := (Array.getElem?_eq_some_iff.mp h).choose

theorem exists_get?_of_lt {id : Nat} (h : id < t.size) :
    ∃ sym, t.get? id = some sym := ⟨t.syms[id], Array.getElem?_eq_getElem h⟩

theorem size_le {u : Symbols} (h : t ≤ u) : t.size ≤ u.size := by
  by_contra hlt
  have hpos : t.size - 1 < t.size := by omega
  obtain ⟨sym, hsym⟩ := exists_get?_of_lt hpos
  have := get?_eq_some_lt (h _ sym hsym)
  omega

theorem size_add (t : Symbols) (name : String) (kind : SymKind) (ty : Ty)
    (scope : Option ScopeId) (depth : Nat) :
    (t.add name kind ty scope depth).2.size = t.size + 1 := by
  simp [add, size]

theorem get?_add (t : Symbols) (name : String) (kind : SymKind) (ty : Ty)
    (scope : Option ScopeId) (depth : Nat) (id : SymId) :
    (t.add name kind ty scope depth).2.get? id =
      if id = t.size then some ⟨t.size, name, kind, ty, scope, depth⟩ else t.get? id := by
  simp only [add, get?, size]
  rw [Array.getElem?_push]
  rfl

/-- A symbol is the one just added or was there before. -/
theorem get?_add_cases {name : String} {kind : SymKind} {ty : Ty} {scope : Option ScopeId}
    {depth : Nat}
    {id : SymId} {sym : Symbol} (h : (t.add name kind ty scope depth).2.get? id = some sym) :
    id = t.size ∧ sym = ⟨t.size, name, kind, ty, scope, depth⟩ ∨ t.get? id = some sym := by
  rw [get?_add] at h
  split at h
  · next hid => cases h; exact .inl ⟨hid, rfl⟩
  · exact .inr h

theorem le_add (t : Symbols) (name : String) (kind : SymKind) (ty : Ty)
    (scope : Option ScopeId) (depth : Nat) : t ≤ (t.add name kind ty scope depth).2 := by
  intro id sym h
  have hlt := get?_eq_some_lt h
  rw [get?_add, if_neg (Nat.ne_of_lt hlt), h]

end Symbols

/-! ## Tables of names -/

variable {α : Type}

namespace OrderedMap

variable {κ : Type} {m m' : OrderedMap κ α} {k : κ} {v : α} {added : List (κ × α)}

theorem ext_entries (h : m.entries = m'.entries) : m = m' := by
  cases m
  cases m'
  cases h
  rfl

variable [DecidableEq κ]

theorem entries_insert_of_get?_eq_none (h : m.get? k = none) (v : α) :
    (m.insert k v).entries = m.entries ++ [(k, v)] := by
  have hk : ¬ m.contains k = true := by simp [contains, h]
  rw [insert, dif_neg hk]

theorem find_append (k : κ) (es es' : List (κ × α)) :
    find k (es ++ es') = (find k es).or (find k es') := by
  induction es with
  | nil => rfl
  | cons e es ih =>
    obtain ⟨j, v⟩ := e
    rw [List.cons_append, find, find]
    split
    · rfl
    · exact ih

theorem mem_of_find {es : List (κ × α)} (h : find k es = some v) : (k, v) ∈ es := by
  induction es with
  | nil => cases h
  | cons e es ih =>
    obtain ⟨j, w⟩ := e
    rw [find] at h
    split at h
    · next hk =>
      cases h
      subst hk
      exact List.mem_cons_self
    · exact List.mem_cons_of_mem _ (ih h)

/-- What a key stands for after entries were appended was there before or is among them. -/
theorem get?_append (h : m'.entries = m.entries ++ added) (hv : m'.get? k = some v) :
    m.get? k = some v ∨ (k, v) ∈ added := by
  rw [get?, h, find_append, Option.or_eq_some_iff] at hv
  rcases hv with hold | ⟨-, hnew⟩
  · exact .inl hold
  · exact .inr (mem_of_find hnew)

/-- Entries of other keys make no difference. -/
theorem get?_of_append (h : m'.entries = m.entries ++ added) (hk : ∀ e ∈ added, e.1 ≠ k) :
    m'.get? k = m.get? k := by
  rw [get?, h, find_append]
  cases hadded : find k added with
  | none => exact Option.or_none
  | some v => exact absurd rfl (hk _ (mem_of_find hadded))

end OrderedMap

/-- The second scope is the first with names of `own` added to its variables. They stand for symbols
from number `n` on. -/
structure Scope.Grows (own : List String) (n : Nat) (sc sc' : Scope) : Prop where
  kind : sc'.kind = sc.kind
  parent : sc'.parent = sc.parent
  depth : sc'.depth = sc.depth
  fnNames : sc'.fnNames = sc.fnNames
  varNames : ∃ added, (∀ e ∈ added, e.1 ∈ own ∧ n ≤ e.2) ∧
    sc'.varNames.entries = sc.varNames.entries ++ added

namespace Scope.Grows

variable {own own' : List String} {n n' : Nat} {sc sc' sc'' : Scope}

theorem refl (own : List String) (n : Nat) (sc : Scope) : sc.Grows own n sc :=
  ⟨rfl, rfl, rfl, rfl, [], by simp, by simp⟩

theorem trans (h : sc.Grows own n sc') (h' : sc'.Grows own n sc'') : sc.Grows own n sc'' := by
  obtain ⟨added, hown, hentries⟩ := h.varNames
  obtain ⟨added', hown', hentries'⟩ := h'.varNames
  refine ⟨h'.kind.trans h.kind, h'.parent.trans h.parent, h'.depth.trans h.depth,
    h'.fnNames.trans h.fnNames, added ++ added', ?_, ?_⟩
  · intro e he
    rcases List.mem_append.mp he with he | he
    · exact hown e he
    · exact hown' e he
  · rw [hentries', hentries, List.append_assoc]

theorem mono (h : sc.Grows own n sc') (hsub : ∀ x ∈ own, x ∈ own') (hle : n' ≤ n) :
    sc.Grows own' n' sc' := by
  obtain ⟨added, hown, hentries⟩ := h.varNames
  refine ⟨h.kind, h.parent, h.depth, h.fnNames, added, ?_, hentries⟩
  exact fun e he => ⟨hsub _ (hown e he).1, Nat.le_trans hle (hown e he).2⟩

/-- A scope to which no name may be added stays as it is. -/
theorem eq_of_nil (h : sc.Grows [] n sc') : sc' = sc := by
  obtain ⟨hkind, hparent, hdepth, hfns, added, hown, hentries⟩ := h
  have hnil : added = [] := List.eq_nil_iff_forall_not_mem.mpr fun e he => by simpa using hown e he
  subst hnil
  have hvars : sc'.varNames = sc.varNames := OrderedMap.ext_entries (by simpa using hentries)
  cases sc
  cases sc'
  simp_all

theorem addName {name : String} (h : sc.varNames.get? name = none) {id : Nat}
    (hname : name ∈ own) (hid : n ≤ id) : sc.Grows own n (sc.addName .var name id) := by
  refine ⟨rfl, rfl, rfl, rfl, [(name, id)], ?_, ?_⟩
  · simpa using ⟨hname, hid⟩
  · exact OrderedMap.entries_insert_of_get?_eq_none h id

end Scope.Grows

namespace Scopes

/-- Every scope of the first arena is in the second, with names of `own` added to scope `c`. They
stand for symbols from number `n` on. -/
def Grows (own : List String) (n : Nat) (c : ScopeId) (a b : Scopes) : Prop :=
  ∀ id sc, a.get? id = some sc → ∃ sc', b.get? id = some sc' ∧ sc.Grows (if id = c then own else [])
    n sc'

variable {id : ScopeId}

namespace Grows

variable {own own' : List String} {n n' : Nat} {c : ScopeId} {a b d : Scopes}

theorem refl (own : List String) (n : Nat) (c : ScopeId) (a : Scopes) : a.Grows own n c a :=
  fun _ sc h => ⟨sc, h, .refl _ _ sc⟩

theorem trans (hab : a.Grows own n c b) (hbd : b.Grows own n c d) : a.Grows own n c d := by
  intro id sc h
  obtain ⟨sc', h', hgrows⟩ := hab id sc h
  obtain ⟨sc'', h'', hgrows'⟩ := hbd id sc' h'
  exact ⟨sc'', h'', hgrows.trans hgrows'⟩

theorem mono (h : a.Grows own n c b) (hsub : ∀ x ∈ own, x ∈ own') (hle : n' ≤ n) :
    a.Grows own' n' c b := by
  intro id sc hsc
  obtain ⟨sc', hsc', hgrows⟩ := h id sc hsc
  refine ⟨sc', hsc', hgrows.mono ?_ hle⟩
  split
  · exact hsub
  · simp

/-- A scope other than the one that may grow is not changed. -/
theorem get?_of_ne (h : a.Grows own n c b) {sc : Scope} (hsc : a.get? id = some sc) (hne : id ≠ c) :
    b.get? id = some sc := by
  obtain ⟨sc', hsc', hgrows⟩ := h id sc hsc
  rw [if_neg hne] at hgrows
  rw [hsc', hgrows.eq_of_nil]

theorem get?_of_nil (h : a.Grows [] n c b) {sc : Scope} (hsc : a.get? id = some sc) :
    b.get? id = some sc := by
  obtain ⟨sc', hsc', hgrows⟩ := h id sc hsc
  rw [ite_self] at hgrows
  rw [hsc', hgrows.eq_of_nil]

theorem agrees (h : a.Grows own n c b) : a.Agrees b := by
  intro id hid
  obtain ⟨sc, hsc⟩ := exists_get?_of_lt hid
  obtain ⟨sc', hsc', hgrows⟩ := h id sc hsc
  refine ⟨get?_eq_some_lt hsc', ?_⟩
  rw [parent?_eq hsc, parent?_eq hsc', hgrows.parent]

theorem size_le (h : a.Grows own n c b) : a.size ≤ b.size := by
  by_contra hlt
  have hpos : a.size - 1 < a.size := by omega
  have := (h.agrees _ hpos).1
  omega

theorem push (own : List String) (n : Nat) (c p : ScopeId) (kind : ScopeKind) (a : Scopes) :
    a.Grows own n c (a.push p kind).2 :=
  fun _ sc h => ⟨sc, by rw [get?_push_of_lt p kind (get?_eq_some_lt h), h], .refl _ _ sc⟩

end Grows

/-! ## Declaring a name -/

section Adding

variable {κ : Type} [DecidableEq κ]

/-- The arena with a name added to a table of one scope. -/
def adding (a : Scopes κ) (space : NameSpace) (c : ScopeId) (key : κ) (v : SymId) : Scopes κ :=
  ⟨a.scopes.modify c (·.addName space key v)⟩

variable {a : Scopes κ} {sc : Scope κ} {space : NameSpace} {c : ScopeId} {key : κ} {v : SymId}

/-- In an existing scope a name is added, unless its key is taken. -/
theorem declare_of_get? [Keyed κ] (hsc : a.get? c = some sc) (space : NameSpace) (name : String)
    (v : SymId) :
    a.declare space c name v =
      match (sc.table space).get? (Keyed.key name) with
      | some existing => .error (.duplicate existing)
      | none => .ok (a.adding space c (Keyed.key name) v) := by
  rw [declare, hsc]
  rfl

variable (a space c key v) in
theorem get?_adding (id : ScopeId) :
    (a.adding space c key v).get? id =
      if c = id then (a.get? id).map (·.addName space key v) else a.get? id := by
  simp only [adding, get?]
  rw [Array.getElem?_modify]

theorem get?_table_addName (sc : Scope κ) (space space' : NameSpace) (key k : κ) (v : SymId) :
    ((sc.addName space key v).table space').get? k =
      if space' = space ∧ k = key then some v else (sc.table space').get? k := by
  cases space <;> cases space' <;> simp [Scope.addName, Scope.table, OrderedMap.get?_insert]

/-- A scope after a name was added somewhere: what its tables hold was there before, or is that
name. -/
theorem exists_of_get?_adding (h : (a.adding space c key v).get? id = some sc) :
    ∃ sc', a.get? id = some sc' ∧ sc.parent = sc'.parent ∧
      ∀ space' k w, (sc.table space').get? k = some w →
        (id = c ∧ (space' = space ∧ k = key) ∧ w = v) ∨ (sc'.table space').get? k = some w := by
  rw [get?_adding] at h
  split at h
  · next hc =>
    obtain ⟨sc', hsc', rfl⟩ := Option.map_eq_some_iff.mp h
    refine ⟨sc', hsc', by cases space <;> rfl, fun space' k w hw => ?_⟩
    rw [get?_table_addName] at hw
    split at hw
    · next hn =>
      cases hw
      exact .inl ⟨hc.symm, hn, rfl⟩
    · exact .inr hw
  · exact ⟨sc, h, rfl, fun _ _ _ hw => .inr hw⟩

variable (a space c key v) in
theorem agrees_adding : a.Agrees (a.adding space c key v) := by
  intro id hid
  obtain ⟨sc, hsc⟩ := exists_get?_of_lt hid
  have hget := get?_adding a space c key v id
  rw [hsc] at hget
  split at hget
  · refine ⟨get?_eq_some_lt hget, ?_⟩
    rw [parent?_eq hget, parent?_eq hsc]
    cases space <;> rfl
  · refine ⟨get?_eq_some_lt hget, ?_⟩
    rw [parent?_eq hget, parent?_eq hsc]

theorem Nested.adding (h : a.Nested) (space : NameSpace) (c : ScopeId) (key : κ)
    (v : SymId) : (a.adding space c key v).Nested := by
  intro id sc p hsc hp
  obtain ⟨sc', hsc', hparent, -⟩ := exists_of_get?_adding hsc
  exact h id sc' p hsc' (hparent ▸ hp)

end Adding

variable {a : Scopes} {c : ScopeId} {sc : Scope} {space : NameSpace} {name : String} {v : SymId}

/-- In an existing scope a name is added, unless it is taken. -/
theorem declare_eq (hsc : a.get? c = some sc) (space : NameSpace) (name : String) (v : SymId) :
    a.declare space c name v =
      match (sc.table space).get? name with
      | some existing => .error (.duplicate existing)
      | none => .ok (a.adding space c name v) := declare_of_get? hsc space name v

theorem exists_of_declare_eq_ok {b : Scopes} (h : a.declare space c name v = .ok b) :
    ∃ sc, a.get? c = some sc ∧ (sc.table space).get? name = none ∧ b = a.adding space c name v := by
  cases hsc : a.get? c with
  | none =>
    rw [declare, hsc] at h
    cases h
  | some sc =>
    rw [declare_eq hsc] at h
    cases hname : (sc.table space).get? name with
    | some existing => rw [hname] at h; cases h
    | none => rw [hname] at h; cases h; exact ⟨sc, rfl, hname, rfl⟩

theorem exists_of_declare_eq_error {e : DeclareError} (hc : c < a.size)
    (h : a.declare space c name v = .error e) :
    ∃ sc existing, a.get? c = some sc ∧ (sc.table space).get? name = some existing ∧
      e = .duplicate existing := by
  obtain ⟨sc, hsc⟩ := exists_get?_of_lt hc
  rw [declare_eq hsc] at h
  cases hname : (sc.table space).get? name with
  | some existing => rw [hname] at h; cases h; exact ⟨sc, existing, hsc, hname, rfl⟩
  | none => rw [hname] at h; cases h

theorem Grows.adding {own : List String} {n v : Nat} (hsc : a.get? c = some sc)
    (hname : sc.varNames.get? name = none) (hown : name ∈ own) (hv : n ≤ v) :
    a.Grows own n c (a.adding .var c name v) := by
  intro id sc' hsc'
  rw [get?_adding]
  by_cases hc : c = id
  · subst hc
    rw [hsc] at hsc'
    cases hsc'
    exact ⟨_, by rw [if_pos rfl, hsc]; rfl, by rw [if_pos rfl]; exact .addName hname hown hv⟩
  · exact ⟨sc', by rw [if_neg hc, hsc'], .refl _ _ _⟩

end Scopes

end Bindery
