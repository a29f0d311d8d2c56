import Bindery.Scope.Capture

/-!
# Chains of scopes

In every arena that binding builds, a scope is opened inside a scope with a smaller number
(`Scopes.Nested`). The chain outward from a scope then ends after finitely many links, whatever the
bound on their number: `chain_eq` unfolds it by one link and `chain_eq_of_agrees` says that it does
not depend on what is opened or declared later.

On one chain, being nested inside a scope is a comparison of numbers: `mem_chain_iff_le`.
-/

namespace Bindery

namespace Scopes

variable {κ : Type} {a b : Scopes κ} {id p c : Nat} {sc : Scope κ}

theorem get?_eq_some_lt (h : a.get? id = some sc) : id < a.size :=
  (Array.getElem?_eq_some_iff.mp h).choose

theorem exists_get?_of_lt (h : id < a.size) : ∃ sc, a.get? id = some sc :=
  ⟨a.scopes[id], Array.getElem?_eq_getElem h⟩

theorem parent?_eq (h : a.get? id = some sc) : a.parent? id = sc.parent := by
  rw [parent?, h]
  rfl

/-! ## Opening a scope -/

@[simp]
theorem size_push (a : Scopes κ) (p : ScopeId) (kind : ScopeKind) :
    (a.push p kind).2.size = a.size + 1 := by
  simp [push, size]

theorem get?_push_of_lt (p : ScopeId) (kind : ScopeKind) (h : id < a.size) :
    (a.push p kind).2.get? id = a.get? id := by
  simp only [push, get?]
  rw [Array.getElem?_push_lt h, Array.getElem?_eq_getElem h]

theorem get?_push_size (a : Scopes κ) (p : ScopeId) (kind : ScopeKind) :
    (a.push p kind).2.get? a.size =
      some (.fresh kind (some p) (((a.get? p).map (·.depth + 1)).getD 0)) := by
  simp [push, get?, size]

theorem get?_push_eq_some {sc : Scope κ} (h : (a.push p kind).2.get? id = some sc) :
    a.get? id = some sc ∨ id = a.size ∧ ∃ depth, sc = .fresh kind (some p) depth := by
  have hlt := get?_eq_some_lt h
  rw [size_push] at hlt
  rcases Nat.lt_or_eq_of_le (Nat.le_of_lt_succ hlt) with hlt | heq
  · exact .inl (get?_push_of_lt p kind hlt ▸ h)
  · rw [heq, get?_push_size] at h
    exact .inr ⟨heq, _, (Option.some.inj h).symm⟩

/-! ## Nested arenas -/

/-- Every scope was opened inside a scope with a smaller number. -/
def Nested (a : Scopes κ) : Prop := ∀ (id : Nat) sc (p : Nat), a.get? id = some sc →
    sc.parent = some p → p < id

theorem Nested.parent_lt (h : a.Nested) (hp : a.parent? id = some p) : p < id := by
  obtain ⟨sc, hsc, hparent⟩ := Option.bind_eq_some_iff.mp hp
  exact h id sc p hsc hparent

theorem nested_initial : (initial : Scopes κ).Nested := by
  intro id sc p hsc hp
  have hlt : id < 1 := get?_eq_some_lt hsc
  obtain rfl : id = 0 := by omega
  cases hsc
  cases hp

theorem Nested.push (h : a.Nested) (hp : p < a.size) (kind : ScopeKind) :
    (a.push p kind).2.Nested := by
  intro id sc q hsc hq
  have hlt := get?_eq_some_lt hsc
  rw [size_push] at hlt
  by_cases hid : id = a.size
  · subst hid
    rw [get?_push_size] at hsc
    cases hsc
    cases hq
    exact hp
  · rw [get?_push_of_lt p kind (by omega)] at hsc
    exact h id sc q hsc hq

private theorem chainUpTo_eq (h : a.Nested) :
    ∀ (id n m : Nat), id < n → id < m → a.chainUpTo n id = a.chainUpTo m id := by
  intro id
  induction id using Nat.strongRecOn with
  | _ id ih =>
    intro n m hn hm
    obtain ⟨n, rfl⟩ : ∃ k, n = k + 1 := ⟨n - 1, by omega⟩
    obtain ⟨m, rfl⟩ : ∃ k, m = k + 1 := ⟨m - 1, by omega⟩
    rw [chainUpTo, chainUpTo]
    cases hp : a.parent? id with
    | none => rfl
    | some p =>
      have hlt := h.parent_lt hp
      simp only
      rw [ih p hlt n m (by omega) (by omega)]

/-- A chain is its first scope and then the chain of the scope around it. -/
theorem chain_eq (h : a.Nested) (hid : id < a.size) :
    a.chain id = id :: match a.parent? id with
      | none => []
      | some p => a.chain p := by
  rw [chain, chainUpTo]
  cases hp : a.parent? id with
  | none => rfl
  | some p =>
    have hlt := h.parent_lt hp
    simp only
    rw [chain, chainUpTo_eq h p a.size (a.size + 1) (by omega) (by omega)]

theorem self_mem_chain (a : Scopes κ) (id : ScopeId) : id ∈ a.chain id := List.mem_cons_self

theorem le_of_mem_chain (h : a.Nested) (hid : id < a.size) (hc : c ∈ a.chain id) : c ≤ id := by
  induction id using Nat.strongRecOn with
  | _ id ih =>
    rw [chain_eq h hid] at hc
    rcases List.mem_cons.mp hc with rfl | hc
    · exact Nat.le_refl _
    · cases hp : a.parent? id with
      | none => rw [hp] at hc; cases hc
      | some p =>
        rw [hp] at hc
        have hlt := h.parent_lt hp
        have hle := ih p hlt (by omega) hc
        omega

/-- A chain goes on with scopes of smaller numbers. -/
theorem exists_chain_eq_cons (h : a.Nested) (hid : id < a.size) :
    ∃ rest, a.chain id = id :: rest ∧ ∀ c ∈ rest, c < id := by
  refine ⟨_, chain_eq h hid, fun c hc => ?_⟩
  cases hp : a.parent? id with
  | none => rw [hp] at hc; cases hc
  | some p =>
    rw [hp] at hc
    have hlt := h.parent_lt hp
    exact Nat.lt_of_le_of_lt (le_of_mem_chain h (Nat.lt_trans hlt hid) hc) hlt

/-- Of two scopes on one chain, the one with the smaller number contains the other. -/
theorem mem_chain_iff_le {d : Nat} (h : a.Nested) (hid : id < a.size) (hc : c ∈ a.chain id)
    (hd : d ∈ a.chain id) : c ∈ a.chain d ↔ c ≤ d := by
  induction id using Nat.strongRecOn with
  | _ id ih =>
    have hdle := le_of_mem_chain h hid hd
    have hdc : c ∈ a.chain d → c ≤ d := le_of_mem_chain h (by omega)
    refine ⟨hdc, fun hle => ?_⟩
    rw [chain_eq h hid] at hd hc
    rcases List.mem_cons.mp hd with rfl | hd
    · rw [chain_eq h hid]
      exact hc
    · cases hp : a.parent? id with
      | none => rw [hp] at hd; cases hd
      | some p =>
        rw [hp] at hd hc
        have hlt := h.parent_lt hp
        have hdp := le_of_mem_chain h (Nat.lt_trans hlt hid) hd
        rcases List.mem_cons.mp hc with rfl | hc
        · omega
        · exact (ih p hlt (by omega) hc hd).mpr hle

/-! ## Arenas that agree -/

/-- The second arena keeps all scopes of the first at their places. -/
def Agrees (a b : Scopes κ) : Prop := ∀ id, id < a.size → id < b.size ∧ b.parent? id = a.parent? id

/-- A chain does not depend on scopes that are opened later. -/
theorem chain_eq_of_agrees (ha : a.Nested) (hb : b.Nested) (hab : a.Agrees b) (hid : id < a.size) :
    b.chain id = a.chain id := by
  induction id using Nat.strongRecOn with
  | _ id ih =>
    obtain ⟨hidb, hparent⟩ := hab id hid
    rw [chain_eq ha hid, chain_eq hb hidb, hparent]
    cases hp : a.parent? id with
    | none => rfl
    | some p =>
      have hlt := ha.parent_lt hp
      simp only
      rw [ih p hlt (by omega)]

/-! ## Looking names up -/

/-- A name that is its own key is looked up in the scopes of the chain, from the inside out. -/
theorem lookup_eq_findSome? (a : Scopes) (space : NameSpace) (id : ScopeId) (name : String) :
    a.lookup space id name = (a.ancestors id).findSome? fun sc => (sc.table space).get? name := rfl

/-- A name is looked up by its key in the scope itself, then in the scope around it. -/
theorem lookup_of_get? [DecidableEq κ] [Keyed κ] (h : a.Nested) (hsc : a.get? id = some sc)
    (space : NameSpace)
    (name : String) :
    a.lookup space id name =
      ((sc.table space).get? (Keyed.key name)).or (match sc.parent with
        | none => none
        | some p => a.lookup space p name) := by
  rw [lookup, ancestors, chain_eq h (get?_eq_some_lt hsc), parent?_eq hsc, List.filterMap_cons, hsc]
  simp only [List.findSome?_cons]
  cases (sc.table space).get? (Keyed.key name) with
  | some v => rfl
  | none => cases sc.parent <;> rfl

/-- A name is looked up in the scope itself, then in the scope around it. -/
theorem lookup_eq {a : Scopes} {sc : Scope} (h : a.Nested) (hsc : a.get? id = some sc)
    (space : NameSpace) (name : String) :
    a.lookup space id name =
      ((sc.table space).get? name).or (match sc.parent with
        | none => none
        | some p => a.lookup space p name) := lookup_of_get? h hsc space name

/-- What a name stands for was declared in a scope of the chain. -/
theorem exists_of_lookup {a : Scopes} {space : NameSpace} {name : String} {v : SymId}
    (h : a.lookup space id name = some v) :
    ∃ c sc, c ∈ a.chain id ∧ a.get? c = some sc ∧ (sc.table space).get? name = some v := by
  obtain ⟨sc, hsc, hv⟩ := List.exists_of_findSome?_eq_some h
  obtain ⟨c, hc, hget⟩ := List.mem_filterMap.mp hsc
  exact ⟨c, sc, hc, hget, hv⟩

end Scopes

end Bindery
