/-!
# Insertion-ordered maps

An `OrderedMap` is an association list with pairwise different keys, kept in the order in which the
keys were first inserted. Writing to a key that is already present changes the value and keeps the
place, so the order of `keys` is the order of first declaration.

The view of a map is its entry list together with `get?`. Each operation is described by what it
does to them: `get?_insert` and `keys_insert` for writing, `get?_insertNew` for writing only where
nothing stands yet.
-/

namespace Bindery

/-- Entries with pairwise different keys, in the order of first insertion. -/
structure OrderedMap (κ α : Type) where
  entries : List (κ × α)
  nodup : (entries.map Prod.fst).Nodup

namespace OrderedMap

variable {κ α : Type}

/-- The map without entries. -/
def empty : OrderedMap κ α := ⟨[], .nil⟩

instance : Inhabited (OrderedMap κ α) := ⟨empty⟩

/-- The keys in the order of first insertion. -/
def keys (m : OrderedMap κ α) : List κ := m.entries.map Prod.fst

/-- The number of entries. -/
def size (m : OrderedMap κ α) : Nat := m.entries.length

/-- Whether there is no entry at all. -/
def isEmpty (m : OrderedMap κ α) : Bool := m.entries.isEmpty

@[simp]
theorem keys_empty : (empty : OrderedMap κ α).keys = [] := rfl

variable [DecidableEq κ]

/-- The first value listed under a key. -/
def find (k : κ) : List (κ × α) → Option α
  | [] => none
  | (j, v) :: es => if k = j then some v else find k es

/-- The value stored under a key. -/
def get? (m : OrderedMap κ α) (k : κ) : Option α := find k m.entries

/-- Whether a key has a value. -/
def contains (m : OrderedMap κ α) (k : κ) : Bool := (m.get? k).isSome

/-- Changes the value at `k` in place, leaving every other entry alone. -/
def replaceEntry (k : κ) (v : α) (e : κ × α) : κ × α := if k = e.1 then (e.1, v) else e

theorem map_fst_replaceEntry (k : κ) (v : α) (es : List (κ × α)) :
    (es.map (replaceEntry k v)).map Prod.fst = es.map Prod.fst := by
  rw [List.map_map]
  refine List.map_congr_left fun e _ => ?_
  by_cases h : k = e.1 <;> simp [replaceEntry, h]

theorem isSome_find_iff (k : κ) (es : List (κ × α)) :
    (find k es).isSome = true ↔ k ∈ es.map Prod.fst := by
  induction es with
  | nil => simp [find]
  | cons e es ih =>
    rw [find, List.map_cons]
    split <;> simp_all

/-- Writes `v` at `k`: an existing key keeps its place, a new one goes to the end. -/
def insert (m : OrderedMap κ α) (k : κ) (v : α) : OrderedMap κ α :=
  if h : m.contains k then
    ⟨m.entries.map (replaceEntry k v), by rw [map_fst_replaceEntry]; exact m.nodup⟩
  else
    ⟨m.entries ++ [(k, v)], by
      have hk : k ∉ m.entries.map Prod.fst := fun hk => h ((isSome_find_iff k _).mpr hk)
      rw [List.map_append, List.nodup_append]
      refine ⟨m.nodup, by simp, fun a ha b hb e => hk ?_⟩
      have hb : b = k := by simpa using hb
      exact hb ▸ e ▸ ha⟩

/-- Writes `v` at `k` unless the key already has a value. -/
def insertNew (m : OrderedMap κ α) (k : κ) (v : α) : OrderedMap κ α :=
  if m.contains k then m else m.insert k v

/-- The map of a list of pairs, a later pair winning over an earlier one with the same key. -/
def ofList (es : List (κ × α)) : OrderedMap κ α :=
  es.foldl (fun m e => m.insert e.1 e.2) empty

/-! ## Reading after writing -/

@[simp]
theorem get?_empty (k : κ) : (empty : OrderedMap κ α).get? k = none := rfl

theorem contains_iff_mem_keys (m : OrderedMap κ α) (k : κ) : m.contains k = true ↔ k ∈ m.keys :=
  isSome_find_iff k m.entries

private theorem find_map_replaceEntry (k j : κ) (v : α) (es : List (κ × α)) :
    find j (es.map (replaceEntry k v)) =
      if j = k then (find j es).map (fun _ => v) else find j es := by
  induction es with
  | nil => simp [find]
  | cons e es ih =>
    obtain ⟨i, w⟩ := e
    by_cases hki : k = i
    · subst hki
      by_cases hj : j = k <;> simp_all [replaceEntry, find]
    · by_cases hj : j = i
      · subst hj
        have : ¬ j = k := fun h => hki h.symm
        simp [replaceEntry, find, hki, this]
      · simp_all [replaceEntry, find]

private theorem find_append_singleton (k j : κ) (v : α) (es : List (κ × α))
    (hk : find k es = none) :
    find j (es ++ [(k, v)]) = if j = k then some v else find j es := by
  induction es with
  | nil => by_cases hj : j = k <;> simp_all [find]
  | cons e es ih =>
    obtain ⟨i, w⟩ := e
    rw [find] at hk
    split at hk
    · simp at hk
    · next hki =>
      rw [List.cons_append, find, find, ih hk]
      by_cases hj : j = i
      · subst hj
        have : ¬ j = k := fun h => hki h.symm
        simp [this]
      · simp [hj]

/-- A written key reads back what was written, every other key what it held before. -/
theorem get?_insert (m : OrderedMap κ α) (k j : κ) (v : α) :
    (m.insert k v).get? j = if j = k then some v else m.get? j := by
  unfold insert
  split
  · next h =>
    show find j (m.entries.map (replaceEntry k v)) = _
    rw [find_map_replaceEntry]
    split
    · next hj =>
      subst hj
      obtain ⟨w, hw⟩ := Option.isSome_iff_exists.mp h
      rw [show find j m.entries = some w from hw]; rfl
    · rfl
  · next h =>
    exact find_append_singleton k j v m.entries (Option.not_isSome_iff_eq_none.mp h)

/-- Writing keeps the order of the keys and puts a new key last. -/
theorem keys_insert (m : OrderedMap κ α) (k : κ) (v : α) :
    (m.insert k v).keys = if m.contains k then m.keys else m.keys ++ [k] := by
  unfold insert
  split
  · exact map_fst_replaceEntry k v m.entries
  · simp [keys]

/-- Adding with `insertNew` never changes a value that is already there. -/
theorem get?_insertNew (m : OrderedMap κ α) (k j : κ) (v : α) :
    (m.insertNew k v).get? j = if j = k then some ((m.get? k).getD v) else m.get? j := by
  unfold insertNew
  split
  · next h =>
    obtain ⟨w, hw⟩ := Option.isSome_iff_exists.mp h
    by_cases hj : j = k
    · subst hj; simp [hw]
    · simp [hj]
  · next h =>
    rw [get?_insert, Option.not_isSome_iff_eq_none.mp h]; rfl

end OrderedMap

end Bindery
