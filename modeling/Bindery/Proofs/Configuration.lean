import Mathlib.Data.List.Basic
import Bindery.Config.Project

/-!
# Ways to write a project file

The same configuration can be written in many ways. `Json.Restates` relates two ways to write one
structure: the members of an object in another order and with other unknown keys, or the values
alone as an array. What is read does not change (`Json.fields?_congr`), neither for the project nor
for the options inside it.

A structure is read by what stands under each of its keys (`Json.valuesOf`): nothing or one value is
fine, more is not.
-/

namespace Bindery

namespace Json

/-! ## Structures -/

/-- The values that members give for a key. -/
def valuesOf (key : String) (members : List (Option String × Json)) : List Json :=
  (members.filter (·.1 == some key)).map Prod.snd

/-- Nothing or one value, but not more. -/
def only? : List Json → Option (Option Json)
  | [] => some none
  | [v] => some (some v)
  | _ => none

/-- The members that matter for a structure: all but those with an unknown key. A key that is no
text is not passed over, it is refused. -/
def relevant (keys : List String) (members : List (Option String × Json)) :
    List (Option String × Json) :=
  members.filter fun m => m.1.all (keys.contains ·)

theorem mapM_named (members : List (Option String × Json)) :
    (members.mapM fun m => m.1.map fun key => (key, m.2)) =
      if members.all (·.1.isSome) then some (members.filterMap fun m => m.1.map fun key =>
        (key, m.2)) else none := by
  induction members with
  | nil => rfl
  | cons m members ih =>
    obtain ⟨key, v⟩ := m
    rw [List.mapM_cons, ih]
    cases key with
    | none => rfl
    | some key => by_cases h : members.all (·.1.isSome) <;> simp [h]

/-- Under each of two keys there may stand one value, and all keys have to be texts. -/
theorem membersFor?_pair (k₁ k₂ : String) (ms : List (Option String × Json)) :
    membersFor? [k₁, k₂] ms = if ms.all (·.1.isSome) then
      (only? (valuesOf k₁ ms)).bind fun v => (only? (valuesOf k₂ ms)).map fun w =>
        [v, w] else none := by
  have hvalues : ∀ key, ((ms.filterMap fun m => m.1.map fun k => (k, m.2)).filter (·.1 == key)).map
    Prod.snd =
      valuesOf key ms := by
    intro key
    rw [valuesOf, List.filter_filterMap, List.map_filterMap,
      ← List.filterMap_eq_filter, List.map_filterMap]
    refine List.filterMap_congr fun m _ => ?_
    obtain ⟨_ | k, v⟩ := m
    · rfl
    · by_cases h : k = key <;> simp [h, Option.filter, Option.guard]
  rw [membersFor?, mapM_named]
  split
  · rw [← hvalues k₁, ← hvalues k₂]
    simp only [List.mapM_cons, List.mapM_nil, Option.bind_eq_bind, Option.bind_some]
    generalize List.filter _ _ = found, List.filter _ _ = found'
    rcases found with _ | ⟨m, _ | ⟨m', found⟩⟩ <;> rcases found' with _ | ⟨n, _ | ⟨n', found'⟩⟩ <;> rfl
  · rfl

theorem only?_eq_none {l : List Json} (h : 2 ≤ l.length) : only? l = none := by
  rcases l with _ | ⟨v, _ | ⟨w, l⟩⟩
  · cases h
  · simp at h
  · rfl

theorem only?_perm {l l' : List Json} (h : l.Perm l') : only? l = only? l' := by
  rcases l with _ | ⟨v, _ | ⟨w, l⟩⟩
  · rw [h.nil_eq]
  · rw [h.singleton_eq]
  · rw [only?_eq_none (by simp), only?_eq_none (by simp [← h.length_eq])]

/-! ## Restated structures -/

/-- Two ways to write a structure with the given keys: objects that differ in the order of members
and in members with unknown keys, and the array of the values of an object that gives the first few
keys. -/
inductive Restates (keys : List String) : Json → Json → Prop
  | members {ms ms'} :
    (relevant keys ms).Perm (relevant keys ms') → Restates keys (.object ms) (.object ms')
  | items {ms values} : values.length ≤ keys.length →
      (relevant keys ms).Perm ((keys.zip values).map (Prod.map some id)) →
        Restates keys (.object ms) (.array values)

/-- A structure that is written with a known key twice or with more items than keys. -/
inductive Misstates (keys : List String) : Json → Prop
  | repeated {ms key} : key ∈ keys → 2 ≤ ms.countP (·.1 == some key) → Misstates keys (.object ms)
  | surplus {items} : keys.length < items.length → Misstates keys (.array items)

variable {k₁ k₂ : String} {ms ms' : List (Option String × Json)}

/-- Only what matters is read. -/
theorem membersFor?_congr (h : (relevant [k₁, k₂] ms).Perm (relevant [k₁, k₂] ms')) :
    membersFor? [k₁, k₂] ms = membersFor? [k₁, k₂] ms' := by
  have hall : ∀ ms, (relevant [k₁, k₂] ms).all (·.1.isSome) = ms.all (·.1.isSome) := by
    intro ms
    rw [relevant, List.all_filter]
    refine congrArg ms.all (funext fun m => ?_)
    obtain ⟨_ | k, v⟩ := m <;> simp
  have hvalues : ∀ {key}, key ∈ [k₁, k₂] → only? (valuesOf key ms) = only? (valuesOf key ms') := by
    intro key hkey
    have hrelevant : ∀ ms, valuesOf key (relevant [k₁, k₂] ms) = valuesOf key ms := by
      intro ms
      rw [valuesOf, relevant, List.filter_filter, valuesOf]
      refine congrArg (List.map _) (List.filter_congr fun m _ => ?_)
      obtain ⟨_ | k, v⟩ := m
      · rfl
      · by_cases h : k = key <;> simp_all
    rw [← hrelevant ms, ← hrelevant ms']
    exact only?_perm ((h.filter _).map _)
  rw [membersFor?_pair, membersFor?_pair, ← hall ms, ← hall ms', h.all_eq,
    hvalues (by simp), hvalues (by simp)]

theorem fields?_congr (hne : k₁ ≠ k₂) {j j' : Json} (h : Restates [k₁, k₂] j j') :
    j.fields? [k₁, k₂] = j'.fields? [k₁, k₂] := by
  cases h with
  | members h => exact membersFor?_congr h
  | @items ms values hlength h =>
    -- the array is read as the object with just these members
    have hsame : membersFor? [k₁, k₂] ms = membersFor? [k₁, k₂]
      (([k₁, k₂].zip values).map (Prod.map some id)) := by
      refine membersFor?_congr (h.trans ?_)
      rcases values with _ | ⟨v, _ | ⟨w, values⟩⟩ <;> simp [relevant]
    rw [fields?, hsame, membersFor?_pair]
    rcases values with _ | ⟨v, _ | ⟨w, _ | ⟨u, values⟩⟩⟩
    · simp [fields?, valuesOf, only?]
    · simp [fields?, valuesOf, only?, hne]
    · simp [fields?, valuesOf, only?, hne, hne.symm]
    · simp at hlength

theorem fields?_of_misstates {j : Json} (h : Misstates [k₁, k₂] j) : j.fields? [k₁, k₂] = none := by
  cases h with
  | @repeated ms key hkey hcount =>
    have hnone : only? (valuesOf key ms) = none := by
      refine only?_eq_none ?_
      rwa [valuesOf, List.length_map, ← List.countP_eq_length_filter]
    rw [fields?, membersFor?_pair]
    split
    · rcases List.mem_pair.mp hkey with rfl | rfl <;> simp [hnone]
    · rfl
  | surplus h => exact if_neg (Nat.not_le_of_lt h)

/-! ## Open places -/

/-- A structure in which the value of field number `i` is left open. -/
inductive Slot (keys : List String) (i : Nat) : (Json → Json) → Prop
  | member {key} (before after) : keys[i]? = some key → Slot keys i fun v =>
    .object (before ++ (some key, v) :: after)
  | item (before after) : before.length = i → Slot keys i fun v => .array (before ++ v :: after)

section Member

variable (before after : List (Option String × Json)) (k : String) (v : Json)

theorem all_member : (before ++ (some k, v) :: after).all (·.1.isSome) = (before ++ after).all
    (·.1.isSome) := by simp

theorem valuesOf_member {key : String} (h : k ≠ key) :
    valuesOf key (before ++ (some k, v) :: after) = valuesOf key (before ++ after) := by
  simp [valuesOf, h]

/-- A value under a key is read if no other stands under it. -/
theorem only?_member : only? (valuesOf k (before ++ (some k, v) :: after)) =
    if valuesOf k (before ++ after) = [] then some (some v) else none := by
  have hperm : (valuesOf k (before ++ (some k, v) :: after)).Perm
    (v :: valuesOf k (before ++ after)) := by
    simp [valuesOf, List.perm_middle]
  rw [only?_perm hperm]
  cases valuesOf k (before ++ after) <;> rfl

end Member

/-- What is read of a structure beside one field does not depend on that field. -/
theorem Slot.fields? (hne : k₁ ≠ k₂) {i : Nat} {P : Json → Json} (h : Slot [k₁, k₂] i P) :
    ∃ rest : Option (Option Json),
    ∀ v, (P v).fields? [k₁, k₂] = rest.map fun w => if i = 0 then [some v, w] else [w, some v] := by
  cases h with
  | @member key before after hkey =>
    -- the other field is read from the other members, and only if the open one has no second value
    rcases i with _ | _ | i
    · cases hkey
      refine ⟨if (before ++ after).all (·.1.isSome) then if valuesOf k₁ (before ++ after) = [] then
        only? (valuesOf k₂ (before ++ after)) else none else none, fun v => ?_⟩
      rw [Json.fields?, membersFor?_pair, all_member, only?_member, valuesOf_member _ _ _ _ hne]
      split <;> [split <;> rfl; rfl]
    · cases hkey
      refine ⟨if (before ++ after).all (·.1.isSome) then if valuesOf k₂ (before ++ after) = [] then
        only? (valuesOf k₁ (before ++ after)) else none else none, fun v => ?_⟩
      rw [Json.fields?, membersFor?_pair, all_member, only?_member, valuesOf_member _ _ _ _ hne.symm]
      cases only? (valuesOf k₁ (before ++ after)) <;> split <;>
        [split <;> rfl; rfl; split <;> rfl; rfl]
    · cases hkey
  | item before after hlength =>
    rcases i with _ | _ | i
    · obtain rfl := List.length_eq_zero_iff.mp hlength
      rcases after with _ | ⟨w, _ | ⟨u, after⟩⟩
      · exact ⟨some none, fun v => rfl⟩
      · exact ⟨some (some w), fun v => rfl⟩
      · exact ⟨none, fun v => by simp [Json.fields?]⟩
    · obtain ⟨w, rfl⟩ := List.length_eq_one_iff.mp hlength
      cases after with
      | nil => exact ⟨some (some w), fun v => rfl⟩
      | cons u after => exact ⟨none, fun v => by simp [Json.fields?]⟩
    · refine ⟨none, fun v => if_neg ?_⟩
      simp [hlength]
      omega

theorem mem_of_only? {k : String} {v : Json} (h : only? (valuesOf k ms) = some (some v)) :
    (some k, v) ∈ ms := by
  have hmem : v ∈ valuesOf k ms := by
    unfold only? at h
    split at h <;> cases h
    next hvalues => simp [hvalues]
  obtain ⟨⟨_, _⟩, hm, rfl⟩ := List.mem_map.mp hmem
  obtain ⟨hm, hk⟩ := List.mem_filter.mp hm
  exact eq_of_beq hk ▸ hm

/-- A value that is read of a structure stands at a place in it. -/
theorem exists_slot {i : Nat} {j v : Json} {vs : List (Option Json)} (h : j.fields? [k₁, k₂] = some vs)
    (hv : vs[i]? = some (some v)) : ∃ P, Slot [k₁, k₂] i P ∧ P v = j := by
  cases j with
  | object ms =>
    rw [Json.fields?, membersFor?_pair, Option.ite_none_right_eq_some] at h
    obtain ⟨w₁, hw₁, h⟩ := Option.bind_eq_some_iff.mp h.2
    obtain ⟨w₂, hw₂, rfl⟩ := Option.map_eq_some_iff.mp h
    obtain ⟨k, hk, hmem⟩ : ∃ k, [k₁, k₂][i]? = some k ∧ (some k, v) ∈ ms := by
      rcases i with _ | _ | i <;> cases hv
      · exact ⟨k₁, rfl, mem_of_only? hw₁⟩
      · exact ⟨k₂, rfl, mem_of_only? hw₂⟩
    obtain ⟨before, after, rfl⟩ := List.append_of_mem hmem
    exact ⟨_, .member before after hk, rfl⟩
  | array items =>
    rw [Json.fields?, Option.ite_none_right_eq_some, Option.some.injEq] at h
    obtain ⟨-, rfl⟩ := h
    -- behind the items only absent values are read
    have hitem : items[i]? = some v := by
      rcases Nat.lt_or_ge i items.length with hi | hi
      · simpa [List.getElem?_append_left, hi] using hv
      · simp [List.getElem?_append_right, hi, List.getElem?_replicate] at hv
    obtain ⟨hi, rfl⟩ := List.getElem?_eq_some_iff.mp hitem
    refine ⟨_, .item (items.take i) (items.drop (i + 1)) (by simp [Nat.le_of_lt hi]), ?_⟩
    simp
  | _ => cases h

end Json

namespace ProjectConfig

open Json (Slot)

/-- The keys of a project file. -/
abbrev keys : List String := ["binderOptions", "files"]

/-- The keys of options. -/
abbrev optionKeys : List String := ["useCache", "maxDiagnostics"]

/-- What is read of the project beside its options does not depend on them. -/
theorem exists_files {P : Json → Json} (h : Slot keys 0 P) : ∃ files : Option (List String),
    ∀ o, ofJson? (P o) = (Options.ofJson? o).bind fun options => files.map (⟨options, ·⟩) := by
  obtain ⟨rest, hrest⟩ := h.fields? (by decide)
  cases rest with
  | none => exact ⟨none, fun o => by simp [ofJson?, hrest o]⟩
  | some w =>
    refine ⟨Json.orDefault [] Json.toTexts? w, fun o => ?_⟩
    rw [ofJson?, hrest o]
    simp only [Option.map_eq_bind]
    rfl

/-- What is read of options beside the limit does not depend on it. -/
theorem exists_useCache {L : Json → Json} (h : Slot optionKeys 1 L) : ∃ useCache : Option Bool,
    ∀ v, Options.ofJson? (L v) = useCache.bind fun useCache =>
      (Json.toLimit? v).map (⟨useCache, ·⟩) := by
  obtain ⟨rest, hrest⟩ := h.fields? (by decide)
  cases rest with
  | none => exact ⟨none, fun v => by simp [Options.ofJson?, hrest v]⟩
  | some w =>
    refine ⟨Json.orDefault true Json.toBool? w, fun v => ?_⟩
    rw [Options.ofJson?, hrest v]
    simp only [Option.map_eq_bind]
    rfl

/-- Two ways to write a project, or the options inside a project. -/
inductive Restated : Json → Json → Prop
  | project {j j'} : Json.Restates keys j j' → Restated j j'
  | options {P o o'} : Slot keys 0 P → Json.Restates optionKeys o o' → Restated (P o) (P o')

/-- A project, or the options inside a project, with a known key twice or with too many items. -/
inductive Misstated : Json → Prop
  | project {j} : Json.Misstates keys j → Misstated j
  | options {P o} : Slot keys 0 P → Json.Misstates optionKeys o → Misstated (P o)

theorem ofJson?_restated {j j' : Json} (h : Restated j j') : ofJson? j = ofJson? j' := by
  cases h with
  | project h => rw [ofJson?, Json.fields?_congr (by decide) h, ofJson?]
  | options hP h =>
    obtain ⟨files, hfiles⟩ := exists_files hP
    rw [hfiles, hfiles, Options.ofJson?, Json.fields?_congr (by decide) h, Options.ofJson?]

theorem ofJson?_misstated {j : Json} (h : Misstated j) : ofJson? j = none := by
  cases h with
  | project h => rw [ofJson?, Json.fields?_of_misstates h]; rfl
  | options hP h =>
    obtain ⟨files, hfiles⟩ := exists_files hP
    rw [hfiles, Options.ofJson?, Json.fields?_of_misstates h]
    rfl

/-- A limit is written in its place, as a number of at most 64 bits. -/
theorem exists_limit_of_options {j : Json} {o : Options} (h : Options.ofJson? j = some o) {n : Nat}
    (hn : o.maxDiagnostics = some n) :
    ∃ L, Slot optionKeys 1 L ∧ L (.number (some n)) = j ∧ n ≤ 18446744073709551615 := by
  obtain ⟨fields, hfields, h⟩ := Option.bind_eq_some_iff.mp h
  split at h
  · obtain ⟨useCache, -, h⟩ := Option.bind_eq_some_iff.mp h
    obtain ⟨limit, hlimit, h⟩ := Option.bind_eq_some_iff.mp h
    cases h
    obtain rfl : limit = some n := hn
    unfold Json.orDefault Json.toLimit? at hlimit
    split at hlimit
    · cases hlimit
    · split at hlimit
      · cases hlimit
      · split at hlimit <;> cases hlimit
        next hle =>
        obtain ⟨L, hL, rfl⟩ := Json.exists_slot hfields (i := 1) rfl
        exact ⟨L, hL, rfl, hle⟩
      · cases hlimit
  · cases h

theorem exists_limit {j : Json} {c : ProjectConfig} (h : ofJson? j = some c) {n : Nat}
    (hn : c.options.maxDiagnostics = some n) :
    ∃ P L, Slot keys 0 P ∧ Slot optionKeys 1 L ∧ P (L (.number (some n))) = j ∧
      n ≤ 18446744073709551615 := by
  obtain ⟨fields, hfields, h⟩ := Option.bind_eq_some_iff.mp h
  split at h
  · obtain ⟨options, hoptions, h⟩ := Option.bind_eq_some_iff.mp h
    obtain ⟨files, -, h⟩ := Option.bind_eq_some_iff.mp h
    cases h
    unfold Json.orDefault at hoptions
    split at hoptions
    · -- the default options have no limit
      cases hoptions
      cases hn
    · obtain ⟨L, hL, rfl, hle⟩ := exists_limit_of_options hoptions hn
      obtain ⟨P, hP, rfl⟩ := Json.exists_slot hfields (i := 0) rfl
      exact ⟨P, L, hP, hL, rfl, hle⟩
  · cases h

/-- A limit of 0 is told apart exactly if everything else is in order: the same document without a
limit is accepted. -/
theorem ofDocument_zero {P L : Json → Json} (hP : Slot keys 0 P) (hL : Slot optionKeys 1 L) :
    ofDocument (P (L (.number (some 0)))) = .error .zeroLimit ↔ ∃ c, ofDocument (P (L .null)) =
      .ok c := by
  obtain ⟨files, hfiles⟩ := exists_files hP
  obtain ⟨useCache, huse⟩ := exists_useCache hL
  simp only [ofDocument, hfiles, huse, Json.toLimit?]
  cases useCache <;> cases files <;> simp

/-- How a project file is read does not depend on how it is written. The result for a text is that
for the document which it spells, and documents with the same known members give the same result,
with the members in any order and beside any unknown ones, or with the values as an array, for the
project and for its options. A known key that is repeated and an item too many are refused. An
accepted limit is at least 1 and has 64 bits. Only a limit of 0 in its place can be told apart, and
it is exactly if everything else is acceptable. -/
theorem configurations_are_read_alike :
    (∀ content, parse content = (Json.parse? content).elim (.error .malformed) ofDocument) ∧
    (∀ j j', Restated j j' → ofDocument j = ofDocument j') ∧
    (∀ j, Misstated j → ofDocument j = .error .malformed) ∧
    (∀ j c n, ofDocument j = .ok c → c.options.maxDiagnostics = some n → 1 ≤ n ∧
      n ≤ 18446744073709551615) ∧
    (∀ j, ofDocument j = .error .zeroLimit →
      ∃ P L, Slot keys 0 P ∧ Slot optionKeys 1 L ∧ P (L (.number (some 0))) = j) ∧
    ∀ P L, Slot keys 0 P → Slot optionKeys 1 L →
      (ofDocument (P (L (.number (some 0)))) = .error .zeroLimit ↔ ∃ c, ofDocument (P (L .null)) =
      .ok c) := by
  refine ⟨fun _ => rfl, fun j j' h => ?_, fun j h => ?_, fun j c n hc hn => ?_, fun j h => ?_,
    fun P L => ofDocument_zero⟩
  · rw [ofDocument, ofJson?_restated h, ofDocument]
  · rw [ofDocument, ofJson?_misstated h]
  · rw [ofDocument] at hc
    split at hc
    · cases hc
    · next config hconfig =>
      split at hc
      · cases hc
      · next hlimit =>
        cases hc
        obtain ⟨-, -, -, -, -, hle⟩ := exists_limit hconfig hn
        refine ⟨Nat.one_le_iff_ne_zero.mpr ?_, hle⟩
        rintro rfl
        exact hlimit hn
  · rw [ofDocument] at h
    split at h
    · cases h
    · next config hconfig =>
      split at h
      · next hlimit =>
        obtain ⟨P, L, hP, hL, hj, -⟩ := exists_limit hconfig hlimit
        exact ⟨P, L, hP, hL, hj⟩
      · cases h

end ProjectConfig

end Bindery
