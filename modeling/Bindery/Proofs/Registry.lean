import Bindery.Proofs.Scope.Growth
import Bindery.Registry

/-!
# Declared types and their symbols

The registry and the symbol table describe the records and sums of a file twice. `Registry.Recorded`
says that the two agree: the fields of a record are exactly the symbols of kind `field` that name
it, the variants of a sum exactly the symbols of kind `variant` that name it, and every variant
belongs to the sum that owns its name. Declaring types and members keeps this.
-/

namespace Bindery

namespace Registry

/-- The registry and the symbol table describe the same records and sums. -/
structure Recorded (r : Registry) (t : Symbols) : Prop where
  record_name : ∀ {n rd}, r.record? n = some rd → rd.name = n
  sum_name : ∀ {n sd}, r.sum? n = some sd → sd.name = n
  field_symbol : ∀ {n rd f d}, r.record? n = some rd → rd.fields.get? f = some d →
    t.get? d.symbol = some ⟨d.symbol, f, .field n, d.ty, none, 0⟩
  variant_symbol : ∀ {n sd v d}, r.sum? n = some sd → sd.variants.get? v = some d →
    t.get? d.symbol = some ⟨d.symbol, v, .variant n d.payload, sd.selfTy, none, 0⟩
  symbol_field : ∀ {id sym n}, t.get? id = some sym → sym.kind = .field n →
    ∃ rd, r.record? n = some rd ∧ rd.fields.get? sym.name = some ⟨id, sym.ty⟩
  symbol_variant : ∀ {id sym n payload}, t.get? id = some sym → sym.kind = .variant n payload →
    ∃ sd, r.sum? n = some sd ∧ sd.variants.get? sym.name = some ⟨id, payload⟩
  owner : ∀ {v n}, r.owners.get? v = some n ↔ ∃ sd d, r.sum? n = some sd ∧ sd.variants.get? v = some d

/-- A variant name is owned by exactly the sum that has the variant. -/
def Owned (r : Registry) : Prop :=
  ∀ v n, r.owners.get? v = some n ↔ ∃ sd d, r.sum? n = some sd ∧ sd.variants.get? v = some d

/-- The second registry has every record and sum of the first, maybe with more members. -/
structure Extends (r r' : Registry) : Prop where
  records : ∀ name, (r.record? name).isSome = true → (r'.record? name).isSome = true
  sums : ∀ name, (r.sum? name).isSome = true → (r'.sum? name).isSome = true

variable {r r' r'' : Registry} {t t' : Symbols} {name : String} {tyParams : List String}

theorem Extends.refl (r : Registry) : r.Extends r := ⟨fun _ h => h, fun _ h => h⟩

theorem Extends.trans (h : r.Extends r') (h' : r'.Extends r'') : r.Extends r'' :=
  ⟨fun n hn => h'.records n (h.records n hn), fun n hn => h'.sums n (h.sums n hn)⟩

theorem recorded_empty : Recorded .empty .empty := by
  constructor <;> intros <;> simp_all [empty, record?, sum?, Symbols.empty, Symbols.get?]

/-- Symbols that are no fields and no variants do not matter. -/
theorem Recorded.of_syms (h : r.Recorded t) (hle : ∀ id sym, t.get? id = some sym →
      (∀ f, sym.kind ≠ .fn f) → t'.get? id = some sym)
    (hnew : ∀ id sym, t'.get? id = some sym →
      t.get? id = some sym ∨ sym.kind.isLocal = true ∨ ∃ f, sym.kind = .fn f) :
    r.Recorded t' where
  record_name := h.record_name
  sum_name := h.sum_name
  owner := h.owner
  field_symbol hrd hd := hle _ _ (h.field_symbol hrd hd) (by simp)
  variant_symbol hsd hd := hle _ _ (h.variant_symbol hsd hd) (by simp)
  symbol_field := by
    intro id sym n hsym hkind
    rcases hnew id sym hsym with hsym | hlocal | ⟨f, hf⟩
    · exact h.symbol_field hsym hkind
    · simp [hkind, SymKind.isLocal] at hlocal
    · simp [hkind] at hf
  symbol_variant := by
    intro id sym n payload hsym hkind
    rcases hnew id sym hsym with hsym | hlocal | ⟨f, hf⟩
    · exact h.symbol_variant hsym hkind
    · simp [hkind, SymKind.isLocal] at hlocal
    · simp [hkind] at hf

/-! ## Declaring a type -/

theorem isTypeName_eq_false : r.isTypeName name = false ↔ r.record? name = none ∧
    r.sum? name = none := by
  simp [isTypeName, OrderedMap.contains, record?, sum?]

theorem declare_cases (r : Registry) (name : String) (new : Registry) :
    r.isTypeName name = true ∧ r.declare name new = (false, r) ∨
      ∃ r', r.declare name new = (true, r') := by
  unfold declare
  split <;> simp_all

theorem eq_of_declare {new : Registry} (h : r.declare name new = (true, r')) :
    r.record? name = none ∧ r.sum? name = none ∧ r' = new := by
  unfold declare at h
  split at h
  · cases h
  · next hfree =>
    obtain ⟨hrecord, hsum⟩ := isTypeName_eq_false.mp (by simpa using hfree)
    cases h
    exact ⟨hrecord, hsum, rfl⟩

theorem eq_of_declareRecord (h : r.declareRecord name tyParams = (true, r')) :
    r.record? name = none ∧ r.sum? name = none ∧
      r' = { r with records := r.records.insert name ⟨name, tyParams, .empty⟩ } :=
  eq_of_declare h

theorem eq_of_declareSum (h : r.declareSum name tyParams = (true, r')) :
    r.record? name = none ∧ r.sum? name = none ∧
      r' = { r with sums := r.sums.insert name ⟨name, tyParams, .empty⟩ } :=
  eq_of_declare h

theorem record?_insertRecord (r : Registry) (name n : String) (d : RecordDef) :
    record? { r with records := r.records.insert name d } n = if n = name then some d else r.record?
      n :=
  OrderedMap.get?_insert _ _ _ _

theorem sum?_insertSum (r : Registry) (name n : String) (d : SumDef)
    (owners : OrderedMap String String) :
    sum? { r with sums := r.sums.insert name d, owners := owners } n =
      if n = name then some d else r.sum? n :=
  OrderedMap.get?_insert _ _ _ _

theorem isSome_ite_of_isSome {α : Type} {o : Option α} {v : α} {p : Prop} [Decidable p]
    (h : o.isSome = true) : (if p then some v else o).isSome = true := by
  split
  · rfl
  · exact h

theorem extends_insertRecord (r : Registry) (name : String) (d : RecordDef) :
    r.Extends { r with records := r.records.insert name d } := by
  refine ⟨fun n hn => ?_, fun _ h => h⟩
  rw [record?_insertRecord]
  exact isSome_ite_of_isSome hn

theorem extends_insertSum (r : Registry) (name : String) (d : SumDef)
    (owners : OrderedMap String String) :
    r.Extends { r with sums := r.sums.insert name d, owners := owners } := by
  refine ⟨fun _ h => h, fun n hn => ?_⟩
  rw [sum?_insertSum]
  exact isSome_ite_of_isSome hn

theorem Recorded.declareRecord (hr : r.Recorded t) (h : r.declareRecord name tyParams = (true, r')) :
    r'.Recorded t := by
  obtain ⟨hfree, -, rfl⟩ := eq_of_declareRecord h
  refine { hr with record_name := ?_, field_symbol := ?_, symbol_field := ?_ }
  · intro n rd hrd
    rw [record?_insertRecord] at hrd
    split at hrd
    · next hn => cases hrd; exact hn.symm
    · exact hr.record_name hrd
  · intro n rd f d hrd hd
    rw [record?_insertRecord] at hrd
    split at hrd
    · cases hrd; cases hd
    · exact hr.field_symbol hrd hd
  · intro id sym n hsym hkind
    obtain ⟨rd, hrd, hd⟩ := hr.symbol_field hsym hkind
    have hne : n ≠ name := by
      rintro rfl
      rw [hfree] at hrd
      cases hrd
    exact ⟨rd, by rw [record?_insertRecord, if_neg hne, hrd], hd⟩

/-- A sum that is declared has no variants yet. -/
theorem Owned.declareSum (hr : r.Owned) (h : r.declareSum name tyParams = (true, r')) : r'.Owned := by
  obtain ⟨-, hfree, rfl⟩ := eq_of_declareSum h
  have hsum := fun n => sum?_insertSum r name n ⟨name, tyParams, .empty⟩ r.owners
  intro v n
  rw [hsum]
  refine (hr v n).trans ?_
  by_cases hn : n = name
  · subst hn
    rw [if_pos rfl, hfree]
    constructor
    · rintro ⟨sd, d, hsd, -⟩
      cases hsd
    · rintro ⟨_, d, ⟨⟩, hd⟩
      cases hd
  · rw [if_neg hn]

theorem Recorded.declareSum (hr : r.Recorded t) (h : r.declareSum name tyParams = (true, r')) :
    r'.Recorded t := by
  have howner := Owned.declareSum (fun _ _ => hr.owner) h
  obtain ⟨-, hfree, rfl⟩ := eq_of_declareSum h
  have hold : ∀ {n sd}, r.sum? n = some sd → n ≠ name := by
    rintro n sd hsd rfl
    rw [hfree] at hsd
    cases hsd
  have hsum := fun n => sum?_insertSum r name n ⟨name, tyParams, .empty⟩ r.owners
  refine { hr with sum_name := ?_, variant_symbol := ?_, symbol_variant := ?_, owner := howner _ _ }
  · intro n sd hsd
    rw [hsum] at hsd
    split at hsd
    · next hn => cases hsd; exact hn.symm
    · exact hr.sum_name hsd
  · intro n sd v d hsd hd
    rw [hsum] at hsd
    split at hsd
    · cases hsd; cases hd
    · exact hr.variant_symbol hsd hd
  · intro id sym n payload hsym hkind
    obtain ⟨sd, hsd, hd⟩ := hr.symbol_variant hsym hkind
    exact ⟨sd, by rw [hsum, if_neg (hold hsd), hsd], hd⟩

/-! ## Adding a member -/

/-- The registry with a field of a record. -/
def addingField (r : Registry) (name field : String) (rd : RecordDef) (d : FieldDef) : Registry :=
  { r with records := r.records.insert name { rd with fields := rd.fields.insert field d } }

theorem insertField_eq {rd : RecordDef} (hrd : r.record? name = some rd) (field : String)
    (d : FieldDef) : r.insertField name field d = (true, r.addingField name field rd d) := by
  rw [insertField, hrd]
  rfl

theorem Recorded.addingField {rd : RecordDef} {field : String} (hr : r.Recorded t)
    (hrd : r.record? name = some rd) (hnew : rd.fields.get? field = none) (ty : Ty) :
    (r.addingField name field rd ⟨t.size, ty⟩).Recorded (t.add field (.field name) ty none 0).2 := by
  have hle := t.le_add field (.field name) ty none 0
  have hget : ∀ n, (r.addingField name field rd ⟨t.size, ty⟩).record? n =
      if n = name then some { rd with fields := rd.fields.insert field ⟨t.size, ty⟩ }
      else r.record? n := fun n => record?_insertRecord r name n _
  refine { hr with
    record_name := ?_
    field_symbol := ?_
    variant_symbol := fun hsd hd => hle _ _ (hr.variant_symbol hsd hd)
    symbol_field := ?_
    symbol_variant := ?_ }
  · intro n rd' hrd'
    rw [hget] at hrd'
    split at hrd'
    · next hn => cases hrd'; exact (hr.record_name hrd).trans hn.symm
    · exact hr.record_name hrd'
  · intro n rd' f d hrd' hd
    rw [hget] at hrd'
    split at hrd'
    · next hn =>
      cases hrd'
      subst hn
      rw [OrderedMap.get?_insert] at hd
      split at hd
      · next hf =>
        cases hd
        subst hf
        rw [Symbols.get?_add, if_pos rfl]
      · have hsym := hr.field_symbol hrd hd
        exact hle _ _ hsym
    · exact hle _ _ (hr.field_symbol hrd' hd)
  · intro id sym n hsym hkind
    rw [hget]
    rcases Symbols.get?_add_cases hsym with ⟨rfl, rfl⟩ | hsym
    · cases hkind
      exact ⟨_, if_pos rfl, by rw [OrderedMap.get?_insert, if_pos rfl]⟩
    · obtain ⟨rd', hrd', hd⟩ := hr.symbol_field hsym hkind
      split
      · next hn =>
        subst hn
        rw [hrd] at hrd'
        cases hrd'
        refine ⟨_, rfl, ?_⟩
        rw [OrderedMap.get?_insert, if_neg, hd]
        rintro rfl
        rw [hnew] at hd
        cases hd
      · exact ⟨rd', hrd', hd⟩
  · intro id sym n payload hsym hkind
    rcases Symbols.get?_add_cases hsym with ⟨rfl, rfl⟩ | hsym
    · cases hkind
    · exact hr.symbol_variant hsym hkind

variable {variant : String} {sd : SumDef}

/-- A variant that no sum has is free. -/
theorem Recorded.owners_get?_eq_none (hr : r.Recorded t) (h : r.variant? variant = none) :
    r.owners.get? variant = none := by
  cases howner : r.owners.get? variant with
  | none => rfl
  | some owner =>
    obtain ⟨sum, d, hsum, hd⟩ := hr.owner.mp howner
    simp [variant?, howner, hsum, hd] at h

/-- The registry with a variant of a sum. -/
def addingVariant (r : Registry) (name variant : String) (sd : SumDef) (d : VariantDef) : Registry :=
  { r with
    sums := r.sums.insert name { sd with variants := sd.variants.insert variant d }
    owners := r.owners.insert variant name }

theorem sum?_addingVariant (r : Registry) (name variant n : String) (sd : SumDef) (d : VariantDef) :
    (r.addingVariant name variant sd d).sum? n =
      if n = name then some { sd with variants := sd.variants.insert variant d } else r.sum? n :=
  sum?_insertSum r name n _ _

/-- A variant that no sum owns is added to a sum. -/
theorem Owned.addingVariant (hr : r.Owned) (hsd : r.sum? name = some sd)
    (hfree : r.owners.get? variant = none)
    (d : VariantDef) : (r.addingVariant name variant sd d).Owned := by
  have hnew : ∀ {n sd' d'}, r.sum? n = some sd' → sd'.variants.get? variant ≠ some d' := by
    intro n sd' d' hsd' hd'
    rw [(hr _ _).mpr ⟨sd', d', hsd', hd'⟩] at hfree
    cases hfree
  intro v n
  show (r.owners.insert variant name).get? v = some n ↔ _
  rw [OrderedMap.get?_insert, sum?_addingVariant]
  by_cases hv : v = variant
  · subst hv
    rw [if_pos rfl]
    by_cases hn : n = name
    · subst hn
      rw [if_pos rfl]
      exact iff_of_true rfl ⟨_, _, rfl, by rw [OrderedMap.get?_insert, if_pos rfl]⟩
    · rw [if_neg hn]
      refine iff_of_false (fun h => hn (Option.some.inj h).symm) ?_
      rintro ⟨sd', d', hsd', hd'⟩
      exact hnew hsd' hd'
  · rw [if_neg hv, hr]
    by_cases hn : n = name
    · subst hn
      rw [if_pos rfl, hsd]
      constructor
      · rintro ⟨_, d', ⟨⟩, hd'⟩
        exact ⟨_, d', rfl, by rw [OrderedMap.get?_insert, if_neg hv, hd']⟩
      · rintro ⟨_, d', ⟨⟩, hd'⟩
        rw [OrderedMap.get?_insert, if_neg hv] at hd'
        exact ⟨sd, d', rfl, hd'⟩
    · rw [if_neg hn]

theorem Recorded.addVariant_eq (hr : r.Recorded t) (hsd : r.sum? name = some sd)
    (hfree : r.variant? variant = none)
    (d : VariantDef) : r.addVariant name variant d = (.ok (), r.addingVariant name variant sd d) := by
  rw [addVariant, hr.owners_get?_eq_none hfree, hsd]
  rfl

theorem Recorded.addingVariant (hr : r.Recorded t) (hsd : r.sum? name = some sd)
    (hfree : r.variant? variant = none)
    (payload : Option Ty) :
    (r.addingVariant name variant sd ⟨t.size, payload⟩).Recorded
      (t.add variant (.variant name payload) sd.selfTy none 0).2 := by
  have howners := hr.owners_get?_eq_none hfree
  have hnew : ∀ {n sd' d}, r.sum? n = some sd' → sd'.variants.get? variant ≠ some d := by
    intro n sd' d hsd' hd
    rw [hr.owner.mpr ⟨sd', d, hsd', hd⟩] at howners
    cases howners
  have hle := t.le_add variant (.variant name payload) sd.selfTy none 0
  have hget := fun n => sum?_addingVariant r name variant n sd ⟨t.size, payload⟩
  have howner := Owned.addingVariant (fun _ _ => hr.owner) hsd howners ⟨t.size, payload⟩
  refine {
    record_name := hr.record_name
    sum_name := ?_
    field_symbol := fun hrd hd => hle _ _ (hr.field_symbol hrd hd)
    variant_symbol := ?_
    symbol_field := ?_
    symbol_variant := ?_
    owner := howner _ _ }
  · intro n sd' hsd'
    rw [hget] at hsd'
    split at hsd'
    · next hn => cases hsd'; exact (hr.sum_name hsd).trans hn.symm
    · exact hr.sum_name hsd'
  · intro n sd' v d hsd' hd
    rw [hget] at hsd'
    split at hsd'
    · next hn =>
      cases hsd'
      subst hn
      rw [OrderedMap.get?_insert] at hd
      split at hd
      · next hv =>
        cases hd
        subst hv
        rw [Symbols.get?_add, if_pos rfl]
        rfl
      · have hsym := hr.variant_symbol hsd hd
        exact hle _ _ hsym
    · exact hle _ _ (hr.variant_symbol hsd' hd)
  · intro id sym n hsym hkind
    rcases Symbols.get?_add_cases hsym with ⟨rfl, rfl⟩ | hsym
    · cases hkind
    · exact hr.symbol_field hsym hkind
  · intro id sym n payload' hsym hkind
    rw [hget]
    rcases Symbols.get?_add_cases hsym with ⟨rfl, rfl⟩ | hsym
    · cases hkind
      exact ⟨_, if_pos rfl, by rw [OrderedMap.get?_insert, if_pos rfl]⟩
    · obtain ⟨sd', hsd', hd⟩ := hr.symbol_variant hsym hkind
      split
      · next hn =>
        subst hn
        rw [hsd] at hsd'
        cases hsd'
        refine ⟨_, rfl, ?_⟩
        rw [OrderedMap.get?_insert, if_neg, hd]
        intro hv
        exact hnew hsd (hv ▸ hd)
      · exact ⟨sd', hsd', hd⟩

end Registry

end Bindery
