import Bindery.Proofs.Registry

/-!
# What a registry remembers

A registry is changed by calls: types are declared, members are added, everything is cleared.
`Registry.Logged` makes calls and writes down those since the registry was last cleared, each with
its answer. Whatever was called, the registry shows what the log says (`Registry.Follows`): under a
name stands what the first call that declares the name has declared, a record has the fields that
were written in it, and a sum lists the variants that were added to it, in this order. Each variant
name is owned by the one sum that has the variant.
-/

namespace Bindery

namespace Registry

/-! ## Calls -/

/-- A call that changes a registry. -/
inductive Call where
  | declareRecord (name : String) (tyParams : List String)
  | declareSum (name : String) (tyParams : List String)
  | insertField (record field : String) (d : FieldDef)
  | addVariant (sum variant : String) (d : VariantDef)
  | clear

/-- What a call is answered. -/
inductive Answer where
  | done
  | refused
  /-- A variant is refused, with the name of a sum. -/
  | refusedFor (sum : String)

namespace Answer

def ofBool (isDone : Bool) : Answer := bif isDone then done else refused

def ofResult : Except String Unit → Answer
  | .ok _ => done
  | .error sum => refusedFor sum

end Answer

namespace Call

/-- Whether the call declares a type with the name. -/
def declares (name : String) : Call → Bool
  | declareRecord n _ | declareSum n _ => n == name
  | _ => false

/-- The variant that an answered call has added to the sum with the name. -/
def added? (name : String) : Call × Answer → Option (String × VariantDef)
  | (addVariant sum variant d, .done) => if sum = name then some (variant, d) else none
  | _ => none

/-- The field that an answered call has written in the record with the name. -/
def written? (name : String) : Call × Answer → Option (String × FieldDef)
  | (insertField record field d, .done) => if record = name then some (field, d) else none
  | _ => none

end Call

/-- The answer to a call, and the registry after it. -/
def perform (r : Registry) : Call → Answer × Registry
  | .declareRecord name tyParams => (r.declareRecord name tyParams).map .ofBool id
  | .declareSum name tyParams => (r.declareSum name tyParams).map .ofBool id
  | .insertField record field d => (r.insertField record field d).map .ofBool id
  | .addVariant sum variant d => (r.addVariant sum variant d).map .ofResult id
  | .clear => (.done, .empty)

/-- A registry with the calls since it was last cleared and their answers, oldest first. -/
structure Logged where
  registry : Registry
  log : List (Call × Answer)

namespace Logged

/-- One more call. -/
def call (l : Logged) (c : Call) : Logged where
  registry := (l.registry.perform c).2
  log := match c with
    | .clear => []
    | _ => l.log ++ [(c, (l.registry.perform c).1)]

/-- The registry after some calls, starting with the empty one. -/
def after (calls : List Call) : Logged := calls.foldl call ⟨.empty, []⟩

end Logged

/-- All that a call can do to a registry other than to clear it. -/
inductive Outcome (r : Registry) : Call → Answer → Registry → Prop
  | record {name tyParams} : r.record? name = none → r.sum? name = none →
      Outcome r (.declareRecord name tyParams) .done
        { r with records := r.records.insert name ⟨name, tyParams, .empty⟩ }
  | sum {name tyParams r'} :
    r.declareSum name tyParams = (true, r') → Outcome r (.declareSum name tyParams) .done r'
  | field {name field d rd} : r.record? name = some rd →
      Outcome r (.insertField name field d) .done (r.addingField name field rd d)
  | variant {name variant d sd} : r.sum? name = some sd → r.owners.get? variant = none →
      Outcome r (.addVariant name variant d) .done (r.addingVariant name variant sd d)
  | refused {c a} : a ≠ .done → (∀ n, c.declares n = true → r.isTypeName n = true) → Outcome r c a r

variable {r : Registry} {log : List (Call × Answer)} {c : Call} {a : Answer} {name : String}

theorem outcome (r : Registry) (hc : c ≠ .clear) : Outcome r c (r.perform c).1 (r.perform c).2 := by
  cases c with
  | declareRecord name tyParams =>
    rw [perform, declareRecord]
    rcases r.declare_cases name _ with ⟨htaken, h⟩ | ⟨r', h⟩ <;> rw [h]
    · refine .refused (by simp [Answer.ofBool]) fun n hn => ?_
      obtain rfl : name = n := by simpa [Call.declares] using hn
      exact htaken
    · obtain ⟨hrecord, hsum, rfl⟩ := eq_of_declareRecord h
      exact .record hrecord hsum
  | declareSum name tyParams =>
    rw [perform, declareSum]
    rcases r.declare_cases name _ with ⟨htaken, h⟩ | ⟨r', h⟩ <;> rw [h]
    · refine .refused (by simp [Answer.ofBool]) fun n hn => ?_
      obtain rfl : name = n := by simpa [Call.declares] using hn
      exact htaken
    · exact .sum h
  | insertField name field d =>
    rw [perform]
    cases h : r.record? name with
    | none =>
      rw [insertField, h]
      exact .refused (by simp [Answer.ofBool]) fun _ hn => by cases hn
    | some rd =>
      rw [insertField_eq h]
      exact .field h
  | addVariant name variant d =>
    rw [perform, addVariant]
    cases howner : r.owners.get? variant with
    | some owner => exact .refused (by simp [Answer.ofResult]) fun _ hn => by cases hn
    | none =>
      cases hsd : r.sum? name with
      | none => exact .refused (by simp [Answer.ofResult]) fun _ hn => by cases hn
      | some sd => exact .variant hsd howner
  | clear => exact absurd rfl hc

variable {r' : Registry}

theorem Outcome.eq_of_ne_done (h : Outcome r c a r') (ha : a ≠ .done) : r' = r := by
  cases h with
  | refused => rfl
  | _ => exact absurd rfl ha

/-! ## What the registry shows -/

/-- The declaration that the entry with a name shows. -/
def declaration? (r : Registry) (name : String) : Option Call :=
  ((r.record? name).map fun rd => .declareRecord rd.name rd.tyParams).or
    ((r.sum? name).map fun sd => .declareSum sd.name sd.tyParams)

/-- The variants of the sum with a name; none if there is no such sum. -/
def variantsOf (r : Registry) (name : String) : List (String × VariantDef) :=
  ((r.sum? name).map fun sd => sd.variants.entries).getD []

/-- The fields of the record with a name; none if there is no such record. -/
def fieldsOf (r : Registry) (name : String) : OrderedMap String FieldDef :=
  ((r.record? name).map RecordDef.fields).getD .empty

/-- What a registry takes: a declaration of a new name, a field of a declared record, and a variant
that no sum owns of a declared sum. -/
def Takes (r : Registry) : Call → Prop
  | .declareRecord name _ | .declareSum name _ => r.declaration? name = none
  | .insertField record _ _ => (r.record? record).isSome = true
  | .addVariant sum variant _ => (r.sum? sum).isSome = true ∧ r.owners.get? variant = none
  | .clear => True

theorem isTypeName_eq (r : Registry) (name : String) :
    r.isTypeName name = (r.declaration? name).isSome := by
  simp [declaration?, isTypeName, OrderedMap.contains, record?, sum?]

theorem perform_done_iff (r : Registry) (c : Call) : (r.perform c).1 = .done ↔ r.Takes c := by
  cases c with
  | declareRecord name tyParams | declareSum name tyParams =>
    simp only [perform, declareRecord, declareSum, declare, isTypeName_eq, Takes]
    cases r.declaration? name <;> simp [Answer.ofBool]
  | insertField record field d =>
    simp only [perform, insertField, Takes]
    cases r.record? record <;> simp [Answer.ofBool]
  | addVariant sum variant d =>
    simp only [perform, addVariant, Takes]
    cases r.owners.get? variant <;> cases r.sum? sum <;> simp [Answer.ofResult]
  | clear => simp [perform, Takes]

/-- The registry shows what the log says. -/
structure Follows (r : Registry) (log : List (Call × Answer)) : Prop where
  apart : ∀ n, r.record? n = none ∨ r.sum? n = none
  declared : ∀ n, r.declaration? n = (log.map Prod.fst).find? (·.declares n)
  fields : ∀ n, r.fieldsOf n = (log.filterMap (Call.written? n)).foldl
    (fun fs f => fs.insert f.1 f.2) .empty
  variants : ∀ n, r.variantsOf n = log.filterMap (Call.added? n)
  owned : r.Owned

namespace Follows

theorem empty : Follows .empty [] := by
  refine ⟨fun _ => .inl rfl, fun _ => rfl, fun _ => rfl, fun _ => rfl, fun v n => ?_⟩
  simp [Registry.empty, sum?]

/-- One more call: what it declares is shown unless the name was taken, the field that it writes is
written, and the variant that it adds comes last. -/
theorem step (h : Follows r log) (hapart : ∀ n, r'.record? n = none ∨ r'.sum? n = none)
    (hdeclared : ∀ n, r'.declaration? n = (r.declaration? n).or
      (if c.declares n then some c else none))
    (hfields : ∀ n, r'.fieldsOf n = (Call.written? n (c, a)).toList.foldl
      (fun fs f => fs.insert f.1 f.2) (r.fieldsOf n))
    (hvariants : ∀ n, r'.variantsOf n = r.variantsOf n ++ (Call.added? n (c, a)).toList)
    (howned : r'.Owned) :
    Follows r' (log ++ [(c, a)]) := by
  refine ⟨hapart, fun n => ?_, fun n => ?_, fun n => ?_, howned⟩
  · rw [hdeclared, h.declared, List.map_append]
    simp [List.find?_singleton]
  · rw [hfields, h.fields]
    cases hwritten : Call.written? n (c, a) <;> simp [hwritten]
  · rw [hvariants, h.variants]
    cases hadded : Call.added? n (c, a) <;> simp [hadded]

/-- A record is written. -/
theorem insertRecord (h : Follows r log) (hfree : r.sum? name = none) (rd : RecordDef)
    (hdeclared : ∀ n, (r.declaration? n).or (if c.declares n then some c else none) =
      if n = name then some (.declareRecord rd.name rd.tyParams) else r.declaration? n)
    (hfields : ∀ n, (Call.written? n (c, a)).toList.foldl (fun fs f => fs.insert f.1 f.2)
      (r.fieldsOf n) =
      if n = name then rd.fields else r.fieldsOf n)
    (hadded : ∀ n, Call.added? n (c, a) = none) :
    Follows { r with records := r.records.insert name rd } (log ++ [(c, a)]) := by
  refine h.step (fun n => ?_) (fun n => ?_) (fun n => ?_) (fun n => ?_) h.owned
  · rw [record?_insertRecord]
    split
    · next hn => exact .inr (hn ▸ hfree)
    · exact h.apart n
  · rw [hdeclared, declaration?, record?_insertRecord]
    split <;> rfl
  · rw [hfields, fieldsOf, record?_insertRecord]
    split <;> rfl
  · rw [hadded]
    exact (List.append_nil _).symm

/-- A sum is written. -/
theorem insertSum (h : Follows r log) (hfree : r.record? name = none) (sd : SumDef)
    (owners : OrderedMap String String)
    (hdeclared : ∀ n, (r.declaration? n).or (if c.declares n then some c else none) =
      if n = name then some (.declareSum sd.name sd.tyParams) else r.declaration? n)
    (hwritten : ∀ n, Call.written? n (c, a) = none)
    (hvariants : ∀ n, r.variantsOf n ++ (Call.added? n (c, a)).toList =
      if n = name then sd.variants.entries else r.variantsOf n)
    (howned : Owned { r with sums := r.sums.insert name sd, owners := owners }) :
    Follows { r with sums := r.sums.insert name sd, owners := owners } (log ++ [(c, a)]) := by
  refine h.step (fun n => ?_) (fun n => ?_) (fun n => ?_) (fun n => ?_) howned
  · rw [sum?_insertSum]
    split
    · next hn => exact .inl (hn ▸ hfree)
    · exact h.apart n
  · rw [hdeclared, declaration?, sum?_insertSum]
    split
    · next hn =>
      simp only [record?] at hfree
      simp [hn, record?, hfree]
    · rfl
  · rw [hwritten]
    rfl
  · rw [hvariants, variantsOf, sum?_insertSum]
    split <;> rfl

/-- One outcome of a call keeps the registry in agreement with the log. -/
theorem outcome (h : Follows r log) (houtcome : Outcome r c a r') : Follows r' (log ++ [(c, a)]) := by
  cases houtcome with
  | @record name tyParams hrecord hsum =>
    refine h.insertRecord hsum _ (fun n => ?_) (fun n => ?_) fun _ => rfl
    all_goals by_cases hn : n = name
    · simp [hn, Call.declares, declaration?, hrecord, hsum]
    · simp [hn, Call.declares, Ne.symm hn]
    · simp [hn, fieldsOf, hrecord, Call.written?]
    · simp [hn, Call.written?]
  | @sum name tyParams _ hdeclare =>
    have howned := h.owned.declareSum hdeclare
    obtain ⟨hrecord, hsum, rfl⟩ := eq_of_declareSum hdeclare
    refine h.insertSum hrecord _ _ (fun n => ?_) (fun _ => rfl) (fun n => ?_) howned
    all_goals by_cases hn : n = name
    · simp [hn, Call.declares, declaration?, hrecord, hsum]
    · simp [hn, Call.declares, Ne.symm hn]
    · simp [hn, variantsOf, hsum, OrderedMap.empty, Call.added?]
    · simp [hn, Call.added?]
  | @field name _ _ rd hrd =>
    -- the entry gets a field, but it shows the same declaration as before
    have hsum := (h.apart name).resolve_left (by simp [hrd])
    refine h.insertRecord hsum _ (fun n => ?_) (fun n => ?_) fun _ => rfl
    all_goals by_cases hn : n = name
    · simp [hn, Call.declares, declaration?, hrd]
    · simp [hn, Call.declares]
    · simp [hn, fieldsOf, hrd, Call.written?]
    · simp [hn, Call.written?, Ne.symm hn]
  | @variant name variant _ sd hsd howner =>
    have hrecord := (h.apart name).resolve_right (by simp [hsd])
    -- a variant that the sum had already would have an owner
    have hnew : sd.variants.get? variant = none := by
      cases hget : sd.variants.get? variant with
      | none => rfl
      | some d' =>
        rw [(h.owned _ _).mpr ⟨sd, d', hsd, hget⟩] at howner
        cases howner
    refine h.insertSum hrecord _ _ (fun n => ?_) (fun _ => rfl) (fun n => ?_)
      (h.owned.addingVariant hsd howner _)
    all_goals by_cases hn : n = name
    · simp [hn, Call.declares, declaration?, hrecord, hsd]
    · simp [hn, Call.declares]
    · simp [hn, variantsOf, hsd, Call.added?, OrderedMap.entries_insert_of_get?_eq_none hnew]
    · simp [hn, Call.added?, Ne.symm hn]
  | refused ha htaken =>
    refine h.step h.apart (fun n => ?_) (fun n => ?_) (fun n => ?_) h.owned
    · -- a declaration is refused only if the name is shown already, so it is not the first of its name
      split
      · next hn =>
        have hshown : (r.declaration? n).isSome = true := r.isTypeName_eq n ▸ htaken n hn
        exact (Option.or_of_isSome hshown).symm
      · exact Option.or_none.symm
    · unfold Call.written?
      split
      · next heq =>
        cases heq
        exact absurd rfl ha
      · rfl
    · unfold Call.added?
      split
      · next heq =>
        cases heq
        exact absurd rfl ha
      · exact (List.append_nil _).symm

theorem call {l : Logged} (h : Follows l.registry l.log) (c : Call) :
    Follows (l.call c).registry (l.call c).log := by
  cases c with
  | clear => exact .empty
  | _ => exact h.outcome (l.registry.outcome (by simp))

theorem after (calls : List Call) : Follows (Logged.after calls).registry (Logged.after calls).log :=
  List.foldlRecOn calls Logged.call (motive := fun l => Follows l.registry l.log) .empty
    fun _ h c _ => h.call c

theorem record_name (h : Follows r log) {rd : RecordDef} (hrd : r.record? name = some rd) :
    rd.name = name := by
  have hdeclared := h.declared name
  rw [declaration?, hrd] at hdeclared
  simpa [Call.declares] using List.find?_some hdeclared.symm

theorem sum_name (h : Follows r log) {sd : SumDef} (hsd : r.sum? name = some sd) : sd.name = name := by
  have hdeclared := h.declared name
  rw [declaration?, hsd, (h.apart name).resolve_right (by simp [hsd])] at hdeclared
  simpa [Call.declares] using List.find?_some hdeclared.symm

end Follows

/-- After any calls, starting with the empty registry: no name is both a record and a sum; an entry
is stored under its own name, as the first call since the last clearing that declares the name has
declared it; a record has the fields written in it and a sum lists the variants added to it, in this
order; a variant name is owned by exactly the sum that has the variant, so by one only, and is found
there. A call is answered `done` exactly if the registry takes it, otherwise it leaves the registry
as it was, and a variant that exists is refused with its owner. -/
theorem registry_shows_its_calls (calls : List Call) :
    let r := (Logged.after calls).registry
    let log := (Logged.after calls).log
    (∀ n, r.record? n = none ∨ r.sum? n = none) ∧
    (∀ n rd, r.record? n = some rd → rd.name = n ∧
      rd.fields = (log.filterMap (Call.written? n)).foldl (fun fs f => fs.insert f.1 f.2) .empty) ∧
    (∀ n sd, r.sum? n = some sd → sd.name = n ∧ sd.variants.entries = log.filterMap (Call.added? n)) ∧
    (∀ n, r.declaration? n = (log.map Prod.fst).find? (·.declares n)) ∧
    (∀ v s, r.owners.get? v = some s ↔ ∃ sd d, r.sum? s = some sd ∧ sd.variants.get? v = some d) ∧
    (∀ v s sd d, r.sum? s = some sd → sd.variants.get? v = some d → r.variant? v = some (sd, d) ∧
      ∀ s' sd' d', r.sum? s' = some sd' → sd'.variants.get? v = some d' → s' = s) ∧
    (∀ c, ((r.perform c).1 = .done ↔ r.Takes c) ∧ ((r.perform c).1 ≠ .done → (r.perform c).2 = r)) ∧
    ∀ v owner, r.owners.get? v = some owner → ∀ s d, r.perform (.addVariant s v d) =
      (.refusedFor owner, r) := by
  intro r log
  have h : Follows r log := .after calls
  refine ⟨h.apart, fun n rd hrd => ⟨h.record_name hrd, ?_⟩, fun n sd hsd => ⟨h.sum_name hsd, ?_⟩,
    h.declared, h.owned,
    fun v s sd d hsd hd => ?_, fun c => ⟨r.perform_done_iff c, fun hc => ?_⟩,
      fun v owner howner s d => ?_⟩
  · rw [← h.fields, fieldsOf, hrd]
    rfl
  · rw [← h.variants, variantsOf, hsd]
    rfl
  · have howner := (h.owned v s).mpr ⟨sd, d, hsd, hd⟩
    refine ⟨by simp [variant?, howner, hsd, hd], fun s' sd' d' hsd' hd' => ?_⟩
    rw [(h.owned v s').mpr ⟨sd', d', hsd', hd'⟩] at howner
    exact Option.some.inj howner
  · exact (r.outcome (by rintro rfl; exact hc rfl)).eq_of_ne_done hc
  · rw [perform, addVariant, howner]
    rfl

end Registry

end Bindery
