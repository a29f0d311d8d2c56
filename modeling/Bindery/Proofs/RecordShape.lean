import Bindery.Proofs.Binding.Checks
import Bindery.Proofs.Repetition

/-!
# The shape of record literals

A record literal should name each field of its record once. What a literal reports about its own
shape is kept apart here from what is reported about the values in it (`LiteralBound`): one finding
for each name that stood before, one for each first occurrence of a name that is no field, and one
for each field that is not named. None of them is reported exactly where the names are the fields of
the record, in any order.
-/

namespace Bindery

/-- The code of the rule that is broken. -/
def Finding.code (f : Finding) : Nat := f.problem.rule.code

/-- Whether the finding is about the shape of a record literal: a field named again, a name that is
no field, or a field that is not named. -/
def Finding.isOfShape (f : Finding) : Bool := [2014, 2015, 2016].contains f.code

/-- The name of the field that is written. -/
def Ast.FieldInit.key (field : Ast.FieldInit) : String := field.name.text

namespace Binding

open Ast (FieldInit)

/-- Binding a literal with these fields in the first state leads to the last one: the values are
bound from left to right, each with some hint, and `own` is what the literal itself reports before,
between and after them. -/
inductive LiteralBound : List FieldInit → State → List Finding → List Bound.Expr → State → Prop
  | done (s : State) : LiteralBound [] s [] [] s
  | report {fields s own values t} (f : Finding)
    (rest : LiteralBound fields (s.reporting [f]) own values t) :
    LiteralBound fields s (f :: own) values t
  | value {fields s own values t} (hint : Option Ty) (field : FieldInit)
      (rest : LiteralBound fields (after (bindExpr hint field.value) s) own values t) :
    LiteralBound (field :: fields) s own (out (bindExpr hint field.value) s :: values) t

namespace LiteralBound

variable {fields : List FieldInit} {s t : State} {own : List Finding} {values : List Bound.Expr}

theorem reports (fs : List Finding) (h : LiteralBound fields (s.reporting fs) own values t) :
    LiteralBound fields s (fs ++ own) values t := by
  induction fs generalizing s with
  | nil => rwa [State.reporting_nil] at h
  | cons f fs ih => exact .report f (ih (by rwa [State.reporting_reporting]))

theorem then_reports (h : LiteralBound fields s own values t) (fs : List Finding) :
    LiteralBound fields s (own ++ fs) values (t.reporting fs) := by
  induction h with
  | done s => simpa using reports fs (.done (s.reporting fs))
  | report f _ ih => exact .report f ih
  | value hint field _ ih => exact .value hint field ih

end LiteralBound

/-! ## Fields -/

/-- The fields of a record with their values, as far as the record has them. -/
def boundFields (record : RecordDef) (fields : List (FieldInit × Bound.Expr)) :
    List Bound.FieldValue :=
  fields.filterMap fun e => (record.fields.get? e.1.key).map fun d => ⟨d.symbol, e.2⟩

/-- What a literal reports by itself, where some names are taken, and what it is bound to: the names
that stood before and the names that are no fields are reported, and `missing` for the fields that
are not named. -/
structure Named (record : RecordDef) (taken : List String) (fields : List FieldInit)
    (missing own : List Finding)
    (values : List Bound.Expr) (bound : List Bound.FieldValue) : Prop where
  repeated : own.filter (·.code == 2014) =
    (repeats FieldInit.key taken fields).map fun field => ⟨field.name.range, .fieldRepeated field.key⟩
  unknown : own.filter (·.code == 2015) =
    ((firsts FieldInit.key taken fields).filter (!record.fields.contains ·.key)).map fun field =>
      ⟨field.name.range, .noSuchField record.name field.key⟩
  missing : own.filter (·.code == 2016) = missing
  bound : bound = boundFields record (firsts (·.1.key) taken (fields.zip values))

namespace Named

variable {record : RecordDef} {taken taken' : List String} {field : FieldInit}
    {fields : List FieldInit}
    {missing own : List Finding} {value : Bound.Expr} {values : List Bound.Expr}
    {bound : List Bound.FieldValue}

theorem congr (h : Named record taken fields missing own values bound)
    (htaken : ∀ x, x ∈ taken ↔ x ∈ taken') :
    Named record taken' fields missing own values bound where
  repeated := by rw [h.repeated, repeats, occurring_congr true _ htaken]
  unknown := by rw [h.unknown, firsts, occurring_congr false _ htaken]
  missing := h.missing
  bound := by rw [h.bound, firsts, occurring_congr false _ htaken]

section

variable (h : Named record (field.key :: taken) fields missing own values bound)

include h

theorem again (htaken : field.key ∈ taken) :
    Named record taken (field :: fields) missing
      (⟨field.name.range, .fieldRepeated field.key⟩ :: own) (value :: values)
      bound where
  repeated := by
    rw [List.filter_cons_of_pos rfl, h.repeated]
    simp [occurring, htaken]
  unknown := by
    rw [List.filter_cons_of_neg Bool.false_ne_true, h.unknown]
    simp [occurring, htaken]
  missing := h.missing
  bound := by
    rw [h.bound]
    simp [occurring, htaken]

theorem noField (htaken : field.key ∉ taken) (hnone : record.fields.get? field.key = none) :
    Named record taken (field :: fields) missing
      (⟨field.name.range, .noSuchField record.name field.key⟩ :: own)
      (value :: values) bound where
  repeated := by
    rw [List.filter_cons_of_neg Bool.false_ne_true, h.repeated]
    simp [occurring, htaken]
  unknown := by
    rw [List.filter_cons_of_pos rfl, h.unknown]
    simp [occurring, htaken, OrderedMap.contains, hnone]
  missing := h.missing
  bound := by
    rw [h.bound]
    simp [occurring, htaken, boundFields, hnone]

theorem ofField {d : FieldDef} (htaken : field.key ∉ taken)
    (hsome : record.fields.get? field.key = some d) :
    Named record taken (field :: fields) missing own (value :: values)
      (⟨d.symbol, value⟩ :: bound) where
  repeated := by
    rw [h.repeated]
    simp [occurring, htaken]
  unknown := by
    rw [h.unknown]
    simp [occurring, htaken, OrderedMap.contains, hsome]
  missing := h.missing
  bound := by
    rw [h.bound]
    simp [occurring, htaken, boundFields, hsome]

end

/-- Other findings of the literal make no difference. -/
theorem among (h : Named record taken fields missing own values bound) {fs : List Finding}
    (hfs : ∀ f ∈ fs, f.isOfShape = false) :
    Named record taken fields missing (fs ++ own) values bound := by
  have hnone : ∀ c ∈ [2014, 2015, 2016], fs.filter (·.code == c) = [] := fun c hc =>
    List.filter_eq_nil_iff.mpr fun f hf hcode => by
      have hother := hfs f hf
      rw [Finding.isOfShape, beq_iff_eq.mp hcode, List.contains_iff_mem.mpr hc] at hother
      cases hother
  refine ⟨?_, ?_, ?_, h.bound⟩
  all_goals rw [List.filter_append, hnone _ (by decide)]
  · exact h.repeated
  · exact h.unknown
  · exact h.missing

/-- The missing fields are reported after all others. -/
theorem then_missing (h : Named record taken fields [] own values bound)
    (hcodes : ∀ f ∈ missing, f.code = 2016) :
    Named record taken fields missing (own ++ missing) values bound := by
  have hother : ∀ c, c ≠ 2016 → missing.filter (·.code == c) = [] := fun c hc =>
    List.filter_eq_nil_iff.mpr fun f hf hcode => hc ((beq_iff_eq.mp hcode).symm.trans (hcodes f hf))
  have hself : missing.filter (·.code == 2016) = missing :=
    List.filter_eq_self.mpr fun f hf => beq_iff_eq.mpr (hcodes f hf)
  refine ⟨?_, ?_, ?_, h.bound⟩
  · rw [List.filter_append, hother _ (by decide), List.append_nil, h.repeated]
  · rw [List.filter_append, hother _ (by decide), List.append_nil, h.unknown]
  · rw [List.filter_append, h.missing, hself, List.nil_append]

theorem forall_isOfShape_eq_false_iff (h : Named record taken fields missing own values bound) :
    (∀ f ∈ own, f.isOfShape = false) ↔ repeats FieldInit.key taken fields = [] ∧
      (firsts FieldInit.key taken fields).filter (!record.fields.contains ·.key) = [] ∧
        missing = [] := by
  have hrepeated := congrArg (· = []) h.repeated
  have hunknown := congrArg (· = []) h.unknown
  simp only [List.map_eq_nil_iff] at hrepeated hunknown
  rw [← hrepeated, ← hunknown, ← h.missing]
  simp only [List.filter_eq_nil_iff, ← forall_and]
  refine forall_congr' fun f => ?_
  simp [Finding.isOfShape]

end Named

instance spares_checkField (name : String) (declared : Ty) (value : Bound.Expr) (known : Subst) :
    Spares Finding.isOfShape (checkField name declared value known) :=
  .reportUnless_pure _ _ rfl _

instance spares_recordArgs (expected : Option Ty) (record : RecordDef) (type : Ast.Name)
    (tyArgs : List Ast.TyExpr) : Spares Finding.isOfShape (recordArgs expected record type tyArgs) :=
  (checks_recordArgs _ _ _ _).mono fun f h => by
    obtain ⟨range, p⟩ := f
    cases p <;> cases h <;> rfl

theorem exists_literal_bindFields (record : RecordDef) (seen : List String) (known : Subst)
    (fields : List FieldInit) (s : State) :
    ∃ own values, LiteralBound fields s own values (after (bindFields record seen known fields) s) ∧
      Named record seen fields [] own values (out (bindFields record seen known fields) s).1 := by
  induction fields generalizing seen known s with
  | nil => exact ⟨[], [], .done s, rfl, rfl, rfl, rfl⟩
  | cons field fields ih =>
    obtain ⟨origin, name, value⟩ := field
    rw [bindFields]
    split
    · next hseen =>
      obtain ⟨own, values, hliteral, hnamed⟩ :=
        ih seen known
          (after (bindExpr none value) (s.reporting [⟨name.range, .fieldRepeated name.text⟩]))
      have htaken : name.text ∈ seen := by simpa using hseen
      -- The name is not taken a second time, which makes no difference to the other fields.
      have hsame : ∀ x, x ∈ seen ↔ x ∈ name.text :: seen := by simp [htaken]
      exact ⟨_, _, .report _ (.value none ⟨origin, name, value⟩ hliteral),
        (hnamed.congr hsame).again htaken⟩
    · next hseen =>
      have htaken : name.text ∉ seen := by simpa using hseen
      split
      · next hnone =>
        obtain ⟨own, values, hliteral, hnamed⟩ := ih (name.text :: seen) known
          (after (bindExpr none value)
          (s.reporting [⟨name.range, .noSuchField record.name name.text⟩]))
        exact ⟨_, _, .report _ (.value none ⟨origin, name, value⟩ hliteral),
          hnamed.noField htaken hnone⟩
      · next d hsome =>
        -- What the earlier fields have inferred is in the hint; the shape does not depend on it.
        generalize closedHint (d.ty.subst known) = hint
        obtain ⟨fs, hfs, hcheck⟩ :=
          (spares_checkField name.text d.ty (out (bindExpr hint value) s) known).after_eq
          (after (bindExpr hint value) s)
        simp only [after_bind, out_bind, after_pure, out_pure, hcheck]
        obtain ⟨own, values, hliteral, hnamed⟩ := ih (name.text :: seen)
          (out (checkField name.text d.ty (out (bindExpr hint value) s) known)
          (after (bindExpr hint value) s))
          ((after (bindExpr hint value) s).reporting fs)
        exact ⟨_, _, .value hint ⟨origin, name, value⟩ (.reports fs hliteral),
          (hnamed.ofField htaken hsome).among hfs⟩

theorem after_checkMissing (record : String) (given : List String) (range : Range)
    (fields : List String) (s : State) :
    after (checkMissing record given range fields) s =
      s.reporting ((fields.filter (!given.contains ·)).map fun field =>
      ⟨range, .fieldMissing record field⟩) := by
  induction fields generalizing s with
  | nil => exact (State.reporting_nil s).symm
  | cons field fields ih =>
    rw [checkMissing, after_bind, after_reportUnless, ih, State.reporting_reporting, List.filter_cons]
    cases given.contains field <;> rfl

/-- Nothing is wrong with the names of fields that are those of the record, each once. -/
theorem shape_iff_perm (record : RecordDef) (fields : List FieldInit) :
    repeats FieldInit.key [] fields = [] ∧
        (firsts FieldInit.key [] fields).filter (!record.fields.contains ·.key) = [] ∧
        record.fields.keys.filter (!(fields.map FieldInit.key).contains ·) = [] ↔
      (fields.map FieldInit.key).Perm record.fields.keys := by
  have hknown : (firsts FieldInit.key [] fields).filter (!record.fields.contains ·.key) = [] ↔
      ∀ x ∈ fields.map FieldInit.key, x ∈ record.fields.keys := by
    have hfirst : ∀ x, x ∈ (firsts FieldInit.key [] fields).map FieldInit.key ↔
      x ∈ fields.map FieldInit.key :=
      fun x => (mem_map_firsts _ x).trans (by simp)
    simp only [← hfirst, ← OrderedMap.contains_iff_mem_keys]
    simp [List.filter_eq_nil_iff]
  have hmissing : record.fields.keys.filter (!(fields.map FieldInit.key).contains ·) = [] ↔
      ∀ x ∈ record.fields.keys, x ∈ fields.map FieldInit.key := by
    simp [List.filter_eq_nil_iff]
  rw [repeats_eq_nil_iff, hknown, hmissing]
  constructor
  · rintro ⟨⟨hnodup, -⟩, hknown, hmissing⟩
    exact (List.perm_ext_iff_of_nodup hnodup record.fields.nodup).mpr fun x => ⟨hknown x, hmissing x⟩
  · intro hperm
    exact ⟨⟨hperm.nodup_iff.mpr record.fields.nodup, fun _ _ => List.not_mem_nil⟩, fun x =>
      hperm.mem_iff.mp,
      fun x => hperm.mem_iff.mpr⟩

/-- A literal of a declared record reports by itself each name that stood before, each first
occurrence of a name that is no field of the record and, in the order of declaration, each field of
the record that is not named, and nothing else about its shape. It is bound to the first occurrences
of the fields, in its own order. So its shape is right exactly where its names are the fields of the
record. -/
theorem record_literals_are_checked_exactly {s : State} {type : Ast.Name} {record : RecordDef}
    (hrecord : s.registry.record? type.text = some record) (expected : Option Ty) (origin : Origin)
    (tyArgs : List Ast.TyExpr) (fields : List FieldInit) :
    ∃ own values, LiteralBound fields s own values
      (after (bindExpr expected (.record origin type tyArgs fields)) s) ∧
      (out (bindExpr expected (.record origin type tyArgs fields)) s).kind =
        .record (boundFields record (firsts (·.1.key) [] (fields.zip values))) ∧
      own.filter (·.code == 2014) =
        (repeats FieldInit.key [] fields).map
          (fun field => ⟨field.name.range, .fieldRepeated field.key⟩) ∧
      own.filter (·.code == 2015) =
        ((firsts FieldInit.key [] fields).filter (!record.fields.contains ·.key)).map (fun field =>
          ⟨field.name.range, .noSuchField record.name field.key⟩) ∧
      own.filter (·.code == 2016) =
        (record.fields.keys.filter (!(fields.map FieldInit.key).contains ·)).map (fun field =>
          ⟨origin.range, .fieldMissing type.text field⟩) ∧
      ((∀ f ∈ own, f.isOfShape = false) ↔ (fields.map FieldInit.key).Perm record.fields.keys) := by
  obtain ⟨fs, hfs, hargs⟩ := (spares_recordArgs expected record type tyArgs).after_eq s
  obtain ⟨own, values, hliteral, hnamed⟩ :=
    exists_literal_bindFields record [] (out (recordArgs expected record type tyArgs) s) fields
      (s.reporting fs)
  have hcodes : ∀ f ∈ (record.fields.keys.filter (!(fields.map FieldInit.key).contains ·)).map
      (fun field => (⟨origin.range, .fieldMissing type.text field⟩ : Finding)), f.code = 2016 := by
    intro f hf
    obtain ⟨field, -, rfl⟩ := List.mem_map.mp hf
    rfl
  have hall := (hnamed.among hfs).then_missing hcodes
  refine ⟨_, values, ?_, ?_, hall.repeated, hall.unknown, hall.missing, ?_⟩
  · rw [bindExpr]
    simp only [after_bind, out_get, after_get, hrecord, hargs, after_checkMissing, after_pure]
    exact (LiteralBound.reports fs hliteral).then_reports _
  · rw [bindExpr]
    simp only [out_bind, out_get, after_get, hrecord, hargs, out_pure, hnamed.bound]
  · rw [hall.forall_isOfShape_eq_false_iff, List.map_eq_nil_iff, shape_iff_perm]

/-- A state with the record `Point { x: Int, y: Int }`. -/
def pointState : State :=
  { State.initial with
    registry := { Registry.empty with
      records := .ofList [("Point", ⟨"Point", [], .ofList [("x", ⟨0, .int⟩), ("y", ⟨1, .int⟩)]⟩)] } }

/-- The fields of `Point { y: 1, z: 2, y: 3, z: 4 }`. -/
def pointFields : List FieldInit :=
  let field (name : String) (value : Int64) : FieldInit :=
    ⟨default, ⟨default, name⟩, .literal default (.int value)⟩
  [field "y" 1, field "z" 2, field "y" 3, field "z" 4]

theorem pointFields_are_checked_exactly :
    ∃ record own values, pointState.registry.record? "Point" = some record ∧
      LiteralBound pointFields pointState own values
        (after (bindExpr none (.record default ⟨default, "Point"⟩ [] pointFields)) pointState) ∧
      own.filter (·.code == 2014) = [⟨default, .fieldRepeated "y"⟩, ⟨default, .fieldRepeated "z"⟩] ∧
      own.filter (·.code == 2015) = [⟨default, .noSuchField "Point" "z"⟩] ∧
      own.filter (·.code == 2016) = [⟨default, .fieldMissing "Point" "x"⟩] := by
  have hrecord : pointState.registry.record? (⟨default, "Point"⟩ : Ast.Name).text = some _ := rfl
  obtain ⟨own, values, hliteral, -, hrepeated, hunknown, hmissing, -⟩ :=
    record_literals_are_checked_exactly hrecord none default [] pointFields
  exact ⟨_, own, values, hrecord, hliteral, hrepeated, hunknown, hmissing⟩

end Binding

end Bindery
