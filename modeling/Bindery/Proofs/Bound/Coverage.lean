import Bindery.Proofs.Bound.Arms
import Bindery.Proofs.Bound.Values
import Bindery.Proofs.Registry

/-!
# What a checked match covers

A match in which nothing is wrong ends in one of two ways: an arm has closed it, or every variant
(or both truth values) has been named. In either case some arm matches any given value of the
matched type, or else is excused: the check looks at the names of variants only, reads the bare name
of a variant that was named before as a binding, and takes an irrefutable pattern for a catch-all
even where a placeholder is matched.
-/

namespace Bindery.Bound

variable {ps : List Pattern}

/-- The pattern names the variant of a sum. -/
def Pattern.Names (name : String) (p : Pattern) : Prop :=
  ∃ id payload bare, p.kind = .variant name (some id) payload bare

/-- Why an arm that does not match a value may have been taken to match it. -/
inductive Pattern.Excused (Γ : Symbols) (before : List Pattern) : Ty → Pattern → Value → Prop
  /-- It names the variant of the value, and what it asks of the payload is not looked at. -/
  | payload {name sum : String} {id : SymId} {args : List Ty} {ty patternTy : Ty} {p : Pattern}
    {bare : Bool}
      {range : Range} {v : Value} (hpayload : Γ.HasPayload id sum args ty) (h : ¬ p.Sure ty) :
      Excused Γ before (.sum sum args) ⟨.variant name (some id) (some p) bare, patternTy, range⟩
        (.variant id (some v))
  /-- It is the bare name of a variant that an arm before it names, and reads as a binding. -/
  | bare {name : String} {id : SymId} {ty patternTy : Ty} {range : Range} {v : Value}
      (h : ∃ p ∈ before, p.Names name) :
      Excused Γ before ty ⟨.variant name (some id) none true, patternTy, range⟩ v
  /-- It is irrefutable, but a tuple in it is matched with a placeholder. -/
  | placeholder {ty : Ty} {p : Pattern} {v : Value} (h : p.isIrrefutable = true)
    (hforces : p.Forces ty) :
      Excused Γ before ty p v

/-! ## Arms that leave no value -/

theorem Coverage.conclude_eq_nil {κ : Type} {c : Coverage κ} {covered : Bool} {range : Range}
    (h : c.conclude covered range = []) : covered = true := by
  cases covered with
  | true => rfl
  | false => simp [conclude, issue] at h

variable {p : Pattern} {name : String}

theorem mem_armsOf {before : List Pattern} (h : (before, p) ∈ armsOf ps) :
    ∃ after, ps = before ++ p :: after := by
  induction ps using List.reverseRecOn with
  | nil => cases h
  | append_singleton ps q ih =>
    rw [armsOf_append] at h
    rcases List.mem_append.mp h with h | h
    · obtain ⟨after, rfl⟩ := ih h
      exact ⟨after ++ [q], List.append_assoc ..⟩
    · cases List.mem_singleton.mp h
      exact ⟨[], rfl⟩

theorem ArmRules.exists_of_issues_eq_nil {κ : Type} {r : ArmRules κ} {range : Range}
    (h : r.issues ps range = []) :
    (∃ before p after, ps = before ++ p :: after ∧ r.catchAll (r.keys before) p = true) ∨
      r.exhausted (r.keys ps) = true := by
  have hend := (List.append_eq_nil_iff.mp h).2
  split at hend
  · next hcovered =>
    rw [Bool.or_eq_true, closed, List.any_eq_true] at hcovered
    refine hcovered.imp_left fun hclosed => ?_
    obtain ⟨⟨before, p⟩, harm, hp⟩ := hclosed
    obtain ⟨after, hsplit⟩ := mem_armsOf harm
    exact ⟨before, p, after, hsplit, hp⟩
  · cases hend

theorem Pattern.named?_eq_some_iff : p.named? = some name ↔ p.Names name := by
  unfold Names named?
  constructor
  · intro h
    split at h
    · next id payload bare hkind => exact ⟨id, payload, bare, Option.some.inj h ▸ hkind⟩
    · cases h
  · rintro ⟨id, payload, bare, hkind⟩
    rw [hkind]

theorem mem_keys_sumRules {sum : SumDef} : name ∈ (sumRules sum).keys ps ↔ ∃ p ∈ ps, p.Names name := by
  simp only [ArmRules.keys, sumRules, List.mem_filterMap, Pattern.named?_eq_some_iff]

/-- A catch-all of a match on a sum is irrefutable, or the bare name of a variant that was named
before. -/
theorem catchAll_sumRules {sum : SumDef}
    (h : (sumRules sum).catchAll ((sumRules sum).keys ps) p = true) :
    p.isIrrefutable = true ∨
      ∃ name id payload, p.kind = .variant name (some id) payload true ∧ ∃ q ∈ ps, q.Names name := by
  rw [sumRules, Bool.or_eq_true, Bool.and_eq_true] at h
  rcases h with h | h
  · exact .inl h.1
  · obtain ⟨name, hname, hseen⟩ := (Option.any_eq_true _ _).mp h
    obtain ⟨kind, ty, range⟩ := p
    cases kind with
    | variant written id payload bare =>
      cases id with
      | none => cases hname
      | some id =>
        cases bare with
        | false => cases hname
        | true =>
          cases hname
          exact .inr ⟨_, id, payload, rfl, mem_keys_sumRules.mp (List.contains_iff_mem.mp hseen)⟩
    | binding => exact .inl rfl
    | _ => cases hname

section Coverings

variable {Γ : Symbols} {r : Registry} {ps : List Pattern} {range : Range} {v : Value}

variable {ty : Ty} {args : List Ty} {sum : String}

/-- An irrefutable pattern matches or is excused. -/
theorem Pattern.matches_or_excused_of_isIrrefutable (h : p.isIrrefutable = true) (hfits : p.Fits r ty)
    (hv : v.HasType Γ ty) (before : List Pattern) : p.matches v = true ∨ p.Excused Γ before ty v := by
  by_cases hforces : p.Forces ty
  · exact .inr (.placeholder h hforces)
  · exact .inl (Pattern.Sure.matches_eq_true ⟨h, hforces⟩ hfits hv)

/-- A variant that a pattern names is one of the matched sum. -/
theorem Pattern.Names.mem_keys {sd : SumDef} (hnames : p.Names name) (hfits : p.Fits r (.sum sum args))
    (hsd : r.sum? sum = some sd) : name ∈ sd.variants.keys := by
  obtain ⟨id, payload, bare, hpattern⟩ := hnames
  obtain ⟨kind, ty, range⟩ := p
  cases hpattern
  refine (OrderedMap.contains_iff_mem_keys _ _).mp (Option.isSome_iff_exists.mpr ?_)
  cases payload with
  | none =>
    obtain ⟨-, _, _, sd', htarget, hsd', hget⟩ := hfits
    cases htarget
    cases hsd.symm.trans hsd'
    exact ⟨_, hget⟩
  | some =>
    obtain ⟨-, -, _, _, sd', _, htarget, hsd', hget, -⟩ := hfits
    cases htarget
    cases hsd.symm.trans hsd'
    exact ⟨_, hget⟩

/-- An arm that names the variant of a value matches the value or is excused. -/
theorem Pattern.Names.matches_or_excused {sym : Symbol} {id : SymId} {payload : Option Ty}
    (hnames : p.Names sym.name) (hr : r.Recorded Γ) (hsym : Γ.get? id = some sym)
    (hkind : sym.kind = .variant sum payload)
    (hv : payload = none ∧ v = .variant id none ∨ ∃ w ty, v = .variant id (some w) ∧
      Γ.HasPayload id sum args ty ∧ w.HasType Γ ty)
    (hfits : p.Fits r (.sum sum args)) (before : List Pattern) :
    p.matches v = true ∨ p.Excused Γ before (.sum sum args) v := by
  obtain ⟨sd, hsd, hget⟩ := hr.symbol_variant hsym hkind
  obtain ⟨id', pattern, bare, hpattern⟩ := hnames
  obtain ⟨kind, patternTy, range⟩ := p
  cases hpattern
  cases pattern with
  | none =>
    obtain ⟨-, sum', args', sd', htarget, hsd', hget'⟩ := hfits
    cases htarget
    cases hsd.symm.trans hsd'
    cases hget.symm.trans hget'
    rcases hv with ⟨-, rfl⟩ | ⟨w, ty, -, ⟨sym', declared, params, hsym', hkind', -⟩, -⟩
    · exact .inl (by simp [Pattern.matches])
    · cases hsym.symm.trans hsym'
      cases hkind.symm.trans hkind'
  | some pattern =>
    obtain ⟨-, -, sum', args', sd', declared, htarget, hsd', hget', hfits⟩ := hfits
    cases htarget
    cases hsd.symm.trans hsd'
    cases hget.symm.trans hget'
    rcases hv with ⟨hnone, -⟩ | ⟨w, ty, rfl, hpayload, hw⟩
    · cases hnone
    · by_cases hsure : pattern.Sure ty
      · obtain ⟨sym', declared', params, hsym', hkind', hty, rfl⟩ := hpayload
        cases hsym.symm.trans hsym'
        cases hkind.symm.trans hkind'
        -- The type parameters of the sum can be read off the type of the variant.
        have hself : sym.ty = sd.selfTy := by
          have hrecorded := hr.variant_symbol hsd hget
          rw [hsym] at hrecorded
          exact congrArg Symbol.ty (Option.some.inj hrecorded)
        have hparams : params = sd.tyParams := by
          rw [hty] at hself
          obtain ⟨-, -, hmap⟩ := Ty.nominal.inj hself
          exact List.map_injective_iff.mpr (fun a b h => Ty.generic.inj h) hmap
        rw [hparams] at hw hsure
        exact .inl (by simp [Pattern.matches, hsure.matches_eq_true hfits hw])
      · exact .inr (.payload hpayload hsure)

/-- A match on a sum covers every value of the sum. -/
theorem checkSum_covers {sd : SumDef} (hr : r.Recorded Γ) (hsd : r.sum? sum = some sd)
    (hcheck : checkSum sd ps range = []) (hfits : ∀ p ∈ ps, p.Fits r (.sum sum args))
    (hv : v.HasType Γ (.sum sum args)) :
    ∃ before p after, ps = before ++ p :: after ∧
      (p.matches v = true ∨ p.Excused Γ before (.sum sum args) v) := by
  have hnamed : ∀ p ∈ ps, ∀ name ∈ p.named?, name ∈ sd.variants.keys := fun p hp name hname =>
    (Pattern.named?_eq_some_iff.mp hname).mem_keys (hfits p hp) hsd
  rw [checkSum_eq_issues hnamed] at hcheck
  rcases ArmRules.exists_of_issues_eq_nil hcheck with ⟨before, p, after, rfl, hclose⟩ | hall
  · have hp := hfits p (by simp)
    refine ⟨before, p, after, rfl, ?_⟩
    rcases catchAll_sumRules hclose with hirrefutable | ⟨name, id, payload, hkind, hseen⟩
    · exact Pattern.matches_or_excused_of_isIrrefutable hirrefutable hp hv before
    · obtain ⟨kind, ty, prange⟩ := p
      cases hkind
      cases payload with
      | none => exact .inr (.bare hseen)
      | some payload => exact absurd hp.2.1 nofun
  · obtain ⟨id, sym, payload, hsym, hkind, hvalue⟩ := hv.exists_variant
    obtain ⟨sd', hsd', hget⟩ := hr.symbol_variant hsym hkind
    cases hsd.symm.trans hsd'
    have hname : sym.name ∈ sd.variants.keys :=
      (OrderedMap.contains_iff_mem_keys _ _).mp (Option.isSome_iff_exists.mpr ⟨_, hget⟩)
    obtain ⟨q, hq, hqnames⟩ :=
      mem_keys_sumRules.mp (List.contains_iff_mem.mp (List.all_eq_true.mp hall _ hname))
    obtain ⟨before, after, rfl⟩ := List.append_of_mem hq
    exact ⟨before, q, after, rfl, hqnames.matches_or_excused hr hsym hkind hvalue (hfits q hq) before⟩

/-! ## Other matches -/

/-- A match on constants covers every value of its type. -/
theorem checkLiterals_covers {isClosed : Bool} (hclosed : isClosed = true → ty = .bool)
    (hcheck : checkLiterals isClosed ps range = []) (hfits : ∀ p ∈ ps, p.Fits r ty)
    (hv : v.HasType Γ ty) :
    ∃ before p after, ps = before ++ p :: after ∧ (p.matches v = true ∨ p.Excused Γ before ty v) := by
  rw [checkLiterals_eq_issues] at hcheck
  rcases ArmRules.exists_of_issues_eq_nil hcheck with ⟨before, p, after, rfl, hclose⟩ | hall
  · exact ⟨before, p, after, rfl, Pattern.matches_or_excused_of_isIrrefutable hclose
      (hfits p (by simp)) hv before⟩
  · simp only [literalRules, Bool.and_eq_true, List.contains_iff_mem] at hall
    rw [hclosed hall.1] at hv
    obtain ⟨b, rfl⟩ := hv.exists_bool
    have hseen : Literal.bool b ∈ ps.filterMap Pattern.constant? := by
      cases b with
      | true => exact hall.2.1
      | false => exact hall.2.2
    obtain ⟨p, hp, hconstant⟩ := List.mem_filterMap.mp hseen
    obtain ⟨before, after, rfl⟩ := List.append_of_mem hp
    refine ⟨before, p, after, rfl, .inl ?_⟩
    obtain ⟨kind, pty, prange⟩ := p
    cases kind with
    | literal value =>
      cases hconstant
      simp [Pattern.matches]
    | _ => cases hconstant

/-- A match with which nothing is wrong covers every value of the matched type. -/
theorem checkMatch_covers (hr : r.Recorded Γ) (hcheck : checkMatch r ty ps range = [])
    (hfits : ∀ p ∈ ps, p.Fits r ty)
    (hv : v.HasType Γ ty) :
    ∃ before p after, ps = before ++ p :: after ∧ (p.matches v = true ∨ p.Excused Γ before ty v) := by
  unfold checkMatch at hcheck
  split at hcheck
  · exact absurd hv Value.HasType.not_error
  · next sum args =>
    obtain ⟨id, sym, payload, hsym, hkind, -⟩ := hv.exists_variant
    obtain ⟨sd, hsd, -⟩ := hr.symbol_variant hsym hkind
    rw [hsd] at hcheck
    exact checkSum_covers hr hsd hcheck hfits hv
  · exact checkLiterals_covers (fun _ => rfl) hcheck hfits hv
  · refine checkLiterals_covers (fun h => ?_) hcheck hfits hv
    cases h

end Coverings

end Bindery.Bound
