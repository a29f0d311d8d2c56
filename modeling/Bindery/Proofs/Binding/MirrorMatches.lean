import Bindery.Proofs.Binding.MirrorCalls
import Bindery.Proofs.Bound.Coverage

/-!
# Matches on poisoned values

Against a value that is unknown every pattern is bound silently, and a bare name is always a
variable. So a name that means a variant in the first run may declare a variable in the second. Two
things may then be found that the first run does not find. The variable may be declared twice in one
pattern, and a tuple pattern that was refutable may no longer be so, which makes the arms after it
unreachable. Both need a bare name in a tuple pattern: alone, or as the payload of a variant, it is
bound against poison only if nothing is checked of the match.
-/

namespace Bindery.Binding

open Bindery.Bound

variable {w : Setting} {Γ : Symbols} {s s' t : State} {range : Range} {target target' : Ty}

/-! ## Patterns -/

/-- The second pattern is what the second run makes of a pattern against a poisoned form of the
target. It may match more. -/
structure PatternBelow (bare : String → Bool) (pattern : Ast.Pattern) (target target' : Ty)
    (p p' : Pattern) : Prop where
  range : p.range = pattern.range
  range' : p'.range = pattern.range
  literal : ∀ v, p'.kind = .literal v ↔ p.kind = .literal v
  irrefutable : p.isIrrefutable = true → p'.isIrrefutable = true
  names : p'.isIrrefutable = true → p.isIrrefutable = true ∨ ∃ name ∈ pattern.names,
    bare name.text = true
  tupled : target' ≠ .error → p'.isIrrefutable = true →
    p.isIrrefutable = true ∨ ∃ name ∈ pattern.tupled, bare name.text = true
  sum : target' ≠ .error → ∀ name args, target = .sum name args → ∀ sd c, sumArm sd c p' =
    sumArm sd c p

/-- The same for the elements of a tuple pattern. -/
structure PatternsBelow (bare : String → Bool) (patterns : List Ast.Pattern)
    (ps ps' : List Pattern) : Prop where
  irrefutable : Pattern.allIrrefutable ps = true → Pattern.allIrrefutable ps' = true
  names : Pattern.allIrrefutable ps' = true →
    Pattern.allIrrefutable ps = true ∨ ∃ name ∈ Ast.Pattern.allNames patterns, bare name.text = true

/-- The names of the pattern may be declared. In a scope without names only those in a tuple can be
taken by others. -/
def Setting.MayMatch (w : Setting) (s' : State) (pattern : Ast.Pattern) : Prop :=
  (∀ name ∈ pattern.names, w.bare name.text = true →
    w.allowed ⟨name.range, .alreadyDeclared name.text⟩) ∨
    (∀ sc', s'.scopes.get? s'.current = some sc' → ∀ name, sc'.varNames.get? name = none) ∧
      ∀ name ∈ pattern.tupled, w.bare name.text = true →
        w.allowed ⟨name.range, .alreadyDeclared name.text⟩

/-- What a variant pattern names in both runs. -/
inductive ResolvedBelow : Option (SymId × Option Ty) → Option (SymId × Option Ty) → Prop
  | unknown (r : Option (SymId × Option Ty)) : ResolvedBelow r none
  | known (symbol : SymId) {payload payload' : Option Ty} (h : Option.Rel Ty.Below payload' payload) :
    ResolvedBelow (some (symbol, payload)) (some (symbol, payload'))

theorem literalMatches_mono {value : Literal} (h : literalMatches value.ty target = true)
    (hbelow : target'.Below target) : literalMatches value.ty target' = true := by
  cases hbelow with
  | error => rfl
  | generic => rfl
  | prim => exact h
  | _ => cases value <;> simp [literalMatches, Literal.ty] at h

theorem repeats_tupleTargets {count : Nat} {tys : List Ty} (hbelow : target'.Below target)
    (hq : Quiet Γ (tupleTargets target count range) s tys t) (s' : State) :
    ∃ tys', Ty.BelowAll tys' tys ∧ Repeats (tupleTargets target' count range) s' tys' := by
  obtain ⟨-, hlength, hcases⟩ := hq.tupleTargets
  unfold tupleTargets
  cases hbelow with
  | error =>
    refine ⟨List.replicate count .error, ?_, .pure _ s'⟩
    rw [← hlength]
    exact .replicate tys
  | generic =>
    rcases hcases with htuple | ⟨-, rfl⟩
    · cases htuple
    · exact ⟨_, Ty.belowAll_refl _, .pure _ s'⟩
  | @tuple tys' _ htys =>
    rcases hcases with htuple | ⟨herror | ⟨_, hgeneric⟩, -⟩
    · cases htuple
      refine ⟨tys', htys, ?_⟩
      dsimp only
      rw [if_pos (htys.length_eq.trans hlength)]
      exact .pure _ s'
    · cases herror
    · cases hgeneric
  | _ =>
    rcases hcases with htuple | ⟨herror | ⟨_, hgeneric⟩, -⟩
    · cases htuple
    · cases herror
    · cases hgeneric

variable {resolved : Option (SymId × Option Ty)} {name : String} {registry : Registry} {p : Pattern}

theorem repeats_resolveVariant {name : Ast.Name} (h : Poisoned w s s')
    (hbelow : target'.Below target) (hq : Quiet Γ (resolveVariant target name range) s resolved t) :
    ∃ resolved', ResolvedBelow resolved resolved' ∧ Repeats (resolveVariant target' name range) s'
      resolved' ∧
      (target' ≠ .error → ∃ symbol payload payload', resolved = some (symbol, payload) ∧
      resolved' = some (symbol, payload')) := by
  obtain ⟨-, hcases⟩ := hq.resolveVariant
  cases hbelow with
  | error => exact ⟨none, .unknown _, (Repeats.get s').seq (.pure _ s'), fun hne => absurd rfl hne⟩
  | @nominal _ _ args' _ hargs =>
    rcases hcases with ⟨herror, -⟩ | ⟨sum, args, d, v, heq, hd, hv, rfl⟩
    · cases herror
    · cases heq
      rw [h.registry] at hd
      obtain ⟨payload', hpayload'⟩ : ∃ payload',
        payload' = v.payload.map (·.subst (.ofArguments d.tyParams args')) :=
        ⟨_, rfl⟩
      refine ⟨some (v.symbol, payload'), .known v.symbol ?_, ?_, fun _ => ⟨_, _, _, rfl, rfl⟩⟩
      · rw [hpayload']
        cases v.payload with
        | none => exact .none
        | some payload =>
          exact .some ((Ty.below_refl payload).subst fun n _ => Subst.below_ofArguments hargs n)
      · refine (Repeats.get s').seq ?_
        simp only [h.registry', hd, hv, SumDef.payloadTy?, Option.map_some, Option.bind_eq_bind,
          Option.bind_some,
          Option.pure_def, ← hpayload']
        exact (Repeats.reportUnless rfl _ _ s').seq (.pure _ s')
  | _ =>
    rcases hcases with ⟨herror, -⟩ | ⟨sum, args, d, v, heq, -⟩
    · cases herror
    · cases heq

theorem repeats_payloadTarget {resolved' : Option (SymId × Option Ty)} {ty : Ty}
    (h : ResolvedBelow resolved resolved') (hq : Quiet Γ (payloadTarget resolved name range) s ty t)
    (s' : State) :
    ∃ ty', ty'.Below ty ∧ Repeats (payloadTarget resolved' name range) s' ty' := by
  obtain ⟨-, hcases⟩ := hq.payloadTarget
  cases h with
  | unknown => exact ⟨.error, .error _, .pure _ s'⟩
  | known symbol hpayload =>
    rcases hcases with ⟨hnone, -⟩ | ⟨_, hsome⟩
    · cases hnone
    · cases hsome
      cases hpayload with
      | some hle => exact ⟨_, hle, .pure _ s'⟩

theorem repeats_checkNoPayload {resolved' : Option (SymId × Option Ty)} {u : Unit}
    (h : ResolvedBelow resolved resolved') (hq : Quiet Γ (checkNoPayload resolved name range) s u t)
    (s' : State) :
    Repeats (checkNoPayload resolved' name range) s' () := by
  obtain ⟨-, hnone⟩ := hq.checkNoPayload
  cases h with
  | unknown => exact .pure () s'
  | known symbol hpayload =>
    cases hnone symbol _ rfl
    cases hpayload
    exact .pure () s'

/-- A name that means a variant without payload. -/
theorem Ground.bare_of_bareVariant? {bare : String → Bool} {symbol : SymId}
    (hground : Ground Γ registry bare) (h : bareVariant? registry target name = some symbol) :
    bare name = true := by
  obtain ⟨sum, _, d, -, hd, hv⟩ := exists_of_bareVariant? h
  exact hground.bare sum d name _ hd hv rfl

/-- A bare name means the same as long as the target is not poison. -/
theorem bareVariant?_of_below (h : target'.Below target) (hne : target' ≠ .error) :
    bareVariant? registry target' name = bareVariant? registry target name := by
  cases h with
  | error => exact absurd rfl hne
  | nominal k n _ => cases k <;> rfl
  | _ => rfl

/-- A name of a pattern is a variable or a variant in both runs, or a variant that becomes a
variable. -/
theorem ends_namePattern {name : Ast.Name} (h : Poisoned w s s') (hplain : w.isPlain = false)
    (hground : Ground Γ w.registry w.bare) (hbelow : target'.Below target)
    (hmay : w.MayDeclare s' name)
    (hq : Quiet Γ (namePattern target name) s p t) :
    Ends w [] (namePattern target' name) s' t (PatternBelow w.bare (.name name) target target' p) := by
  have hread : Repeats get s' s' := .get s'
  rcases hq.namePattern with ⟨symbol, hbare, rfl, rfl⟩ | ⟨hbare, symbol, hdeclare, rfl⟩
  · by_cases hne : target' = .error
    · subst hne
      have hname : w.bare name.text = true := hground.bare_of_bareVariant? (h.registry ▸ hbare)
      refine .past hread ?_
      refine (ends_straying h hplain hname hmay).andThen fun id u' hu _ => .pure hu ?_
      exact ⟨rfl, rfl, by simp, fun _ => rfl, fun _ => .inr ⟨name, by simp [Ast.Pattern.names], hname⟩,
        fun hne => absurd rfl hne, fun hne => absurd rfl hne⟩
    · refine .past hread ?_
      rw [h.registry', ← h.registry, bareVariant?_of_below hbelow hne, hbare]
      exact .pure h ⟨rfl, rfl, by simp, fun h => h, .inl, fun _ => .inl, fun _ _ _ _ _ _ => rfl⟩
  · have hbare' : bareVariant? s'.registry target' name.text = none := by
      by_cases hne : target' = .error
      · rw [hne]
        rfl
      · rw [h.registry', ← h.registry, bareVariant?_of_below hbelow hne, hbare]
    refine .past hread ?_
    rw [hbare']
    refine (ends_declareLocal h rfl hdeclare hbelow (.inr ⟨rfl, hmay⟩)).andThen fun id u' hu _ =>
      .pure hu ?_
    exact ⟨rfl,
      rfl, by simp, fun _ => rfl, fun _ => .inl rfl, fun _ _ => .inl rfl, fun _ _ _ _ _ _ => rfl⟩

mutual

/-- A pattern is bound against a poisoned form of its target. -/
theorem ends_bindPattern (pattern : Ast.Pattern) {s s' t : State} {target target' : Ty}
    {p : Pattern} (h : Poisoned w s s')
    (hplain : w.isPlain = false) (hground : Ground Γ w.registry w.bare) (hbelow : target'.Below target)
    (hmay : w.MayMatch s' pattern) (hq : Quiet Γ (bindPattern target pattern) s p t) :
    Ends w [] (bindPattern target' pattern) s' t (PatternBelow w.bare pattern target target' p) := by
  match pattern with
  | .literal origin value =>
    obtain ⟨rfl, rfl, hmatches⟩ := hq.literalPattern
    refine .past (Repeats.reportUnless (literalMatches_mono hmatches hbelow) _ _ s') (.pure h ?_)
    exact ⟨rfl, rfl, fun _ => .rfl, fun h => h, .inl, fun _ => .inl, fun _ _ _ _ _ _ => rfl⟩
  | .wildcard origin =>
    obtain ⟨rfl, rfl⟩ := hq.pure
    exact .pure h ⟨rfl,
      rfl, by simp, fun h => h, fun _ => .inl rfl, fun _ _ => .inl rfl, fun _ _ _ _ _ _ => rfl⟩
  | .name name =>
    refine ends_namePattern h hplain hground hbelow ?_ hq
    refine hmay.imp (fun hallowed => hallowed name (by simp [Ast.Pattern.names])) ?_
    exact fun hempty sc' hsc' => hempty.1 sc' hsc' name.text
  | .tuple origin elems =>
    obtain ⟨tys, _, htargets, hrest⟩ := hq.bind
    have hnotSum : ∀ name args, target ≠ .sum name args := by
      rintro name args rfl
      obtain ⟨-, -, htuple | ⟨herror | ⟨_, hgeneric⟩, -⟩⟩ := htargets.tupleTargets
      · cases htuple
      · cases herror
      · cases hgeneric
    obtain ⟨tys', htys, hrepeats⟩ := repeats_tupleTargets hbelow htargets s'
    obtain rfl := htargets.checks.2
    obtain ⟨ps, helems, rfl⟩ := hrest.bind_pure
    have hallowed : ∀ name ∈ Ast.Pattern.allNames elems, w.bare name.text = true →
        w.allowed ⟨name.range, .alreadyDeclared name.text⟩ := hmay.elim id And.right
    refine .past hrepeats ?_
    refine (ends_bindPatterns elems h hplain hground htys hallowed helems).andThen
      fun ps' u' hu hps => .pure hu ?_
    exact ⟨rfl, rfl, by simp, hps.irrefutable, hps.names, fun _ => hps.names,
      fun _ name args htarget => absurd htarget (hnotSum name args)⟩
  | .variant origin name none =>
    obtain ⟨resolved, _, hresolve, hrest⟩ := hq.bind
    obtain ⟨resolved', hresolved, hrepeats, hsame⟩ := repeats_resolveVariant h hbelow hresolve
    obtain rfl := hresolve.checks.2
    obtain ⟨_, hcheck, rfl⟩ := hrest.bind_pure
    have hrepeats' := repeats_checkNoPayload hresolved hcheck s'
    obtain rfl := hcheck.checks.2
    refine .past hrepeats (.past hrepeats' (.pure h ?_))
    refine ⟨rfl, rfl, by simp [variantPattern], by simp [variantPattern, Pattern.isIrrefutable],
      by simp [variantPattern, Pattern.isIrrefutable],
      by simp [variantPattern, Pattern.isIrrefutable], ?_⟩
    intro hne _ _ _ _ _
    obtain ⟨symbol, payload, payload', rfl, rfl⟩ := hsame hne
    rfl
  | .variant origin name (some payload) =>
    obtain ⟨resolved, _, hresolve, hrest⟩ := hq.bind
    obtain ⟨resolved', hresolved, hrepeats, hsame⟩ := repeats_resolveVariant h hbelow hresolve
    obtain rfl := hresolve.checks.2
    obtain ⟨ty, _, htarget, hrest'⟩ := hrest.bind
    obtain ⟨ty', hty, hrepeats'⟩ := repeats_payloadTarget hresolved htarget s'
    obtain rfl := htarget.checks.2
    obtain ⟨q, hpayload, rfl⟩ := hrest'.bind_pure
    refine .past hrepeats (.past hrepeats' ?_)
    refine (ends_bindPattern payload h hplain hground hty hmay hpayload).andThen fun q' u' hu _ =>
      .pure hu ?_
    refine ⟨rfl, rfl, by simp [variantPattern], by simp [variantPattern, Pattern.isIrrefutable],
      by simp [variantPattern, Pattern.isIrrefutable],
      by simp [variantPattern, Pattern.isIrrefutable], ?_⟩
    intro hne _ _ _ _ _
    obtain ⟨symbol, payload, payload', rfl, rfl⟩ := hsame hne
    rfl

theorem ends_bindPatterns (patterns : List Ast.Pattern) {s s' t : State} {tys tys' : List Ty}
    {ps : List Pattern}
    (h : Poisoned w s s') (hplain : w.isPlain = false) (hground : Ground Γ w.registry w.bare)
    (hbelow : Ty.BelowAll tys' tys)
    (hmay : ∀ name ∈ Ast.Pattern.allNames patterns, w.bare name.text = true →
      w.allowed ⟨name.range, .alreadyDeclared name.text⟩)
    (hq : Quiet Γ (bindPatterns tys patterns) s ps t) :
    Ends w [] (bindPatterns tys' patterns) s' t (PatternsBelow w.bare patterns ps) := by
  match patterns with
  | [] =>
    have hnil : ∀ tys : List Ty, (bindPatterns tys [] : Binding _) = Pure.pure [] := by
      intro tys
      cases tys <;> rfl
    rw [hnil] at hq ⊢
    obtain ⟨rfl, rfl⟩ := hq.pure
    exact .pure h ⟨fun h => h, .inl⟩
  | pattern :: patterns =>
    cases hbelow with
    | nil =>
      obtain ⟨rfl, rfl⟩ := hq.pure
      exact .pure h ⟨fun h => h, .inl⟩
    | cons hfirst hrest =>
      obtain ⟨p, u, hp, hq'⟩ := hq.bind
      obtain ⟨ps', hps, rfl⟩ := hq'.bind_pure
      simp only [Ast.Pattern.allNames, List.forall_mem_append] at hmay
      refine (ends_bindPattern pattern h hplain hground hfirst (.inl hmay.1) hp).andThen
        fun q u' hu hq => ?_
      refine (ends_bindPatterns patterns hu hplain hground hrest hmay.2 hps).andThen
        fun qs v' hv hqs => .pure hv ?_
      constructor
      · simp only [Pattern.allIrrefutable, Bool.and_eq_true]
        exact fun hall => ⟨hq.irrefutable hall.1, hqs.irrefutable hall.2⟩
      · simp only [Pattern.allIrrefutable, Bool.and_eq_true, Ast.Pattern.allNames, List.mem_append]
        rintro ⟨hqi, hqsi⟩
        rcases hq.names hqi with hpi | ⟨name, hname, hbare⟩
        · rcases hqs.names hqsi with hpsi | ⟨name, hname, hbare⟩
          · exact .inl ⟨hpi, hpsi⟩
          · exact .inr ⟨name, .inr hname, hbare⟩
        · exact .inr ⟨name, .inl hname, hbare⟩

end

/-! ## Coverage -/

/-- The patterns of a match in both runs. -/
def PatternsMatch (bare : String → Bool) (target target' : Ty) (patterns : List Ast.Pattern) :
    List Pattern → List Pattern → Prop :=
  List.Forall₂ fun p p' => ∃ pattern ∈ patterns, PatternBelow bare pattern target target' p p'

/-- An arm that is unreachable only because a bare name in a tuple pattern has become a variable. -/
def Overtaken (bare : String → Bool) (patterns : List Ast.Pattern) (issue : MatchIssue) : Prop :=
  issue.kind = .unreachable ∧ (∃ pattern ∈ patterns, issue.range = pattern.range) ∧
    ∃ pattern ∈ patterns, ∃ name ∈ pattern.tupled, bare name.text = true

section

variable {bare : String → Bool} {target target' : Ty} {patterns : List Ast.Pattern}
    {ps ps' : List Pattern}

theorem issues_literalArm (c : Coverage Literal) (p : Pattern) :
    c.issues <+: (literalArm c p).issues := by
  unfold literalArm
  split
  · exact List.prefix_append _ _
  · split
    · split
      · exact List.prefix_append _ _
      · exact List.prefix_rfl
    · split
      · exact List.prefix_rfl
      · exact List.prefix_rfl

theorem issues_foldl_literalArm (c : Coverage Literal) (ps : List Pattern) :
    c.issues <+: (ps.foldl literalArm c).issues := by
  induction ps generalizing c with
  | nil => exact List.prefix_rfl
  | cons p ps ih => exact (issues_literalArm c p).trans (ih _)

variable {c : Coverage Literal}

/-- A catch-all makes all later arms unreachable. -/
theorem literalArm_of_catchAll (hc : c.catchAll = true) (p : Pattern) :
    literalArm c p = c.issue .unreachable p.range := by
  unfold literalArm
  rw [if_pos hc]

/-- Patterns that are both constants, or both none and equally irrefutable, cover the same. -/
theorem literalArm_congr {p' : Pattern} (hrange : p'.range = p.range)
    (hliteral : ∀ v, p'.kind = .literal v ↔ p.kind = .literal v)
    (hirrefutable : p'.isIrrefutable = p.isIrrefutable) :
    literalArm c p' = literalArm c p := by
  unfold literalArm
  rw [hrange, hirrefutable]
  split
  · rfl
  · cases hkind : p.kind with
    | literal v => rw [(hliteral v).mpr hkind]
    | _ =>
      cases hkind' : p'.kind with
      | literal v => cases hkind.symm.trans ((hliteral v).mp hkind')
      | _ => rfl

/-- What the arms cover is the same in both runs, or the second run takes some arm to match
everything. -/
theorem foldl_literalArm (hne : target' ≠ .error)
    (h : PatternsMatch bare target target' patterns ps ps')
    (hclean : (ps.foldl literalArm c).issues = []) :
    ps'.foldl literalArm c = ps.foldl literalArm c ∨
      (ps'.foldl literalArm c).catchAll = true ∧ ∀ i ∈ (ps'.foldl literalArm c).issues,
        Overtaken bare patterns i := by
  -- Once some arm was taken to match everything, only later arms are reported.
  have hclosed : ∀ (qs qs' : List Pattern) (c' : Coverage Literal),
    PatternsMatch bare target target' patterns qs qs' →
      (∃ pattern ∈ patterns, ∃ name ∈ pattern.tupled, bare name.text = true) → c'.catchAll = true →
      (∀ i ∈ c'.issues, Overtaken bare patterns i) → (qs'.foldl literalArm c').catchAll = true ∧
        ∀ i ∈ (qs'.foldl literalArm c').issues, Overtaken bare patterns i := by
    intro qs qs' c' hqs hname
    induction hqs generalizing c' with
    | nil => exact fun hc hi => ⟨hc, hi⟩
    | @cons q q' _ _ hq _ ih =>
      intro hc hi
      obtain ⟨pattern, hpattern, hbelow⟩ := hq
      rw [List.foldl_cons, literalArm_of_catchAll hc]
      refine ih (c'.issue .unreachable q'.range) hc ?_
      intro i hmem
      rcases List.mem_append.mp hmem with hmem | hmem
      · exact hi i hmem
      · obtain rfl := List.mem_singleton.mp hmem
        exact ⟨rfl, ⟨pattern, hpattern, hbelow.range'⟩, hname⟩
  induction h generalizing c with
  | nil => exact .inl rfl
  | @cons p p' ps ps' hp hps ih =>
    obtain ⟨pattern, hpattern, hbelow⟩ := hp
    have hnone : (literalArm c p).issues = [] := by
      have hprefix := issues_foldl_literalArm (literalArm c p) ps
      rw [show (ps.foldl literalArm (literalArm c p)).issues = [] from hclean] at hprefix
      exact List.prefix_nil.mp hprefix
    have hrange := hbelow.range'.trans hbelow.range.symm
    rw [List.foldl_cons]
    cases hi' : p'.isIrrefutable with
    | false =>
      have hi : p.isIrrefutable = false := by
        cases hi : p.isIrrefutable with
        | false => rfl
        | true =>
          rw [hbelow.irrefutable hi] at hi'
          cases hi'
      rw [literalArm_congr hrange hbelow.literal (hi'.trans hi.symm)]
      exact ih hclean
    | true =>
      rcases hbelow.tupled hne hi' with hi | ⟨name, hname, hbare⟩
      · rw [literalArm_congr hrange hbelow.literal (hi'.trans hi.symm)]
        exact ih hclean
      · cases hi : p.isIrrefutable with
        | true =>
          rw [literalArm_congr hrange hbelow.literal (hi'.trans hi.symm)]
          exact ih hclean
        | false =>
          right
          -- Here the arms part: the second run goes on as after a catch-all.
          have hcatchAll : c.catchAll = false := by
            cases hc : c.catchAll with
            | false => rfl
            | true =>
              rw [literalArm_of_catchAll hc] at hnone
              simp [Coverage.issue] at hnone
          have hissues : c.issues = [] := List.prefix_nil.mp (hnone ▸ issues_literalArm c p)
          have hclose : literalArm c p' = c.close := by
            unfold literalArm
            rw [if_neg (by simp [hcatchAll])]
            split
            · next v hv =>
              obtain ⟨kind, ty, range⟩ := p'
              cases hv
              cases hi'
            · rw [if_pos hi']
          rw [hclose]
          refine hclosed ps ps' c.close hps ⟨pattern, hpattern, name, hname, hbare⟩ rfl ?_
          intro i hmem
          rw [show c.close.issues = [] from hissues] at hmem
          cases hmem

theorem foldl_sumArm {args : List Ty} (hne : target' ≠ .error)
    (h : PatternsMatch bare (.sum name args) target' patterns ps ps') (sd : SumDef)
    (c : Coverage String) :
    ps'.foldl (sumArm sd) c = ps.foldl (sumArm sd) c := by
  induction h generalizing c with
  | nil => rfl
  | cons hp _ ih =>
    obtain ⟨pattern, -, hbelow⟩ := hp
    rw [List.foldl_cons, List.foldl_cons, hbelow.sum hne name args rfl sd c, ih]

theorem overtaken_of_checkLiterals {isClosed : Bool} (hne : target' ≠ .error)
    (h : PatternsMatch bare target target' patterns ps ps')
    (hclean : checkLiterals isClosed ps range = []) :
    ∀ i ∈ checkLiterals isClosed ps' range, Overtaken bare patterns i := by
  have hcovered := Coverage.conclude_eq_nil hclean
  have hissues : (ps.foldl literalArm .initial).issues = [] := by
    unfold checkLiterals Coverage.conclude at hclean
    rwa [if_pos hcovered] at hclean
  rcases foldl_literalArm hne h hissues with heq | ⟨hcatchAll, hall⟩
  · unfold checkLiterals at hclean ⊢
    rw [heq]
    intro i hi
    rw [hclean] at hi
    cases hi
  · unfold checkLiterals Coverage.conclude
    rw [if_pos (by rw [hcatchAll, Bool.true_or])]
    exact hall

/-- What is found about the arms of a match in the second run only. -/
theorem overtaken_of_checkMatch (hbelow : target'.Below target)
    (h : PatternsMatch bare target target' patterns ps ps')
    (hclean : checkMatch registry target ps range = []) :
    ∀ i ∈ checkMatch registry target' ps' range, Overtaken bare patterns i := by
  by_cases hne : target' = .error
  · subst hne
    intro i hi
    cases hi
  · cases hbelow with
    | error => exact absurd rfl hne
    | prim p =>
      cases p with
      | bool => exact overtaken_of_checkLiterals hne h hclean
      | _ => exact overtaken_of_checkLiterals hne h hclean
    | nominal k n hargs =>
      cases k with
      | record => exact overtaken_of_checkLiterals hne h hclean
      | sum =>
        intro i hi
        unfold checkMatch at hclean hi
        simp only at hclean hi
        split at hi
        · next sd hsd =>
          rw [hsd] at hclean
          dsimp only at hclean
          unfold checkSum at hclean hi
          rw [foldl_sumArm hne h] at hi
          rw [hclean] at hi
          cases hi
        · cases hi
    | _ => exact overtaken_of_checkLiterals hne h hclean

end

/-! ## Arms and matches -/

theorem ends_reportIssues {issues : List MatchIssue} (h : Poisoned w t s')
    (hallowed : ∀ i ∈ issues, w.allowed ⟨i.range, issueProblem i.kind⟩) :
    Ends w [] (reportIssues issues) s' t fun _ => True := by
  induction issues generalizing s' with
  | nil => exact .pure h trivial
  | cons i issues ih =>
    obtain ⟨hfirst, hrest⟩ := List.forall_mem_cons.mp hallowed
    have hproblem : (⟨i.range, issueProblem i.kind⟩ : Finding).isUndefined = false := by
      cases i.kind <;> rfl
    exact (Ends.report h hproblem hfirst).andThen fun _ _ h _ => ih h hrest

/-- A match whose arms have agreed on a poisoned form of its type. -/
theorem ends_matchExpr {scrutinee scrutinee' : Expr} {arms arms' : List Arm}
    {agreed agreed' : ArmTypes}
    {patterns : List Ast.Pattern} (h : Poisoned w t s') (hscrutinee : scrutinee'.ty.Below scrutinee.ty)
    (hagreed : ArmsBelow agreed agreed')
    (hpatterns : PatternsMatch w.bare scrutinee.ty scrutinee'.ty patterns (arms.map Arm.pattern)
      (arms'.map Arm.pattern))
    (hclean : checkMatch w.registry scrutinee.ty (arms.map Arm.pattern) range = [])
    (hallowed : ∀ i, Overtaken w.bare patterns i → w.allowed ⟨i.range, .unreachableArm⟩) :
    Ends w [] (matchExpr scrutinee' arms' agreed' range) s' t
      (ExprBelow ⟨.matchOn scrutinee arms, agreed.ty, range⟩) := by
  have hread : Repeats get s' s' := .get s'
  refine .past hread ?_
  rw [h.registry']
  refine (ends_reportIssues h fun i hi => ?_).andThen fun _ _ h _ => .pure h ?_
  · have hovertaken := overtaken_of_checkMatch hscrutinee hpatterns hclean i hi
    rw [hovertaken.1]
    exact hallowed i hovertaken
  · exact ⟨hagreed.ty, rfl, .some hagreed.ty, fun _ => rfl⟩

/-- An arm is bound in a scope of its own, which may have strays. -/
theorem ends_arm {xs : List Ast.Unknown} {pattern : Ast.Pattern} {hint hint' : Option Ty}
    {body body' : Ast.Expr} {b : Expr} {u v : State} (h : Poisoned w s s')
    (hground : Ground Γ w.registry w.bare) (hbelow : target'.Below target)
    (hallowed : ∀ name ∈ pattern.tupled, w.bare name.text = true →
      w.allowed ⟨name.range, .alreadyDeclared name.text⟩)
    (hpattern : Quiet Γ (bindPattern target pattern) (s.opened .matchArm) p u)
    (hbody : Quiet Γ (bindExpr hint body) u b v)
    (hmirrored : ∀ u', Poisoned { w with isPlain := false } u u' →
      Ends { w with isPlain := false } xs (bindExpr hint' body') u' v (ExprBelow b)) :
    Ends w xs (inScope .matchArm (do
        let q ← bindPattern target' pattern
        let c ← bindExpr hint' body'
        return (⟨q, c, range⟩ : Arm))) s' (v.at s.current)
      fun arm' => PatternBelow w.bare pattern target target' p arm'.pattern ∧
        ExprBelow b arm'.body := by
  have hmay : Setting.MayMatch { w with isPlain := false } (s'.opened .matchArm) pattern := by
    refine .inr ⟨fun sc' hsc' name => ?_, hallowed⟩
    have hnew := Scopes.get?_push_size s'.scopes s'.current .matchArm
    rw [show (s'.opened .matchArm).scopes.get? (s'.opened .matchArm).current = _ from hnew] at hsc'
    cases hsc'
    rfl
  have hgrows : Grows pattern.identifiers (s.opened .matchArm) v :=
    (hpattern.grows (keeps_bindPattern target pattern)).trans ((hbody.grows_nil).mono (by simp))
  refine Ends.inScope false h ?_ hgrows
    (.seq (keeps_bindPattern target' pattern) fun _ => .seq (keeps_bindExpr hint' body').of_nil
      fun _ => inferInstance)
  refine Ends.seq (ends_bindPattern pattern (h.opened .matchArm false) rfl hground hbelow hmay
    hpattern) fun q u' hu hq => ?_
  exact (hmirrored u' hu).andThen fun c v' hv hc => .pure hv ⟨hq, hc⟩

end Bindery.Binding
