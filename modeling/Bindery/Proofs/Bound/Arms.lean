import Bindery.Bound.Coverage
import Mathlib.Data.List.Induction
import Mathlib.Data.List.Perm.Subperm

/-!
# The arms of a match

What is wrong with the arms of a match can be said of each arm by itself, from the arms before it
and in no order: whether some of them is a catch-all, and which variants or constants they name.
`ArmRules` says what counts as a catch-all and as a duplicate, and what the arms have to name.
`ArmRules.step` is the check of one arm, and a run of it through all arms finds what the rules say
(`ArmRules.runs`).
-/

namespace Bindery.Bound

namespace Pattern

/-- The variant of the matched sum that the pattern names. -/
def named? (p : Pattern) : Option String :=
  match p.kind with
  | .variant name (some _) _ _ => some name
  | _ => none

/-- The name of a pattern that is a bare name, be it that of a variable or of a variant. -/
def bareName? (p : Pattern) : Option String :=
  match p.kind with
  | .variant name (some _) _ true | .binding _ name => some name
  | _ => none

/-- Whether the pattern is a variable that is called like a variant of the sum. -/
def isAmbiguous (sum : SumDef) (p : Pattern) : Bool :=
  match p.kind with
  | .binding _ name => sum.variants.contains name
  | _ => false

/-- The constant that the pattern is. -/
def constant? (p : Pattern) : Option Literal :=
  match p.kind with
  | .literal value => some value
  | _ => none

end Pattern

/-- The arms of a match, each with those before it. -/
def armsOf (ps : List Pattern) : List (List Pattern × Pattern) :=
  ps.zipIdx.map fun arm => (ps.take arm.2, arm.1)

theorem armsOf_append (ps : List Pattern) (p : Pattern) :
    armsOf (ps ++ [p]) = armsOf ps ++ [(ps, p)] := by
  have htake : ∀ arm ∈ ps.zipIdx, (ps ++ [p]).take arm.2 = ps.take arm.2 := fun arm harm =>
    List.take_append_of_le_length (Nat.le_of_lt (by simpa using (List.mem_zipIdx harm).2.1))
  rw [armsOf, List.zipIdx_append, List.map_append, List.map_congr_left
    fun arm harm => by rw [htake arm harm]]
  simp [armsOf]

/-- What is asked of the arms of a match, given the variants or constants that earlier arms name. -/
structure ArmRules (κ : Type) where
  /-- What an arm names. -/
  key? : Pattern → Option κ
  catchAll : (earlier : List κ) → Pattern → Bool
  duplicate : (earlier : List κ) → Pattern → Bool
  exhausted : (named : List κ) → Bool
  /-- Neither the order of the earlier arms matters nor how often they name something. -/
  congr {l l' : List κ} (h : ∀ k, k ∈ l ↔ k ∈ l') : catchAll l = catchAll l' ∧
    duplicate l = duplicate l'
  apart {l : List κ} {p : Pattern} (h : catchAll l p = true) : duplicate l p = false
  known {l : List κ} {p : Pattern} (h : duplicate l p = true) : ∀ k ∈ key? p, k ∈ l
  fresh {l : List κ} {p : Pattern} (h : catchAll l p = false)
    (h' : duplicate l p = false) : ∀ k ∈ key? p, k ∉ l

namespace ArmRules

variable {κ : Type} (r : ArmRules κ) {ps : List Pattern} {p : Pattern} {c : Coverage κ}

/-- What the arms name. -/
def keys (ps : List Pattern) : List κ := ps.filterMap r.key?

/-- Whether there is a catch-all. -/
def closed (ps : List Pattern) : Bool := (armsOf ps).any fun arm => r.catchAll (r.keys arm.1) arm.2

/-- What is wrong with an arm: it is behind a catch-all, or names what was named before. -/
def armIssue? (arm : List Pattern × Pattern) : Option MatchIssue :=
  if r.closed arm.1 then some ⟨.unreachable, arm.2.range⟩
  else if r.duplicate (r.keys arm.1) arm.2 then some ⟨.duplicate, arm.2.range⟩
  else none

/-- What is wrong with a match. -/
def issues (ps : List Pattern) (range : Range) : List MatchIssue :=
  (armsOf ps).filterMap r.armIssue? ++ if r.closed ps || r.exhausted (r.keys ps) then []
    else [⟨.nonExhaustive, range⟩]

/-- Checks an arm. -/
def step (c : Coverage κ) (p : Pattern) : Coverage κ :=
  if c.catchAll then c.issue .unreachable p.range
  else if r.catchAll c.seen p then c.close
  else if r.duplicate c.seen p then c.issue .duplicate p.range
  else (r.key? p).elim c c.cover

/-- Checking the arms has found what the rules say. -/
structure Runs (ps : List Pattern) (c : Coverage κ) : Prop where
  catchAll : c.catchAll = r.closed ps
  seen : c.catchAll = false → ∀ k, k ∈ c.seen ↔ k ∈ r.keys ps
  nodup : c.seen.Nodup
  issues : c.issues = (armsOf ps).filterMap r.armIssue?

theorem closed_append : r.closed (ps ++ [p]) = (r.closed ps || r.catchAll (r.keys ps) p) := by
  rw [closed, armsOf_append, List.any_append, ← closed]
  simp

theorem keys_append : r.keys (ps ++ [p]) = r.keys ps ++ (r.key? p).toList := by
  rw [keys, List.filterMap_append, ← keys]
  cases h : r.key? p <;> simp [h]

theorem issues_append : (armsOf (ps ++ [p])).filterMap r.armIssue? =
    (armsOf ps).filterMap r.armIssue? ++ (r.armIssue? (ps, p)).toList := by
  rw [armsOf_append]
  cases h : r.armIssue? (ps, p) <;> simp [h]

variable {r}

theorem Runs.step (h : r.Runs ps c) : r.Runs (ps ++ [p]) (r.step c p) := by
  have hclosed := h.catchAll
  rw [ArmRules.step]
  cases hc : c.catchAll with
  | true =>
    rw [hc] at hclosed
    refine ⟨?_, fun hopen => absurd (hc.symm.trans hopen) nofun, h.nodup, ?_⟩
    · rw [r.closed_append, ← hclosed]
      exact hc
    · rw [r.issues_append, armIssue?, ← hclosed, ← h.issues]
      rfl
  | false =>
    have hseen := h.seen hc
    obtain ⟨hcatchAll, hduplicate⟩ := r.congr hseen
    rw [hc] at hclosed
    have hissue : r.armIssue? (ps, p) =
        if r.duplicate (r.keys ps) p then some ⟨.duplicate, p.range⟩ else none := by
      rw [armIssue?, ← hclosed]
      rfl
    rw [hcatchAll, hduplicate]
    cases hall : r.catchAll (r.keys ps) p with
    | true =>
      refine ⟨?_, nofun, h.nodup, ?_⟩
      · rw [r.closed_append, hall, Bool.or_true]
        rfl
      · rw [r.issues_append, hissue, r.apart hall, ← h.issues]
        exact (List.append_nil _).symm
    | false =>
      have hopen : false = r.closed (ps ++ [p]) := by
        rw [r.closed_append, hall, ← hclosed, Bool.or_false]
      cases hdup : r.duplicate (r.keys ps) p with
      | true =>
        refine ⟨hc.trans hopen, fun _ k => (hseen k).trans ?_, h.nodup, ?_⟩
        · rw [r.keys_append, List.mem_append, Option.mem_toList]
          exact ⟨.inl, fun hk => hk.elim id (r.known hdup k)⟩
        · rw [r.issues_append, hissue, hdup, ← h.issues]
          rfl
      | false =>
        have hissues : c.issues = (armsOf (ps ++ [p])).filterMap r.armIssue? := by
          rw [r.issues_append, hissue, hdup, ← h.issues]
          exact (List.append_nil _).symm
        have hfresh := r.fresh hall hdup
        cases hkey : r.key? p with
        | none =>
          refine ⟨hc.trans hopen, fun _ k => ?_, h.nodup, hissues⟩
          rw [r.keys_append, hkey, Option.toList_none, List.append_nil]
          exact hseen k
        | some key =>
          refine ⟨hc.trans hopen, fun _ k => ?_, ?_, hissues⟩
          · rw [r.keys_append, hkey, List.mem_append, ← hseen]
            exact List.mem_append
          · refine List.nodup_append.mpr ⟨h.nodup, List.pairwise_singleton _ key,
              fun a ha b hb hab => ?_⟩
            rw [List.mem_singleton.mp hb] at hab
            exact hfresh key hkey ((hseen key).mp (hab ▸ ha))

/-- A run through all arms finds what the rules say. -/
theorem runs (ps : List Pattern) : r.Runs ps (ps.foldl r.step .initial) := by
  induction ps using List.reverseRecOn with
  | nil => exact ⟨rfl, fun _ _ => Iff.rfl, .nil, rfl⟩
  | append_singleton ps p ih =>
    rw [List.foldl_append]
    exact ih.step

theorem Runs.conclude (h : r.Runs ps c) {covered : Bool} {range : Range}
    (hcovered : c.catchAll = false → covered = r.exhausted (r.keys ps)) :
    c.conclude (c.catchAll || covered) range = r.issues ps range := by
  rw [ArmRules.issues, ← h.catchAll, ← h.issues, Coverage.conclude]
  cases hc : c.catchAll with
  | true => exact (List.append_nil _).symm
  | false =>
    rw [Bool.false_or, Bool.false_or, hcovered hc]
    split
    · exact (List.append_nil _).symm
    · rfl

end ArmRules

/-! ## Sums and constants -/

theorem contains_congr {κ : Type} [BEq κ] [LawfulBEq κ] {l l' : List κ} (h : ∀ k, k ∈ l ↔ k ∈ l') :
    l.contains = l'.contains := by
  funext k
  rw [Bool.eq_iff_iff, List.contains_iff_mem, List.contains_iff_mem]
  exact h k

/-- The rules for a match on a sum. A bare name that is called like a variant is no catch-all,
unless the variant has been named before. -/
def sumRules (sum : SumDef) : ArmRules String where
  key? := Pattern.named?
  catchAll earlier p := (p.isIrrefutable && !p.isAmbiguous sum) || p.bareName?.any earlier.contains
  duplicate earlier p := p.bareName?.isNone && p.named?.any earlier.contains
  exhausted named := sum.variants.keys.all named.contains
  congr {l l'} h := by
    rw [contains_congr h]
    exact ⟨rfl, rfl⟩
  apart {l p} h := by
    obtain ⟨kind, ty, range⟩ := p
    cases kind with
    | variant name id payload bare =>
      cases id <;> cases bare <;> simp_all [Pattern.bareName?, Pattern.named?, Pattern.isIrrefutable]
    | _ => simp [Pattern.named?]
  known {l p} h := by
    intro k hk
    rw [Option.mem_def] at hk
    simpa [hk] using (Bool.and_eq_true_iff.mp h).2
  fresh {l p} h h' := by
    obtain ⟨kind, ty, range⟩ := p
    cases kind with
    | variant name id payload bare =>
      cases id <;> cases bare <;> simp_all [Pattern.bareName?, Pattern.named?]
    | _ => simp [Pattern.named?]

theorem sumArm_eq_step (sum : SumDef) (c : Coverage String) (p : Pattern) :
    sumArm sum c p = (sumRules sum).step c p := by
  obtain ⟨kind, ty, range⟩ := p
  rw [sumArm, ArmRules.step]
  cases kind with
  | variant name id payload bare =>
    cases id <;> cases bare <;>
      simp [sumRules, Pattern.bareName?, Pattern.named?, Pattern.isIrrefutable]
  | binding id name =>
    cases hname : sum.variants.contains name <;>
      simp [sumRules, Pattern.bareName?, Pattern.named?, Pattern.isIrrefutable, Pattern.isAmbiguous,
        hname]
  | tuple elems =>
    cases h : (⟨.tuple elems, ty, range⟩ : Pattern).isIrrefutable <;>
      simp [sumRules, Pattern.bareName?, Pattern.named?, Pattern.isAmbiguous, h]
  | _ => simp [sumRules, Pattern.bareName?, Pattern.named?, Pattern.isIrrefutable, Pattern.isAmbiguous]

/-- The check looks at how many variants are named, which is enough because it is variants of this
sum that are named. -/
theorem checkSum_eq_issues {sum : SumDef} {ps : List Pattern}
    (hnamed : ∀ p ∈ ps, ∀ name ∈ p.named?, name ∈ sum.variants.keys) (range : Range) :
    checkSum sum ps range = (sumRules sum).issues ps range := by
  have hruns := (sumRules sum).runs ps
  rw [checkSum, funext₂ (sumArm_eq_step sum)]
  refine hruns.conclude fun hopen => ?_
  have hseen := hruns.seen hopen
  have hlength : sum.variants.size = sum.variants.keys.length := (List.length_map _).symm
  rw [Bool.eq_iff_iff, decide_eq_true_eq, hlength]
  simp only [sumRules, List.all_eq_true, List.contains_iff_mem]
  constructor
  · intro hsize name hname
    have hvariants : (ps.foldl (sumRules sum).step .initial).seen ⊆ sum.variants.keys := by
      intro name hname
      obtain ⟨p, hp, hkey⟩ := List.mem_filterMap.mp ((hseen name).mp hname)
      exact hnamed p hp name hkey
    have hperm := (List.subperm_of_subset hruns.nodup hvariants).perm_of_length_le hsize
    exact (hseen name).mp (hperm.mem_iff.mpr hname)
  · intro hall
    exact (List.subperm_of_subset sum.variants.nodup fun name hname =>
      (hseen name).mpr (hall name hname)).length_le

/-- The rules for a match on constants. If the type is closed, its constants are the two truth
values. -/
def literalRules (isClosed : Bool) : ArmRules Literal where
  key? := Pattern.constant?
  catchAll _ p := p.isIrrefutable
  duplicate earlier p := p.constant?.any earlier.contains
  exhausted named := isClosed && (named.contains (.bool true) && named.contains (.bool false))
  congr {l l'} h := by
    rw [contains_congr h]
    exact ⟨rfl, rfl⟩
  apart {l p} h := by
    obtain ⟨kind, ty, range⟩ := p
    cases kind <;> simp_all [Pattern.constant?, Pattern.isIrrefutable]
  known {l p} h := by
    intro k hk
    rw [Option.mem_def] at hk
    simpa [hk] using h
  fresh {l p} _ h := by
    intro k hk
    rw [Option.mem_def] at hk
    simpa [hk] using h

theorem literalArm_eq_step (isClosed : Bool) (c : Coverage Literal) (p : Pattern) :
    literalArm c p = (literalRules isClosed).step c p := by
  obtain ⟨kind, ty, range⟩ := p
  rw [literalArm, ArmRules.step]
  cases kind with
  | tuple => rfl
  | _ => simp [literalRules, Pattern.constant?, Pattern.isIrrefutable]

theorem checkLiterals_eq_issues (isClosed : Bool) (ps : List Pattern) (range : Range) :
    checkLiterals isClosed ps range = (literalRules isClosed).issues ps range := by
  have hruns := (literalRules isClosed).runs ps
  rw [checkLiterals, funext₂ (literalArm_eq_step isClosed)]
  refine hruns.conclude fun hopen => ?_
  rw [contains_congr (hruns.seen hopen)]
  rfl

/-- What is wrong with a match on a value of type `target`. Nothing is said about poisoned values
and unknown sums. -/
def matchIssues (registry : Registry) (target : Ty) (ps : List Pattern) (range : Range) :
    List MatchIssue :=
  match target with
  | .error => []
  | .sum name _ => (registry.sum? name).elim [] fun sum => (sumRules sum).issues ps range
  | target => (literalRules (target == .bool)).issues ps range

end Bindery.Bound
