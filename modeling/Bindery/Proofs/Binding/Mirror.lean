import Bindery.Proofs.Binding.Poisoned
import Bindery.Proofs.Bound.Exact

/-!
# The rules of binding on poisoned parts

What a rule of binding makes of poisoned forms of the parts of a node is a poisoned form of the
node. One lemma for each rule says so for the second of two runs: it is about parts that the first
run has bound without a finding, and in which every type argument is settled.

The second run may expect other types than the first. All that a tree needs of an expected type is
that it *suits* what the first run has made of the tree.
-/

namespace Bindery

/-- The operators are defined on types without parts. -/
theorem BinaryOp.Takes.exists_prim {op : BinaryOp} {operand result : Ty}
    (h : op.Takes operand result) :
    ∃ p, operand = .prim p := by
  cases h with
  | arithmetic _ ht | comparison _ ht =>
    rcases ht with rfl | rfl
    · exact ⟨_, rfl⟩
    · exact ⟨_, rfl⟩
  | equality _ ht =>
    rcases ht with rfl | rfl | rfl | rfl
    all_goals exact ⟨_, rfl⟩
  | concatenation | logical => exact ⟨_, rfl⟩

theorem UnaryOp.Takes.exists_prim {op : UnaryOp} {operand result : Ty} (h : op.Takes operand result) :
    ∃ p, operand = .prim p := by
  cases h with
  | not => exact ⟨_, rfl⟩
  | sign _ ht =>
    rcases ht with rfl | rfl
    · exact ⟨_, rfl⟩
    · exact ⟨_, rfl⟩

namespace Binding

open Bindery.Bound

/-! ## Poisoned forms of nodes -/

/-- What the body of a function gives back by its value. Where it gives nothing in the first run, it
may be unknown as a whole in the second. -/
inductive CandidateBelow : Option (Ty × Range) → Option (Ty × Range) → Prop
  | none : CandidateBelow none none
  | poison (range : Range) : CandidateBelow none (some (.error, range))
  | some {ty ty' : Ty} {range range' : Range} (h : ty'.Below ty) :
    CandidateBelow (some (ty, range)) (some (ty', range'))

/-- The second expression is a poisoned form of the first. -/
structure ExprBelow (n n' : Expr) : Prop where
  ty : n'.ty.Below n.ty
  diverges : n'.diverges = n.diverges
  candidate : CandidateBelow (bodyCandidate n) (bodyCandidate n')
  fnRef : isFnRef n = false → isFnRef n' = false

/-- The second block is a poisoned form of the first. -/
structure BlockBelow (b b' : Block) : Prop where
  ty : b'.ty.Below b.ty
  diverges : b'.diverges = b.diverges
  candidate : CandidateBelow (blockCandidate b) (blockCandidate b')

/-- The second statement is a poisoned form of the first. Of a statement that is no expression only
matters whether it diverges. -/
inductive StmtBelow : Stmt → Stmt → Prop
  | expr {n n' : Expr} {range range' : Range} (h : ExprBelow n n') :
    StmtBelow ⟨.expr n, range⟩ ⟨.expr n', range'⟩
  | other {st st' : Stmt} (h : ∀ n, st.kind ≠ .expr n) (h' : ∀ n, st'.kind ≠ .expr n)
    (hdiverges : st'.diverges = st.diverges) : StmtBelow st st'

/-- The types of poisoned forms are poisoned forms of the types. -/
theorem belowAll_map_ty {bs bs' : List Expr} (h : List.Forall₂ ExprBelow bs bs') :
    Ty.BelowAll (bs'.map Expr.ty) (bs.map Expr.ty) := by
  induction h with
  | nil => exact .nil
  | cons h _ ih => exact .cons h.ty ih

theorem diverges_of_stmtBelow {st st' : Stmt} (h : StmtBelow st st') : st'.diverges = st.diverges := by
  cases h with
  | expr h => exact h.diverges
  | other _ _ hdiverges => exact hdiverges

/-- The last statements of poisoned forms. -/
theorem lastExpr?_of_forall₂ {ss ss' : List Stmt} (h : List.Forall₂ StmtBelow ss ss') :
    Option.Rel ExprBelow (Block.lastExpr? ss) (Block.lastExpr? ss') := by
  unfold Block.lastExpr?
  rw [List.getLast?_eq_head?_reverse, List.getLast?_eq_head?_reverse]
  have hreverse := List.rel_reverse h
  generalize ss.reverse = us at hreverse
  generalize ss'.reverse = us' at hreverse
  cases hreverse with
  | nil => exact .none
  | @cons st st' _ _ hlast _ =>
    cases hlast with
    | expr h => exact .some h
    | other hother hother' _ =>
      obtain ⟨kind, range⟩ := st
      obtain ⟨kind', range'⟩ := st'
      cases kind with
      | expr n => exact absurd rfl (hother n)
      | _ =>
        cases kind' with
        | expr n => exact absurd rfl (hother' n)
        | _ => exact .none

/-- A block of poisoned forms is a poisoned form of the block. -/
theorem BlockBelow.ofStatements {ss ss' : List Stmt} (h : List.Forall₂ StmtBelow ss ss')
    (range range' : Range) :
    BlockBelow (.ofStatements ss range) (.ofStatements ss' range') := by
  have hlast := lastExpr?_of_forall₂ h
  refine ⟨?_, ?_, ?_⟩
  · show (((Block.lastExpr? ss').map Expr.ty).getD .unit).Below
      (((Block.lastExpr? ss).map Expr.ty).getD .unit)
    generalize Block.lastExpr? ss = last at hlast
    generalize Block.lastExpr? ss' = last' at hlast
    cases hlast with
    | none => exact Ty.below_refl _
    | some h => exact h.ty
  · show ss'.any Stmt.diverges = ss.any Stmt.diverges
    clear hlast
    induction h with
    | nil => rfl
    | cons h _ ih => rw [List.any_cons, List.any_cons, diverges_of_stmtBelow h, ih]
  · unfold blockCandidate
    simp only [Block.value?, Block.ofStatements]
    generalize Block.lastExpr? ss = last at hlast
    generalize Block.lastExpr? ss' = last' at hlast
    cases hlast with
    | none => exact .none
    | @some n n' h =>
      simp only [h.diverges]
      split
      · exact .none
      · exact .some h.ty

/-! ## Expected types -/

/-- The expected type of the second run agrees with what the first run has made of the expression.
Nothing is ever expected to be of type `Unit` only because that is expected, and neither blocks nor
what diverges look at the expected type. -/
def Suits (expected : Option Ty) (n : Expr) : Prop :=
  ∀ ty, expected = some ty → ty = .unit ∨ ty.Below n.ty ∨ n.diverges = true ∨ ∃ b, n.kind = .block b

theorem suits_none (n : Expr) : Suits none n := by
  intro ty h
  cases h

theorem suits_of_below {ty : Ty} {n : Expr} (h : ty.Below n.ty) : Suits (some ty) n := by
  intro _ heq
  cases heq
  exact .inr (.inl h)

/-- The element type that is expected of a collection. -/
theorem suits_elementHint {c : Container} {expected : Option Ty} {element : Ty} {n : Expr}
    (h : Suits expected n)
    (hty : n.ty = .container c element) (hdiverges : n.diverges = false)
    (hblock : ∀ b, n.kind ≠ .block b) :
    elementHint c expected = none ∨ ∃ a, elementHint c expected = some a ∧ a.Below element := by
  cases expected with
  | none => exact .inl rfl
  | some ty =>
    rcases h ty rfl with rfl | hbelow | hdiv | ⟨b, hb⟩
    · exact .inl rfl
    · rw [hty] at hbelow
      cases hbelow with
      | error => exact .inl rfl
      | container _ ha => exact .inr ⟨_, if_pos rfl, ha⟩
    · rw [hdiverges] at hdiv
      cases hdiv
    · exact absurd hb (hblock b)

/-! ## Operators and conditions -/

section

variable {w : Setting} {Γ : Symbols} {s' t : State} {range : Range}
  {element : Ty} {c c' : Option (Ty × Range)} {f f' : FnFrame} {s : State}

theorem repeats_binaryExpr {op : BinaryOp} {left right left' right' : Expr} {ty : Ty}
    (hleft : left'.ty.Below left.ty)
    (hright : right'.ty.Below right.ty) (h : op.resultTy? left.ty right.ty = some ty)
    (range : Range) (s' : State) :
    ∃ ty', ty'.Below ty ∧ Repeats (binaryExpr op left' right' range) s' ⟨.binary op left' right',
      ty', range⟩ := by
  obtain ⟨htakes, hsame⟩ := BinaryOp.takes_of_resultTy? h
  obtain ⟨p, hp⟩ := htakes.exists_prim
  rw [hsame, hp] at hright
  rw [hp] at hleft
  rw [hsame, hp] at h
  unfold binaryExpr
  rcases hleft.eq_error_or_prim with hl | hl
  · refine ⟨.error, .error _, ?_⟩
    simp only [hl, Ty.isError, Bool.true_or, if_true]
    exact .pure _ s'
  · rcases hright.eq_error_or_prim with hr | hr
    · refine ⟨.error, .error _, ?_⟩
      simp only [hr, Ty.isError, Bool.or_true, if_true]
      exact .pure _ s'
    · refine ⟨ty, Ty.below_refl ty, ?_⟩
      simp only [hl, hr, Ty.isError, Bool.or_self, Bool.false_eq_true, if_false, h]
      exact .pure _ s'

theorem repeats_unaryExpr {op : UnaryOp} {operand operand' : Expr} {ty : Ty}
    (hoperand : operand'.ty.Below operand.ty)
    (h : op.resultTy? operand.ty = some ty) (range : Range) (s' : State) :
    ∃ ty', ty'.Below ty ∧ Repeats (unaryExpr op operand' range) s' ⟨.unary op operand', ty',
      range⟩ := by
  obtain ⟨p, hp⟩ := (UnaryOp.takes_of_resultTy? h).exists_prim
  rw [hp] at hoperand h
  unfold unaryExpr
  rcases hoperand.eq_error_or_prim with ho | ho
  · refine ⟨.error, .error _, ?_⟩
    simp only [ho, Ty.isError, if_true]
    exact .pure _ s'
  · refine ⟨ty, Ty.below_refl ty, ?_⟩
    simp only [ho, Ty.isError, Bool.false_eq_true, if_false, h]
    exact .pure _ s'

theorem repeats_checkCondition {n : Expr} (h : n.ty.Below .bool) (s' : State) :
    Repeats (checkCondition n) s' () := by
  apply Repeats.reportUnless
  rcases h.eq_error_or_prim with hty | hty
  · simp [hty, Ty.isError]
  · simp [hty]

theorem repeats_checkKey {n : Expr} (h : n.ty.Below .string) (s' : State) :
    Repeats (checkKey n) s' () := by
  apply Repeats.reportUnless
  rcases h.eq_error_or_prim with hty | hty
  · simp [hty, Ty.isError]
  · simp [hty]

/-! ## Fields and elements -/

theorem repeats_fieldExpr {registry : Registry} {target' : Expr} {name : Ast.Name} {record : String}
    {args : List Ty}
    {symbol : SymId} {ty : Ty} (h : target'.ty.Below (.record record args))
    (hfield : fieldOf? registry record name.text args = some (symbol, ty)) (range : Range)
    (hregistry : s'.registry = registry) :
    ∃ ty' field, ty'.Below ty ∧ Repeats (fieldExpr target' name range) s'
      ⟨.field target' field, ty', range⟩ := by
  unfold fieldExpr
  generalize hty : target'.ty = t at h
  cases h with
  | error => exact ⟨.error, none, .error _, .pure _ s'⟩
  | @nominal _ _ args' _ hargs =>
    obtain ⟨d, f, hd, hf, -, rfl⟩ := fieldOf?_eq_some_iff.mp hfield
    have hfield' : fieldOf? s'.registry record name.text args' =
        some (f.symbol, f.ty.subst (.ofArguments d.tyParams args')) :=
      fieldOf?_eq_some_iff.mpr ⟨d, f, hregistry ▸ hd, hf, rfl, rfl⟩
    refine ⟨f.ty.subst (.ofArguments d.tyParams args'), some f.symbol, ?_, (Repeats.get s').seq ?_⟩
    · exact (Ty.below_refl f.ty).subst fun n _ => Subst.below_ofArguments hargs n
    · rw [hfield']
      exact .pure _ s'

theorem repeats_indexExpr {target index target' index' : Expr} {ty : Ty}
    (htarget : target'.ty.Below target.ty)
    (hindex : index'.ty.Below index.ty) (h : indexedTy? target.ty index.ty = some ty)
    (range : Range) (s' : State) :
    ∃ ty', ty'.Below ty ∧ Repeats (indexExpr target' index' range) s' ⟨.index target' index', ty',
      range⟩ := by
  have hcases : ∃ c p, target.ty = .container c ty ∧ index.ty = .prim p ∧
      ∀ a, indexedTy? (.container c a) (.prim p) = some a := by
    unfold indexedTy? at h
    split at h
    · next htarget hindex =>
      cases h
      exact ⟨.list, .int, htarget, hindex, fun _ => rfl⟩
    · next htarget hindex =>
      cases h
      exact ⟨.map, .string, htarget, hindex, fun _ => rfl⟩
    · cases h
  obtain ⟨c, p, hc, hp, hresult⟩ := hcases
  rw [hc] at htarget
  rw [hp] at hindex
  unfold indexExpr
  generalize htarget' : target'.ty = a at htarget
  cases htarget with
  | error =>
    refine ⟨.error, .error _, ?_⟩
    exact .pure _ s'
  | container _ hty =>
    rcases hindex.eq_error_or_prim with hi | hi
    · refine ⟨.error, .error _, ?_⟩
      simp only [hi, Ty.isError, Bool.or_true, if_true]
      exact .pure _ s'
    · refine ⟨_, hty, ?_⟩
      simp only [hi, Ty.isError, Bool.or_self, Bool.false_eq_true, if_false, hresult]
      exact .pure _ s'

theorem repeats_itemTy {iterable iterable' : Expr} {ty : Ty} (h : iterable'.ty.Below iterable.ty)
    (hty : iteratedTy? iterable.ty = some ty) (s' : State) :
    ∃ ty', ty'.Below ty ∧ Repeats (itemTy iterable') s' ty' := by
  have hiterated : ∃ ty', ty'.Below ty ∧ iteratedTy? iterable'.ty = some ty' := by
    unfold iteratedTy? at hty
    generalize iterable'.ty = a at h
    split at hty
    · next heq =>
      cases hty
      rw [heq] at h
      cases h with
      | error => exact ⟨.error, .error _, rfl⟩
      | container _ helement => exact ⟨_, helement, rfl⟩
    · next heq =>
      cases hty
      rw [heq] at h
      cases h with
      | error => exact ⟨.error, .error _, rfl⟩
      | container _ hvalue => exact ⟨_, .tuple (.cons (.prim _) (.cons hvalue .nil)), rfl⟩
    · next heq =>
      cases hty
      rw [heq] at h
      cases h
      exact ⟨.error, .error _, rfl⟩
    · cases hty
  obtain ⟨ty', hbelow, heq⟩ := hiterated
  refine ⟨ty', hbelow, ?_⟩
  unfold itemTy
  rw [heq]
  exact .pure _ s'

/-! ## Collections -/

theorem repeats_checkElements {es : List Expr} (h : ∀ e ∈ es, element.accepts e.ty = true)
    (s' : State) :
    Repeats (checkElements element es) s' () := by
  induction es with
  | nil => exact .pure () s'
  | cons e es ih =>
    obtain ⟨hfirst, hrest⟩ := List.forall_mem_cons.mp h
    exact (Repeats.reportUnless hfirst _ _ s').seq (ih hrest)

/-- The element type of a collection of poisoned forms. -/
theorem repeats_settleElements {hint : Option Ty} {tys : List Ty} {es' : List Expr}
    (hint_below : hint = none ∨ ∃ a, hint = some a ∧ a.Below element) (hall : ∀ ty ∈ tys, ty = element)
    (h : Ty.BelowAll (es'.map Expr.ty) tys) (s' : State) :
    ∃ element', element'.Below element ∧ Repeats (settleElements hint es') s' element' := by
  have hbelow : ∀ ty ∈ es'.map Expr.ty, ty.Below element := by
    generalize es'.map Expr.ty = tys' at h
    clear hint_below
    induction tys' generalizing tys with
    | nil => simp
    | cons ty tys' ih =>
      cases h with
      | cons hfirst hrest =>
        obtain ⟨rfl, hall⟩ := List.forall_mem_cons.mp hall
        exact List.forall_mem_cons.mpr ⟨hfirst, ih hall hrest⟩
  have hsettle : ∀ element' : Ty, element'.Below element → Repeats (checkElements element' es') s'
    () := by
    intro element' helement'
    apply repeats_checkElements
    intro e he
    exact helement'.compatible (hbelow e.ty (List.mem_map_of_mem he)) false
  rcases hint_below with rfl | ⟨a, rfl, ha⟩
  · have hfound : (((es'.map Expr.ty).find? fun ty => !ty.isError).getD .error).Below element := by
      cases hfind : (es'.map Expr.ty).find? fun ty => !ty.isError with
      | none => exact .error _
      | some ty => exact hbelow ty (List.mem_of_find?_eq_some hfind)
    exact ⟨_, hfound, (hsettle _ hfound).seq (.pure _ s')⟩
  · exact ⟨a, ha, (hsettle a ha).seq (.pure _ s')⟩

/-- A collection without elements whose element type has become unknown may be reported. -/
theorem ends_emptyCollectionTy {c : Container} {hint : Option Ty} {collection : String}
    (h : Poisoned w t s') (hint_below : hint = none ∨ ∃ a, hint = some a ∧ a.Below element)
    (hallowed : w.allowed ⟨range, .emptyLiteral collection⟩) :
    Ends w [] (emptyCollectionTy c hint collection range) s' t fun ty' =>
      ty'.Below (.container c element) := by
  rcases hint_below with rfl | ⟨a, rfl, ha⟩
  · exact (Ends.report h rfl hallowed).andThen fun _ _ h _ => .pure h (.error _)
  · exact .pure h (.container c ha)

/-! ## Branches -/

theorem repeats_branchTy {b b' : Block} {e e' : Expr} {ty : Ty} (hb : BlockBelow b b')
    (he : ExprBelow e e')
    (hbsound : b.ty.hasPoison = false) (hesound : e.ty.hasPoison = false)
    (hq : Quiet Γ (branchTy b e range) s ty t)
    (s' : State) : ∃ ty', ty'.Below ty ∧ Repeats (branchTy b' e' range) s' ty' := by
  obtain ⟨-, hbranch⟩ := hq.branchTy
  obtain ⟨hdiverging, hstaying⟩ :=
    hbranch (Ty.ne_error_of_hasPoison hbsound) (Ty.ne_error_of_hasPoison hesound)
  unfold branchTy
  rw [hb.diverges, he.diverges]
  cases hbd : b.diverges with
  | true =>
    rw [hdiverging hbd]
    exact ⟨e'.ty, he.ty, .pure _ s'⟩
  | false =>
    obtain ⟨rfl, haccepts⟩ := hstaying hbd
    by_cases helse : (e.diverges || e'.ty.isError) = true
    · rw [if_pos helse]
      exact ⟨b'.ty, hb.ty, .pure _ s'⟩
    · rw [if_neg helse]
      have hed : e.diverges = false := by
        rw [Bool.not_eq_true, Bool.or_eq_false_iff] at helse
        exact helse.1
      have heq : b.ty = e.ty := Ty.eq_of_compatible hbsound hesound (by simp) (haccepts hed)
      by_cases hthen : b'.ty.isError = true
      · rw [if_pos hthen, heq]
        exact ⟨e'.ty, he.ty, .pure _ s'⟩
      · have hfits : b'.ty.accepts e'.ty = true := hb.ty.compatible (heq ▸ he.ty) false
        rw [if_neg hthen, if_pos hfits]
        exact ⟨b'.ty, hb.ty, .pure _ s'⟩

/-- What the arms have agreed on in both runs. -/
structure ArmsBelow (a a' : ArmTypes) : Prop where
  poisoned : a.poisoned = false
  mismatched : a.mismatched = false
  sound : ∀ ty, a.result = some ty → ty.hasPoison = false
  mismatched' : a'.mismatched = false
  result : ∀ ty', a'.result = some ty' → ∃ ty, a.result = some ty ∧ ty'.Below ty
  unknown : a'.result = none → a'.poisoned = false → a.result = none

namespace ArmsBelow

variable {a a' : ArmTypes}

theorem initial : ArmsBelow .initial .initial where
  poisoned := rfl
  mismatched := rfl
  sound := by simp [ArmTypes.initial]
  mismatched' := rfl
  result := by simp [ArmTypes.initial]
  unknown _ _ := rfl

/-- The type of the match. -/
theorem ty_eq (h : ArmsBelow a a') : a.ty = a.result.getD .unit := by
  simp only [ArmTypes.ty, h.mismatched, h.poisoned]
  cases a.result <;> rfl

theorem ty (h : ArmsBelow a a') : a'.ty.Below a.ty := by
  rw [h.ty_eq]
  simp only [ArmTypes.ty, h.mismatched', Bool.false_eq_true, if_false]
  cases hresult : a'.result with
  | some ty' =>
    obtain ⟨ty, hty, hbelow⟩ := h.result ty' hresult
    rw [hty]
    exact hbelow
  | none =>
    cases hpoisoned : a'.poisoned with
    | true => exact .error _
    | false =>
      rw [h.unknown hresult hpoisoned]
      exact Ty.below_refl _

/-- One more arm. A quiet arm has the type that was agreed on, or settles it. -/
theorem noteArm {b b' : Expr} {a₁ : ArmTypes} (h : ArmsBelow a a') (hb : ExprBelow b b')
    (hsound : b.ty.hasPoison = false) (hq : Quiet Γ (noteArm a b) s a₁ t) (s' : State) :
    (∀ ty, a.result = some ty → a₁.result = some ty) ∧ (b.diverges = false → a₁.result = some b.ty) ∧
      ∃ a₁', ArmsBelow a₁ a₁' ∧ Repeats (Binding.noteArm a' b') s' a₁' := by
  have hclean : (b.diverges = true ∧ a₁ = a) ∨
      (b.diverges = false ∧ a₁ = { a with result := some b.ty } ∧ ∀ ty, a.result = some ty →
      ty = b.ty) := by
    rcases hq.noteArm.2 (Ty.ne_error_of_hasPoison hsound) with ⟨hd, rfl⟩ | ⟨hd, hnone, rfl⟩ | ⟨hd,
      rfl, first, hfirst, haccepts⟩
    · exact .inl ⟨hd, rfl⟩
    · exact .inr ⟨hd, rfl, by simp [hnone]⟩
    · have heq : first = b.ty := Ty.eq_of_compatible (h.sound first hfirst) hsound (by simp) haccepts
      subst heq
      obtain ⟨result, poisoned, mismatched⟩ := a₁
      cases hfirst
      exact .inr ⟨hd, rfl, by simp⟩
  unfold Binding.noteArm
  rcases hclean with ⟨hd, rfl⟩ | ⟨hd, rfl, hagreed⟩
  · refine ⟨fun _ h => h, by simp [hd], ?_⟩
    rw [hb.diverges, hd]
    by_cases herror : b'.ty.isError = true
    · rw [if_pos herror]
      refine ⟨{ a' with poisoned := true },
        ⟨h.poisoned, h.mismatched, h.sound, h.mismatched', h.result, ?_⟩, .pure _ s'⟩
      intro _ hpoisoned
      cases hpoisoned
    · rw [if_neg herror, if_pos rfl]
      exact ⟨a', h, .pure _ s'⟩
  · refine ⟨fun ty hty => by rw [hagreed ty hty], fun _ => rfl, ?_⟩
    have hresult : ∀ ty', a'.result = some ty' → ty'.Below b.ty := by
      intro ty' hty'
      obtain ⟨ty, hty, hbelow⟩ := h.result ty' hty'
      rwa [hagreed ty hty] at hbelow
    have hsound' : ∀ ty, (some b.ty : Option Ty) = some ty → ty.hasPoison = false := by
      rintro ty ⟨⟩
      exact hsound
    rw [hb.diverges, hd]
    by_cases herror : b'.ty.isError = true
    · rw [if_pos herror]
      refine ⟨{ a' with poisoned := true },
        ⟨h.poisoned, h.mismatched, hsound', h.mismatched', fun ty' hty' =>
        ⟨b.ty, rfl, hresult ty' hty'⟩, ?_⟩, .pure _ s'⟩
      intro _ hpoisoned
      cases hpoisoned
    · rw [if_neg herror, if_neg Bool.false_ne_true]
      cases hagreed' : a'.result with
      | none =>
        refine ⟨{ a' with result := some b'.ty },
          ⟨h.poisoned, h.mismatched, hsound', h.mismatched', ?_, by simp⟩, .pure _ s'⟩
        rintro ty' ⟨⟩
        exact ⟨b.ty, rfl, hb.ty⟩
      | some first' =>
        have hfits : first'.accepts b'.ty = true := (hresult first' hagreed').compatible hb.ty false
        simp only [hfits, if_true]
        refine ⟨_, ⟨h.poisoned, h.mismatched, hsound', h.mismatched', fun ty' hty' =>
          ⟨b.ty, rfl, hresult ty' hty'⟩, ?_⟩,
          .pure _ s'⟩
        simp [hagreed']

end ArmsBelow

/-! ## Return types -/

/-- What may be returned in the second run is poison or a poisoned form of what may be returned in
the first. -/
theorem below_of_mem_candidates (hf : SameFrame f f') (hc : CandidateBelow c c') {r' : Ty × Range}
    (hr' : r' ∈ f'.returns ++ c'.toList) :
    r'.1 = .error ∨ ∃ r ∈ f.returns ++ c.toList, r'.1.Below r.1 := by
  rcases List.mem_append.mp hr' with hreturned | hvalue
  · right
    have hreturns := hf.returns
    generalize f.returns = rs at hreturns ⊢
    generalize f'.returns = rs' at hreturns hreturned
    clear hr'
    induction hreturns with
    | nil => cases hreturned
    | cons hfirst _ ih =>
      rcases List.mem_cons.mp hreturned with rfl | hrest
      · exact ⟨_, List.mem_cons_self, hfirst.1⟩
      · exact List.exists_mem_cons_of_exists (ih hrest)
  · cases hc with
    | none => cases hvalue
    | poison range =>
      left
      obtain rfl := List.mem_singleton.mp hvalue
      rfl
    | some hbelow =>
      right
      obtain rfl := List.mem_singleton.mp hvalue
      exact ⟨_, List.mem_append_right _ (List.mem_singleton.mpr rfl), hbelow⟩

theorem repeats_checkReturns {fn : String} {declared : Ty} {returns : List (Ty × Range)}
    (h : ∀ r ∈ returns, declared.accepts r.1 = true) (s' : State) :
    Repeats (checkReturns fn declared returns) s' () := by
  induction returns with
  | nil => exact .pure () s'
  | cons r returns ih =>
    obtain ⟨hfirst, hrest⟩ := List.forall_mem_cons.mp h
    exact (Repeats.reportUnless hfirst _ _ s').seq (ih hrest)

/-- A function whose return type is written. -/
theorem repeats_settleReturn {declared ret : Ty}
    (hf : SameFrame f f') (hc : CandidateBelow c c') (hdeclared : f.declared = some declared)
    (hq : Quiet Γ (settleReturn f c) s ret t) (s' : State) : Repeats (settleReturn f' c') s' ret := by
  obtain ⟨-, rfl, hreturns, hvalue⟩ := hq.settleReturn_of_declared hdeclared
  unfold settleReturn
  rw [hf.declared, hdeclared]
  have hany : ∀ (fs : List (Ty × Range)) (fs' : List (Ty × Range)),
    (∀ r ∈ fs, ret.accepts r.1 = true) →
      (∀ r' ∈ fs', r'.1 = .error ∨ ∃ r ∈ fs, r'.1.Below r.1) → ∀ r' ∈ fs', ret.accepts r'.1 =
        true := by
    intro fs fs' hfs hbelow r' hr'
    rcases hbelow r' hr' with herror | ⟨r, hr, hle⟩
    · rw [herror]
      exact Ty.compatible_mono (Ty.compatible_self false ret) (Ty.below_refl _) (.error _)
    · exact Ty.compatible_mono (hfs r hr) (Ty.below_refl _) hle
  refine (repeats_checkReturns ?_ s').seq (.pure _ s')
  split
  · refine hany f.returns _ hreturns fun r' hr' => ?_
    have hmem := @below_of_mem_candidates none none f f' hf .none r'
    simpa using hmem (by simpa using hr')
  · next hne =>
    refine hany (f.returns ++ c.toList) _ ?_ fun r' hr' => below_of_mem_candidates hf hc hr'
    intro r hr
    rcases List.mem_append.mp hr with hr | hr
    · exact hreturns r hr
    · exact hvalue hne r (by simpa using hr)

/-- A function whose return type is inferred. Its results may disagree in the second run, if there
is a `return` among them. -/
theorem ends_settleReturn {ret : Ty} {u : State} (h : Poisoned w t s') (hf : SameFrame f f')
    (hc : CandidateBelow c c')
    (hvalue : ∀ r, c = some r → r.1.hasPoison = false) (hdeclared : f.declared = none)
    (hallowed : f.returns ≠ [] → w.allowed ⟨f.range, .inconsistentReturns f.name⟩)
    (hq : Quiet Γ (settleReturn f c) s ret u) :
    Ends w [] (settleReturn f' c') s' t fun ret' => ret'.Below ret := by
  have hsound : ∀ r ∈ f.returns ++ c.toList, r.1 ≠ .error := by
    intro r hr
    apply Ty.ne_error_of_hasPoison
    rcases List.mem_append.mp hr with hr | hr
    · exact hf.sound r hr
    · exact hvalue r (by simpa using hr)
  obtain ⟨-, hall, hnone⟩ := hq.settleReturn_of_inferred hdeclared hsound
  have hlength : f.returns.length = f'.returns.length := hf.returns.length_eq
  have hbelow : ∀ ty' ∈ (f'.returns ++ c'.toList).map Prod.fst, ty' = .error ∨ ty'.Below ret := by
    intro ty' hty'
    obtain ⟨r', hr', rfl⟩ := List.mem_map.mp hty'
    refine (below_of_mem_candidates hf hc hr').imp_right ?_
    rintro ⟨r, hr, hle⟩
    rwa [hall r hr] at hle
  unfold settleReturn
  rw [hf.declared, hdeclared, hf.range, hf.name]
  by_cases hempty : ((f'.returns ++ c'.toList).map Prod.fst).isEmpty = true
  · rw [if_pos hempty]
    refine .pure h ?_
    rw [hnone ?_]
    · exact Ty.below_refl _
    · obtain ⟨hnil', hvalue'⟩ : f'.returns = [] ∧ c'.toList = [] := by simpa using hempty
      have hnil : f.returns = [] := List.eq_nil_of_length_eq_zero (by rw [hlength, hnil']; rfl)
      rw [hnil, List.nil_append]
      cases hc with
      | none => rfl
      | poison => cases hvalue'
      | some => cases hvalue'
  · rw [if_neg hempty]
    cases hfilter : ((f'.returns ++ c'.toList).map Prod.fst).filter fun ty => !ty.isError with
    | nil => exact .pure h (.error _)
    | cons first rest =>
      dsimp only
      have hfirst : first.Below ret := by
        have hmem : first ∈ ((f'.returns ++ c'.toList).map Prod.fst).filter fun ty => !ty.isError := by
          rw [hfilter]
          exact List.mem_cons_self
        obtain ⟨hmem, hne⟩ := List.mem_filter.mp hmem
        rcases hbelow first hmem with rfl | hle
        · simp [Ty.isError] at hne
        · exact hle
      split
      · exact .pure h hfirst
      · next hdisagree =>
        refine (Ends.report h rfl (hallowed fun hnil => hdisagree ?_)).andThen fun _ _ h _ =>
          .pure h (.error _)
        -- Without a `return` there is only one candidate.
        have hnil' : f'.returns = [] := List.eq_nil_of_length_eq_zero (by rw [← hlength, hnil]; rfl)
        have hle := List.length_filter_le (fun ty : Ty => !ty.isError)
          ((f'.returns ++ c'.toList).map Prod.fst)
        have hone : c'.toList.length ≤ 1 := by cases c' <;> simp
        rw [hfilter, hnil', List.nil_append, List.length_map, List.length_cons] at hle
        have hrest : rest = [] := List.eq_nil_of_length_eq_zero (by omega)
        rw [hrest]
        rfl

end

end Binding

end Bindery
