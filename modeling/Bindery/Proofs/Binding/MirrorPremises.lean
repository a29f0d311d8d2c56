import Bindery.Proofs.Binding.MirrorNodes

/-!
# What is asked of a tree with unknown parts

A tree that is bound quietly is bound once more with some of its parts replaced by names that stand
for nothing. `Premises` collects what is asked of the two trees at some place. It is inherited by
the parts. At an unknown name the second run goes on as if the part that the name replaces had been
bound.
-/

namespace Bindery.Binding

open Bindery.Bound
open Ast (Unknown Avoids)

variable {Γ : Symbols} {w : Setting} {s s' t u : State} {xs ys : List Unknown}

/-! ## What is asked of a tree -/

variable {expected expected' : Option Ty} {e : Ast.Expr} {b : Expr} {source : List Ast.Node}
    {bound : Bool → List Node}

/-- What is asked of a tree where binding stands in `s`: of the names that are put in, of the nodes
of the tree with these names, and of the nodes that the first run makes. -/
structure Premises (Γ : Symbols) (w : Setting) (xs : List Unknown) (source : List Ast.Node)
    (bound : Bool → List Node) (s : State) : Prop where
  /-- The names stand for no variable. -/
  lacks : ∀ x ∈ xs, s.scopes.lookup .var s.current x.name.text = none
  /-- They stand for no function or variant. -/
  unknown : ∀ x ∈ xs, w.fn? x.name.text = none ∧ w.registry.variant? x.name.text = none ∧
    w.bare x.name.text = false
  allowed : ∀ f ∈ Ast.followUps w.bare source, w.allowed f
  tame : ∀ n ∈ source, n.isTame w.bare = true
  exact : ∀ n ∈ bound true, n.isExact Γ = true
  /-- What is returned to the innermost function has the type that is written there. -/
  returned : ∀ r ∈ returnedBy (bound false), ∀ ty, w.declared = some ty → ty.Below r.1

namespace Premises

variable {source source' : List Ast.Node} {bound bound' : Bool → List Node} {own : List String}

/-- What is asked of a tree is asked of its parts. -/
theorem mono (h : Premises Γ w xs source bound s) (hxs : ys ⊆ xs) (hsource : source' ⊆ source)
    (hbound : ∀ deep, bound' deep ⊆ bound deep) : Premises Γ w ys source' bound' s where
  lacks x hx := h.lacks x (hxs hx)
  unknown x hx := h.unknown x (hxs hx)
  allowed f hf := by
    obtain ⟨n, hn, hf⟩ := List.mem_flatMap.mp hf
    exact h.allowed f (List.mem_flatMap_of_mem (hsource hn) hf)
  tame n hn := h.tame n (hsource hn)
  exact n hn := h.exact n (hbound true hn)
  returned r hr := by
    obtain ⟨n, hn, hr⟩ := List.mem_flatMap.mp hr
    exact h.returned r (List.mem_flatMap_of_mem (hbound false hn) hr)

theorem left
    (h : Premises Γ w (xs ++ ys) (source ++ source') (fun deep => bound deep ++ bound' deep) s) :
    Premises Γ w xs source bound s :=
  h.mono (List.subset_append_left _ _) (List.subset_append_left _ _) fun _ =>
    List.subset_append_left _ _

theorem right
    (h : Premises Γ w (xs ++ ys) (source ++ source') (fun deep => bound deep ++ bound' deep) s) :
    Premises Γ w ys source' bound' s :=
  h.mono (List.subset_append_right _ _) (List.subset_append_right _ _) fun _ =>
    List.subset_append_right _ _

theorem bound_left (h : Premises Γ w xs source (fun deep => bound deep ++ bound' deep) s) :
    Premises Γ w xs source bound s :=
  h.mono (List.Subset.refl _) (List.Subset.refl _) fun _ => List.subset_append_left _ _

theorem bound_right (h : Premises Γ w xs source (fun deep => bound deep ++ bound' deep) s) :
    Premises Γ w xs source bound' s :=
  h.mono (List.Subset.refl _) (List.Subset.refl _) fun _ => List.subset_append_right _ _

theorem assoc {source'' : List Ast.Node} {bound'' : Bool → List Node}
    (h : Premises Γ w xs (source ++ source' ++ source'') (fun deep => bound deep ++ bound' deep ++
      bound'' deep) s) :
    Premises Γ w xs (source ++ (source' ++ source''))
      (fun deep => bound deep ++ (bound' deep ++ bound'' deep)) s := by
  simpa only [List.append_assoc] using h

/-- After other nodes of the source. -/
theorem source_right (h : Premises Γ w xs (source ++ source') bound s) :
    Premises Γ w xs source' bound s :=
  h.mono (List.Subset.refl _) (List.subset_append_right _ _) fun _ => List.Subset.refl _

variable {n : Ast.Node}

/-- Below a node of the source. -/
theorem source_tail (h : Premises Γ w xs (n :: source) bound s) : Premises Γ w xs source bound s :=
  h.mono (List.Subset.refl _) (List.subset_cons_self _ _) fun _ => List.Subset.refl _

/-- Below a node that the first run makes. -/
theorem bound_tail {n : Node} (h : Premises Γ w xs source (fun deep => n :: bound deep) s) :
    Premises Γ w xs source bound s :=
  h.mono (List.Subset.refl _) (List.Subset.refl _) fun _ => List.subset_cons_self _ _

/-- The parts of a node. -/
theorem below {m : Node} (h : Premises Γ w xs (n :: source) (fun deep => m :: bound deep) s) :
    Premises Γ w xs source bound s := h.source_tail.bound_tail

/-- What may be found at a node. -/
theorem allowed_head (h : Premises Γ w xs (n :: source) bound s) :
    ∀ f ∈ n.followUps w.bare, w.allowed f :=
  fun f hf => h.allowed f (by
    exact List.mem_append_left _ hf)

section

variable (h : Premises Γ w xs source bound s)

include h

/-- At a place where the same variables are in sight. -/
theorem elsewhere
    (hlookup : ∀ x, u.scopes.lookup .var u.current x = s.scopes.lookup .var s.current x) :
    Premises Γ w xs source bound u :=
      { h with lacks := fun x hx => (hlookup x.name.text).trans (h.lacks x hx) }

/-- At a place that is reached by declaring other names. -/
theorem moved (hs : s.Valid) (hg : Grows own s u) (havoids : Avoids own xs) :
    Premises Γ w xs source bound u :=
  { h with lacks := fun x hx => (hg.lookup_var hs (havoids x hx)).trans (h.lacks x hx) }

/-- At a place that is reached without declaring names. -/
theorem grown (hs : s.Valid) (hg : Grows [] s u) : Premises Γ w xs source bound u :=
  h.moved hs hg fun _ _ => List.not_mem_nil

theorem opened (hs : s.Valid) (kind : ScopeKind) : Premises Γ w xs source bound (s.opened kind) :=
  h.elsewhere (hs.lookup_opened kind .var)

theorem within (isPlain : Bool) : Premises Γ { w with isPlain } xs source bound s :=
  ⟨h.lacks, h.unknown, h.allowed, h.tame, h.exact, h.returned⟩

/-- At a place with the same scopes. -/
theorem congr (hscopes : u.scopes = s.scopes) (hcurrent : u.current = s.current) :
    Premises Γ w xs source bound u :=
  h.elsewhere fun _ => by rw [hscopes, hcurrent]

end

section

variable {e : Expr} (h : Premises Γ w xs source (Expr.nodes · e) s)

include h

theorem exact_expr : (Node.expr e).isExact Γ = true := by
  obtain ⟨kind, ty, range⟩ := e
  exact h.exact _ List.mem_cons_self

/-- No type is poisoned where the first run has no poison. -/
theorem sound : e.ty.hasPoison = false := Node.hasPoison_expr_of_isExact h.exact_expr

theorem ne_error : e.ty ≠ .error := Ty.ne_error_of_hasPoison h.sound

end

theorem sound_block {b : Block} (h : Premises Γ w xs source (Block.nodes · b) s) :
    b.ty.hasPoison = false := by
  obtain ⟨stmts, ty, diverges, range⟩ := b
  exact Node.hasPoison_of_isExact (h.exact _ List.mem_cons_self) ty List.mem_cons_self

theorem sound_all {bs : List Expr} (h : Premises Γ w xs source (Expr.allNodes · bs) s) :
    ∀ b ∈ bs, b.ty.hasPoison = false :=
  fun _ hb => Node.hasPoison_expr_of_isExact (h.exact _ (Expr.mem_allNodes true hb))

theorem sound_entries {es : List Entry} (h : Premises Γ w xs source (Entry.allNodes · es) s) :
    ∀ e ∈ es, e.value.ty.hasPoison = false := by
  intro e he
  induction es with
  | nil => cases he
  | cons entry es ih =>
    obtain ⟨key, value⟩ := entry
    rcases List.mem_cons.mp he with rfl | he
    · exact h.bound_left.bound_right.sound
    · exact ih h.bound_right he

theorem sound_fields {vs : List FieldValue} (h : Premises Γ w xs source (FieldValue.allNodes · vs) s) :
    ∀ v ∈ vs, v.value.ty.hasPoison = false := by
  intro v hv
  induction vs with
  | nil => cases hv
  | cons field vs ih =>
    obtain ⟨symbol, value⟩ := field
    rcases List.mem_cons.mp hv with rfl | hv
    · exact h.bound_left.sound
    · exact ih h.bound_right hv

/-- The body of a lambda. -/
theorem body {m : Node} {b : Expr} {declared : Option Ty}
    (h : Premises Γ w xs (n :: source) (fun deep => m :: if deep then b.nodes deep else []) s)
    (hs : s.Valid)
    (hg : Grows own s.enteringLambda u) (havoids : Avoids own xs)
    (hreturned : ∀ r ∈ returnedBy (b.nodes false), ∀ ty, declared = some ty → ty.Below r.1)
    (frame : FnFrame) :
    Premises Γ { w with isPlain := true, declared } xs source (Expr.nodes · b)
      (u.enteringBody frame) where
  lacks x hx := by
    have hsame : u.scopes.lookup .var u.current x.name.text =
        s.enteringLambda.scopes.lookup .var s.enteringLambda.current x.name.text :=
      hg.lookup_var (hs.opened .lambda).entering (havoids x hx)
    exact hsame.trans ((hs.lookup_opened .lambda .var x.name.text).trans (h.lacks x hx))
  unknown := h.unknown
  allowed := h.source_tail.allowed
  tame := h.source_tail.tame
  exact := h.bound_tail.exact
  returned := hreturned

end Premises

/-! ## Unknown names -/

/-- An unknown name is found. -/
theorem Ends.unknown {x : Unknown} (h : Poisoned w t s') :
    Ends w [x] (Binding.report x.finding.range x.finding.problem) s' t fun _ => True := by
  have hafter : after (Binding.report x.finding.range x.finding.problem) s' =
    s'.reporting [x.finding] := after_report _ _ s'
  have hundefined : x.finding.isUndefined = true := by
    obtain ⟨name, isCalled⟩ := x
    cases isCalled <;> rfl
  refine ⟨?_, ⟨[x.finding], ?_, ?_, ?_⟩, trivial⟩
  · rw [hafter]
    exact h.reporting _
  · rw [hafter]
    exact Array.toList_append
  · simp [hundefined]
  · intro f hf hdefined
    rw [List.mem_singleton.mp hf, hundefined] at hdefined
    cases hdefined

/-- The second run does not know the name either. -/
theorem Poisoned.lookup_unknown {x : Unknown} (h : Poisoned w s s')
    (hp : Premises Γ w xs source bound s)
    (hx : x ∈ xs) : s'.scopes.lookup .var s'.current x.name.text = none := by
  have hseen := h.seen x.name.text
  rw [hp.lacks x hx] at hseen
  generalize s'.scopes.lookup .var s'.current x.name.text = result at hseen
  cases hseen with
  | unknown => rfl
  | stray hbare =>
    rw [(hp.unknown x hx).2.2] at hbare
    cases hbare

/-- A tree that does not jump is left out by the second run. -/
theorem Poisoned.skip (h : Poisoned w s s') (hjumps : Ast.jumps (e.nodes false) = false)
    (hq : Quiet Γ (bindExpr expected e) s b t) : Poisoned w t s' ∧ b.diverges = false := by
  obtain ⟨hstays, hdiverges⟩ := stays_bindExpr e h.valid hq
  refine ⟨h.grows (hq.grows_nil) (.refl _ _) ?_, hdiverges hjumps⟩
  rw [hstays (Ast.returns_of_jumps hjumps)]
  exact h.fns

/-- The name of a value that is not known. -/
theorem ends_unknownValue {x : Ast.Name} (h : Poisoned w s s')
    (hp : Premises Γ w [⟨x, false⟩] source bound s)
    (hjumps : Ast.jumps (e.nodes false) = false) (hq : Quiet Γ (bindExpr expected e) s b t) :
    Ends w [⟨x, false⟩] (bindExpr expected' (.name x)) s' t (ExprBelow b) := by
  obtain ⟨ht, hdiverges⟩ := h.skip hjumps hq
  have hlookup := h.lookup_unknown hp List.mem_cons_self
  obtain ⟨hfn, hvariant, -⟩ := hp.unknown _ List.mem_cons_self
  have hresolve : Repeats (resolveVar x) s' none :=
    ⟨(out_resolveVar h.valid' x).trans hlookup, after_resolveVar_of_none hlookup⟩
  have hfn' : Repeats (lookup .fn x.text) s' none := ⟨(h.fn' x.text).trans hfn, rfl⟩
  refine .past hresolve (.past hfn' (.past (.get s') ?_))
  rw [h.registry', hvariant]
  exact (Ends.unknown (x := ⟨x, false⟩) ht).andThen fun _ _ hu _ =>
    .pure hu (.poison hdiverges rfl rfl rfl rfl)

/-! ## Names in patterns that may be taken for others -/

section

variable {bare : String → Bool} {o : Origin} {e : Ast.Expr} {arms : List Ast.Arm} {arm arm' : Ast.Arm}
  {name : Ast.Name}

theorem mem_ambiguousNames (harm : arm ∈ arms) (hname : name ∈ arm.pattern.tupled)
    (hbare : bare name.text = true) :
    name ∈ Ast.ambiguousNames bare arms := by
  refine List.mem_filter.mpr ⟨?_, hbare⟩
  exact List.mem_flatMap.mpr ⟨arm, harm, hname⟩

theorem followUps_of_ambiguous (h : name ∈ Ast.ambiguousNames bare arms) :
    Ast.Node.followUps bare (.expr (.matchOn o e arms)) =
      (Ast.ambiguousNames bare arms).map (fun name => ⟨name.range, .alreadyDeclared name.text⟩) ++
        arms.map fun arm => ⟨arm.pattern.range, .unreachableArm⟩ := by
  rw [Ast.Node.followUps, if_neg (List.ne_nil_of_mem h)]

end

/-- What may be found in the arms of a match. -/
theorem Premises.allowed_arms {o : Origin} {arms : List Ast.Arm}
    (h : Premises Γ w xs (.expr (.matchOn o e arms) :: source) bound s) :
    (∀ arm ∈ arms, ∀ name ∈ arm.pattern.tupled, w.bare name.text = true →
        w.allowed ⟨name.range, .alreadyDeclared name.text⟩) ∧
      ∀ i, Overtaken w.bare (arms.map Ast.Arm.pattern) i → w.allowed ⟨i.range, .unreachableArm⟩ := by
  constructor
  · intro arm harm name hname hbare
    have hambiguous := mem_ambiguousNames harm hname hbare
    refine h.allowed_head _ ?_
    rw [followUps_of_ambiguous hambiguous]
    exact List.mem_append_left _ (List.mem_map_of_mem hambiguous)
  · rintro i ⟨-, ⟨pattern, hpattern, hrange⟩, pattern', hpattern', name, hname, hbare⟩
    obtain ⟨arm, harm, rfl⟩ := List.mem_map.mp hpattern
    obtain ⟨arm', harm', rfl⟩ := List.mem_map.mp hpattern'
    refine h.allowed_head _ ?_
    rw [followUps_of_ambiguous (mem_ambiguousNames harm' hname hbare), hrange]
    exact List.mem_append_right _ (List.mem_map_of_mem harm)

/-! ## Expected types of parts -/

theorem avoids_params {params : List Ast.Param} (h : Avoids (params.map fun p => p.name.text) xs)
    (tys : List Ty) :
    Avoids (((params.map Ast.Param.name).zip tys).map (·.1.text)) xs := by
  intro x hx hmem
  obtain ⟨q, hq, heq⟩ := List.mem_map.mp hmem
  obtain ⟨p, hp, hname⟩ := List.mem_map.mp (List.of_mem_zip hq).1
  refine h x hx (List.mem_map.mpr ⟨p, hp, ?_⟩)
  rw [← heq, ← hname]

theorem suits_element {hint : Option Ty} {element : Ty}
    (hint_below : hint = none ∨ ∃ a, hint = some a ∧ a.Below element) (hb : b.ty = element) :
    Suits hint b := by
  rcases hint_below with rfl | ⟨a, rfl, hle⟩
  · exact suits_none b
  · exact suits_of_below (hb ▸ hle)

/-- A value suits the type that is written for it. -/
theorem suits_written {written : Option Ast.TyExpr} {declared : Option Ty}
    (hq : Quiet Γ (resolveType? written) s declared t) (hb : b.ty.hasPoison = false)
    (haccepts : ∀ ty, declared = some ty → ty.accepts b.ty = true) : Suits declared b := by
  rintro ty rfl
  have hsound := ((typeLaw_hasPoison s).of_resolveType? written hq).2 ty rfl
  exact .inr (.inl (Ty.below_of_eq (Ty.eq_of_compatible hsound hb (by simp) (haccepts _ rfl))))

/-- The type that is expected of a match is expected of its arms. -/
theorem suits_arms {scrutinee : Expr} {arms : List Arm} {agreed : ArmTypes} {range : Range}
    (h : Suits expected' ⟨.matchOn scrutinee arms, agreed.ty, range⟩)
    (hsound : agreed.ty.hasPoison = false) :
    ∀ ty, expected' = some ty → ty = .unit ∨ ∀ result, agreed.result = some result →
      ty.Below result := by
  intro ty hty
  rcases h ty hty with hunit | hbelow | hdiverges | ⟨b, hb⟩
  · exact .inl hunit
  · refine .inr fun result hresult => ?_
    have hne := Ty.ne_error_of_hasPoison hsound
    unfold ArmTypes.ty at hbelow hne
    split at hne
    · exact absurd rfl hne
    · next hagree =>
      rw [if_neg hagree, hresult] at hbelow
      exact hbelow
  · cases hdiverges
  · cases hb

/-- The body of an arm suits what is expected of it: the type of the match, or that of an earlier
arm. -/
theorem suits_arm {target : Ty} {agreed agreed' agreed₁ final : ArmTypes} {arms : List Ast.Arm}
    {bs : List Arm}
    (hagreed : ArmsBelow agreed agreed') (hb : b.ty.hasPoison = false)
    (hsuits : ∀ ty, expected' = some ty → ty = .unit ∨ ∀ result, final.result = some result →
      ty.Below result)
    (hnote : Quiet Γ (noteArm agreed b) s agreed₁ s)
    (harms : Quiet Γ (bindArms target expected agreed₁ arms) s (bs, final) t) :
    Suits (expected' <|> agreed'.result) b := by
  obtain ⟨hkeeps, hresult, -⟩ := hagreed.noteArm (.refl b) hb hnote s
  intro ty hty
  cases hdiverges : b.diverges with
  | true => exact .inr (.inr (.inl rfl))
  | false =>
    cases expected' with
    | some expectedTy =>
      obtain rfl := Option.some.inj hty
      refine (hsuits _ rfl).imp_right fun hbelow => .inl ?_
      exact hbelow b.ty (result_bindArms harms (hresult hdiverges))
    | none =>
      obtain ⟨first, hfirst, hle⟩ := hagreed.result ty hty
      have hsame : first = b.ty :=
        Option.some.inj ((hkeeps first hfirst).symm.trans (hresult hdiverges))
      exact .inr (.inl (hsame ▸ hle))

end Bindery.Binding
