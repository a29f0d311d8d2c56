import Bindery.Proofs.Binding.Tree

/-!
# The nodes that rules make

Which kind of node a rule makes of the bound parts does not depend on the state, and not on what is
reported. Only a name and a call by name can come to different kinds.
-/

namespace Bindery.Binding

open Bindery.Bound

variable {range : Range} (s : State)

theorem kind_binaryExpr (op : BinaryOp) (left right : Expr) :
    (out (binaryExpr op left right range) s).kind = .binary op left right := by
  unfold binaryExpr
  split
  · rfl
  · split <;> rfl

theorem kind_unaryExpr (op : UnaryOp) (operand : Expr) :
    (out (unaryExpr op operand range) s).kind = .unary op operand := by
  unfold unaryExpr
  split
  · rfl
  · split <;> rfl

theorem kind_indexExpr (target index : Expr) :
    (out (indexExpr target index range) s).kind = .index target index := by
  unfold indexExpr
  split
  · rfl
  · split <;> rfl

theorem kind_fieldExpr (target : Expr) (name : Ast.Name) :
    ∃ field, (out (fieldExpr target name range) s).kind = .field target field := by
  unfold fieldExpr
  split
  · exact ⟨_, rfl⟩
  · rw [out_bind]
    split <;> exact ⟨_, rfl⟩
  · exact ⟨_, rfl⟩

variable (expected hint : Option Ty)

theorem kind_listExpr (elems : List Expr) :
    (out (listExpr hint elems range) s).kind = .list elems := by
  cases elems <;> rfl

theorem kind_mapExpr (entries : List Entry) :
    (out (mapExpr hint entries range) s).kind = .map entries := by
  cases entries <;> rfl

theorem kind_ifExpr (cond : Expr) (thenBranch : Block) (elseBranch : Option Expr) :
    (out (ifExpr cond thenBranch elseBranch range) s).kind = .ifElse cond thenBranch elseBranch := by
  cases elseBranch <;> rfl

/-- The body of a lambda is bound in a state of its own. -/
theorem kind_lambdaExpr (params : List (Ast.Name × Ty)) (declared : Option Ty) (body : Binding Expr) :
    ∃ ids ret captures u, (out (lambdaExpr params declared body range) s).kind =
      .lambda ids ret captures (out body u) ∧ (s.Valid → State.Valid u) := by
  have hparams := fun hs : s.Valid =>
    ((@keeps_declareLocals .parameter rfl params).grows _).valid (hs.opened .lambda).entering
  rw [lambdaExpr, out_bind, out_inScope]
  dsimp only
  split <;> exact ⟨_, _, _, _, rfl, fun hs => (hparams hs).congr rfl rfl rfl rfl⟩

/-- A name is a leaf of the bound tree. -/
theorem kind_nameExpr (name : Ast.Name) :
    let kind := (out (nameExpr expected name) s).kind
    (∃ id, kind = .var id) ∨ (∃ id, kind = .fnRef id) ∨ (∃ id, kind = .variant id none) ∨
      kind = .error := by
  rw [nameExpr, out_bind]
  split
  · exact .inl ⟨_, rfl⟩
  · rw [nonVarExpr, out_bind]
    split
    · exact .inr (.inl ⟨_, rfl⟩)
    · rw [out_bind]
      split
      · exact .inr (.inr (.inr rfl))
      · split
        · exact .inr (.inr (.inr rfl))
        · exact .inr (.inr (.inl ⟨_, rfl⟩))

theorem kind_finishFnCall (id : SymId) (f : Sig) (explicit : Subst) (isExplicit agrees : Bool)
    (args : List Expr) :
    ∃ tyArgs, (out (finishFnCall id f explicit isExplicit agrees args range) s).kind =
      .call id tyArgs args := by
  unfold finishFnCall
  split <;> exact ⟨_, rfl⟩

theorem kind_finishBuiltinCall (id : SymId) (name : String) (b : Builtin) (args : List Expr) :
    ∃ tyArgs, (out (finishBuiltinCall id name b args range) s).kind = .call id tyArgs args := by
  unfold finishBuiltinCall
  dsimp only
  split <;> exact ⟨_, rfl⟩

theorem kind_finishVariantCall (sum : SumDef) (name : String) (d : VariantDef) (known : Subst)
    (args : List Expr) :
    ∃ payload tys, (out (finishVariantCall sum name d known args range) s).kind = .variant d.symbol
      payload ∧
      (payload = none ∨ args = payload.toList) ∧
      (out (finishVariantCall sum name d known args range) s).ty = .sum sum.name tys := by
  unfold finishVariantCall
  split
  · exact ⟨none, _, rfl, .inl rfl, rfl⟩
  · exact ⟨none, _, rfl, .inl rfl, rfl⟩
  · exact ⟨none, _, rfl, .inl rfl, rfl⟩
  · next arg _ => exact ⟨some arg, _, rfl, .inr rfl, rfl⟩
  · exact ⟨none, _, rfl, .inl rfl, rfl⟩

/-! ## Functions used as values -/

/-- Whether the expression calls or names a function. -/
def mentionsFn : Expr → Bool
  | ⟨.fnRef _, _, _⟩ | ⟨.call .., _, _⟩ => true
  | _ => false

/-- Only names and calls mention a function. -/
theorem mentionsFn_bindExpr (e : Ast.Expr) :
    (∃ name, e = .name name) ∨ (∃ origin callee tyArgs args, e = .call origin callee tyArgs args) ∨
      mentionsFn (out (bindExpr expected e) s) = false := by
  have hother : ∀ {b : Expr} {kind : ExprKind}, b.kind = kind → mentionsFn ⟨kind, b.ty, b.range⟩ =
    false →
      mentionsFn b = false := by
    rintro ⟨_, _, _⟩ _ rfl h
    exact h
  cases e with
  | name name => exact .inl ⟨name, rfl⟩
  | call => exact .inr (.inl ⟨_, _, _, _, rfl⟩)
  | binary _ op => exact .inr (.inr (hother (kind_binaryExpr _ op _ _) rfl))
  | unary _ op => exact .inr (.inr (hother (kind_unaryExpr _ op _) rfl))
  | index => exact .inr (.inr (hother (kind_indexExpr _ _ _) rfl))
  | list => exact .inr (.inr (hother (kind_listExpr _ _ _) rfl))
  | map => exact .inr (.inr (hother (kind_mapExpr _ _ _) rfl))
  | ifElse _ _ _ elseBranch =>
    cases elseBranch with
    | none => exact .inr (.inr (hother (kind_ifExpr _ _ _ none) rfl))
    | some => exact .inr (.inr (hother (kind_ifExpr _ _ _ (some _)) rfl))
  | field _ _ name =>
    obtain ⟨_, hkind⟩ := kind_fieldExpr _ _ name
    exact .inr (.inr (hother hkind rfl))
  | lambda =>
    obtain ⟨_, _, _, _, hkind, -⟩ := kind_lambdaExpr _ _ _ _
    exact .inr (.inr (hother hkind rfl))
  | record =>
    refine .inr (.inr ?_)
    rw [bindExpr, out_bind]
    split <;> rfl
  | _ => exact .inr (.inr rfl)

/-- A call by name is no name. -/
theorem isFnRef_finishCall (callee : Callee) (args : List Expr) :
    isFnRef (out (finishCall callee args range) s) = false := by
  have hother : ∀ {b : Expr} {kind : ExprKind}, b.kind = kind → isFnRef ⟨kind, b.ty, b.range⟩ = false →
      isFnRef b = false := by
    rintro ⟨_, _, _⟩ _ rfl h
    exact h
  cases callee with
  | fn id f explicit isExplicit agrees =>
    obtain ⟨_, hkind⟩ := kind_finishFnCall s id f explicit isExplicit agrees args
    exact hother hkind rfl
  | builtin id name b =>
    obtain ⟨_, hkind⟩ := kind_finishBuiltinCall s id name b args
    exact hother hkind rfl
  | variant sum name d known =>
    obtain ⟨_, _, hkind, -⟩ := kind_finishVariantCall s sum name d known args
    exact hother hkind rfl
  | undefined => rfl

/-- An expression that is no name of a function does not name a function. -/
theorem isFnRef_bindExpr {s : State} (hs : s.Valid) {expected : Option Ty} {e : Ast.Expr}
    (hname : ∀ name, e = .name name → s.scopes.lookup .var s.current name.text ≠ none) :
    isFnRef (out (bindExpr expected e) s) = false := by
  rcases mentionsFn_bindExpr s expected e with ⟨n, rfl⟩ | ⟨origin, callee, tyArgs, args, rfl⟩ | hnone
  · obtain ⟨id, hlookup⟩ := Option.ne_none_iff_exists'.mp (hname n rfl)
    rw [bindExpr, nameExpr, out_bind, out_resolveVar hs, hlookup]
    rfl
  · rw [bindExpr, out_bind]
    split
    · exact isFnRef_finishCall _ _ _
    · rfl
  · revert hnone
    generalize out (bindExpr expected e) s = b
    obtain ⟨kind, ty, range⟩ := b
    cases kind <;> simp [mentionsFn, isFnRef]

/-- What is called as a value is no function: a name that is called stands for one only if it is no
variable. -/
theorem isFnRef_callee {s : State} (hs : s.Valid) {expected : Option Ty} {callee : Ast.Expr}
    {tyArgs : List Ast.TyExpr} (h : out (resolveCallee expected callee tyArgs range) s = none) :
    isFnRef (out (bindExpr none callee) (after (resolveCallee expected callee tyArgs range) s)) =
      false := by
  refine isFnRef_bindExpr ((Keeps.grows [] (resolveCallee expected callee tyArgs range) s).valid hs) ?_
  rintro n rfl
  rw [resolveCallee, out_bind, out_lookup] at h
  rw [resolveCallee, after_bind, out_lookup, after_lookup]
  cases hlookup : s.scopes.lookup .var s.current n.text with
  | none =>
    rw [hlookup] at h
    cases h
  | some id => simp [hlookup]

end Bindery.Binding
