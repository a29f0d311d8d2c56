import Bindery.Proofs.Bound.Typing
import Bindery.Proofs.Ty.Below
import Bindery.Registry

/-!
# Bound trees in which every type argument is settled

The type arguments of a call are read off its arguments, and an argument fits wherever its parameter
mentions a placeholder. So the arguments of a call that binds may still disagree about a type
parameter, or leave it open. `isExact` rules this out: the arguments have exactly the types that the
type arguments make of the parameters, the same holds of the payload of a variant, and poison occurs
nowhere.
-/

namespace Bindery

/-- The type of a sum at its own parameters mentions just these. -/
theorem SumDef.placeholders_selfTy (d : SumDef) : d.selfTy.placeholders = d.tyParams := by
  show Ty.allPlaceholders (d.tyParams.map .generic) = d.tyParams
  induction d.tyParams with
  | nil => rfl
  | cons p ps ih =>
    rw [List.map_cons, Ty.allPlaceholders, ih]
    rfl

namespace Bound

/-- Whether the arguments of a call have the types of the parameters at the type arguments of the
call. A built-in function that is typed from its arguments takes them as they are. -/
def isExactCall (Γ : Symbols) (fn : SymId) (tyArgs args : List Ty) : Bool :=
  match Γ.sig? fn with
  | some f =>
    f.isBuiltin && (Builtin.ofName? f.name).isSome ||
      decide (args = Ty.substAll (.ofArguments f.tyParams tyArgs) f.paramTys)
  | none => true

/-- Whether the payload of a variant has the declared type at the type arguments of the sum. The
type of the symbol is the sum at its own type parameters. -/
def isExactVariant (Γ : Symbols) (variant : SymId) (payload : Option Ty) : Ty → Bool
  | .sum _ args =>
    match Γ.get? variant with
    | some ⟨_, _, .variant _ declared, self, _, _⟩ =>
      decide (args.length = self.placeholders.length) &&
        decide (payload = declared.map (Ty.subst (.ofArguments self.placeholders args)))
    | _ => true
  | _ => true

/-- Whether the type arguments at the node agree with the types of its parts. -/
def Node.isSettled (Γ : Symbols) : Node → Bool
  | .expr ⟨.call fn tyArgs args, _, _⟩ => isExactCall Γ fn tyArgs (args.map Expr.ty)
  | .expr ⟨.variant symbol payload, ty, _⟩ => isExactVariant Γ symbol (payload.map Expr.ty) ty
  | _ => true

/-- Whether every type argument at the node is settled and poison occurs in none of its types. -/
def Node.isExact (Γ : Symbols) (n : Node) : Bool :=
  !Ty.anyPoison (n.types ++ n.returned.map Prod.fst) && n.isSettled Γ

/-- Whether every type argument of the file is settled and poison occurs nowhere in it. -/
def Program.isExact (p : Program) : Bool :=
  p.syms.toList.all (fun sym => !sym.ty.hasPoison) && (p.nodes true).all (Node.isExact p.syms)

namespace Node

variable {Γ : Symbols} {n : Node}

theorem hasPoison_of_isExact (h : n.isExact Γ = true) : ∀ ty ∈ n.types, ty.hasPoison = false := by
  rw [isExact, Bool.and_eq_true, Bool.not_eq_true', Ty.anyPoison_eq_false_iff] at h
  exact fun ty hty => h.1 ty (List.mem_append_left _ hty)

theorem hasPoison_returned_of_isExact (h : n.isExact Γ = true) :
    ∀ r ∈ n.returned, r.1.hasPoison = false := by
  rw [isExact, Bool.and_eq_true, Bool.not_eq_true', Ty.anyPoison_eq_false_iff] at h
  exact fun r hr => h.1 r.1 (List.mem_append_right _ (List.mem_map_of_mem hr))

/-- An expression carries its own type. -/
theorem hasPoison_expr_of_isExact {e : Expr} (h : (Node.expr e).isExact Γ = true) :
    e.ty.hasPoison = false := by
  apply hasPoison_of_isExact h
  obtain ⟨kind, ty, range⟩ := e
  cases kind <;> exact List.mem_cons_self

/-- The call of a function that is not typed from its arguments. -/
theorem args_eq_of_isExact {fn : SymId} {tyArgs : List Ty} {args : List Expr} {ty : Ty} {range : Range}
    {f : Sig} (h : (Node.expr ⟨.call fn tyArgs args, ty, range⟩).isExact Γ = true)
    (hf : Γ.sig? fn = some f) (hordinary : f.isBuiltin = true → Builtin.ofName? f.name = none) :
    args.map Expr.ty = Ty.substAll (.ofArguments f.tyParams tyArgs) f.paramTys := by
  rw [isExact, Bool.and_eq_true] at h
  have hexact : isExactCall Γ fn tyArgs (args.map Expr.ty) = true := h.2
  rw [isExactCall, hf] at hexact
  rcases Bool.or_eq_true_iff.mp hexact with hspecial | hargs
  · rw [Bool.and_eq_true] at hspecial
    rw [hordinary hspecial.1] at hspecial
    cases hspecial.2
  · exact of_decide_eq_true hargs

/-- The construction of a variant of a declared sum. -/
theorem payload_eq_of_isExact {symbol : SymId} {payload : Option Expr} {name : String}
    {args : List Ty} {range : Range}
    {d : SumDef} {variant owner : String} {declared : Option Ty}
    (h : (Node.expr ⟨.variant symbol payload, .sum name args, range⟩).isExact Γ = true)
    (hsym : Γ.get? symbol = some ⟨symbol, variant, .variant owner declared, d.selfTy, none, 0⟩) :
    args.length = d.tyParams.length ∧
      payload.map Expr.ty = declared.map (Ty.subst (.ofArguments d.tyParams args)) := by
  rw [isExact, Bool.and_eq_true] at h
  have hexact : isExactVariant Γ symbol (payload.map Expr.ty) (.sum name args) = true := h.2
  simp only [isExactVariant, hsym, SumDef.placeholders_selfTy, Bool.and_eq_true,
    decide_eq_true_eq] at hexact
  exact hexact

end Node

/-! ## Shallow nodes -/

mutual

/-- The nodes outside the bodies of lambdas are among the nodes. -/
theorem Expr.nodes_sublist (e : Expr) : (e.nodes false).Sublist (e.nodes true) := by
  match e with
  | ⟨kind, _, _⟩ => exact kind.nodes_sublist.cons_cons _

theorem ExprKind.nodes_sublist (kind : ExprKind) : (kind.nodes false).Sublist (kind.nodes true) := by
  match kind with
  | .literal _ | .var _ | .fnRef _ | .channel _ | .error | .variant _ none => exact .refl _
  | .unary _ e | .field e _ | .par e | .variant _ (some e) => exact e.nodes_sublist
  | .binary _ left right | .index left right => exact left.nodes_sublist.append right.nodes_sublist
  | .call _ _ es | .tuple es | .list es => exact Expr.allNodes_sublist es
  | .callValue callee args => exact callee.nodes_sublist.append (Expr.allNodes_sublist args)
  | .lambda _ _ _ _ => exact List.nil_sublist _
  | .record fields => exact FieldValue.allNodes_sublist fields
  | .map entries => exact Entry.allNodes_sublist entries
  | .ifElse cond thenBranch none => exact cond.nodes_sublist.append thenBranch.nodes_sublist
  | .ifElse cond thenBranch (some elseBranch) =>
    exact (cond.nodes_sublist.append thenBranch.nodes_sublist).append elseBranch.nodes_sublist
  | .block b | .spawn b | .scope b => exact b.nodes_sublist
  | .matchOn scrutinee arms => exact scrutinee.nodes_sublist.append (Arm.allNodes_sublist arms)

theorem Expr.allNodes_sublist (es : List Expr) :
    (Expr.allNodes false es).Sublist (Expr.allNodes true es) := by
  match es with
  | [] => exact .refl _
  | e :: es => exact e.nodes_sublist.append (Expr.allNodes_sublist es)

theorem FieldValue.allNodes_sublist (fields : List FieldValue) :
    (FieldValue.allNodes false fields).Sublist (FieldValue.allNodes true fields) := by
  match fields with
  | [] => exact .refl _
  | ⟨_, value⟩ :: fields => exact value.nodes_sublist.append (FieldValue.allNodes_sublist fields)

theorem Entry.allNodes_sublist (entries : List Entry) :
    (Entry.allNodes false entries).Sublist (Entry.allNodes true entries) := by
  match entries with
  | [] => exact .refl _
  | ⟨key, value⟩ :: entries =>
    exact (key.nodes_sublist.append value.nodes_sublist).append (Entry.allNodes_sublist entries)

theorem Arm.allNodes_sublist (arms : List Arm) :
    (Arm.allNodes false arms).Sublist (Arm.allNodes true arms) := by
  match arms with
  | [] => exact .refl _
  | ⟨_, body, _⟩ :: arms =>
    exact ((List.Sublist.refl _).append body.nodes_sublist).append (Arm.allNodes_sublist arms)

theorem Block.nodes_sublist (b : Block) : (b.nodes false).Sublist (b.nodes true) := by
  match b with
  | ⟨stmts, _, _, _⟩ => exact (Stmt.allNodes_sublist stmts).cons_cons _

theorem Stmt.nodes_sublist (s : Stmt) : (s.nodes false).Sublist (s.nodes true) := by
  match s with
  | ⟨.bindName _ value, _⟩ | ⟨.ret (some value), _⟩ => exact value.nodes_sublist.append (.refl _)
  | ⟨.assign _ value, _⟩ | ⟨.expr value, _⟩ | ⟨.print value, _⟩ =>
    exact value.nodes_sublist.cons_cons _
  | ⟨.ret none, _⟩ | ⟨.breakLoop, _⟩ | ⟨.continueLoop, _⟩ => exact .refl _
  | ⟨.block b, _⟩ => exact b.nodes_sublist.cons_cons _
  | ⟨.whileLoop cond body, _⟩ => exact (cond.nodes_sublist.append body.nodes_sublist).cons_cons _
  | ⟨.forLoop _ iterable body, _⟩ =>
    exact iterable.nodes_sublist.append (body.nodes_sublist.cons_cons _)

theorem Stmt.allNodes_sublist (ss : List Stmt) :
    (Stmt.allNodes false ss).Sublist (Stmt.allNodes true ss) := by
  match ss with
  | [] => exact .refl _
  | s :: ss => exact s.nodes_sublist.append (Stmt.allNodes_sublist ss)

end

end Bound

end Bindery
