import Bindery.Proofs.Binding.NodeLaws

/-!
# Calls of values

A name that is called is looked up twice if it is a variable: once to find that its value is called,
and again when that value is bound. Both lookups agree, so the callee of such a call is never a
function used by name, and its parameters are never compared with open placeholders. The type of the
call is then the result type of the callee as it stands.
-/

namespace Bindery

namespace Bound

/-- A call of a value does not call a function by name, and if it has a type, the callee is a
function that takes as many arguments and gives this type. -/
def Node.CallsClosed : Node → Prop
  | .expr ⟨.callValue callee args, ty, _⟩ =>
    (∀ id, callee.kind ≠ .fnRef id) ∧
      (ty ≠ .error → ∃ params, callee.ty = .fn params ty ∧ params.length = args.length)
  | _ => True

end Bound

namespace Binding

open Bindery.Bound

/-- Without open placeholders the type of a call is the result type of the callee, or poison. -/
theorem out_valueCallTy {callee : Expr} {name : String} {args : List Expr} {range : Range}
    (h : isFnRef callee = false) (s : State) :
    let ty := out (valueCallTy callee name args range) s
    ty ≠ .error → ∃ params, callee.ty = .fn params ty ∧ params.length = args.length := by
  unfold valueCallTy
  split
  · exact fun hty => absurd rfl hty
  · next params ret hcallee =>
    split
    · exact fun hty => absurd rfl hty
    · next hlength =>
      rw [h]
      exact fun _ => ⟨params, hcallee, not_not.mp hlength⟩
  · exact fun hty => absurd rfl hty

theorem callsClosed_nodeLaw : NodeLaw Node.CallsClosed where
  pattern _ := trivial
  stmt _ := trivial
  block _ := trivial
  ifElse _ _ _ := trivial
  matchOn _ _ := trivial
  callValue s hcallee _ _ := by
    refine ⟨fun id hid => ?_, out_valueCallTy hcallee s⟩
    rw [isFnRef, hid] at hcallee
    cases hcallee
  other {e} hplain _ := by
    obtain ⟨kind, ty, range⟩ := e
    cases kind with
    | callValue => cases hplain
    | _ => trivial

/-- In every bound file no call of a value has a function used by name as its callee, and each one
that has a type has it from its callee. Wherever binding stands, what is called as a value is not
bound to a function used by name, so the rule for calls of values never opens placeholders. -/
theorem value_calls_are_closed (session : Session) (file : Ast.SourceFile) :
    (∃ p ds, (session.bind file).1 = .ok ⟨p, ds⟩ ∧ ∀ n ∈ p.nodes true, n.CallsClosed) ∧
      ∀ s : State, s.Valid → ∀ expected callee tyArgs range,
        out (resolveCallee expected callee tyArgs range) s = none →
          isFnRef (out (bindExpr none callee)
          (after (resolveCallee expected callee tyArgs range) s)) = false :=
  ⟨callsClosed_nodeLaw.exists_bind session file, fun _ hs _ _ _ _ h => isFnRef_callee hs h⟩

end Binding

end Bindery
