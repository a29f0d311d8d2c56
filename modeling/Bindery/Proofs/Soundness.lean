import Bindery.Proofs.Binding.FileTyping

/-!
# Soundness for files without type parameters

A file whose declarations have no type parameters and whose functions have their return types
written is well typed if it is bound without a diagnostic: no type in the bound tree is poisoned,
nothing is left unresolved, and every node obeys the typing rules, which compare types by equality.
-/

namespace Bindery

open Bindery.Bound

/-- The types that a symbol carries. -/
def Symbol.types (sym : Symbol) : List Ty :=
  sym.ty :: match sym.kind with
    | .fn f => f.ret :: f.paramTys
    | .variant _ payload => payload.toList
    | .var _ | .parameter | .field _ => []

/-- What makes a bound file well typed. -/
structure Bound.Program.WellTyped (p : Program) : Prop where
  /-- No symbol has a poisoned type. -/
  syms : ∀ {id sym}, p.syms.get? id = some sym → ∀ ty ∈ sym.types, ty.hasPoison = false
  /-- No node has a poisoned type. -/
  types : ∀ n ∈ p.nodes true, ∀ ty ∈ n.types, ty.hasPoison = false
  /-- No node stands for something that was not found. -/
  resolved : ∀ n ∈ p.nodes true, n.isResolved = true
  /-- Every node obeys its typing rule. -/
  typed : ∀ n ∈ p.nodes true, n.Typed p.syms
  /-- Every function declaration obeys the rule of its signature. -/
  fns : ∀ d ∈ p.fns, ∃ f, d.Typed p.syms f
  /-- Nothing is returned outside the functions and lambdas. -/
  outside : returnedBy (Stmt.allNodes false p.stmts) = []

theorem Sig.Closed.hasPoison {f : Sig} (h : f.Closed) :
    ∀ ty ∈ f.ret :: f.paramTys, ty.hasPoison = false := by
  have hpoison := h.sound_ty.hasPoison
  simp only [Sig.ty, Ty.hasPoison, Bool.or_eq_false_iff, Ty.anyPoison_eq_false_iff] at hpoison
  exact List.forall_mem_cons.mpr ⟨hpoison.2, hpoison.1⟩

theorem Binding.State.Ready.hasPoison {s : Binding.State} (h : s.Ready) {id : SymId} {sym : Symbol}
    (hsym : s.syms.get? id = some sym) : ∀ ty ∈ sym.types, ty.hasPoison = false := by
  have hsound := h.syms hsym
  refine List.forall_mem_cons.mpr ⟨hsound.ty.hasPoison, ?_⟩
  split
  · next f hkind => exact (hsound.sig hkind).1.hasPoison
  · next sum payload hkind =>
    obtain ⟨sd, hsd, hd⟩ := h.top.recorded.symbol_variant hsym hkind
    intro ty hty
    exact ((h.plain.sum hsd).2 hd ty (Option.mem_toList.mp hty)).sound.hasPoison
  · simp
  · simp
  · simp

/-- A file without type parameters, whose functions have their return types written, is well typed
if it is bound without a diagnostic. All of its functions and statements are bound. -/
theorem monomorphic_file_is_well_typed {session : Session} {file : Ast.SourceFile} {p : Program}
    (h : session.BindsQuietly file p)
    (hmono : ∀ stmt ∈ file.stmts, stmt.isMonomorphic = true) :
    p.WellTyped ∧ p.fns.length = (file.stmts.filter Ast.Stmt.isFn).length ∧
      p.stmts.length = (file.stmts.filter fun s => !s.isDeclaration).length := by
  obtain ⟨ph, rfl, hsilent⟩ := h.exists_phases
  obtain ⟨hready, hfns, hproper, houtside, hlength⟩ := ph.typed hmono hsilent
  refine ⟨?_, ph.bodies.length_eq, hlength⟩
  exact {
    syms := hready.hasPoison
    types := fun n hn ty hty => ((hproper n hn).types ty hty).hasPoison
    resolved := fun n hn => (hproper n hn).typed.isResolved
    typed := fun n hn => (hproper n hn).typed
    fns := hfns
    outside := houtside }

/-- A file with a record, a sum, a function that matches on it, and a lambda that calls the
function:

    record Point { x: Int }
    sum Shape { Dot(Point), Empty }
    fn size(shape: Shape) -> Int { match shape { Dot(p) => p.x, Empty => 0 } }
    let total = fn(n: Int) => n + size(Dot(Point { x: n }))
-/
def shapes : Ast.SourceFile :=
  let o : Origin := default
  let name (text : String) : Ast.Name := ⟨o, text⟩
  let type (text : String) : Ast.TyExpr := .named o (name text) []
  let body : Ast.Expr := .matchOn o (.name (name "shape"))
    [⟨o, .variant o (name "Dot") (some (.name (name "p"))), .field o (.name (name "p")) (name "x")⟩,
      ⟨o, .variant o (name "Empty") none, .literal o (.int 0)⟩]
  let dot : Ast.Expr := .call o (.name (name "Dot")) []
    [.record o (name "Point") [] [⟨o, name "x", .name (name "n")⟩]]
  ⟨default, o,
    [.record o (name "Point") [] [⟨o, name "x", type "Int"⟩],
      .sum o (name "Shape") [] [⟨o, name "Dot", some (type "Point")⟩, ⟨o, name "Empty", none⟩],
      .fn o (name "size") [] [⟨o, name "shape", type "Shape"⟩] (some (type "Int")) ⟨o, [.expr o body]⟩,
      .bindName o (name "total") false none (.lambda o [⟨o, name "n", type "Int"⟩] none
        (.binary o .add (.name (name "n")) (.call o (.name (name "size")) [] [dot])))],
    "shapes", ""⟩

theorem shapes_is_well_typed :
    (∀ stmt ∈ shapes.stmts, stmt.isMonomorphic = true) ∧
      ∃ p, (Session.start {}).BindsQuietly shapes p ∧ p.WellTyped ∧ p.fns.length = 1 ∧
        p.stmts.length = 1 := by
  have hmono : ∀ stmt ∈ shapes.stmts, stmt.isMonomorphic = true := by decide
  obtain ⟨p, hquiet, -⟩ :=
    exists_bindsQuietly {} shapes (fun _ => true) (by decide) (by decide +kernel)
  exact ⟨hmono, p, hquiet, monomorphic_file_is_well_typed hquiet hmono⟩

end Bindery
