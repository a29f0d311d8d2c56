import Bindery.Proofs.Binding.MirrorCalls
import Bindery.Proofs.Consistency

/-!
# Substitution and inference

A generic function is checked once, with placeholders for its type parameters, and used with any
types in their place. Two laws make this legitimate. What a check has found compatible stays
compatible under every substitution (`Ty.accepts_subst`), and two substitutions in a row are one
(`Ty.subst_subst`).

The other way, inference reads a substitution off the types of the arguments. From types that were
made by a substitution it reads back what the substitution has put in, except for poison, which is
never recorded (`Ty.get?_infer_subst`). A type parameter for which nothing was recorded becomes
poison at the call, so this exception is not seen in the end.
-/

namespace Bindery

/-! ## Substitutions in a row -/

namespace OrderedMap

variable {κ α β : Type}

/-- The map with other values under the same keys. -/
def mapValues (f : α → β) (m : OrderedMap κ α) : OrderedMap κ β :=
  ⟨m.entries.map (Prod.map id f), by rw [List.map_map]; exact m.nodup⟩

variable [DecidableEq κ]

theorem find_map (f : α → β) (k : κ) (es : List (κ × α)) :
    find k (es.map (Prod.map id f)) = (find k es).map f := by
  induction es with
  | nil => rfl
  | cons e es ih =>
    obtain ⟨j, v⟩ := e
    rw [List.map_cons, Prod.map_apply, id, find, find, ih]
    split <;> rfl

theorem get?_mapValues (f : α → β) (m : OrderedMap κ α) (k : κ) :
    (m.mapValues f).get? k = (m.get? k).map f :=
  find_map f k m.entries

/-- Of the pairs that are added where nothing stands yet, the first one with a key counts. -/
theorem get?_foldl_insertNew (k : κ) (es : List (κ × α)) (m : OrderedMap κ α) :
    (es.foldl (fun m e => m.insertNew e.1 e.2) m).get? k = (m.get? k).or (find k es) := by
  induction es generalizing m with
  | nil => simp [find]
  | cons e es ih =>
    rw [List.foldl_cons, ih, get?_insertNew, find]
    split
    · next hk =>
      subst hk
      cases m.get? e.1 <;> rfl
    · rfl

end OrderedMap

namespace Subst

/-- One substitution for two in a row: the types that `s` puts in, with `r` applied to them. The
names that `s` does not know are left to `r`. -/
def andThen (s r : Subst) : Subst :=
  r.entries.foldl (fun q e => q.insertNew e.1 e.2) (s.mapValues (Ty.subst r))

theorem get?_andThen (s r : Subst) (n : String) :
    (s.andThen r).get? n = ((s.get? n).map (Ty.subst r)).or (r.get? n) := by
  rw [andThen, OrderedMap.get?_foldl_insertNew, OrderedMap.get?_mapValues]
  rfl

end Subst

namespace Ty

theorem subst_subst (s r : Subst) (t : Ty) :
    (t.subst s).subst r = t.subst (s.andThen r) := by
  induction t using induction_parts with
  | error | prim _ => rfl
  | generic n =>
    simp only [subst, Subst.get?_andThen]
    cases s.get? n <;> rfl
  | node t k hk ih =>
    refine eq_of_parts (head?_subst r (head?_subst s hk)) (head?_subst _ hk) ?_
    rw [parts_subst r (head?_subst s hk), parts_subst s hk, parts_subst _ hk, List.map_map]
    exact List.map_congr_left ih

/-- What is compatible stays so at every instantiation: a common form of two types is still one when
its placeholders are replaced. -/
theorem accepts_subst (s : Subst) {a b : Ty} (h : a.accepts b = true) :
    (a.subst s).accepts (b.subst s) = true := by
  obtain ⟨u, ha, hb⟩ := accepts_iff_exists_below.mp h
  exact accepts_iff_exists_below.mpr
    ⟨u.subst s, ha.subst fun _ _ => below_refl _, hb.subst fun _ _ => below_refl _⟩

end Ty

/-- A check that was made with placeholders stays valid when they are replaced, and two
substitutions in a row are one: it puts in what the first one does, with the second one applied, and
leaves the other names to the second one. The substitution without entries changes nothing. -/
theorem checks_survive_instantiation :
    (∀ (a b : Ty) (s : Subst), a.accepts b = true → (a.subst s).accepts (b.subst s) = true) ∧
    (∀ (t : Ty) (s r : Subst), (t.subst s).subst r = t.subst (s.andThen r)) ∧
    (∀ (s r : Subst) (n : String), (s.andThen r).get? n = ((s.get? n).map (Ty.subst r)).or
      (r.get? n)) ∧
    ∀ (t : Ty) (s : Subst), s.isEmpty = true → t.subst s = t := by
  refine ⟨fun _ _ s h => Ty.accepts_subst s h, fun t s r => Ty.subst_subst s r t,
    Subst.get?_andThen, ?_⟩
  intro t s hs
  have hempty : ∀ n, s.get? n = none := by
    intro n
    rw [OrderedMap.get?, List.isEmpty_iff.mp hs]
    rfl
  rw [Ty.subst_congr t fun n _ => (hempty n).trans (OrderedMap.get?_empty n).symm, Ty.subst_empty]

/-- The pairs `(T, ?)` and `(T, List<U>)`, with poison for `?`, are compatible, and still are when
`T` and `U` change places. -/
theorem swapped_pair_is_accepted :
    let swap : Subst := .ofArguments ["T", "U"] [.generic "U", .generic "T"]
    (Ty.tuple [.generic "T", .error]).accepts (.tuple [.generic "T", .list (.generic "U")]) = true ∧
      ((Ty.tuple [.generic "T", .error]).subst swap).accepts
        ((Ty.tuple [.generic "T", .list (.generic "U")]).subst swap) = true :=
  ⟨by decide, checks_survive_instantiation.1 _ _ _ (by decide)⟩

namespace Ty

/-! ## Inference -/

/-- What inference can read off a type that the substitution has put in the place of a placeholder:
the type itself, unless it is poison. -/
def readBack (σ : Subst) (n : String) : Option Ty :=
  if ((Ty.generic n).subst σ).isError then none else some ((Ty.generic n).subst σ)

variable (σ : Subst) (n : String)

theorem getD_readBack : (readBack σ n).getD .error = (Ty.generic n).subst σ := by
  unfold readBack
  split
  · next herror => exact (isError_eq_true_iff.mp herror).symm
  · rfl

/-- What was read off two types, the first one winning. -/
theorem or_readBack (known : Option Ty) (names names' : List String) :
    (known.or (if n ∈ names then readBack σ n else none)).or
      (if n ∈ names' then readBack σ n else none) =
      known.or (if n ∈ names ++ names' then readBack σ n else none) := by
  by_cases hn : n ∈ names
  · by_cases hn' : n ∈ names' <;> simp [hn, hn', Option.or_assoc]
  · simp [hn]

theorem get?_inferAll_of_forall {σ : Subst} {declared : List Ty} {n : String}
    (ih : ∀ d ∈ declared, ∀ s, (d.infer (d.subst σ) s).get? n =
      (s.get? n).or (if n ∈ d.placeholders then readBack σ n else none)) (s : Subst) :
    (inferAll declared (substAll σ declared) s).get? n =
      (s.get? n).or (if n ∈ allPlaceholders declared then readBack σ n else none) := by
  induction declared generalizing s with
  | nil => simp [inferAll, allPlaceholders]
  | cons d ds ihds =>
    obtain ⟨hd, hds⟩ := List.forall_mem_cons.mp ih
    rw [substAll, inferAll, ihds hds, hd, or_readBack, allPlaceholders]

/-- Inference from a type that was made by a substitution reads back what the substitution has put
in. -/
theorem get?_infer_subst (declared : Ty) (s : Subst) :
    (declared.infer (declared.subst σ) s).get? n =
      (s.get? n).or (if n ∈ declared.placeholders then readBack σ n else none) := by
  induction declared using Ty.induction generalizing s with
  | error | prim _ => simp [subst, infer, placeholders]
  | generic m =>
    simp only [placeholders, List.mem_singleton]
    -- poison is read off as nothing, and everything else as itself
    cases hread : ((Ty.generic m).subst σ).isError with
    | true =>
      rw [isError_eq_true_iff.mp hread, infer]
      split
      · next hn => simp [hn, readBack, hread]
      · simp
    | false =>
      have hinfer : (Ty.generic m).infer ((Ty.generic m).subst σ) s =
        s.insertNew m ((Ty.generic m).subst σ) := by
        revert hread
        cases (Ty.generic m).subst σ <;> intro hread
        · cases hread
        all_goals rfl
      rw [hinfer, OrderedMap.get?_insertNew]
      split
      · next hn =>
        subst hn
        cases s.get? n <;> simp [readBack, hread]
      · simp
  | container c t ih => rw [subst, infer, if_pos rfl, ih, placeholders]
  | result v e ihv ihe => rw [subst, infer, ihe, ihv, or_readBack, placeholders]
  | fn ps r ihps ihr => rw [subst, infer, ihr, get?_inferAll_of_forall ihps, or_readBack, placeholders]
  | tuple ts ih => rw [subst, infer, get?_inferAll_of_forall ih, placeholders]
  | nominal k m ts ih => rw [subst, infer, if_pos ⟨rfl, rfl⟩, get?_inferAll_of_forall ih, placeholders]

/-- Poison is never recorded. -/
theorem get?_infer_ne_error {n : String} (declared actual : Ty) (s : Subst)
    (h : s.get? n ≠ some .error) :
    (declared.infer actual s).get? n ≠ some .error := by
  refine infer_induction (P := fun s => s.get? n ≠ some .error) hereditary_true declared actual
    trivial ?_ s h
  intro m _ t _ hne s' hs'
  rw [OrderedMap.get?_insertNew]
  split
  · next hn =>
    subst hn
    cases hold : s'.get? n with
    | none => simpa using hne
    | some u => simpa [hold] using hs'
  · exact hs'

end Ty

/-- The types that a call of the function finds for its type parameters if the types of its
arguments are made by the substitution: those that the substitution puts in, and poison for a type
parameter that no parameter mentions. -/
def Sig.typeArguments (f : Sig) (σ : Subst) : List Ty :=
  f.tyParams.map fun n => if n ∈ Ty.allPlaceholders f.paramTys then (Ty.generic n).subst σ else .error

/-- Once the open type parameters are closed, nothing is missing of what the substitution has put
in. -/
theorem Sig.Scoped.get?_closeWith {f : Sig} (hf : f.Scoped) (σ : Subst) (n : String) :
    ((Ty.inferAll f.paramTys (Ty.substAll σ f.paramTys) .empty).closeWith f.tyParams).get? n =
      (Subst.ofArguments f.tyParams (f.typeArguments σ)).get? n := by
  have hread : (Ty.inferAll f.paramTys (Ty.substAll σ f.paramTys) .empty).get? n =
      if n ∈ Ty.allPlaceholders f.paramTys then Ty.readBack σ n else none :=
    Ty.get?_inferAll_of_forall (fun d _ => Ty.get?_infer_subst σ n d) .empty
  rw [Subst.get?_closeWith, hread]
  -- what is not a type parameter is not mentioned by any parameter, so nothing was read off for it
  by_cases hn : n ∈ f.tyParams
  · rw [if_pos hn, typeArguments, Subst.get?_ofArguments_map _ hn]
    split
    · rw [Ty.getD_readBack]
    · rfl
  · rw [if_neg hn, Subst.get?_ofArguments_of_not_mem _ hn, if_neg]
    intro hmem
    obtain ⟨ty, hty, hplaceholder⟩ := Ty.mem_allPlaceholders.mp hmem
    exact hn (hf ty hty n hplaceholder)

namespace Binding

open Bindery.Bound

variable {s : State} {id : SymId} {f : Sig}

/-- A function that has type parameters is none of the built-in functions that are typed from their
arguments. -/
theorem ofName?_of_isGeneric (hgeneric : f.isGeneric = true)
    (hbuiltin : f.isBuiltin = true → f ∈ Builtin.sigs) :
    (if f.isBuiltin then Builtin.ofName? f.name else none) = none := by
  have hsigs : ∀ g ∈ Builtin.sigs, g.isGeneric = false := by decide
  split
  · next h => simp [hsigs f (hbuiltin h)] at hgeneric
  · rfl

/-- A name that is no variable but a generic function is called as that function, with nothing known
of its type arguments. -/
theorem repeats_resolveCallee {name : Ast.Name}
    (hvar : s.scopes.lookup .var s.current name.text = none)
    (hid : s.scopes.lookup .fn s.current name.text = some id) (hf : s.syms.sig? id = some f)
    (hbuiltin : f.isBuiltin = true → f ∈ Builtin.sigs) (hgeneric : f.isGeneric = true)
    (expected : Option Ty)
    (range : Range) :
    Repeats (resolveCallee expected (.name name) [] range) s (some (.fn id f .empty false true)) := by
  have hfn : Repeats (fnCallee id f name [] range) s (.fn id f .empty false true) := by
    unfold fnCallee
    rw [ofName?_of_isGeneric hgeneric hbuiltin]
    exact .seq (.pure [] s) (.pure _ s)
  have hnamed : Repeats (namedCallee expected name [] range) s (.fn id f .empty false true) := by
    refine .seq (.get s) ?_
    simp only [hid, Option.bind_eq_bind, Option.bind_some, hf]
    exact hfn
  refine .seq ⟨hvar, rfl⟩ ?_
  exact hnamed.seq (.pure _ s)

/-- A call whose arguments have exactly the types that a substitution makes of the parameters. -/
theorem repeats_finishFnCall_of_subst (hgeneric : f.isGeneric = true) (hscoped : f.Scoped)
    {σ : Subst} {bound : List Expr} (hbound : bound.map Expr.ty = f.paramTys.map (Ty.subst σ))
    (range : Range) (s : State) :
    Repeats (finishFnCall id f .empty false true bound range) s
      ⟨.call id (f.typeArguments σ) bound,
      f.ret.subst (.ofArguments f.tyParams (f.typeArguments σ)), range⟩ := by
  rw [← Ty.substAll_eq_map] at hbound
  have hlength : bound.length = f.params.length := by
    have := congrArg List.length hbound
    simpa [Ty.substAll_eq_map, Sig.paramTys] using this
  have hfits : Ty.compatibleAll true (Ty.substAll .empty f.paramTys) (bound.map Expr.ty) = true :=
    Ty.acceptsArguments_of_under (hbound ▸ Ty.belowAll_refl _) (Subst.under_empty σ)
  have hargs : ((Ty.inferAll f.paramTys (bound.map Expr.ty) .empty).closeWith
    f.tyParams).instantiate f.tyParams =
      f.typeArguments σ := by
    rw [hbound]
    refine List.map_congr_left fun n hn => ?_
    rw [hscoped.get?_closeWith, Sig.typeArguments, Subst.get?_ofArguments_map _ hn]
    rfl
  have hret : f.ret.subst ((Ty.inferAll f.paramTys (bound.map Expr.ty) .empty).closeWith f.tyParams) =
      f.ret.subst (.ofArguments f.tyParams (f.typeArguments σ)) := by
    rw [hbound]
    exact Ty.subst_congr _ fun n _ => hscoped.get?_closeWith σ n
  unfold finishFnCall
  rw [if_neg (not_not.mpr hlength), hgeneric, ← hret, ← hargs]
  exact (repeats_checkArguments hfits 1 s).seq (.pure _ s)

end Binding

open Binding Bindery.Bound

/-- Inference inverts substitution. If the arguments of a call of a generic function without
explicit type arguments have exactly the types that a substitution makes of the parameters, then the
call adds no finding to those of its arguments, and it has the type arguments that the substitution
puts in, poison for those that no parameter mentions, and the return type with these filled in.
Inference never changes an entry, adds entries only for placeholders of the declared type, and never
records poison. -/
theorem inference_inverts_substitution :
    (∀ (s : State) (expected : Option Ty) (origin : Origin) (name : Ast.Name) (args : List Ast.Expr)
      (id : SymId) (f : Sig) (σ : Subst),
      s.scopes.lookup .var s.current name.text = none →
      s.scopes.lookup .fn s.current name.text = some id → s.syms.sig? id = some f →
      (f.isBuiltin = true → f ∈ Builtin.sigs) → f.isGeneric = true → f.Scoped →
      (out (bindExprs (f.paramTys.map closedHint) args) s).map Expr.ty = f.paramTys.map (Ty.subst σ) →
      (bindExpr expected (.call origin (.name name) [] args)).run s =
        (⟨.call id (f.typeArguments σ) (out (bindExprs (f.paramTys.map closedHint) args) s),
            f.ret.subst (.ofArguments f.tyParams (f.typeArguments σ)), origin.range⟩,
          after (bindExprs (f.paramTys.map closedHint) args) s)) ∧
    ∀ (declared actual : Ty) (known : Subst) (n : String),
      (∀ t, known.get? n = some t → (declared.infer actual known).get? n = some t) ∧
      (n ∉ declared.placeholders → (declared.infer actual known).get? n = known.get? n) ∧
      (known.get? n = none → (declared.infer actual known).get? n ≠ some .error) := by
  refine ⟨?_, ?_⟩
  · intro s expected origin name args id f σ hvar hid hf hbuiltin hgeneric hscoped hbound
    have hcallee := repeats_resolveCallee hvar hid hf hbuiltin hgeneric expected origin.range
    have hhints : (Callee.fn id f .empty false true).hints = f.paramTys.map closedHint := by
      simp [Callee.hints, Ty.subst_empty]
    have hfinish := @repeats_finishFnCall_of_subst id f hgeneric hscoped σ _ hbound origin.range
      (after (bindExprs (f.paramTys.map closedHint) args) s)
    refine Prod.ext ?_ ?_
    · show out (bindExpr expected (.call origin (.name name) [] args)) s = _
      rw [bindExpr, out_bind, hcallee.1, hcallee.2]
      rw [out_bind, hhints]
      exact hfinish.1
    · show after (bindExpr expected (.call origin (.name name) [] args)) s = _
      rw [bindExpr, after_bind, hcallee.1, hcallee.2]
      rw [after_bind, hhints]
      exact hfinish.2
  · intro declared actual known n
    refine ⟨fun t ht => Ty.kept_infer declared actual known n t ht,
      Ty.get?_infer declared actual known, fun hn => ?_⟩
    exact Ty.get?_infer_ne_error declared actual known (by simp [hn])

/-- The file `fn gather<A, B, C>(xs: List<A>, y: B, more: List<(A, B)>) -> Result<A, (B, C)>`, with
a body that calls the function itself. -/
def gatherFile : Ast.SourceFile :=
  let name (text : String) : Ast.Name := ⟨default, text⟩
  let named (text : String) (args : List Ast.TyExpr) : Ast.TyExpr := .named default (name text) args
  let use (text : String) : Ast.Expr := .name (name text)
  ⟨default, default,
    [.fn default (name "gather") [name "A", name "B", name "C"]
      [⟨default, name "xs", named "List" [named "A" []]⟩, ⟨default, name "y", named "B" []⟩,
        ⟨default, name "more", named "List" [.tuple default [named "A" [], named "B" []]]⟩]
      (some (named "Result" [named "A" [], .tuple default [named "B" [], named "C" []]]))
      ⟨default, [.expr default (.call default (use "gather") [] [use "xs", use "y", use "more"])]⟩],
    "gather", ""⟩

/-- The state behind that file. -/
def afterGather : State := ((Session.start {}).bind gatherFile).2.state

/-- The signature of its function. -/
def gatherSig : Sig :=
  ⟨"gather", [⟨"xs", .list (.generic "A")⟩, ⟨"y", .generic "B"⟩,
    ⟨"more", .list (.tuple [.generic "A", .generic "B"])⟩],
    ["A", "B", "C"], .result (.generic "A") (.tuple [.generic "B", .generic "C"]), false, true⟩

/-- `gather([1], [q], [(2, [q])])`, with an unknown name `q`. -/
def gatherCall : List Ast.Expr :=
  let one (e : Ast.Expr) : Ast.Expr := .list default [e]
  let unknown : Ast.Expr := one (.name ⟨default, "q"⟩)
  [one (.literal default (.int 1)), unknown, one (.tuple default [.literal default (.int 2), unknown])]

/-- What the call puts in for the type parameters that its arguments show. -/
def gatherTypes : Subst := .ofArguments ["A", "B"] [.int, .list .error]

/-- The call makes `A` an integer and `B` a list of poison, and leaves `C` open. -/
theorem gather_call_reads_types_back :
    (bindExpr none (.call default (.name ⟨default, "gather"⟩) [] gatherCall)).run afterGather =
      (⟨.call 11 [.int, .list .error, .error]
      (out (bindExprs [none, none, none] gatherCall) afterGather),
          .result .int (.tuple [.list .error, .error]), default⟩,
        after (bindExprs [none, none, none] gatherCall) afterGather) := by
  have hargs : gatherSig.typeArguments gatherTypes = [.int, .list .error, .error] := by decide
  have hret : gatherSig.ret.subst (.ofArguments ["A", "B", "C"] [.int, .list .error, .error]) =
      .result .int (.tuple [.list .error, .error]) := by decide
  have hcall := inference_inverts_substitution.1 afterGather none default ⟨default, "gather"⟩
    gatherCall 11
    gatherSig gatherTypes (by decide +kernel) (by decide +kernel) (by decide +kernel) (by decide) rfl
    (by unfold Sig.Scoped; decide) (by decide +kernel)
  rw [hargs] at hcall
  rw [← hret]
  exact hcall

end Bindery
