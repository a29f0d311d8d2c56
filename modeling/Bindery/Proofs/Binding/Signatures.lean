import Bindery.Proofs.Binding.File
import Bindery.Proofs.Binding.Sites
import Bindery.Proofs.Binding.WrittenTypes
import Mathlib.Data.List.Nodup

/-!
# Signatures while bodies are bound

A function without a written return type is provisional, with the return type `Unit`, until its own
body is bound. The bodies are bound in the order of the declarations. So while one of them is bound,
a function is provisional exactly if its return type is not written and its body is this one or a
later one (`isOpen`), and otherwise its signature is the one that the finished file has.
-/

namespace Bindery

/-- Whether a statement declares a function with a written return type. -/
def Ast.Stmt.isAnnotated : Ast.Stmt → Bool
  | .fn _ _ _ _ annotation _ => annotation.isSome
  | _ => false

namespace Sig

/-- The parameters mention only the type parameters of the function. -/
def Scoped (f : Sig) : Prop := ∀ ty ∈ f.paramTys, ∀ n ∈ ty.placeholders, n ∈ f.tyParams

/-- The signature before its return type is inferred. -/
def provisional (f : Sig) : Sig := { f with ret := .unit, isFinal := false }

end Sig

variable {f : Sig} {id : SymId} {q : Bound.FnDecl × Ast.Stmt}

/-- A provisional signature is what it was before its return type was settled. -/
theorem Sig.provisional_settled (hunit : f.ret = .unit) (hopen : f.isFinal = false) (ret : Ty) :
    ({ f with ret, isFinal := true } : Sig).provisional = f := by
  cases f
  simp_all [provisional]

/-- Whether the return type of a function is still to be inferred while the first of the given
functions is bound and the others are not bound yet. -/
def isOpen (rest : List (Bound.FnDecl × Ast.Stmt)) (id : SymId) : Bool :=
  rest.any fun q => q.1.symbol == id && !q.2.isAnnotated

/-- The signature that a function of the finished file has while the first of the given functions is
bound. -/
def Symbols.sigDuring? (Γ : Symbols) (rest : List (Bound.FnDecl × Ast.Stmt)) (id : SymId) :
    Option Sig :=
  (Γ.sig? id).map fun f => if isOpen rest id then f.provisional else f

theorem Symbols.sigDuring?_nil (Γ : Symbols) : Γ.sigDuring? [] = Γ.sig? := by
  funext id
  simp [sigDuring?, isOpen]

theorem Symbols.sigDuring?_cons_of_ne {Γ : Symbols} (h : id ≠ q.1.symbol)
    (rest : List (Bound.FnDecl × Ast.Stmt)) :
    Γ.sigDuring? (q :: rest) id = Γ.sigDuring? rest id := by
  rw [sigDuring?, sigDuring?, isOpen, List.any_cons, ← isOpen]
  simp [Ne.symm h]

/-- While its own body is bound, a function is provisional unless its return type is written. -/
theorem Symbols.sigDuring?_cons_self {Γ : Symbols} {rest : List (Bound.FnDecl × Ast.Stmt)}
    {g : Sig} (hclosed : isOpen rest q.1.symbol = false) (hg : Γ.sigDuring? rest q.1.symbol = some g) :
    Γ.sigDuring? (q :: rest) q.1.symbol = some (if q.2.isAnnotated then g else g.provisional) := by
  rw [sigDuring?] at hg ⊢
  obtain ⟨f, hf, rfl⟩ := Option.map_eq_some_iff.mp hg
  rw [hf, Option.map_some, hclosed, isOpen, List.any_cons, ← isOpen, hclosed]
  cases hannotated : q.2.isAnnotated <;> simp

/-- Every function of the table has the property. -/
def Symbols.Fns (P : Symbol → Sig → Prop) (Γ : Symbols) : Prop :=
  ∀ id sym f, Γ.get? id = some sym → sym.kind = .fn f → P sym f

namespace Symbols.Fns

variable {P : Symbol → Sig → Prop} {Γ : Symbols}

theorem of_inside {s t : Binding.State} (h : s.syms.Fns P) (hst : Binding.Inside s t) :
    t.syms.Fns P := by
  intro id sym f hsym hkind
  rcases hst.added id sym hsym with hold | hlocal
  · exact h id sym f hold hkind
  · rw [hkind] at hlocal
    cases hlocal

theorem add {name : String} {kind : SymKind} {ty : Ty} {scope : Option ScopeId} {depth : Nat}
    (h : Γ.Fns P)
    (hkind : ∀ id f, kind = .fn f → P ⟨id, name, kind, ty, scope, depth⟩ f) :
    (Γ.add name kind ty scope depth).2.Fns P := by
  intro id sym g hsym hg
  rcases get?_add_cases hsym with ⟨-, rfl⟩ | hold
  · exact hkind _ g hg
  · exact h id sym g hold hg

theorem setSig (h : Γ.Fns P) (hf : ∀ sym : Symbol, sym.ty = f.ty → P sym f) :
    (Γ.setSig id f).Fns P := by
  intro j sym g hsym hkind
  rw [get?_setSig] at hsym
  split at hsym
  · obtain ⟨sym', -, rfl⟩ := Option.map_eq_some_iff.mp hsym
    cases hkind
    exact hf _ rfl
  · exact h j sym g hsym hkind

end Symbols.Fns

/-- Every function of the table has the type of its signature, and a function of the file mentions
only its own type parameters. -/
def Symbols.Signed (Γ : Symbols) : Prop :=
  ∀ id sym f, Γ.get? id = some sym → sym.kind = .fn f → sym.ty = f.ty ∧
    (f.isBuiltin = false → f.Scoped)

namespace Symbols.Signed

variable {Γ : Symbols}

theorem of_inside {s t : Binding.State} (h : s.syms.Signed) (hst : Binding.Inside s t) :
    t.syms.Signed :=
  Fns.of_inside h hst

theorem setSig (h : Γ.Signed) (hf : f.isBuiltin = false → f.Scoped) :
    (Γ.setSig id f).Signed := Fns.setSig h fun _ hty => ⟨hty, hf⟩

theorem scoped_of_sig? (h : Γ.Signed) (hf : Γ.sig? id = some f) (hb : f.isBuiltin = false) :
    f.Scoped := by
  obtain ⟨sym, hsym, hkind⟩ := sig?_eq_some_iff.mp hf
  exact (h id sym f hsym hkind).2 hb

end Symbols.Signed

namespace Binding

open Bindery.Bound

variable {s t : State} {all : List Ast.Stmt}

/-! ## Written signatures -/

theorem isSome_resolveType? (e : Option Ast.TyExpr) (s : State) :
    (out (resolveType? e) s).isSome = e.isSome := by
  cases e <;> rfl

section

variable (name : Ast.Name) (tyParams : List Ast.Name) (params : List Ast.Param)
  (ret : Option Ast.TyExpr)

/-- A written signature is provisional exactly if no return type is written. -/
theorem writtenSig_ret (s : State) :
    (out (writtenSig name tyParams params ret) s).isFinal = ret.isSome ∧
      (ret = none → (out (writtenSig name tyParams params ret) s).ret = .unit) := by
  refine ⟨isSome_resolveType? ret _, ?_⟩
  rintro rfl
  rfl

theorem scoped_writtenSig (s : State) : (out (writtenSig name tyParams params ret) s).Scoped := by
  rw [writtenSig, out_bind, out_withGenerics, out_bind, out_bind, out_pure]
  intro ty hty n hn
  simp only [Sig.paramTys, List.map_map] at hty
  obtain ⟨p, hp, rfl⟩ := List.mem_map.mp hty
  exact placeholders_resolveTypes _ _ _ (List.of_mem_zip hp).2 n hn

/-- A declared function gets the next number and the signature that is written. -/
theorem syms_declareSig (hs : s.Top) :
    out (declareSig name tyParams params ret) s = s.syms.size ∧
      (after (declareSig name tyParams params ret) s).syms =
        (s.addingFn (out (writtenSig name tyParams params ret) s)).syms := by
  obtain ⟨u, f, hu, rfl, hout, hafter⟩ := declareSig_cases name tyParams params ret hs
  have hsyms : u.syms = s.syms := hu ▸ Checks.syms_eq _ s
  refine ⟨hout.trans (congrArg Symbols.size hsyms), ?_⟩
  rcases hafter with ⟨-, hafter⟩ | ⟨-, hafter⟩ <;> rw [hafter] <;> exact congrArg
    (fun syms : Symbols => (syms.add _ _ _ _ _).2) hsyms

end

/-- A step that prepares the bodies declares built-in functions and functions with scoped
signatures. -/
theorem Step.fns {P : Symbol → Sig → Prop} (h : Step all s t) (hs : s.Top) (hall : s.syms.Fns P)
    (hP : ∀ (sym : Symbol) f, f ∈ Builtin.sigs ∨ f.Scoped → sym.ty = f.ty → P sym f) :
    t.syms.Fns P := by
  cases h with
  | checks m => exact hall.of_inside (.of_grows (Keeps.grows [] m s))
  | naming | type => exact hall
  | field field hu =>
    rw [hu]
    refine (hall.of_inside (.of_grows (Keeps.grows [] (resolveType field.annot) s))).add ?_
    rintro _ _ ⟨⟩
  | variant variant hu =>
    rw [hu]
    refine (hall.of_inside (.of_grows (Keeps.grows [] (resolveType? variant.payload) s))).add ?_
    rintro _ _ ⟨⟩
  | builtin hf =>
    refine hall.add ?_
    rintro _ _ ⟨⟩
    exact hP _ _ (.inl hf) rfl
  | @sig _ name tyParams params ret _ _ =>
    rw [(syms_declareSig name tyParams params ret hs).2]
    refine hall.add ?_
    rintro _ _ ⟨⟩
    exact hP _ _ (.inr (scoped_writtenSig name tyParams params ret s)) rfl

theorem Prepares.fns {P : Symbol → Sig → Prop} (h : Prepares all s t) (hs : s.Top)
    (hall : s.syms.Fns P)
    (hP : ∀ (sym : Symbol) f, f ∈ Builtin.sigs ∨ f.Scoped → sym.ty = f.ty → P sym f) : t.syms.Fns P :=
  h.keeps (C := fun u => u.syms.Fns P) hs (fun htop hstep hu => hstep.fns htop hu hP) hall

theorem Prepares.signed (h : Prepares all s t) (hs : s.Top) (hsigned : s.syms.Signed) :
    t.syms.Signed := by
  refine h.fns hs hsigned fun sym f hf hty => ⟨hty, fun hb => hf.resolve_left fun hbuiltin => ?_⟩
  have hmarked : ∀ f ∈ Builtin.sigs, f.isBuiltin = true := by decide
  rw [hmarked f hbuiltin] at hb
  cases hb

/-! ## Declared functions -/

/-- Each function declaration has a symbol of its own, under its name, which is provisional unless
its return type is written. -/
structure Announced (sigs : List (Nat × SymId)) (index : Nat) (stmts : List Ast.Stmt)
    (syms : Symbols) : Prop where
  written : ∀ j origin name tyParams params ret body,
    stmts[j]? = some (.fn origin name tyParams params ret body) →
      ∃ id f, sigs.lookup (index + j) = some id ∧ syms.sig? id = some f ∧
        f.isFinal = ret.isSome ∧ (ret = none → f.ret = .unit) ∧ f.name = name.text
  distinct : (sigs.map Prod.snd).Nodup

variable {stmt : Ast.Stmt}

theorem declareSigs_of_skip (h : stmt.isFn = false) (index : Nat) (stmts : List Ast.Stmt) :
    (declareSigs index (stmt :: stmts) : Binding _) = declareSigs (index + 1) stmts := by
  cases stmt with
  | fn => cases h
  | _ => rfl

/-- The functions get increasing numbers, and their symbols stay as they are declared. -/
theorem announced_declareSigs (index : Nat) (stmts : List Ast.Stmt) (hs : s.Top) :
    s.syms ≤ (after (declareSigs index stmts) s).syms ∧
      (∀ q ∈ out (declareSigs index stmts) s, s.syms.size ≤ q.2) ∧
      Announced (out (declareSigs index stmts) s) index stmts
        (after (declareSigs index stmts) s).syms := by
  induction stmts generalizing index s with
  | nil => exact ⟨Symbols.le_refl _, by simp [declareSigs], by simp, .nil⟩
  | cons stmt stmts ih =>
    cases hfn : stmt.isFn with
    | false =>
      rw [declareSigs_of_skip hfn]
      obtain ⟨hle, hsize, hannounced⟩ := ih (index + 1) hs
      refine ⟨hle, hsize, fun j origin name tyParams params ret body hj => ?_, hannounced.distinct⟩
      cases j with
      | zero =>
        cases hj
        cases hfn
      | succ j =>
        obtain ⟨id, f, hid, hf⟩ := hannounced.written j _ _ _ _ _ _ hj
        exact ⟨id, f, by rwa [Nat.succ_add_eq_add_succ] at hid, hf⟩
    | true =>
      cases stmt with
      | fn origin name tyParams params ret body =>
        rw [declareSigs_fn, after_bind, after_bind, after_pure, out_bind, out_bind, out_pure]
        obtain ⟨hid, hsyms⟩ := syms_declareSig name tyParams params ret hs
        have hstep : Step [.fn origin name tyParams params ret body] s
          (after (declareSig name tyParams params ret) s) := .sig List.mem_cons_self s
        obtain ⟨hle, hsize, hannounced⟩ := ih (index + 1) (hstep.sound hs).1
        have hadd : s.syms ≤ (after (declareSig name tyParams params ret) s).syms := by
          rw [hsyms]
          exact Symbols.le_add _ _ _ _ _ _
        have hsize' : (after (declareSig name tyParams params ret) s).syms.size = s.syms.size + 1 := by
          rw [hsyms]
          exact Symbols.size_add _ _ _ _ _ _
        rw [hsize'] at hsize
        refine ⟨Symbols.le_trans hadd hle, ?_, ?_, ?_⟩
        · refine List.forall_mem_cons.mpr ⟨Nat.le_of_eq hid.symm, fun q hq => ?_⟩
          exact Nat.le_of_succ_le (hsize q hq)
        · intro j origin' name' tyParams' params' ret' body' hj
          cases j with
          | zero =>
            cases hj
            obtain ⟨hfinal, hunit⟩ := writtenSig_ret name tyParams params ret s
            refine ⟨s.syms.size, _, by simp [hid], ?_, hfinal, hunit, rfl⟩
            refine Symbols.sig?_of_le hle ?_
            rw [hsyms]
            exact Symbols.sig?_eq_some_iff.mpr ⟨_, get?_addingFn s _, rfl⟩
          | succ j =>
            obtain ⟨id, f, hid', hf⟩ := hannounced.written j _ _ _ _ _ _ hj
            refine ⟨id, f, ?_, hf⟩
            rw [Nat.succ_add_eq_add_succ] at hid'
            rw [List.lookup_cons, beq_false_of_ne (by omega), hid']
        · rw [List.map_cons, List.nodup_cons]
          refine ⟨fun hmem => ?_, hannounced.distinct⟩
          obtain ⟨q, hq, heq⟩ := List.mem_map.mp hmem
          have hlt := hsize q hq
          rw [heq, hid] at hlt
          omega
      | _ => cases hfn

theorem Phases.announced {stmts : List Ast.Stmt} (ph : Phases stmts) :
    Announced ph.sigs 0 stmts ph.start.syms := by
  obtain ⟨u, hu, -, hsigs, hstart⟩ := ph.declares
  rw [hsigs, hstart]
  exact (announced_declareSigs 0 stmts hu).2.2

/-! ## Bodies -/

/-- Binding the body of a function and settling its return type changes no other signature. -/
theorem sig?_settled {u : State} (hsu : Grows [] s u) (hf : s.syms.sig? id = some f)
    (frame : FnFrame) (trailing : Option (Ty × Range)) :
    (∃ g, (u.settled id f frame trailing).syms.sig? id = some g ∧
        (f.isFinal = true → g = f) ∧
          (f.isFinal = false → ∃ ret, g = { f with ret, isFinal := true })) ∧
      ∀ j ≠ id, (u.settled id f frame trailing).syms.sig? j = s.syms.sig? j := by
  obtain ⟨fs, hafter⟩ := Checks.exists_reporting (settleReturn frame trailing) u
  have hsame : ∀ j, (u.reporting fs).syms.sig? j = s.syms.sig? j :=
    (Inside.of_grows hsu).sig?_eq
  rw [State.settled, hafter]
  split
  · next hfinal =>
    refine ⟨⟨f, (hsame id).trans hf, fun _ => rfl, fun h => ?_⟩, fun j _ => hsame j⟩
    rw [hfinal] at h
    cases h
  · next hfinal =>
    obtain ⟨sym, hsym, -⟩ := Symbols.sig?_eq_some_iff.mp ((hsame id).trans hf)
    refine ⟨⟨{ f with ret := out (settleReturn frame trailing) u, isFinal := true }, ?_, fun h =>
      absurd h hfinal,
      fun _ => ⟨_, rfl⟩⟩, fun j hj => ?_⟩
    · rw [State.resigning, Symbols.sig?, Symbols.get?_setSig, if_pos rfl, hsym]
      rfl
    · rw [State.resigning, Symbols.sig?, Symbols.get?_setSig, if_neg hj.symm]
      exact hsame j

theorem signed_settled (hs : s.syms.Signed) (hf : s.syms.sig? id = some f) (frame : FnFrame)
    (trailing : Option (Ty × Range)) : (s.settled id f frame trailing).syms.Signed := by
  have hsettle : (after (settleReturn frame trailing) s).syms.Signed :=
    hs.of_inside (.of_grows (Keeps.grows [] (settleReturn frame trailing) s))
  rw [State.settled]
  split
  · exact hsettle
  · have hscoped : f.isBuiltin = false → f.Scoped := hs.scoped_of_sig? hf
    exact hsettle.setSig hscoped

namespace Bodies

variable {sigs : List (Nat × SymId)} {index : Nat} {stmts : List Ast.Stmt}
  {fns : List FnDecl}

theorem signed (h : Bodies sigs index stmts s fns t) (hs : s.syms.Signed) : t.syms.Signed := by
  induction h with
  | nil => exact hs
  | skip _ _ ih => exact ih hs
  | @body _ _ name _ params _ body _ s _ _ id f _ block returns htop _ hf _ _ _ _ ih =>
    have hgrows := Keeps.grows [] (bindFnScope f name params body) s
    have hsig := Symbols.sig?_of_le hgrows.syms hf
    exact ih (signed_settled (hs.of_inside (.of_grows hgrows)) hsig _ _)

/-- Each bound function has the symbol of a declaration. -/
theorem exists_lookup (h : Bodies sigs index stmts s fns t) :
    ∀ d ∈ fns, ∃ i, index ≤ i ∧ sigs.lookup i = some d.symbol := by
  induction h with
  | nil => simp
  | skip _ _ ih =>
    intro d hd
    obtain ⟨i, hi, hlookup⟩ := ih d hd
    exact ⟨i, Nat.le_of_succ_le hi, hlookup⟩
  | body _ hid _ _ _ _ _ ih =>
    refine List.forall_mem_cons.mpr ⟨⟨_, Nat.le_refl _, hid⟩, fun d hd => ?_⟩
    obtain ⟨i, hi, hlookup⟩ := ih d hd
    exact ⟨i, Nat.le_of_succ_le hi, hlookup⟩

end Bodies

theorem Phases.signed_final {stmts : List Ast.Stmt} (ph : Phases stmts) : ph.final.syms.Signed :=
  (ph.bodies.signed (ph.prepares.signed top_initial fun _ _ _ h => by cases h)).of_inside
    (.of_grows ph.grows_final)

namespace Announced

variable {sigs : List (Nat × SymId)} {index : Nat} {stmts : List Ast.Stmt} {syms : Symbols}

/-- Different declarations have different symbols. -/
theorem lookup_inj (h : Announced sigs index stmts syms) {i j : Nat} (hi : sigs.lookup i = some id)
    (hj : sigs.lookup j = some id) : i = j := by
  have hmem : ∀ {k : Nat}, sigs.lookup k = some id → (k, id) ∈ sigs := by
    intro k hk
    obtain ⟨l, r, rfl, -⟩ := List.lookup_eq_some_iff.mp hk
    simp
  exact congrArg Prod.fst (List.inj_on_of_nodup_map h.distinct (hmem hi) (hmem hj) rfl)

/-- The declarations after the first. -/
theorem tail {syms' : Symbols} (h : Announced sigs index (stmt :: stmts) syms)
    (hsig : ∀ i id, index < i → sigs.lookup i = some id → syms'.sig? id = syms.sig? id) :
    Announced sigs (index + 1) stmts syms' where
  written j origin name tyParams params ret body hj := by
    obtain ⟨id, f, hid, hf, hret⟩ := h.written (j + 1) origin name tyParams params ret body hj
    refine ⟨id, f, by rwa [Nat.succ_add_eq_add_succ], ?_, hret⟩
    rw [hsig _ id (by omega) hid]
    exact hf
  distinct := h.distinct

/-- The first function has a symbol of its own. -/
theorem ne_of_lookup (h : Announced sigs index stmts syms) {i : Nat} {j : SymId}
    (hid : sigs.lookup index = some id) (hi : index < i) (hj : sigs.lookup i = some j) : j ≠ id := by
  rintro rfl
  exact absurd (h.lookup_inj hj hid) (by omega)

/-- Once the first function is bound, the others are as they were announced. -/
theorem settled {u : State} (h : Announced sigs index (stmt :: stmts) s.syms) (hsu : Grows [] s u)
    (hid : sigs.lookup index = some id) (hf : s.syms.sig? id = some f) (frame : FnFrame)
    (trailing : Option (Ty × Range)) :
    Announced sigs (index + 1) stmts (u.settled id f frame trailing).syms :=
  h.tail fun _ j hi hj => (sig?_settled hsu hf frame trailing).2 j (h.ne_of_lookup hid hi hj)

end Announced

/-- While the bodies are bound, the signatures are those of the end, except that some are still
open. -/
theorem Bodies.sig?_eq {sigs : List (Nat × SymId)} {index : Nat} {stmts : List Ast.Stmt}
    {fns : List FnDecl} (h : Bodies sigs index stmts s fns t)
    (hannounced : Announced sigs index stmts s.syms) :
    s.syms.sig? = t.syms.sigDuring? (fns.zip (stmts.filter Ast.Stmt.isFn)) := by
  induction h with
  | nil => exact (Symbols.sigDuring?_nil _).symm
  | skip hskip _ ih =>
    rw [List.filter_cons_of_neg (by simp [hskip])]
    exact ih (hannounced.tail fun _ _ _ _ => rfl)
  | @body index origin name tyParams params ret body stmts s t fns id f syms block returns htop hid
      hf hb hparams hscope hrest ih =>
    have hgrows := Keeps.grows [] (bindFnScope f name params body) s
    obtain ⟨⟨g, hg, hfinal, hopen⟩, hother⟩ :=
      sig?_settled hgrows hf ((bodyFrame f name).noting returns)
      (blockCandidate block)
    have hrest' := ih (hannounced.settled hgrows hid hf _ _)
    rw [List.filter_cons_of_pos rfl, List.zip_cons_cons]
    funext j
    by_cases hj : j = id
    · -- the function whose body is bound first: no later function has its symbol
      subst hj
      have hclosed : isOpen (fns.zip (stmts.filter Ast.Stmt.isFn)) j = false := by
        rw [isOpen, List.any_eq_false]
        intro q hq
        obtain ⟨i, hi, hlookup⟩ := hrest.exists_lookup q.1 (List.of_mem_zip hq).1
        have hne := hannounced.ne_of_lookup hid (by omega) hlookup
        simp [hne]
      rw [hrest'] at hg
      obtain ⟨id', f', hid', hf', hisFinal, hunit, -⟩ := hannounced.written 0 _ _ _ _ _ _ rfl
      obtain rfl : j = id' := Option.some.inj (hid.symm.trans hid')
      obtain rfl : f = f' := Option.some.inj (hf.symm.trans hf')
      refine Eq.trans ?_ (Symbols.sigDuring?_cons_self hclosed hg).symm
      rw [hf]
      cases ret with
      | some ty => exact congrArg some (hfinal hisFinal).symm
      | none =>
        obtain ⟨r, rfl⟩ := hopen hisFinal
        exact congrArg some (Sig.provisional_settled (hunit rfl) hisFinal r).symm
    · rw [← hother j hj, hrest', Symbols.sigDuring?_cons_of_ne hj]

end Binding

end Bindery
