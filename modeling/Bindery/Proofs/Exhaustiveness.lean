import Bindery.Proofs.Binding.File
import Bindery.Proofs.Bound.Coverage

/-!
# Exhaustive matches

In a file without diagnostics every match has, for each value of the matched type, an arm that
matches the value or is excused from doing so (`Bound.Pattern.Excused`). The three excuses cannot be
left out: for each of them there is a file without diagnostics and a value that no arm of its match
matches.
-/

namespace Bindery

open Bindery.Bound

/-- For every value of the matched type some arm of a match matches the value or is excused. -/
theorem match_covers_values {session : Session} {file : Ast.SourceFile} {p : Program}
    (h : session.BindsQuietly file p) {scrutinee : Expr} {arms : List Arm} {ty : Ty} {range : Range}
    (hmatch : Node.expr ⟨.matchOn scrutinee arms, ty, range⟩ ∈ p.nodes true) {v : Value}
    (hv : v.HasType p.syms scrutinee.ty) :
    ∃ before arm after, arms = before ++ arm :: after ∧
      (arm.pattern.matches v = true ∨ arm.pattern.Excused p.syms (before.map Arm.pattern)
      scrutinee.ty v) := by
  obtain ⟨ph, rfl, hsilent⟩ := h.exists_phases
  obtain ⟨hcheck, hfits⟩ := ph.lawful hsilent _ hmatch
  have hfits' : ∀ q ∈ arms.map Arm.pattern, q.Fits ph.final.registry scrutinee.ty := by
    intro q hq
    obtain ⟨arm, harm, rfl⟩ := List.mem_map.mp hq
    exact hfits arm harm
  obtain ⟨before, q, after, hsplit, hq⟩ := checkMatch_covers ph.top_final.recorded hcheck hfits' hv
  obtain ⟨before', rest, rfl, rfl, hrest⟩ := List.map_eq_append_iff.mp hsplit
  obtain ⟨arm, after', rfl, rfl, rfl⟩ := List.map_eq_cons_iff.mp hrest
  exact ⟨before', arm, after', rfl, hq⟩

/-! ## Small files -/

section Files

open Ast

/-- `sum Opt { Some(Int), None }`. -/
def optionDecl : Ast.Stmt :=
  .sum default ⟨default, "Opt"⟩ []
    [⟨default, ⟨default, "Some"⟩, some (.named default ⟨default, "Int"⟩ [])⟩,
      ⟨default, ⟨default, "None"⟩, none⟩]

/-- A file with the sum `Opt` and a function that matches its parameter, whose type is written as a
name, with the patterns; each arm gives zero. -/
def matchFile (tyParams : List String) (type : String) (patterns : List Ast.Pattern) : SourceFile :=
  let arms : List Ast.Arm := patterns.map fun p => ⟨default, p, .literal default (.int 0)⟩
  let body : Ast.Expr := .matchOn default (.name ⟨default, "v"⟩) arms
  ⟨default, default,
    [optionDecl,
      .fn default ⟨default, "f"⟩ (tyParams.map fun name => ⟨default, name⟩)
        [⟨default, ⟨default, "v"⟩, .named default ⟨default, type⟩ []⟩]
        (some (.named default ⟨default, "Int"⟩ [])) ⟨default, [.ret default (some body)]⟩],
    "match", ""⟩

/-- `match v { Some(x) => 0, None => 0 }`. -/
def completeMatch : SourceFile :=
  matchFile [] "Opt" [.variant default ⟨default, "Some"⟩ (some (.name ⟨default, "x"⟩)),
    .name ⟨default, "None"⟩]

/-- `match v { Some(1) => 0, None => 0 }`. -/
def refutablePayload : SourceFile :=
  matchFile [] "Opt" [.variant default ⟨default, "Some"⟩ (some (.literal default (.int 1))),
    .name ⟨default, "None"⟩]

/-- `match v { None => 0, None => 0 }`. -/
def repeatedBareName : SourceFile :=
  matchFile [] "Opt" [.name ⟨default, "None"⟩, .name ⟨default, "None"⟩]

/-- `match v { (_, _) => 0 }`, where the type of `v` is a type parameter. -/
def tupleOfPlaceholder : SourceFile :=
  matchFile ["T"] "T" [.tuple default [.wildcard default, .wildcard default]]

end Files

/-- The symbol of the variant `Some` in the files above. -/
def someSymbol : Symbol := ⟨11, "Some", .variant "Opt" (some .int), .sum "Opt" [], none, 0⟩

/-- The value `Some(n)` in the files above. -/
def someValue (n : Int64) : Value := .variant 11 (some (.literal (.int n)))

theorem hasType_someValue {Γ : Symbols} (h : Γ.get? 11 = some someSymbol) (n : Int64) :
    (someValue n).HasType Γ (.sum "Opt" []) :=
  .payload ⟨someSymbol, .int, [], h, rfl, rfl, rfl⟩ (.literal rfl)

/-- Whether a node is a match on a value of type `target` of whose arms `P` holds. -/
def Bound.Node.isMatchOn (target : Ty) (P : List Arm → Bool) : Node → Bool
  | .expr ⟨.matchOn scrutinee arms, _, _⟩ => decide (scrutinee.ty = target) && P arms
  | _ => false

theorem exists_match {p : Program} {target : Ty} {P : List Arm → Bool}
    (h : (p.nodes true).any (Node.isMatchOn target P) = true) :
    ∃ scrutinee arms ty range, Node.expr ⟨.matchOn scrutinee arms, ty, range⟩ ∈ p.nodes true ∧
      scrutinee.ty = target ∧ P arms = true := by
  obtain ⟨n, hn, hmatch⟩ := List.any_eq_true.mp h
  unfold Node.isMatchOn at hmatch
  split at hmatch
  · next scrutinee arms ty range =>
    rw [Bool.and_eq_true, decide_eq_true_eq] at hmatch
    exact ⟨scrutinee, arms, ty, range, hn, hmatch⟩
  · cases hmatch

/-- A complete match of a sum has an arm for a variant with a payload. -/
theorem completeMatch_covers :
    ∃ p scrutinee arms ty range, (Session.start {}).BindsQuietly completeMatch p ∧
      Node.expr ⟨.matchOn scrutinee arms, ty, range⟩ ∈ p.nodes true ∧
      (someValue 2).HasType p.syms scrutinee.ty ∧
      ∃ before arm after, arms = before ++ arm :: after ∧
        (arm.pattern.matches (someValue 2) = true ∨
          arm.pattern.Excused p.syms (before.map Arm.pattern) scrutinee.ty (someValue 2)) := by
  obtain ⟨p, hquiet, hp⟩ := exists_bindsQuietly {} completeMatch
    (fun p => decide (p.syms.get? 11 = some someSymbol) &&
      (p.nodes true).any (Node.isMatchOn (.sum "Opt" []) fun _ => true)) (by decide)
        (by decide +kernel)
  rw [Bool.and_eq_true, decide_eq_true_eq] at hp
  obtain ⟨scrutinee, arms, ty, range, hnode, htarget, -⟩ := exists_match hp.2
  have hv : (someValue 2).HasType p.syms scrutinee.ty := htarget ▸ hasType_someValue hp.1 2
  exact ⟨p, scrutinee, arms, ty, range, hquiet, hnode, hv, match_covers_values hquiet hnode hv⟩

/-- The file binds without diagnostics, but no arm of a match in it matches some value of the
matched type. -/
def MissesValue (file : Ast.SourceFile) : Prop :=
  ∃ p scrutinee arms ty range v, (Session.start {}).BindsQuietly file p ∧
    Node.expr ⟨.matchOn scrutinee arms, ty, range⟩ ∈ p.nodes true ∧ v.HasType p.syms scrutinee.ty ∧
    ∀ arm ∈ arms, arm.pattern.matches v = false

/-- Whether no arm matches the value. -/
def noneMatches (v : Value) (arms : List Arm) : Bool := arms.all fun arm => !arm.pattern.matches v

theorem missesValue_of_noneMatches {file : Ast.SourceFile} {p : Program} {target : Ty} {v : Value}
    (hquiet : (Session.start {}).BindsQuietly file p)
    (h : (p.nodes true).any (Node.isMatchOn target (noneMatches v)) = true)
    (hv : v.HasType p.syms target) :
    MissesValue file := by
  obtain ⟨scrutinee, arms, ty, range, hnode, htarget, hnone⟩ := exists_match h
  refine ⟨p, scrutinee, arms, ty, range, v, hquiet, hnode, htarget ▸ hv, fun arm harm => ?_⟩
  simpa using List.all_eq_true.mp hnone arm harm

/-- A match that asks something of a payload, one that names a variant twice and nothing else, and
one that takes a placeholder for a tuple all miss a value. -/
theorem accepted_matches_miss_values :
    MissesValue refutablePayload ∧ MissesValue repeatedBareName ∧ MissesValue tupleOfPlaceholder := by
  have hsum : ∀ file, ((bindFile {} file).toOption.any fun r => r.diagnostics.isEmpty &&
      (decide (r.program.syms.get? 11 = some someSymbol) &&
        (r.program.nodes true).any (Node.isMatchOn (.sum "Opt" []) (noneMatches (someValue 2))))) =
          true →
      MissesValue file := by
    intro file h
    obtain ⟨p, hquiet, hp⟩ :=
      exists_bindsQuietly {} file (fun p => decide (p.syms.get? 11 = some someSymbol) &&
      (p.nodes true).any (Node.isMatchOn (.sum "Opt" []) (noneMatches (someValue 2)))) (by decide) h
    rw [Bool.and_eq_true, decide_eq_true_eq] at hp
    exact missesValue_of_noneMatches hquiet hp.2 (hasType_someValue hp.1 2)
  refine ⟨hsum _ (by decide +kernel), hsum _ (by decide +kernel), ?_⟩
  obtain ⟨p, hquiet, hp⟩ := exists_bindsQuietly {} tupleOfPlaceholder
    (fun p => (p.nodes true).any (Node.isMatchOn (.generic "T") (noneMatches .other))) (by decide)
    (by decide +kernel)
  exact missesValue_of_noneMatches hquiet hp (.placeholder _ _)

end Bindery
