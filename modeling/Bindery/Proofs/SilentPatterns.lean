import Bindery.Proofs.Binding.Tree
import Bindery.Proofs.Bound.Nodes
import Bindery.Proofs.Repetition

/-!
# Patterns against poison

What a pattern is matched with may have been reported already. Its type is then poison, and the
pattern is bound without a word about it, at every depth: binding it comes to declaring its
identifiers as variables of poison type, from left to right (`NamesDeclared`), also those that would
name a variant of a sum. All that is still reported is a name that the scope has already.
-/

namespace Bindery

/-- A variant in a pattern that stands for no variant of a sum. -/
def Bound.Node.IsUnresolved : Bound.Node → Prop
  | .pattern ⟨.variant _ symbol _ _, _, _⟩ => symbol = none
  | _ => True

namespace Binding

open Ast (Name)

/-! ## Declaring names one after another -/

/-- The immutable variables of poison type that names become in a scope, counted from `next`. -/
def poisonedVars (scope : ScopeId) (depth : Nat) (next : SymId) (names : List Name) : List Symbol :=
  (names.zipIdx next).map fun e => ⟨e.2, e.1.text, .var false, .error, some scope, depth⟩

/-- The names that are added to a scope where some are taken, with the numbers of their symbols,
counted from `next`. -/
def freshNames (taken : List String) (next : SymId) (names : List Name) : List (String × SymId) :=
  (firsts (fun e => e.1.text) taken (names.zipIdx next)).map fun e => (e.1.text, e.2)

section

variable {taken taken' : List String} {next : SymId} {ns : List Name}

theorem map_text_zipIdx (next : SymId) (ns : List Name) :
    (ns.zipIdx next).map (fun e => e.1.text) = ns.map Name.text := by
  rw [← List.zipIdx_map_fst next ns, List.map_map, List.zipIdx_map_fst]
  rfl

theorem mem_freshNames (x : String) :
    x ∈ (freshNames taken next ns).map Prod.fst ↔ x ∉ taken ∧ x ∈ ns.map Name.text := by
  rw [← map_text_zipIdx next, ← mem_map_firsts, freshNames, List.map_map]
  rfl

theorem freshNames_append (h : ∀ x, x ∈ taken' ↔ x ∈ taken ∨ x ∈ ns.map Name.text) (ms : List Name) :
    freshNames taken next (ns ++ ms) = freshNames taken next ns ++ freshNames taken'
      (next + ns.length) ms := by
  rw [← map_text_zipIdx next] at h
  rw [freshNames, List.zipIdx_append, firsts, occurring_append _ _ h, List.map_append]
  rfl

end

/-- The second state is the first one with the names declared in the scope `sc`, the current one.
Each name gets a symbol; those that are taken are reported, the others are added to the variables of
the scope. -/
structure NamesDeclared (sc : Scope) (names : List Name) (s t : State) : Prop where
  findings : t.findings.toList = s.findings.toList ++
    (repeats Name.text sc.varNames.keys names).map fun n => ⟨n.range, .alreadyDeclared n.text⟩
  syms : t.syms.toList = s.syms.toList ++ poisonedVars s.current sc.depth s.syms.size names
  table : ∃ table, t.scopes.get? s.current = some { sc with varNames := table } ∧
    table.entries = sc.varNames.entries ++ freshNames sc.varNames.keys s.syms.size names
  others : ∀ c, c ≠ s.current → t.scopes.get? c = s.scopes.get? c
  rest : t = { s with findings := t.findings, syms := t.syms, scopes := t.scopes }

variable {s t u : State} {sc : Scope} {ns ms : List Name}

namespace NamesDeclared

theorem size (h : NamesDeclared sc ns s t) : t.syms.size = s.syms.size + ns.length := by
  have hlength := congrArg List.length h.syms
  simpa [Symbols.toList, Symbols.size, poisonedVars] using hlength

theorem current (h : NamesDeclared sc ns s t) : t.current = s.current := by rw [h.rest]

theorem refl (hsc : s.scopes.get? s.current = some sc) : NamesDeclared sc [] s s :=
  ⟨(List.append_nil _).symm, (List.append_nil _).symm, ⟨_, hsc, (List.append_nil _).symm⟩,
    fun _ _ => rfl, rfl⟩

/-- More names are declared in the scope as the first ones have left it. -/
theorem trans (h : NamesDeclared sc ns s t) {table : OrderedMap String SymId}
    (htable : t.scopes.get? s.current = some { sc with varNames := table })
    (hlater : NamesDeclared { sc with varNames := table } ms t u) :
    NamesDeclared sc (ns ++ ms) s u := by
  have hcurrent := h.current
  obtain ⟨table', htable', hentries⟩ := h.table
  obtain rfl : table' = table := congrArg Scope.varNames (Option.some.inj (htable'.symm.trans htable))
  -- A name of `ns` that was not new is a key of `sc` already, so the table left behind has all of
  -- them.
  have htaken : ∀ x, x ∈ table'.keys ↔ x ∈ sc.varNames.keys ∨ x ∈ ns.map Name.text := by
    intro x
    rw [OrderedMap.keys, hentries, List.map_append, List.mem_append, mem_freshNames]
    by_cases hx : x ∈ sc.varNames.keys
    · exact iff_of_true (.inl hx) (.inl hx)
    · exact or_congr_right (and_iff_right hx)
  obtain ⟨last, hlast, hentries'⟩ := hlater.table
  refine ⟨?_, ?_, ⟨last, hcurrent ▸ hlast, ?_⟩, fun c hc => ?_, ?_⟩
  · simp only [hlater.findings, h.findings, repeats, occurring_append _ _ htaken, List.map_append,
      List.append_assoc]
  · rw [hlater.syms, h.syms, h.size, hcurrent, poisonedVars, poisonedVars, poisonedVars,
      List.zipIdx_append, List.map_append, List.append_assoc]
  · rw [hentries', hentries, h.size, freshNames_append htaken, List.append_assoc]
  · rw [hlater.others c (hcurrent ▸ hc), h.others c hc]
  · rw [hlater.rest, h.rest]

end NamesDeclared

/-- One declaration. -/
theorem namesDeclared_declareLocal (hsc : s.scopes.get? s.current = some sc) (n : Name) :
    NamesDeclared sc [n] s (after (declareLocal n (.var false) .error) s) := by
  have hdepth : s.scopes.depth s.current = sc.depth := by
    rw [Scopes.depth, hsc]
    rfl
  have hsyms : (s.addingLocal n.text (.var false) .error).syms.toList = s.syms.toList ++
      poisonedVars s.current sc.depth s.syms.size [n] := by
    rw [← hdepth]
    exact Array.toList_push
  have hkey : n.text ∈ sc.varNames.keys ↔ (sc.varNames.get? n.text).isSome = true :=
    (OrderedMap.contains_iff_mem_keys _ _).symm
  rw [after_declareLocal, Scopes.declare_eq hsc, Scope.table]
  -- The symbol is made in both cases: a name that is taken has one that no scope leads to.
  cases hname : sc.varNames.get? n.text with
  | some existing =>
    have htaken : n.text ∈ sc.varNames.keys :=
      hkey.mpr (Option.isSome_iff_exists.mpr ⟨existing, hname⟩)
    refine ⟨?_, hsyms, ⟨sc.varNames, hsc, ?_⟩, fun _ _ => rfl, ?_⟩
    · simp [occurring, htaken, State.reporting, State.addingLocal, State.adding]
    · simp [freshNames, occurring, htaken]
    · simp [State.reporting, State.addingLocal, State.adding]
  | none =>
    have hnew : n.text ∉ sc.varNames.keys := fun h => by
      rw [hkey, hname] at h
      cases h
    refine ⟨?_, hsyms, ⟨sc.varNames.insert n.text s.syms.size, ?_, ?_⟩, fun c hc => ?_, rfl⟩
    · simp [occurring, hnew, State.addingLocal, State.adding]
    · show (s.scopes.adding .var s.current n.text s.syms.size).get? s.current = _
      rw [Scopes.get?_adding, if_pos rfl, hsc]
      rfl
    · rw [OrderedMap.entries_insert_of_get?_eq_none hname]
      simp [freshNames, occurring, hnew]
    · show (s.scopes.adding .var s.current n.text s.syms.size).get? c = _
      rw [Scopes.get?_adding, if_neg (Ne.symm hc)]

/-! ## Patterns -/

/-- Nodes of bound patterns, made while the names are declared: no variant is resolved, and the
variables are numbered in order from `next`. -/
structure Silent (next : SymId) (names : List Name) (nodes : List Bound.Node) : Prop where
  unresolved : ∀ n ∈ nodes, n.IsUnresolved
  numbered : Bound.declaredBy nodes = List.range' next names.length

mutual

/-- Binding a pattern against poison declares its identifiers. -/
theorem namesDeclared_bindPattern (p : Ast.Pattern) {s : State} {sc : Scope}
    (hsc : s.scopes.get? s.current = some sc) :
    NamesDeclared sc p.names s (after (bindPattern .error p) s) ∧
      Silent s.syms.size p.names (out (bindPattern .error p) s).nodes := by
  have hleaf : ∀ n : Bound.Node, n.declared = [] → n.IsUnresolved → Silent s.syms.size [] [n] :=
    fun n hd hn =>
    ⟨List.forall_mem_singleton.mpr hn, by simp [hd]⟩
  match p with
  | .literal origin value =>
    exact ⟨by simpa [literalPattern, literalMatches, after_reportUnless, State.reporting_nil]
      using .refl hsc,
      hleaf _ rfl trivial⟩
  | .wildcard origin => exact ⟨.refl hsc, hleaf _ rfl trivial⟩
  | .name n => exact ⟨namesDeclared_declareLocal hsc n, List.forall_mem_singleton.mpr trivial, rfl⟩
  | .tuple origin elems =>
    obtain ⟨hdeclared, hsilent⟩ := namesDeclared_bindPatterns elems hsc
    exact ⟨hdeclared, List.forall_mem_cons.mpr ⟨trivial, hsilent.unresolved⟩, hsilent.numbered⟩
  | .variant origin name none => exact ⟨.refl hsc, hleaf _ rfl rfl⟩
  | .variant origin name (some payload) =>
    obtain ⟨hdeclared, hsilent⟩ := namesDeclared_bindPattern payload hsc
    exact ⟨hdeclared, List.forall_mem_cons.mpr ⟨rfl, hsilent.unresolved⟩, hsilent.numbered⟩

theorem namesDeclared_bindPatterns (ps : List Ast.Pattern) {s : State} {sc : Scope}
    (hsc : s.scopes.get? s.current = some sc) :
    NamesDeclared sc (Ast.Pattern.allNames ps) s
      (after (bindPatterns (List.replicate ps.length .error) ps) s) ∧
      Silent s.syms.size (Ast.Pattern.allNames ps)
        (Bound.Pattern.allNodes (out (bindPatterns (List.replicate ps.length .error) ps) s)) := by
  match ps with
  | [] => exact ⟨.refl hsc, List.forall_mem_nil _, rfl⟩
  | p :: ps =>
    rw [List.length_cons, List.replicate_succ, bindPatterns]
    obtain ⟨hfirst, hsilent⟩ := namesDeclared_bindPattern p hsc
    -- The later patterns meet the scope with the names of the first one in it.
    obtain ⟨table, htable, -⟩ := hfirst.table
    obtain ⟨hrest, hsilent'⟩ := namesDeclared_bindPatterns ps (hfirst.current ▸ htable)
    rw [hfirst.size] at hsilent'
    refine ⟨hfirst.trans htable hrest,
      List.forall_mem_append.mpr ⟨hsilent.unresolved, hsilent'.unresolved⟩, ?_⟩
    simp only [out_bind, out_pure, Bound.Pattern.allNodes, Bound.declaredBy_append, hsilent.numbered,
      hsilent'.numbered, Ast.Pattern.allNames, List.length_append, List.range'_append_1]

end

/-- Binding a pattern against poison, in any state whose current scope exists, declares the
identifiers of the pattern and does nothing else: each becomes an immutable variable of poison type,
those that the scope has already or that stand in the pattern before are reported in order, and the
others are added to the scope. In what it gives no variant is resolved, and the variables are those
made for the identifiers, in order. -/
theorem poisoned_patterns_are_silent (p : Ast.Pattern) {s : State} {sc : Scope}
    (hsc : s.scopes.get? s.current = some sc) :
    NamesDeclared sc p.names s (after (bindPattern .error p) s) ∧
      (∀ n ∈ (out (bindPattern .error p) s).nodes, n.IsUnresolved) ∧
      Bound.declaredBy (out (bindPattern .error p) s).nodes = List.range' s.syms.size
        p.names.length := by
  obtain ⟨hdeclared, hsilent⟩ := namesDeclared_bindPattern p hsc
  exact ⟨hdeclared, hsilent.unresolved, hsilent.numbered⟩

/-- The pattern `(x, Some((y, y)), None)`. -/
def nestedNames : Ast.Pattern :=
  let o : Origin := default
  .tuple o [.name ⟨o, "x"⟩, .variant o ⟨o, "Some"⟩ (some (.tuple o [.name ⟨o, "y"⟩, .name ⟨o, "y"⟩])),
    .variant o ⟨o, "None"⟩ none]

/-- In a scope that has an `x`, the first and the last identifier are reported, and one variable is
new. -/
theorem nestedNames_is_silent :
    ∃ sc : Scope, sc.varNames.keys = ["x"] ∧
      NamesDeclared sc nestedNames.names (after (declareLocal ⟨default, "x"⟩ .parameter .int) .initial)
        (after (bindPattern .error nestedNames)
        (after (declareLocal ⟨default, "x"⟩ .parameter .int) .initial)) ∧
      (repeats Name.text sc.varNames.keys nestedNames.names).map Name.text = ["x", "y"] ∧
      freshNames sc.varNames.keys 1 nestedNames.names = [("y", 2)] :=
  ⟨_, rfl, (poisoned_patterns_are_silent nestedNames rfl).1, by decide, by decide⟩

end Binding

end Bindery
