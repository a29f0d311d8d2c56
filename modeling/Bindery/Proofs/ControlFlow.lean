import Bindery.Proofs.Binding.Passes
import Bindery.Proofs.Binding.Placement

/-!
# Control flow

A `break` or `continue` needs a loop around it, a `return` a function, a `spawn` a `scope`, and a
declaration must be at the top level. What is reported of these, in any file, is what is wrong with
its spots, each once: they are read off the syntax tree with what is around them
(`Ast.SourceFile.spots`).
-/

namespace Bindery

open Ast (Enclosure Spot)

namespace Binding

variable {stmts : List Ast.Stmt} {s t u : State}

/-! ## Declarations -/

/-- Both states stand at the same place with the same findings about what is misplaced. -/
structure SamePlace (s t : State) : Prop where
  loopDepth : t.loopDepth = s.loopDepth
  fns : t.fns = s.fns
  scopeDepth : t.scopeDepth = s.scopeDepth
  misplaced : t.misplaced = s.misplaced

namespace SamePlace

theorem refl (s : State) : SamePlace s s := ⟨rfl, rfl, rfl, rfl⟩

theorem trans (h : SamePlace s t) (h' : SamePlace t u) : SamePlace s u :=
  ⟨h'.loopDepth.trans h.loopDepth, h'.fns.trans h.fns, h'.scopeDepth.trans h.scopeDepth,
    h'.misplaced.trans h.misplaced⟩

theorem checks {α : Type} (m : Binding α) [hm : Plain m] (s : State) : SamePlace s (after m s) := by
  obtain ⟨fs, hfs, hafter⟩ := hm.after_eq s
  have hnone : fs.filter Finding.isMisplaced = [] :=
    List.filter_eq_nil_iff.mpr fun f hf => by simp [(Bool.or_eq_false_iff.mp (hfs f hf)).2]
  rw [hafter]
  exact ⟨rfl, rfl, rfl, by rw [State.misplaced_reporting, hnone, List.append_nil]⟩

theorem step (hs : s.Top) (h : Step stmts s t) : SamePlace s t := by
  cases h with
  | checks m => exact checks m s
  | naming | type | builtin => exact ⟨rfl, rfl, rfl, rfl⟩
  | field field hu =>
    subst hu
    exact (checks (resolveType field.annot) s).trans ⟨rfl, rfl, rfl, rfl⟩
  | variant variant hu =>
    subst hu
    exact (checks (resolveType? variant.payload) s).trans ⟨rfl, rfl, rfl, rfl⟩
  | @sig _ name tyParams params ret _ _ _ =>
    obtain ⟨u, f, rfl, -, -, hafter⟩ := declareSig_cases name tyParams params ret hs
    have hadding : SamePlace s ((after (writtenSig name tyParams params ret) s).addingFn f) :=
      (checks (writtenSig name tyParams params ret) s).trans ⟨rfl, rfl, rfl, rfl⟩
    rcases hafter with ⟨-, hafter⟩ | ⟨-, hafter⟩
    · rw [hafter]
      exact hadding.trans ⟨rfl, rfl, rfl, rfl⟩
    · have : Plain (report name.range (.alreadyDeclared name.text)) := .report _ rfl
      rw [hafter, ← after_report]
      exact hadding.trans (checks _ _)

end SamePlace

theorem Prepares.samePlace (h : Prepares stmts s t) (hs : s.Top) : SamePlace s t :=
  h.keeps hs (fun htop hstep hu => hu.trans (.step htop hstep)) (.refl s)

/-! ## Bodies of functions -/

theorem polices_bindFnScope {around : List Enclosure} (f : Sig) (name : Ast.Name)
    (params : List Ast.Param) (body : Ast.Block) :
    Polices around (bindFnScope f name params body) (body.spots (.fn :: around)) := by
  obtain ⟨origin, stmts⟩ := body
  have hbody : Polices around (withFn (bodyFrame f name) (withLoopDepth (fun _ => 0)
      (withScopeDepth (fun _ => 0) (bindStmts stmts)))) (Ast.Stmt.allSpots (.fn :: around) stmts) :=
    (polices_bindStmts _ stmts).within (keeps_fnBody _ stmts)
      (fun s => ((s.inFns (bodyFrame f name :: s.fns)).inLoops 0).inScopeBlocks 0)
      (fun _ _ => ⟨rfl, rfl, rfl⟩) (fun _ => rfl) fun s => by rw [after_withFn]; rfl
  have hscope : Polices around
    (declareLocals .parameter ((params.map Ast.Param.name).zip f.paramTys) >>= fun syms =>
      withFn (bodyFrame f name)
        (withLoopDepth (fun _ => 0) (withScopeDepth (fun _ => 0) (bindStmts stmts)))
        >>= fun found => pure (syms, Bound.Block.ofStatements found.1 origin.range, found.2))
      (Ast.Stmt.allSpots (.fn :: around) stmts) := .past fun _ => hbody.close
  exact hscope.within (keeps_bindFnScope f name params ⟨origin, stmts⟩)
    (fun s => (s.opened .fn).naming f.tyParams) (fun _ hs => ⟨hs.loop, hs.fn, hs.scope⟩) (fun _ => rfl)
    fun _ => rfl

theorem SamePlace.settled (s : State) (id : SymId) (f : Sig) (frame : FnFrame)
    (trailing : Option (Ty × Range)) : SamePlace s (s.settled id f frame trailing) := by
  have hsettle := SamePlace.checks (settleReturn frame trailing) s
  rw [State.settled]
  split
  · exact hsettle
  · exact hsettle.trans ⟨rfl, rfl, rfl, rfl⟩

theorem Stands.samePlace {around : List Enclosure} (h : Stands around s) (hst : SamePlace s t) :
    Stands around t :=
  ⟨hst.loopDepth ▸ h.loop, hst.fns ▸ h.fn, hst.scopeDepth ▸ h.scope⟩

/-- The bodies of functions report what is wrong with their spots, one function after another. -/
theorem Bodies.polices {sigs : List (Nat × SymId)} {index : Nat} {fns : List Bound.FnDecl}
    (h : Bodies sigs index stmts s fns t) (hs : Stands [] s) :
    Stands [] t ∧ t.misplaced = s.misplaced ++ (stmts.flatMap Ast.Stmt.bodySpots).filterMap
      Spot.problem? := by
  induction h with
  | nil => exact ⟨hs, (List.append_nil _).symm⟩
  | @skip _ stmt _ _ _ _ hskip _ ih =>
    have hnone : stmt.bodySpots = [] := by
      cases stmt with
      | fn => cases hskip
      | _ => rfl
    rw [List.flatMap_cons, hnone]
    exact ih hs
  | @body _ _ name _ params _ body _ s _ _ id f _ block returns _ _ _ _ _ _ _ ih =>
    obtain ⟨hstands, hmisplaced⟩ := polices_bindFnScope f name params body s hs
    have hsettled := SamePlace.settled (after (bindFnScope f name params body) s) id f
      ((bodyFrame f name).noting returns) (blockCandidate block)
    obtain ⟨ht, hrest⟩ := ih (hstands.samePlace hsettled)
    refine ⟨ht, ?_⟩
    rw [hrest, hsettled.misplaced, hmisplaced, List.flatMap_cons, List.filterMap_append,
      List.append_assoc]
    rfl

/-- A bind reports what is wrong with the spots of the file. -/
theorem Phases.misplaced_final (ph : Phases stmts) :
    ph.final.misplaced = (stmts.flatMap Ast.Stmt.bodySpots ++
      Ast.Stmt.allSpots [] (topStatements stmts)).filterMap Spot.problem? := by
  have hstart := ph.prepares.samePlace top_initial
  have hinitial : Stands [] .initial := ⟨rfl, rfl, rfl⟩
  obtain ⟨hbound, hbodies⟩ := ph.bodies.polices (hinitial.samePlace hstart)
  have hstatements := (polices_bindStmts [] (topStatements stmts) ph.bound hbound).2
  rw [Phases.final, hstatements, hbodies, hstart.misplaced, List.filterMap_append]
  rfl

end Binding

theorem Problem.isMisplaced_iff (range : Range) (p : Problem) :
    p.rule.code ∈ [1003, 1008, 1009, 4002] ↔ (⟨range, p⟩ : Finding).isMisplaced = true := by
  cases p <;> simp [Problem.rule, Rule.code, Finding.isMisplaced]

/-- In every file, the jumps outside every loop, the `return` statements outside every function, the
`spawn` expressions outside every `scope` and the declarations below the top level are reported,
each once, and nothing else is reported with their codes. -/
theorem misplaced_spots_are_reported (session : Session) (file : Ast.SourceFile) :
    ((session.bind file).2.state.diagnostics file).filter
      (fun d => d.code ∈ [1003, 1008, 1009, 4002]) =
        (file.spots.filterMap Spot.problem?).map
          (fun f => f.toDiagnostic file.name (LineMap.ofText file.text)) ∧
      ∃ p, (session.bind file).1 =
        .ok ⟨p, session.options.limit ((session.bind file).2.state.diagnostics file)⟩ := by
  obtain ⟨ph, hran⟩ := Binding.exists_phases file.stmts session.state
  rw [Session.bind_eq_of_ran hran]
  refine ⟨?_, ph.program, rfl⟩
  have hspots : file.spots.filterMap Spot.problem? = ph.final.misplaced := ph.misplaced_final.symm
  rw [hspots, Binding.State.diagnostics, List.filter_map]
  refine congrArg (List.map _) (List.filter_congr fun f _ => ?_)
  have hcode : (f.toDiagnostic file.name (LineMap.ofText file.text)).code = f.problem.rule.code := rfl
  rw [Bool.eq_iff_iff, ← Problem.isMisplaced_iff, Function.comp_apply, decide_eq_true_iff, hcode]

/-- A lambda hides the loops around it, but not the `scope` blocks. -/
example (o : Origin) : (Ast.Expr.spots [.lambda, .loop, .scope]
    (.block ⟨o, [.breakLoop o, .expr o (.spawn o ⟨o, []⟩)]⟩)).filterMap Spot.problem? =
      [⟨o.range, .jumpOutsideLoop "break"⟩] := rfl

end Bindery
