import Bindery.Proofs.Project.Fresh
import Mathlib.Data.List.Forall2
import Mathlib.Logic.Function.Basic

/-!
# What a cache remembers

A result is kept under its tree alone, although it depends on the limit of diagnostics too. A result
that is used again therefore has the limit under which it was made, not the one in force. Apart from
that a cache is never noticed: whatever a project has been asked for, and whichever sessions share a
cache, every answer is what binding the files afresh gives under the options of the call that made
the result.

`Memo` keeps account of these options. It is all that the answers depend on beside the files.
-/

namespace Bindery

open Ast (SourceFile TreeId)

variable {files : List SourceFile} {c : Cache} {m : Memo}

/-! ## Options under which results were made -/

/-- For each tree with a kept result, the options under which it was made. -/
abbrev Memo := TreeId → Option Options

namespace Memo

/-- The options under which the result for a tree was made that a call with the given options
returns. -/
def optionsFor (m : Memo) (options : Options) (tree : TreeId) : Options :=
  if options.useCache then (m tree).getD options else options

/-- A call with the given options has returned a result for a tree. -/
def note (m : Memo) (options : Options) (tree : TreeId) : Memo :=
  if options.useCache then Function.update m tree (some ((m tree).getD options)) else m

variable (m : Memo) (options : Options) (tree : TreeId)

/-- Later calls with the same options return results made under the same options. -/
theorem optionsFor_note (other : TreeId) :
    (m.note options tree).optionsFor options other = m.optionsFor options other := by
  unfold optionsFor note
  cases options.useCache with
  | false => rfl
  | true =>
    by_cases h : other = tree
    · subst h
      simp
    · simp [h]

end Memo

/-- The results kept for the files are those that the account says. -/
def Cache.Keeps (c : Cache) (m : Memo) (files : List SourceFile) : Prop :=
  ∀ file ∈ files, Option.Rel (fun options shared => bindFile options file = .ok shared.result)
    (m file.id)
    (c.get? file.id)

variable {result : BindResult}

namespace Cache.Keeps

variable {c : Cache} {m : Memo} {files : List SourceFile} {options : Options} {file : SourceFile}

theorem empty (files : List SourceFile) : Cache.empty.Keeps (fun _ => none) files := fun _ _ => .none

/-- A result that is used again. -/
theorem hit (h : c.Keeps m files) (hfile : file ∈ files) {shared : Shared}
    (hhit : c.reuse? options file.id = some shared) :
    bindFile (m.optionsFor options file.id) file = .ok shared.result ∧
      c.Keeps (m.note options file.id) files := by
  have huse : options.useCache = true := by
    cases huse : options.useCache with
    | true => rfl
    | false =>
      rw [reuse?_of_not_useCache huse] at hhit
      cases hhit
  rw [reuse?_of_useCache huse] at hhit
  have hkept := h file hfile
  rw [hhit] at hkept
  cases hmade : m file.id with
  | none =>
    rw [hmade] at hkept
    cases hkept
  | some made =>
    rw [hmade] at hkept
    cases hkept with
    | some hresult =>
      have hsame : m.note options file.id = m := by
        rw [Memo.note, if_pos huse, hmade]
        exact Function.update_eq_self_iff.mpr hmade.symm
      rw [hsame, Memo.optionsFor, if_pos huse, hmade]
      exact ⟨hresult, h⟩

/-- A result that has to be made, and is then kept if the options allow it. -/
theorem store (h : c.Keeps m files) (hnamed : Ast.TreesNamed files) (hfile : file ∈ files)
    (hmiss : c.reuse? options file.id = none) (hresult : bindFile options file = .ok result) :
    bindFile (m.optionsFor options file.id) file = .ok result ∧
      (c.store options file.id result).2.Keeps (m.note options file.id) files := by
  cases huse : options.useCache with
  | false =>
    have hcache : (c.store options file.id result).2.get? = c.get? := by
      simp only [Cache.store, huse]
      rfl
    simp only [Memo.optionsFor, Memo.note, huse]
    exact ⟨hresult, fun other hother => by rw [hcache]; exact h other hother⟩
  | true =>
    rw [reuse?_of_useCache huse] at hmiss
    have hunmade : m file.id = none := by
      have hkept := h file hfile
      rw [hmiss] at hkept
      cases hmade : m file.id with
      | none => rfl
      | some made =>
        rw [hmade] at hkept
        cases hkept
    have hcache : ∀ tree, (c.store options file.id result).2.get? tree =
        if tree = file.id then some (c.number result).1 else c.get? tree := by
      intro tree
      simp only [Cache.store, huse, if_true]
      exact get?_insert ..
    simp only [Memo.optionsFor, Memo.note, huse, if_true, hunmade]
    refine ⟨hresult, fun other hother => ?_⟩
    rw [hcache]
    by_cases hid : other.id = file.id
    · rw [if_pos hid, hid, Function.update_self, hnamed other hother file hfile hid]
      exact .some hresult
    · rw [if_neg hid, Function.update_of_ne hid]
      exact h other hother

end Cache.Keeps

/-! ## Calls of sessions -/

/-- The answers to calls that share a cache, each of a session and for a file. -/
def Cache.serve (c : Cache) : List (Session × SourceFile) → List (Except Fault Shared)
  | [] => []
  | (session, file) :: calls =>
    (session.bindCached file c).1 :: (session.bindCached file c).2.2.serve calls

/-- The options under which the results were made that the calls return. -/
def Memo.serve (m : Memo) : List (Session × SourceFile) → List (Options × SourceFile)
  | [] => []
  | (session, file) :: calls =>
    (m.optionsFor session.options file.id, file) :: (m.note session.options file.id).serve calls

theorem Session.bindCached_of_miss {session : Session} {file : SourceFile}
    (hmiss : c.reuse? session.options file.id = none)
    (hresult : bindFile session.options file = .ok result) :
    session.bindCached file c = (.ok (c.store session.options file.id result).1, (session.bind file).2,
      (c.store session.options file.id result).2) := by
  have hbind : (session.bind file).1 = .ok result := (session.bind_fst file).trans hresult
  have hoptions : (session.bind file).2.options = session.options := by
    obtain ⟨ph, hran⟩ := Binding.exists_phases file.stmts session.state
    rw [Session.bind_eq_of_ran hran]
  rw [bindCached, hmiss]
  generalize session.bind file = outcome at hbind hoptions
  obtain ⟨first, after⟩ := outcome
  subst hbind
  rw [← hoptions]

/-- One call of a session. -/
theorem Session.bindCached_keeps {file : SourceFile}
    (session : Session) (h : c.Keeps m files) (hnamed : Ast.TreesNamed files) (hfile : file ∈ files) :
    (∃ shared, (session.bindCached file c).1 = .ok shared ∧
      bindFile (m.optionsFor session.options file.id) file = .ok shared.result) ∧
    (session.bindCached file c).2.2.Keeps (m.note session.options file.id) files := by
  cases hreuse : c.reuse? session.options file.id with
  | some hit =>
    obtain ⟨hresult, hkeeps⟩ := h.hit hfile hreuse
    rw [bindCached, hreuse]
    exact ⟨⟨hit, rfl, hresult⟩, hkeeps⟩
  | none =>
    obtain ⟨result, hresult⟩ := exists_bindFile session.options file
    obtain ⟨hmade, hkeeps⟩ := h.store hnamed hfile hreuse hresult
    rw [bindCached_of_miss hreuse hresult]
    exact ⟨⟨_, rfl, hmade⟩, hkeeps⟩

theorem Cache.serve_eq (hnamed : Ast.TreesNamed files)
    (calls : List (Session × SourceFile)) (hcalls : ∀ call ∈ calls, call.2 ∈ files)
    (h : c.Keeps m files) :
    List.Forall₂ (fun made answer => ∃ shared : Shared, answer = .ok shared ∧
      bindFile made.1 made.2 = .ok shared.result) (m.serve calls) (c.serve calls) := by
  induction calls generalizing c m with
  | nil => exact .nil
  | cons call calls ih =>
    obtain ⟨session, file⟩ := call
    obtain ⟨hfile, hcalls⟩ := List.forall_mem_cons.mp hcalls
    obtain ⟨hanswer, hkeeps⟩ := session.bindCached_keeps h hnamed hfile
    exact .cons hanswer (ih hcalls hkeeps)

/-! ## Requests to a project -/

namespace Project

/-- What a project can be asked for. -/
inductive Request where
  | addFile (file : SourceFile)
  | setOptions (options : Options)
  | bindAll

/-- The file that a request adds. -/
def Request.file? : Request → Option SourceFile
  | .addFile file => some file
  | _ => none

/-- The answers to the requests to bind, in order. -/
def serve (p : Project) : List Request → List (Except ProjectError ProjectResult)
  | [] => []
  | .addFile file :: requests => (p.addFile file).serve requests
  | .setOptions options :: requests => { p with options }.serve requests
  | .bindAll :: requests => p.bindAll.1 :: p.bindAll.2.serve requests

/-- The files, the options in force and the account of kept results. -/
structure Ledger where
  options : Options
  files : List SourceFile
  memo : Memo

namespace Ledger

/-- The options under which the result was made that a bind returns for a file. -/
def optionsFor (l : Ledger) (file : SourceFile) : Options := l.memo.optionsFor l.options file.id

/-- The ledger after a bind. -/
def bound (l : Ledger) :
    Ledger := { l with memo := l.files.foldl (fun m file => m.note l.options file.id) l.memo }

/-- The ledgers at the requests to bind, in order. -/
def serve (l : Ledger) : List Request → List Ledger
  | [] => []
  | .addFile file :: requests => { l with files := l.files ++ [file] }.serve requests
  | .setOptions options :: requests => { l with options }.serve requests
  | .bindAll :: requests => l :: l.bound.serve requests

end Ledger

/-- Binding files in order, with what is then kept. -/
theorem bindEach_keeps (options : Options) (hnamed : Ast.TreesNamed files) (part : List SourceFile)
    (hpart : ∀ file ∈ part, file ∈ files) (h : c.Keeps m files) :
    (∃ results, (bindEach options part c).1 = .ok results ∧
      (results.map fun r => (r.name, Except.ok r.shared.result)) =
        part.map fun file => (file.name, bindFile (m.optionsFor options file.id) file)) ∧
    (bindEach options part c).2.Keeps (part.foldl (fun m file => m.note options file.id) m) files := by
  induction part generalizing c m with
  | nil => exact ⟨⟨[], rfl, rfl⟩, h⟩
  | cons file part ih =>
    obtain ⟨hfile, hpart⟩ := List.forall_mem_cons.mp hpart
    have hone : ∃ shared c', bindOne options file c = (.ok ⟨file.name, shared⟩, c') ∧
        bindFile (m.optionsFor options file.id) file = .ok shared.result ∧
        c'.Keeps (m.note options file.id) files := by
      cases hreuse : c.reuse? options file.id with
      | some hit =>
        obtain ⟨hresult, hkeeps⟩ := h.hit hfile hreuse
        exact ⟨hit, c, by simp only [bindOne, hreuse], hresult, hkeeps⟩
      | none =>
        obtain ⟨result, hresult⟩ := exists_bindFile options file
        obtain ⟨hmade, hkeeps⟩ := h.store hnamed hfile hreuse hresult
        exact ⟨(c.store options file.id result).1,
          _, by simp only [bindOne, hreuse, hresult], hmade, hkeeps⟩
    obtain ⟨shared, c', hone, hresult, hkeeps⟩ := hone
    obtain ⟨⟨results, hresults, hrest⟩, hkeeps⟩ := ih hpart hkeeps
    rw [bindEach, hone]
    refine ⟨⟨⟨file.name, shared⟩ :: results, ?_, ?_⟩, hkeeps⟩
    · show (bindEach options part c').1.map _ = _
      rw [hresults]
      rfl
    · simp only [Memo.optionsFor_note] at hrest
      rw [List.map_cons, List.map_cons, hrest, hresult]

end Project

/-- The result lists the files in order, each with what binding it afresh under its options gives,
and their diagnostics merged. -/
def ProjectResult.Shows (r : ProjectResult) (files : List SourceFile)
    (optionsOf : SourceFile → Options) : Prop :=
  (r.files.map fun f => (f.name, Except.ok f.shared.result)) =
      files.map (fun file => (file.name, bindFile (optionsOf file) file)) ∧
    r.diagnostics = Diagnostic.sort (r.files.flatMap fun f => f.shared.result.diagnostics)

/-- Options with the same limit give the same results. -/
theorem ProjectResult.Shows.congr {r : ProjectResult} {optionsOf other : SourceFile → Options}
    (h : r.Shows files optionsOf)
    (hlimit : ∀ file ∈ files, (optionsOf file).maxDiagnostics = (other file).maxDiagnostics) :
    r.Shows files other := by
  refine ⟨h.1.trans (List.map_congr_left fun file hfile => ?_), h.2⟩
  rw [bindFile_congr (hlimit file hfile)]

/-- The ledger describes the project. -/
structure Project.Ledger.Describes (l : Ledger) (trees : List SourceFile) (p : Project) : Prop where
  options : p.options = l.options
  files : p.files = l.files
  known : ∀ file ∈ l.files, file ∈ trees
  kept : p.cache.Keeps l.memo trees

theorem Project.serve_eq (hnamed : Ast.TreesNamed files) (requests : List Request)
    (hfiles : ∀ request ∈ requests, ∀ file, request.file? = some file → file ∈ files) {p : Project}
    {l : Ledger}
    (h : l.Describes files p) :
    List.Forall₂ (fun l answer => ∃ r, answer = .ok r ∧ r.Shows l.files l.optionsFor)
      (l.serve requests)
      (p.serve requests) := by
  induction requests generalizing p l with
  | nil => exact .nil
  | cons request requests ih =>
    obtain ⟨hfile, hrest⟩ := List.forall_mem_cons.mp hfiles
    cases request with
    | addFile file =>
      refine ih hrest ⟨h.options, congrArg (· ++ [file]) h.files, fun other hother => ?_, h.kept⟩
      rcases List.mem_append.mp hother with hother | hother
      · exact h.known other hother
      · rw [List.mem_singleton.mp hother]
        exact hfile file rfl
    | setOptions options => exact ih hrest ⟨rfl, h.files, h.known, h.kept⟩
    | bindAll =>
      obtain ⟨⟨results, hresults, hshows⟩, hkeeps⟩ :=
        bindEach_keeps l.options hnamed l.files h.known h.kept
      rw [← h.options, ← h.files] at hresults hkeeps
      refine .cons ⟨.ofFiles results, ?_, hshows, rfl⟩ (ih hrest ⟨h.options, h.files, h.known, ?_⟩)
      · show (bindEach p.options p.files p.cache).1.map _ = _
        rw [hresults]
        rfl
      · rw [h.options, h.files] at hkeeps
        show (bindEach p.options p.files p.cache).2.Keeps _ _
        rw [h.options, h.files]
        exact hkeeps

/-- Every answer of a project, and every answer of sessions that share a cache, is what binding
afresh gives under the options of the call that made the result. These are the options in force,
except for a tree that an earlier call has bound with leave to use its result again. -/
theorem cached_results_keep_their_options (files : List SourceFile) (hnamed : Ast.TreesNamed files) :
    (∀ (options : Options) (requests : List Project.Request),
      (∀ request ∈ requests, ∀ file, request.file? = some file → file ∈ files) →
      List.Forall₂ (fun (l : Project.Ledger) answer => ∃ r : ProjectResult, answer = .ok r ∧
          r.Shows l.files l.optionsFor ∧
          ((∀ file ∈ l.files, (l.optionsFor file).maxDiagnostics = l.options.maxDiagnostics) →
            r.Shows l.files fun _ => l.options))
        (Project.Ledger.serve ⟨options, [], fun _ => none⟩ requests)
        ((Project.start options).serve requests)) ∧
    ∀ calls : List (Session × SourceFile), (∀ call ∈ calls, call.2 ∈ files) →
      List.Forall₂ (fun made answer => ∃ shared : Shared, answer = .ok shared ∧
          bindFile made.1 made.2 = .ok shared.result)
        (Memo.serve (fun _ => none) calls) (Cache.empty.serve calls) := by
  refine ⟨fun options requests hfiles => ?_, fun calls hcalls => ?_⟩
  · have hstart : Project.Ledger.Describes ⟨options, [], fun _ => none⟩ files
      (Project.start options) :=
      ⟨rfl, rfl, fun file hfile => (List.not_mem_nil hfile).elim, .empty files⟩
    refine (Project.serve_eq hnamed requests hfiles hstart).imp fun l answer => ?_
    rintro ⟨r, hanswer, hshows⟩
    exact ⟨r, hanswer, hshows, hshows.congr⟩
  · exact Cache.serve_eq hnamed calls hcalls (.empty files)

/-- `print a` and `print b`, a file with two diagnostics. -/
def undefinedPrints : SourceFile :=
  let o : Origin := default
  ⟨5, o, [.print o (.name ⟨o, "a"⟩), .print o (.name ⟨o, "b"⟩)], "main", "print a print b"⟩

/-- The project is bound without a limit, and then again with a limit of one diagnostic; then the
same in sessions that share a cache. The second answer is each time what there is without a
limit. -/
theorem undefinedPrints_keeps_its_options :
    (∃ first second, (Project.start {}).serve [.addFile undefinedPrints, .bindAll,
      .setOptions ⟨true, some 1⟩, .bindAll] =
        [.ok first, .ok second] ∧ second.Shows [undefinedPrints] fun _ => {}) ∧
      ∃ first second,
        Cache.empty.serve [(.start {}, undefinedPrints), (.start ⟨true, some 1⟩, undefinedPrints)] =
        [.ok first, .ok second] ∧ bindFile {} undefinedPrints = .ok second.result := by
  have hnamed : Ast.TreesNamed [undefinedPrints] := by
    intro file hfile other hother _
    rw [List.mem_singleton.mp hfile, List.mem_singleton.mp hother]
  obtain ⟨hrequests, hcalls⟩ := cached_results_keep_their_options [undefinedPrints] hnamed
  refine ⟨?_, ?_⟩
  · have hserve :=
      hrequests {} [.addFile undefinedPrints, .bindAll, .setOptions ⟨true, some 1⟩, .bindAll]
      (by simp [Project.Request.file?])
    generalize (Project.start {}).serve _ = answers at hserve ⊢
    simp only [Project.Ledger.serve] at hserve
    obtain ⟨_, _, ⟨first, rfl, -⟩, hrest, rfl⟩ := List.forall₂_cons_left_iff.mp hserve
    obtain ⟨_, _, ⟨second, rfl, hshows, -⟩, hend, rfl⟩ := List.forall₂_cons_left_iff.mp hrest
    cases hend
    refine ⟨first, second, rfl, hshows.congr ?_⟩
    intro file hfile
    obtain rfl : file = undefinedPrints := List.mem_singleton.mp hfile
    decide
  · have hserve := hcalls [(.start {}, undefinedPrints), (.start ⟨true, some 1⟩, undefinedPrints)]
      (by simp)
    generalize Cache.empty.serve _ = answers at hserve ⊢
    obtain ⟨_, _, ⟨first, rfl, -⟩, hrest, rfl⟩ := List.forall₂_cons_left_iff.mp hserve
    obtain ⟨_, _, ⟨second, rfl, hresult⟩, hend, rfl⟩ := List.forall₂_cons_left_iff.mp hrest
    cases hend
    exact ⟨first, second, rfl, (bindFile_congr (by decide) _).trans hresult⟩

/-- With the limit there would have been one diagnostic; there are two. -/
example : (bindFile ⟨true, some 1⟩ undefinedPrints).toOption.map (·.diagnostics.length) = some 1 ∧
    (bindFile {} undefinedPrints).toOption.map (·.diagnostics.length) = some 2 := by
  decide +kernel

end Bindery
