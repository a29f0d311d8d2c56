import Bindery.Proofs.Binding.File
import Bindery.Proofs.CacheHistory

/-!
# The merged diagnostics of a project

The diagnostics of all files of a project are merged into one list. It is sorted by the names of the
files and by where the diagnostics start, and what agrees in both stays in the order of report. Two
lists that are sorted in this way and agree at every place are equal (`Diagnostic.eq_of_pairwise`).
At one place stand diagnostics of one file only, if no two files have the same name, so the merged
list does not depend on the order of the files.
-/

namespace Bindery

variable {options : Options}

namespace Diagnostic

/-! ## Sorted lists -/

/-- Whether the diagnostic is in the file and starts there. -/
def isAt (file : Option String) (start : Nat) (d : Diagnostic) :
    Bool := d.file == file && d.start == start

/-- The diagnostics are in files, the first one in an earlier file or in the same file and not
behind the second. -/
def InOrder (a b : Diagnostic) : Prop := ∃ f g, a.file = some f ∧ b.file = some g ∧
    (f < g ∨ f = g ∧ a.start ≤ b.start)

/-- Files and starts are compared one after the other. -/
theorem precedes_eq_isLE (a b : Diagnostic) :
    precedes a b = (compareLex (compareOn file) (compareOn start) a b).isLE := by
  have hfiles : compareFiles a.file b.file = compare a.file b.file := by
    cases a.file <;> cases b.file <;> rfl
  rw [precedes, hfiles, compareLex, compareOn]
  cases compare a.file b.file with
  | lt => rfl
  | gt => rfl
  | eq => exact Bool.eq_iff_iff.mpr (decide_eq_true_iff.trans Nat.isLE_compare.symm)

theorem precedes_trans (a b c : Diagnostic) (hab : precedes a b = true) (hbc : precedes b c = true) :
    precedes a c = true := by
  rw [precedes_eq_isLE] at *
  exact Std.TransCmp.isLE_trans hab hbc

theorem precedes_total (a b : Diagnostic) : (precedes a b || precedes b a) = true := by
  have hswap : compareLex (compareOn file) (compareOn start) a b =
      (compareLex (compareOn file) (compareOn start) b a).swap := Std.OrientedCmp.eq_swap
  rw [precedes_eq_isLE, precedes_eq_isLE, hswap]
  cases compareLex (compareOn file) (compareOn start) b a <;> rfl

/-- Only diagnostics at one place may stand in both orders. -/
theorem isAt_of_precedes {a b : Diagnostic} (hab : precedes a b = true) (hba : precedes b a = true) :
    b.isAt a.file a.start = true := by
  rw [precedes_eq_isLE] at hab hba
  have heq := Std.OrientedCmp.isLE_antisymm hba hab
  rw [compareLex, Ordering.then_eq_eq] at heq
  rw [isAt, Bool.and_eq_true, beq_iff_eq, beq_iff_eq]
  exact ⟨Std.LawfulEqCmp.eq_of_compare heq.1, Std.LawfulEqCmp.eq_of_compare heq.2⟩

theorem precedes_of_isAt {file : Option String} {start : Nat} {a b : Diagnostic}
    (ha : a.isAt file start = true)
    (hb : b.isAt file start = true) : precedes a b = true := by
  simp only [isAt, Bool.and_eq_true, beq_iff_eq] at ha hb
  simp [precedes_eq_isLE, compareLex, compareOn, ha.1, ha.2, hb.1, hb.2]

theorem inOrder_of_precedes {a b : Diagnostic} (h : precedes a b = true) {f g : String}
    (ha : a.file = some f)
    (hb : b.file = some g) : InOrder a b := by
  refine ⟨f, g, ha, hb, ?_⟩
  rw [precedes, ha, hb, compareFiles] at h
  split at h
  · next hlt => exact .inl (compareOfLessAndEq_eq_lt.mp hlt)
  · next heq => exact .inr ⟨Std.LawfulEqCmp.eq_of_compare heq, of_decide_eq_true h⟩
  · cases h

theorem sort_pairwise (ds : List Diagnostic) : (sort ds).Pairwise fun a b => precedes a b = true :=
  List.pairwise_mergeSort precedes_trans precedes_total ds

theorem sort_perm (ds : List Diagnostic) : (sort ds).Perm ds := List.mergeSort_perm ds precedes

/-- Sorting keeps the order of the diagnostics at one place. -/
theorem filter_isAt_sort (file : Option String) (start : Nat) (ds : List Diagnostic) :
    (sort ds).filter (isAt file start) = ds.filter (isAt file start) := by
  -- Sorting keeps every sublist that is in order already, and so are diagnostics at one place.
  have hpairwise : (ds.filter (isAt file start)).Pairwise fun a b => precedes a b = true :=
    List.pairwise_of_forall_mem_list fun a ha b hb =>
      precedes_of_isAt (List.mem_filter.mp ha).2 (List.mem_filter.mp hb).2
  have hsublist : (ds.filter (isAt file start)).Sublist (sort ds) :=
    List.sublist_mergeSort precedes_trans precedes_total hpairwise List.filter_sublist
  have hfiltered := hsublist.filter (isAt file start)
  rw [List.filter_filter, funext fun d => Bool.and_self (isAt file start d)] at hfiltered
  exact (hfiltered.eq_of_length ((sort_perm ds).filter _).length_eq.symm).symm

theorem isAt_self (d : Diagnostic) : d.isAt d.file d.start = true := by simp [isAt]

section

variable {ds es : List Diagnostic}

theorem mem_of_filter_isAt_eq
    (h : ∀ file start, ds.filter (isAt file start) = es.filter (isAt file start))
    {d : Diagnostic} (hd : d ∈ ds) : d ∈ es := by
  have hmem : d ∈ ds.filter (isAt d.file d.start) := List.mem_filter.mpr ⟨hd, d.isAt_self⟩
  rw [h] at hmem
  exact (List.mem_filter.mp hmem).1

/-- A sorted list is known from what stands at each place. -/
theorem eq_of_pairwise (hds : ds.Pairwise fun a b => precedes a b = true)
    (hes : es.Pairwise fun a b => precedes a b = true)
    (h : ∀ file start, ds.filter (isAt file start) = es.filter (isAt file start)) : ds = es := by
  have hfirst : ∀ {d : Diagnostic} {ds : List Diagnostic},
    (d :: ds).Pairwise (fun a b => precedes a b = true) →
      ∀ e ∈ d :: ds, precedes d e = true := fun {d ds} hds e he => by
    rcases List.mem_cons.mp he with rfl | he
    · exact precedes_of_isAt e.isAt_self e.isAt_self
    · exact (List.pairwise_cons.mp hds).1 e he
  induction ds generalizing es with
  | nil => exact (List.eq_nil_iff_forall_not_mem.mpr fun e he =>
      List.not_mem_nil (mem_of_filter_isAt_eq (fun file start => (h file start).symm) he)).symm
  | cons d ds ih =>
    cases es with
    | nil => exact absurd (mem_of_filter_isAt_eq h List.mem_cons_self) List.not_mem_nil
    | cons e es =>
      -- The first diagnostics precede each other, so they are at one place, and there they are the
      -- first ones too.
      have hde :=
        hfirst hds e (mem_of_filter_isAt_eq (fun file start => (h file start).symm)
        List.mem_cons_self)
      have hed := hfirst hes d (mem_of_filter_isAt_eq h List.mem_cons_self)
      have hplace := h d.file d.start
      rw [List.filter_cons_of_pos d.isAt_self,
        List.filter_cons_of_pos (isAt_of_precedes hde hed)] at hplace
      obtain rfl := (List.cons.inj hplace).1
      refine congrArg (d :: ·) (ih (List.pairwise_cons.mp hds).2 (List.pairwise_cons.mp hes).2
        fun file start => ?_)
      have hrest := h file start
      rw [List.filter_cons, List.filter_cons] at hrest
      split at hrest
      · exact (List.cons.inj hrest).2
      · exact hrest

/-- Lists that agree at every place are sorted into one list. -/
theorem sort_congr (h : ∀ file start, ds.filter (isAt file start) = es.filter (isAt file start)) :
    sort ds = sort es :=
  eq_of_pairwise (sort_pairwise ds) (sort_pairwise es) fun file start => by
    rw [filter_isAt_sort, filter_isAt_sort, h]

end

end Diagnostic

/-! ## The diagnostics of a file -/

/-- The diagnostics of a file that are returned. -/
def ownDiagnostics (options : Options) (file : Ast.SourceFile) : List Diagnostic :=
  (bindFile options file).toOption.elim [] BindResult.diagnostics

theorem ownDiagnostics_of_ok {file : Ast.SourceFile} {r : BindResult}
    (h : bindFile options file = .ok r) : ownDiagnostics options file = r.diagnostics := by
  rw [ownDiagnostics, h]
  rfl

/-- The options cut the diagnostics of a file off and do nothing else. Each of them is an error in
that file. -/
theorem exists_ownDiagnostics (file : Ast.SourceFile) :
    ∃ ds, (∀ options, ownDiagnostics options file = options.limit ds) ∧
      ∀ d ∈ ds, d.file = some file.name ∧ d.isError = true := by
  obtain ⟨ph, hran⟩ := Binding.exists_phases file.stmts .initial
  refine ⟨ph.final.diagnostics file, fun options => ?_, fun d hd => ?_⟩
  · have hbind := @Session.bind_eq_of_ran _ _ _ (Session.start options) file _ _ hran
    rw [ownDiagnostics, bindFile, hbind]
    rfl
  · obtain ⟨f, -, rfl⟩ := List.mem_map.mp hd
    exact ⟨rfl, rfl⟩

theorem Options.mem_of_mem_limit {ds : List Diagnostic} {d : Diagnostic}
    (h : d ∈ options.limit ds) : d ∈ ds := by
  unfold limit at h
  split at h
  · exact h
  · exact List.mem_of_mem_take h

theorem ownDiagnostics_placed {file : Ast.SourceFile} {d : Diagnostic}
    (h : d ∈ ownDiagnostics options file) : d.file = some file.name ∧ d.isError = true := by
  obtain ⟨ds, hown, hds⟩ := exists_ownDiagnostics file
  rw [hown] at h
  exact hds d (Options.mem_of_mem_limit h)

/-- A limit above zero hides that there are diagnostics from nobody. -/
theorem ownDiagnostics_eq_nil_iff (hlimit : options.maxDiagnostics ≠ some 0) (file : Ast.SourceFile) :
    ownDiagnostics options file = [] ↔ ownDiagnostics { options with maxDiagnostics := none } file =
      [] := by
  obtain ⟨ds, hown, -⟩ := exists_ownDiagnostics file
  rw [hown, hown]
  constructor
  · exact Options.eq_nil_of_limit hlimit
  · intro hnil
    have hds : ds = [] := hnil
    subst hds
    unfold Options.limit
    split <;> simp

/-- Files that contribute nothing at the same place can change their order. -/
theorem flatMap_eq_of_perm {α β : Type} {as bs : List α} {f : α → List β} (h : as.Perm bs)
    (hone : as.Pairwise fun a b => f a = [] ∨ f b = []) : as.flatMap f = bs.flatMap f := by
  induction h with
  | nil => rfl
  | cons a _ ih => rw [List.flatMap_cons, List.flatMap_cons, ih (List.pairwise_cons.mp hone).2]
  | swap a b as =>
    rcases (List.pairwise_cons.mp hone).1 a List.mem_cons_self with hnil | hnil <;> simp [hnil]
  | trans hab _ ih ih' => exact (ih hone).trans (ih' ((hab.pairwise_iff Or.symm).mp hone))

theorem filter_isAt_ownDiagnostics {other : Ast.SourceFile} {file : Option String} {start : Nat}
    (h : file ≠ some other.name) :
    (ownDiagnostics options other).filter (Diagnostic.isAt file start) = [] := by
  refine List.filter_eq_nil_iff.mpr fun d hd hat => h ?_
  rw [Diagnostic.isAt, Bool.and_eq_true, beq_iff_eq] at hat
  exact hat.1.symm.trans (ownDiagnostics_placed hd).1

theorem flatMap_ownDiagnostics_agree {files others : List Ast.SourceFile}
    (hperm : files.Perm others) (hnames : (files.map (·.name)).Nodup) (file : Option String)
    (start : Nat) :
    (files.flatMap (ownDiagnostics options)).filter (Diagnostic.isAt file start) =
      (others.flatMap (ownDiagnostics options)).filter (Diagnostic.isAt file start) := by
  rw [List.filter_flatMap, List.filter_flatMap]
  refine flatMap_eq_of_perm hperm ((List.pairwise_map.mp hnames).imp fun {a b} hne => ?_)
  by_cases ha : file = some a.name
  · exact .inr (filter_isAt_ownDiagnostics fun hb => hne (Option.some.inj (ha.symm.trans hb)))
  · exact .inl (filter_isAt_ownDiagnostics ha)

/-! ## The diagnostics of a project -/

open Ast (SourceFile)

/-- The results kept for the files are those of binding them under the options. -/
def Cache.Fresh (c : Cache) (options : Options) (files : List SourceFile) : Prop :=
  ∀ file ∈ files, ∀ shared, c.get? file.id = some shared → bindFile options file = .ok shared.result

namespace Memo

/-- All results were made under the options. -/
def Uniform (m : Memo) (options : Options) : Prop := ∀ tree made, m tree = some made → made = options

variable {m : Memo} {options : Options}

theorem Uniform.getD (h : m.Uniform options) (tree : Ast.TreeId) :
    (m tree).getD options = options := by
  cases hmade : m tree with
  | none => rfl
  | some made => exact h tree made hmade

theorem Uniform.optionsFor (h : m.Uniform options) (tree : Ast.TreeId) :
    m.optionsFor options tree = options := by
  rw [Memo.optionsFor, h.getD, ite_self]

theorem Uniform.note (h : m.Uniform options) (tree : Ast.TreeId) :
    (m.note options tree).Uniform options := by
  intro other made hmade
  rw [Memo.note, h.getD] at hmade
  split at hmade
  · rw [Function.update_apply] at hmade
    split at hmade
    · exact (Option.some.inj hmade).symm
    · exact h other made hmade
  · exact h other made hmade

end Memo

theorem Cache.fresh_iff_keeps {c : Cache} {files : List SourceFile} :
    c.Fresh options files ↔ ∃ m : Memo, m.Uniform options ∧ c.Keeps m files := by
  constructor
  · intro h
    -- The memo says of each tree with a result that it was made under these options.
    refine ⟨fun tree => (c.get? tree).map fun _ => options, fun tree made hmade => ?_,
      fun file hfile => ?_⟩
    · obtain ⟨-, -, rfl⟩ := Option.map_eq_some_iff.mp hmade
      rfl
    · dsimp only
      cases hkept : c.get? file.id with
      | none => exact .none
      | some shared => exact .some (h file hfile shared hkept)
  · rintro ⟨m, huniform, hkeeps⟩ file hfile shared hkept
    have hrel := hkeeps file hfile
    rw [hkept] at hrel
    cases hmade : m file.id with
    | none =>
      rw [hmade] at hrel
      cases hrel
    | some made =>
      rw [hmade] at hrel
      cases hrel with
      | some hresult => exact huniform file.id made hmade ▸ hresult

/-- The diagnostics of the files, one file after another. -/
def ProjectResult.reported (r : ProjectResult) : List Diagnostic :=
  r.files.flatMap fun f => f.shared.result.diagnostics

theorem ProjectResult.Shows.reported {r : ProjectResult} {files : List SourceFile}
    (h : r.Shows files fun _ => options) : r.reported = files.flatMap (ownDiagnostics options) := by
  have hown := congrArg (List.flatMap fun e => e.2.toOption.elim [] BindResult.diagnostics) h.1
  simp only [List.flatMap_map] at hown
  exact hown

theorem Project.bindAll_of_fresh (p : Project) (hnamed : Ast.TreesNamed p.files)
    (hcache : p.cache.Fresh p.options p.files) :
    ∃ r, p.bindAll.1 = .ok r ∧ r.Shows p.files (fun _ => p.options) ∧
      p.bindAll.2.cache.Fresh p.options p.files := by
  obtain ⟨m, huniform, hkeeps⟩ := Cache.fresh_iff_keeps.mp hcache
  obtain ⟨⟨results, hresults, hshows⟩, hkeeps'⟩ :=
    bindEach_keeps p.options hnamed p.files (fun _ h => h) hkeeps
  have huniform' : (p.files.foldl (fun m file => m.note p.options file.id) m).Uniform p.options :=
    List.foldlRecOn (motive := (Memo.Uniform · p.options)) p.files _ huniform fun m hm file _ =>
      hm.note file.id
  refine ⟨.ofFiles results, ?_, ⟨?_, rfl⟩, Cache.fresh_iff_keeps.mpr ⟨_, huniform', hkeeps'⟩⟩
  · show (bindEach p.options p.files p.cache).1.map _ = _
    rw [hresults]
    rfl
  · simp only [huniform.optionsFor] at hshows
    exact hshows

theorem ProjectConfig.limit_ne_zero {content : String} {config : ProjectConfig}
    (h : parse content = .ok config) :
    config.options.maxDiagnostics ≠ some 0 := by
  unfold parse at h
  cases hjson : Json.parse? content <;> rw [hjson] at h
  · cases h
  rw [Option.elim, ofDocument] at h
  split at h
  · cases h
  · split at h
    · cases h
    · next hlimit =>
      cases h
      exact hlimit

/-- The merged diagnostics of a project, nothing being kept for its files but what the same options
gave: they are those of its files, in order of the files and of where they start, and at one place
in the order of report. The order in which files with different names were added makes no
difference. Under options that a project file can have, there are errors exactly where a bind of
some file has something to report. -/
theorem merged_diagnostics_are_canonical (p : Project) (hnamed : Ast.TreesNamed p.files)
    (hcache : p.cache.Fresh p.options p.files) :
    ∃ r, p.bindAll.1 = .ok r ∧ p.bindAll.2.cache.Fresh p.options p.files ∧
      (r.files.map fun f => (f.name, Except.ok f.shared.result)) =
        p.files.map (fun file => (file.name, bindFile p.options file)) ∧
      r.diagnostics.Perm r.reported ∧
      r.diagnostics.Pairwise Diagnostic.InOrder ∧
      (∀ file start, r.diagnostics.filter (Diagnostic.isAt file start) =
        r.reported.filter (Diagnostic.isAt file start)) ∧
      (∀ q : Project, q.options = p.options → q.files.Perm p.files → (p.files.map (·.name)).Nodup →
        q.cache.Fresh q.options q.files → ∃ r', q.bindAll.1 = .ok r' ∧ r'.diagnostics =
          r.diagnostics) ∧
      (∀ content config, ProjectConfig.parse content = .ok config → config.options = p.options →
        (r.hasErrors = true ↔ ∃ file ∈ p.files, ∃ result,
          bindFile { p.options with maxDiagnostics := none } file = .ok result ∧
            result.diagnostics ≠ [])) := by
  obtain ⟨r, hr, hshows, hfresh⟩ := p.bindAll_of_fresh hnamed hcache
  have hreported := hshows.reported
  have hsort : r.diagnostics = Diagnostic.sort r.reported := hshows.2
  have hperm : r.diagnostics.Perm r.reported := hsort ▸ Diagnostic.sort_perm _
  have hplaced : ∀ d ∈ r.diagnostics, ∃ file ∈ p.files, d ∈ ownDiagnostics p.options file :=
    fun d hd =>
    List.mem_flatMap.mp (hreported ▸ hperm.mem_iff.mp hd)
  refine ⟨r, hr, hfresh, hshows.1, hperm, ?_, ?_, ?_, ?_⟩
  · rw [hsort]
    refine (Diagnostic.sort_pairwise _).imp_of_mem fun {a b} ha hb hab => ?_
    obtain ⟨f, -, ha⟩ := hplaced a (hsort ▸ ha)
    obtain ⟨g, -, hb⟩ := hplaced b (hsort ▸ hb)
    exact Diagnostic.inOrder_of_precedes hab (ownDiagnostics_placed ha).1 (ownDiagnostics_placed hb).1
  · intro file start
    rw [hsort, Diagnostic.filter_isAt_sort]
  · intro q hoptions hfiles hnames hcache'
    have hnamed' : Ast.TreesNamed q.files := fun file hfile other hother =>
      hnamed file (hfiles.mem_iff.mp hfile) other (hfiles.mem_iff.mp hother)
    obtain ⟨r', hr', hshows', -⟩ := q.bindAll_of_fresh hnamed' hcache'
    refine ⟨r', hr', ?_⟩
    rw [hsort, show r'.diagnostics = Diagnostic.sort r'.reported from hshows'.2, hreported,
      hshows'.reported, hoptions]
    exact Diagnostic.sort_congr fun file start =>
      (flatMap_ownDiagnostics_agree hfiles.symm hnames file start).symm
  · intro content config hparse hoptions
    have hlimit : p.options.maxDiagnostics ≠ some 0 := hoptions ▸ ProjectConfig.limit_ne_zero hparse
    rw [ProjectResult.hasErrors, Diagnostic.hasErrors, List.any_eq_true]
    constructor
    · rintro ⟨d, hd, -⟩
      obtain ⟨file, hfile, hown⟩ := hplaced d hd
      obtain ⟨result, hresult⟩ := exists_bindFile { p.options with maxDiagnostics := none } file
      refine ⟨file, hfile, result, hresult, fun hnil => ?_⟩
      rw [← ownDiagnostics_of_ok hresult, ← ownDiagnostics_eq_nil_iff hlimit] at hnil
      rw [hnil] at hown
      exact List.not_mem_nil hown
    · rintro ⟨file, hfile, result, hresult, hne⟩
      rw [← ownDiagnostics_of_ok hresult, ne_eq, ← ownDiagnostics_eq_nil_iff hlimit] at hne
      obtain ⟨d, hd⟩ := List.exists_mem_of_ne_nil _ hne
      have hmem : d ∈ r.reported := hreported ▸ List.mem_flatMap.mpr ⟨file, hfile, hd⟩
      exact ⟨d, hperm.mem_iff.mpr hmem, (ownDiagnostics_placed hd).2⟩

/-- A file that consists of the undefined name `x`. -/
def undefinedFile (name : String) (tree : Ast.TreeId) : SourceFile :=
  ⟨tree, default, [.expr default (.name ⟨default, "x"⟩)], name, "x"⟩

/-- A project of the files `b` and `a`. -/
def twoFiles : Project := { Project.start {} with files := [undefinedFile "b" 0, undefinedFile "a" 1] }

/-- Adding the files in the other order gives the same diagnostics, and there are errors. -/
theorem twoFiles_diagnostics_are_canonical :
    ∃ r r', twoFiles.bindAll.1 = .ok r ∧ { twoFiles with files := twoFiles.files.reverse }.bindAll.1
      = .ok r' ∧
      r'.diagnostics = r.diagnostics ∧ r.diagnostics.Pairwise Diagnostic.InOrder ∧
        r.hasErrors = true := by
  have hnamed : Ast.TreesNamed twoFiles.files := by simp [Ast.TreesNamed, twoFiles, undefinedFile]
  obtain ⟨r, hr, -, -, -, hordered, -, hothers, herrors⟩ :=
    merged_diagnostics_are_canonical twoFiles hnamed fun _ _ _ hkept => by cases hkept
  obtain ⟨r', hr', hsame⟩ := hothers { twoFiles with files := twoFiles.files.reverse } rfl
    (List.reverse_perm _) (by decide) fun _ _ _ hkept => by cases hkept
  have hparse : ProjectConfig.parse "{}" = .ok ⟨{}, []⟩ := by decide +kernel
  have hfound : (ownDiagnostics {} (undefinedFile "a" 1)).isEmpty = false := by decide +kernel
  obtain ⟨result, hresult⟩ := exists_bindFile {} (undefinedFile "a" 1)
  have herror : r.hasErrors = true :=
    (herrors "{}" _ hparse rfl).mpr
      ⟨undefinedFile "a" 1, by simp [twoFiles], result, hresult, fun hnil => by
      rw [ownDiagnostics_of_ok hresult, hnil] at hfound
      cases hfound⟩
  exact ⟨r, r', hr, hr', hsame, hordered, herror⟩

end Bindery
