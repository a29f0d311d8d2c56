import Bindery.Proofs.Project.Fresh
import Mathlib.Data.List.Dedup

/-!
# Binding the files of a project at the same time

The files of a project are bound by workers that share one cache. A worker looks its file up under
the lock of the cache; if nothing is kept for it, the worker binds the file without the lock, and
then takes the lock once more to keep the result. Between these steps any other worker may go on, so
two workers with the same tree may both find nothing and both keep a result.

A *schedule* says whose turn it is, step by step. `Pool.run` follows it. What carries the main
statement is that the cache never loses what it held at the start and that everything added to it is
what binding that tree afresh gives (`Cache.Filled`): so it does not matter which worker comes
first.
-/

namespace Bindery

open Ast (SourceFile)

/-! ## Workers -/

/-- How far the binding of one file has come. -/
inductive Worker where
  /-- The file was not looked up yet. -/
  | waiting
  /-- No result is kept for the file. -/
  | missed
  /-- The file is bound, and the result is not kept yet. -/
  | bound (shared : Shared)
  | finished (outcome : Except ProjectError FileResult)

namespace Worker

/-- The next step of a worker. -/
def step (options : Options) (file : SourceFile) (cache : Cache) : Worker → Worker × Cache
  | .waiting =>
    match cache.reuse? options file.id with
    | some hit => (.finished (.ok ⟨file.name, hit⟩), cache)
    | none => (.missed, cache)
  | .missed =>
    match bindFile options file with
    | .error fault => (.finished (.error (.bind file.name fault)), cache)
    | .ok result => (.bound (cache.number result).1, (cache.number result).2)
  | .bound shared =>
    (.finished (.ok ⟨file.name, shared⟩), if options.useCache then cache.insert file.id shared
      else cache)
  | .finished outcome => (.finished outcome, cache)

/-- The number of steps that a worker has left at most. -/
def remaining : Worker → Nat
  | .waiting => 3
  | .missed => 2
  | .bound _ => 1
  | .finished _ => 0

theorem remaining_step (options : Options) (file : SourceFile) (cache : Cache) (w : Worker) :
    (w.step options file cache).1.remaining ≤ w.remaining - 1 := by
  cases w with
  | waiting =>
    rw [step]
    split <;> simp [remaining]
  | missed =>
    rw [step]
    split <;> simp [remaining]
  | bound shared => simp [step, remaining]
  | finished outcome => simp [step, remaining]

end Worker

/-- A worker that is never interrupted does what binding one file does. -/
theorem Project.bindOne_eq_steps (options : Options) (file : SourceFile) (c : Cache) :
    ∃ first second : Worker × Cache,
      first = Worker.step options file c .waiting ∧ second = Worker.step options file first.2 first.1 ∧
        Worker.step options file second.2 second.1 =
          (.finished (Project.bindOne options file c).1, (Project.bindOne options file c).2) := by
  refine ⟨_, _, rfl, rfl, ?_⟩
  rw [Project.bindOne]
  cases hreuse : c.reuse? options file.id with
  | some hit => simp only [Worker.step, hreuse]
  | none =>
    cases hbind : bindFile options file with
    | error fault => simp only [Worker.step, hreuse, hbind]
    | ok result =>
      simp only [Worker.step, hreuse, hbind]
      rfl

/-! ## What the cache holds -/

/-- What a file of a project comes to: the result kept for its tree at the start, if it may be used
again, and else that of binding it afresh. -/
def Cache.answer (c : Cache) (options : Options) (file : SourceFile) : Except Fault BindResult :=
  match c.reuse? options file.id with
  | some hit => .ok hit.result
  | none => bindFile options file

/-- The second cache has what the first one holds and beside it only fresh results for trees of the
files. Without leave to use results again, nothing is added. -/
structure Cache.Filled (options : Options) (files : List SourceFile) (c d : Cache) : Prop where
  kept : ∀ tree shared, c.get? tree = some shared → d.get? tree = some shared
  fresh : ∀ tree shared, d.get? tree = some shared → c.get? tree = some shared ∨
    c.get? tree = none ∧ ∃ file ∈ files, file.id = tree ∧ bindFile options file = .ok shared.result
  unused : options.useCache = false → d.entries = c.entries

/-- What is known of a worker for a file, when the cache was `c` at the start and is `d` now. -/
def Worker.Sound (options : Options) (c d : Cache) (file : SourceFile) : Worker → Prop
  | .waiting => True
  | .missed => c.reuse? options file.id = none
  | .bound shared => c.reuse? options file.id = none ∧ bindFile options file = .ok shared.result
  | .finished outcome =>
    ∃ shared, outcome = .ok ⟨file.name, shared⟩ ∧ c.answer options file = .ok shared.result ∧
    (options.useCache = true → d.contains file.id = true)

variable {options : Options} {files : List SourceFile} {c d e : Cache} {file : SourceFile}

namespace Cache.Filled

theorem refl (c : Cache) : Filled options files c c :=
  ⟨fun _ _ h => h, fun _ _ h => .inl h, fun _ => rfl⟩

theorem number (h : Filled options files c d) (r : BindResult) :
    Filled options files c (d.number r).2 :=
  ⟨h.kept, h.fresh, h.unused⟩

/-- A fresh result is kept for a tree for which nothing was kept at the start. -/
theorem insert (h : Filled options files c d) (hfile : file ∈ files) {shared : Shared}
    (hmissed : c.get? file.id = none) (hfresh : bindFile options file = .ok shared.result)
    (huse : options.useCache = true) : Filled options files c (d.insert file.id shared) where
  kept tree other hother := by
    rw [get?_insert, if_neg]
    · exact h.kept tree other hother
    · rintro rfl
      rw [hmissed] at hother
      cases hother
  fresh tree other hother := by
    rw [get?_insert] at hother
    split at hother
    · next heq =>
      cases hother
      exact .inr ⟨heq ▸ hmissed, file, hfile, heq.symm, hfresh⟩
    · exact h.fresh tree other hother
  unused hunused := by
    rw [huse] at hunused
    cases hunused

/-- A result that is found for a file is what the file comes to, however it got there. -/
theorem answer_of_reuse? (h : Filled options files c d) (hnamed : Ast.TreesNamed files)
    (hfile : file ∈ files)
    {hit : Shared} (hhit : d.reuse? options file.id = some hit) :
    c.answer options file = .ok hit.result := by
  cases huse : options.useCache with
  | false =>
    rw [reuse?_of_not_useCache huse] at hhit
    cases hhit
  | true =>
    rw [reuse?_of_useCache huse] at hhit
    rw [answer, reuse?_of_useCache huse]
    rcases h.fresh _ _ hhit with hold | ⟨hnone, other, hother, hid, hfresh⟩
    · rw [hold]
    · rw [hnone, ← hnamed other hother file hfile hid]
      exact hfresh

end Cache.Filled

namespace Worker

/-- A worker knows the same when the cache has grown. -/
theorem Sound.mono {w : Worker} (h : w.Sound options c d file)
    (hcontains : ∀ tree, d.contains tree = true → e.contains tree = true) :
    w.Sound options c e file := by
  cases w with
  | finished outcome =>
    obtain ⟨shared, houtcome, hanswer, hkept⟩ := h
    exact ⟨shared, houtcome, hanswer, fun huse => hcontains _ (hkept huse)⟩
  | _ => exact h

/-- One step of one worker, whatever the others have done: the cache stays filled as it should be
and loses no tree. -/
theorem sound_step (hnamed : Ast.TreesNamed files) (hfile : file ∈ files)
    (hfilled : d.Filled options files c) :
    ∀ w : Worker, w.Sound options d c file →
      (w.step options file c).1.Sound options d (w.step options file c).2 file ∧
        d.Filled options files (w.step options file c).2 ∧
        ∀ tree, c.contains tree = true → (w.step options file c).2.contains tree = true := by
  intro w hw
  cases w with
  | waiting =>
    rw [step]
    cases hreuse : c.reuse? options file.id with
    | some hit =>
      refine ⟨⟨hit, rfl, hfilled.answer_of_reuse? hnamed hfile hreuse, fun huse => ?_⟩, hfilled,
        fun _ h => h⟩
      rw [Cache.reuse?_of_useCache huse] at hreuse
      exact Option.isSome_iff_exists.mpr ⟨hit, hreuse⟩
    | none =>
      refine ⟨?_, hfilled, fun _ h => h⟩
      -- Nothing is lost from the cache, so what is not found now was not there at the start.
      show d.reuse? options file.id = none
      cases huse : options.useCache with
      | false => exact Cache.reuse?_of_not_useCache huse
      | true =>
        rw [Cache.reuse?_of_useCache huse] at hreuse ⊢
        cases hold : d.get? file.id with
        | none => rfl
        | some shared =>
          rw [hfilled.kept _ _ hold] at hreuse
          cases hreuse
  | missed =>
    obtain ⟨result, hresult⟩ := exists_bindFile options file
    rw [step, hresult]
    exact ⟨⟨hw, hresult⟩, hfilled.number result, fun _ h => h⟩
  | bound shared =>
    obtain ⟨hmissed, hfresh⟩ := hw
    have hanswer : d.answer options file = .ok shared.result := by
      rw [Cache.answer, hmissed]
      exact hfresh
    rw [step]
    cases huse : options.useCache with
    | false =>
      exact ⟨⟨shared, rfl, hanswer, fun h => by rw [huse] at h; cases h⟩, hfilled, fun _ h => h⟩
    | true =>
      rw [Cache.reuse?_of_useCache huse] at hmissed
      have hcontains : ∀ tree, (c.insert file.id shared).contains tree = true ↔
          tree = file.id ∨ c.contains tree = true := by
        intro tree
        show ((c.insert file.id shared).get? tree).isSome = true ↔ _
        rw [Cache.get?_insert]
        split
        · next heq => simp [heq]
        · next hne => exact (or_iff_right hne).symm
      refine ⟨⟨shared, rfl, hanswer, fun _ => (hcontains _).mpr (.inl rfl)⟩, ?_, fun tree h => ?_⟩
      · exact hfilled.insert hfile hmissed hfresh huse
      · exact (hcontains tree).mpr (.inr h)
  | finished outcome => exact ⟨hw, hfilled, fun _ h => h⟩

end Worker

/-! ## Pools -/

/-- The workers of a project, each with its file, and the cache that they share. -/
structure Pool where
  workers : List (SourceFile × Worker)
  cache : Cache

namespace Pool

/-- Nothing is done yet. -/
def start (p : Project) : Pool := ⟨p.files.map fun file => (file, .waiting), p.cache⟩

/-- A worker makes its next step. -/
def step (options : Options) (pool : Pool) (turn : Nat) : Pool :=
  match pool.workers[turn]? with
  | some (file, worker) =>
    ⟨pool.workers.set turn (file, (worker.step options file pool.cache).1),
      (worker.step options file pool.cache).2⟩
  | none => pool

/-- The workers make their steps as the schedule says. -/
def run (options : Options) (pool : Pool) (schedule : List Nat) :
    Pool := schedule.foldl (step options) pool

/-- The results in the order of the files, once every worker has finished. -/
def collect : List (SourceFile × Worker) → Option (Except ProjectError (List FileResult))
  | [] => some (.ok [])
  | (_, .finished outcome) :: workers =>
    (collect workers).map fun results => outcome.bind fun r => results.map (r :: ·)
  | _ :: _ => none

/-- What the project comes to, once every worker has finished. -/
def result? (pool : Pool) : Option (Except ProjectError ProjectResult) :=
  (collect pool.workers).map fun results => results.map .ofFiles

/-- What holds of a pool at every moment. -/
structure Sound (p : Project) (pool : Pool) : Prop where
  files : pool.workers.map Prod.fst = p.files
  filled : p.cache.Filled p.options p.files pool.cache
  workers : ∀ w ∈ pool.workers, w.2.Sound p.options p.cache pool.cache w.1

variable {p : Project} {pool : Pool}

theorem sound_start (p : Project) : (start p).Sound p where
  files := by
    rw [start, List.map_map]
    exact List.map_id p.files
  filled := .refl p.cache
  workers w hw := by
    obtain ⟨file, -, rfl⟩ := List.mem_map.mp hw
    trivial

theorem sound_step (hnamed : Ast.TreesNamed p.files) (h : pool.Sound p) (turn : Nat) :
    (pool.step p.options turn).Sound p := by
  rw [step]
  split
  · next file worker hworker =>
    have hmem := List.mem_of_getElem? hworker
    have hfile : file ∈ p.files := h.files ▸ List.mem_map_of_mem hmem
    obtain ⟨hsound, hfilled, hcontains⟩ :=
      Worker.sound_step hnamed hfile h.filled worker (h.workers _ hmem)
    refine ⟨?_, hfilled, fun w hw => ?_⟩
    · have hturn : p.files[turn]? = some file := by
        rw [← h.files, List.getElem?_map, hworker]
        rfl
      obtain ⟨hlt, rfl⟩ := List.getElem?_eq_some_iff.mp hturn
      rw [List.map_set, h.files]
      exact List.set_getElem_self hlt
    · rcases List.mem_or_eq_of_mem_set hw with hw | rfl
      · exact (h.workers w hw).mono hcontains
      · exact hsound
  · exact h

/-- What holds at the start holds after every schedule. -/
theorem sound_run (hnamed : Ast.TreesNamed p.files) (schedule : List Nat) (h : pool.Sound p) :
    (pool.run p.options schedule).Sound p := by
  induction schedule generalizing pool with
  | nil => exact h
  | cons turn schedule ih => exact ih (sound_step hnamed h turn)

variable {workers : List (SourceFile × Worker)} {outcome : Except ProjectError (List FileResult)}

/-- Once every worker has finished, the results are what the files come to. -/
theorem collect_eq (hsound : ∀ w ∈ workers, w.2.Sound options c d w.1)
    (h : collect workers = some outcome) :
    ∃ results, outcome = .ok results ∧
      (results.map fun r => (r.name, Except.ok r.shared.result)) =
        (workers.map Prod.fst).map fun file => (file.name, c.answer options file) := by
  fun_induction collect workers generalizing outcome with
  | case1 =>
    cases h
    exact ⟨[], rfl, rfl⟩
  | case2 file finished workers ih =>
    obtain ⟨hfirst, hrest⟩ := List.forall_mem_cons.mp hsound
    obtain ⟨rest, hcollect, rfl⟩ := Option.map_eq_some_iff.mp h
    obtain ⟨results, rfl, hresults⟩ := ih hrest hcollect
    have hfinished : ∃ shared, finished = .ok ⟨file.name, shared⟩ ∧ c.answer options file =
      .ok shared.result ∧
        (options.useCache = true → d.contains file.id = true) := hfirst
    obtain ⟨shared, rfl, hanswer, -⟩ := hfinished
    refine ⟨⟨file.name, shared⟩ :: results, rfl, ?_⟩
    rw [List.map_cons, List.map_cons, List.map_cons, hresults, ← hanswer]
  | case3 => cases h

theorem isSome_collect (h : ∀ w ∈ workers, w.2.remaining = 0) : (collect workers).isSome = true := by
  fun_induction collect workers with
  | case1 => rfl
  | case2 file finished workers ih =>
    rw [Option.isSome_map]
    exact ih (List.forall_mem_cons.mp h).2
  | case3 w workers hunfinished =>
    obtain ⟨file, worker⟩ := w
    have hremaining : worker.remaining = 0 := (List.forall_mem_cons.mp h).1
    cases worker with
    | finished outcome => exact absurd rfl (hunfinished file outcome)
    | _ => cases hremaining

/-- A worker that has finished has its tree in the cache, if results may be used again. -/
theorem contains_of_collect (hsound : ∀ w ∈ workers, w.2.Sound options c d w.1)
    (huse : options.useCache = true)
    (h : collect workers = some outcome) :
    ∀ file ∈ workers.map Prod.fst, d.contains file.id = true := by
  fun_induction collect workers generalizing outcome with
  | case1 => simp
  | case2 file finished workers ih =>
    obtain ⟨hfirst, hrest⟩ := List.forall_mem_cons.mp hsound
    obtain ⟨rest, hcollect, -⟩ := Option.map_eq_some_iff.mp h
    obtain ⟨shared, -, -, hkept⟩ := hfirst
    exact List.forall_mem_cons.mpr ⟨hkept huse, ih hrest hcollect⟩
  | case3 => cases h

/-- In the end the cache has one entry for each tree that it had at the start or that a file has. -/
theorem Sound.perm_keys (h : pool.Sound p) (huse : p.options.useCache = true)
    (hcollect : collect pool.workers = some outcome) :
    pool.cache.entries.keys.Perm (p.cache.entries.keys ++ p.files.map (·.id)).dedup := by
  have hcontains := contains_of_collect h.workers huse hcollect
  rw [h.files] at hcontains
  refine (List.perm_ext_iff_of_nodup pool.cache.entries.nodup (List.nodup_dedup _)).mpr fun tree => ?_
  show tree ∈ pool.cache.entries.keys ↔ _
  rw [List.mem_dedup, List.mem_append, ← OrderedMap.contains_iff_mem_keys,
    ← OrderedMap.contains_iff_mem_keys, List.mem_map]
  constructor
  · intro htree
    obtain ⟨shared, hshared⟩ := Option.isSome_iff_exists.mp htree
    rcases h.filled.fresh tree shared hshared with hold | ⟨-, file, hfile, hid, -⟩
    · exact .inl (Option.isSome_iff_exists.mpr ⟨shared, hold⟩)
    · exact .inr ⟨file, hfile, hid⟩
  · rintro (htree | ⟨file, hfile, rfl⟩)
    · obtain ⟨shared, hshared⟩ := Option.isSome_iff_exists.mp htree
      exact Option.isSome_iff_exists.mpr ⟨shared, h.filled.kept tree shared hshared⟩
    · exact hcontains file hfile

/-- Every turn brings a worker nearer to its end and leaves the others where they are. -/
theorem remaining_run (schedule : List Nat) (pool : Pool) {i : Nat} {w : SourceFile × Worker}
    (hw : (pool.run options schedule).workers[i]? = some w) :
    ∃ v, pool.workers[i]? = some v ∧ w.2.remaining ≤ v.2.remaining - schedule.count i := by
  induction schedule generalizing pool with
  | nil => exact ⟨w, hw, Nat.le_refl _⟩
  | cons turn schedule ih =>
    obtain ⟨v, hv, hle⟩ := ih (pool.step options turn) hw
    rw [step] at hv
    cases hturn : pool.workers[turn]? with
    | none =>
      rw [hturn] at hv
      have hne : turn ≠ i := by
        rintro rfl
        rw [hv] at hturn
        cases hturn
      exact ⟨v, hv, by rwa [List.count_cons_of_ne hne]⟩
    | some u =>
      rw [hturn] at hv
      by_cases heq : turn = i
      · subst heq
        have hlt := (List.getElem?_eq_some_iff.mp hturn).1
        rw [List.getElem?_set_self hlt] at hv
        obtain rfl := Option.some.inj hv
        have hstep := Worker.remaining_step options u.1 pool.cache u.2
        refine ⟨u, hturn, ?_⟩
        dsimp only at hle
        rw [List.count_cons_self]
        omega
      · rw [List.getElem?_set_ne heq] at hv
        exact ⟨v, hv, by rwa [List.count_cons_of_ne heq]⟩

theorem length_run (schedule : List Nat) (pool : Pool) :
    (pool.run options schedule).workers.length = pool.workers.length := by
  induction schedule generalizing pool with
  | nil => rfl
  | cons turn schedule ih =>
    refine (ih (pool.step options turn)).trans ?_
    rw [step]
    split
    · exact List.length_set
    · rfl

end Pool

/-! ## The main statement -/

/-- Binding the files in order gives what each of them comes to. -/
theorem Project.bindEach_eq (hnamed : Ast.TreesNamed files) {part : List SourceFile}
    (hpart : ∀ file ∈ part, file ∈ files) (hfilled : c.Filled options files d) :
    ∃ results, (bindEach options part d).1 = .ok results ∧
      (results.map fun r => (r.name, Except.ok r.shared.result)) =
        part.map fun file => (file.name, c.answer options file) := by
  induction part generalizing d with
  | nil => exact ⟨[], rfl, rfl⟩
  | cons file part ih =>
    obtain ⟨hfile, hpart⟩ := List.forall_mem_cons.mp hpart
    obtain ⟨first, second, rfl, rfl, hlast⟩ := bindOne_eq_steps options file d
    obtain ⟨hsound, hfilled, -⟩ := Worker.sound_step hnamed hfile hfilled .waiting trivial
    obtain ⟨hsound, hfilled, -⟩ := Worker.sound_step hnamed hfile hfilled _ hsound
    obtain ⟨hsound, hfilled, -⟩ := Worker.sound_step hnamed hfile hfilled _ hsound
    rw [hlast] at hsound hfilled
    obtain ⟨shared, hshared, hanswer, -⟩ := hsound
    obtain ⟨results, hresults, hrest⟩ := ih hpart hfilled
    refine ⟨⟨file.name, shared⟩ :: results, ?_, ?_⟩
    · rw [bindEach]
      generalize bindOne options file d = one at hshared hresults
      obtain ⟨outcome, after⟩ := one
      subst hshared
      show (bindEach options part after).1.map _ = _
      rw [hresults]
      rfl
    · rw [List.map_cons, List.map_cons, hrest, ← hanswer]

/-- Results that come to the same have the same content. -/
theorem ProjectResult.content_ofFiles_congr {results results' : List FileResult}
    (h : (results.map fun r => (r.name, (Except.ok r.shared.result : Except Fault BindResult))) =
      results'.map fun r => (r.name, Except.ok r.shared.result)) :
    (ofFiles results).content = (ofFiles results').content := by
  have hcontent : (results.map fun r => (r.name, r.shared.result)) =
      results'.map fun r => (r.name, r.shared.result) := by
    have hinjective : Function.Injective
        (Prod.map id Except.ok : String × BindResult → String × Except Fault BindResult) := by
      rintro ⟨name, r⟩ ⟨name', r'⟩ heq
      cases heq
      rfl
    refine List.map_injective_iff.mpr hinjective ?_
    rw [List.map_map, List.map_map]
    exact h
  rw [content_ofFiles, content_ofFiles, hcontent]

/-- Whatever the order in which the workers make their steps, the project comes to what it comes to
when its files are bound one after another: the same files in the order added, with equal results
and diagnostics. The cache then has one entry for each tree that it had or that was bound, and what
it had is unchanged; without leave to use results again it is as it was. Every schedule that gives
each worker three turns comes to an end. -/
theorem binding_in_parallel_is_schedule_independent (p : Project) (hnamed : Ast.TreesNamed p.files)
    (schedule : List Nat) :
    (∀ outcome, ((Pool.start p).run p.options schedule).result? = some outcome →
      (∃ r sequential, outcome = .ok r ∧ p.bindAll.1 = .ok sequential ∧
      r.content = sequential.content ∧
        (r.files.map fun f => (f.name, Except.ok f.shared.result)) =
          p.files.map fun file => (file.name, p.cache.answer p.options file)) ∧
      (p.options.useCache = true →
        ((Pool.start p).run p.options schedule).cache.entries.keys.Perm
          (p.cache.entries.keys ++ p.files.map (·.id)).dedup ∧
        ∀ tree shared, p.cache.get? tree = some shared →
          ((Pool.start p).run p.options schedule).cache.get? tree = some shared) ∧
      (p.options.useCache = false → ((Pool.start p).run p.options schedule).cache.entries =
      p.cache.entries)) ∧
    ((∀ i < p.files.length, 3 ≤ schedule.count i) →
      ((Pool.start p).run p.options schedule).result?.isSome = true) := by
  have hsound := Pool.sound_run hnamed schedule (Pool.sound_start p)
  refine ⟨fun outcome houtcome => ⟨?_, fun huse => ⟨?_, hsound.filled.kept⟩, hsound.filled.unused⟩,
    fun hfair => ?_⟩
  · obtain ⟨collected, hcollected, rfl⟩ := Option.map_eq_some_iff.mp houtcome
    obtain ⟨results, rfl, hresults⟩ := Pool.collect_eq hsound.workers hcollected
    rw [hsound.files] at hresults
    obtain ⟨inOrder, hinOrder, hsame⟩ := Project.bindEach_eq hnamed (fun _ h => h) (.refl p.cache)
    refine ⟨.ofFiles results, .ofFiles inOrder, rfl, ?_, ?_, hresults⟩
    · show (Project.bindEach p.options p.files p.cache).1.map _ = _
      rw [hinOrder]
      rfl
    · exact ProjectResult.content_ofFiles_congr (hresults.trans hsame.symm)
  · obtain ⟨collected, hcollected, -⟩ := Option.map_eq_some_iff.mp houtcome
    exact hsound.perm_keys huse hcollected
  · rw [Pool.result?, Option.isSome_map]
    refine Pool.isSome_collect fun w hw => ?_
    obtain ⟨i, hi⟩ := List.mem_iff_getElem?.mp hw
    obtain ⟨v, hv, hle⟩ := Pool.remaining_run schedule (Pool.start p) hi
    have hlt : i < p.files.length := by
      have hlt := (List.getElem?_eq_some_iff.mp hi).1
      rwa [Pool.length_run, Pool.start, List.length_map] at hlt
    have hthree := hfair i hlt
    have hv3 : v.2.remaining = 3 := by
      obtain ⟨file, -, rfl⟩ := List.mem_map.mp (List.mem_of_getElem? hv)
      rfl
    omega

/-- `print x`, a file with one diagnostic. -/
def undefinedPrint (tree : Ast.TreeId) : SourceFile :=
  let o : Origin := default
  ⟨tree, o, [.print o (.name ⟨o, "x"⟩)], "main", "print x"⟩

/-- Three files, two of which are the same tree. -/
def twice : Project := { Project.start {} with files := [7, 7, 8].map undefinedPrint }

/-- The first two workers look their tree up before either has kept a result, and both keep one. -/
theorem twice_is_schedule_independent :
    ∃ r sequential, ((Pool.start twice).run {} [0, 1, 2, 1, 0, 2, 0, 1, 2]).result? = some (.ok r) ∧
      twice.bindAll.1 = .ok sequential ∧ r.content = sequential.content := by
  have hnamed : Ast.TreesNamed twice.files := by
    intro file hfile other hother hid
    obtain ⟨tree, -, rfl⟩ := List.mem_map.mp hfile
    obtain ⟨tree', -, rfl⟩ := List.mem_map.mp hother
    exact congrArg undefinedPrint hid
  obtain ⟨hcontent, hfair⟩ :=
    binding_in_parallel_is_schedule_independent twice hnamed [0, 1, 2, 1, 0, 2, 0, 1, 2]
  obtain ⟨outcome, houtcome⟩ := Option.isSome_iff_exists.mp (hfair (by decide))
  obtain ⟨⟨r, sequential, rfl, hsequential, hsame, -⟩, -⟩ := hcontent outcome houtcome
  exact ⟨r, sequential, houtcome, hsequential, hsame⟩

end Bindery
