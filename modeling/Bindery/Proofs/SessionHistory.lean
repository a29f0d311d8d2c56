import Bindery.Proofs.Binding.KeyedBinding

/-!
# A session has no history

A session that shares an interner with its trees knows names by their numbers in the interner. These
numbers hang on everything that was interned before: other trees, other sessions, in any order. The
results do not. Each of the files that a session binds one after another gives what a session of its
own gives, with an interner that holds the names of that file only (`bindAll_eq_fresh`).

An interner tells the strings apart that it has seen (`Interner.handle_injOn`), and keys that tell
the names of a file apart are as good as the names themselves (`Session.bind_eq_bindFile`).
-/

namespace Bindery

namespace Interner

variable {i : Interner} {s n : String}

theorem get?_eq_some {k : Nat} (h : i.get? s = some k) : i.strings[k]? = some s := by
  rw [get?, List.idxOf?, List.findIdx?_eq_some_iff_getElem] at h
  obtain ⟨hlt, heq, -⟩ := h
  rw [List.getElem?_eq_getElem hlt, eq_of_beq heq]

/-- A string that was seen has a number. -/
theorem isSome_get? (h : s ∈ i.strings) : (i.get? s).isSome = true := by
  rw [get?, List.isSome_idxOf?]
  exact h

/-- Different strings have different numbers. -/
theorem handle_injOn (i : Interner) : Set.InjOn i.handle {s | s ∈ i.strings} := by
  intro a ha b hb heq
  obtain ⟨k, hk⟩ := Option.isSome_iff_exists.mp (isSome_get? ha)
  obtain ⟨l, hl⟩ := Option.isSome_iff_exists.mp (isSome_get? hb)
  obtain rfl : k = l := by simpa [handle, hk, hl] using heq
  exact Option.some.inj ((get?_eq_some hk).symm.trans (get?_eq_some hl))

theorem mem_intern : n ∈ (i.intern s).2.strings ↔ n ∈ i.strings ∨ n = s := by
  rw [intern]
  split
  · next k hk =>
    have hs : s ∈ i.strings := List.mem_of_getElem? (get?_eq_some hk)
    exact ⟨.inl, fun h => h.elim id fun heq => heq ▸ hs⟩
  · simp

/-- What an interner has seen after some strings: what it had seen before, and the strings. -/
theorem mem_internAll {strings : List String} : n ∈ (i.internAll strings).strings ↔ n ∈ i.strings ∨
    n ∈ strings := by
  induction strings generalizing i with
  | nil => simp [internAll]
  | cons s strings ih =>
    have hcons : i.internAll (s :: strings) = (i.intern s).2.internAll strings := rfl
    rw [hcons, ih, mem_intern, List.mem_cons, or_assoc]

end Interner

theorem Session.options_bind {κ : Type} [DecidableEq κ] [Keyed κ] (s : Session κ)
    (file : Ast.SourceFile) :
    (s.bind file).2.options = s.options := by
  generalize ExceptT.run (Binding.bindProgram file.stmts) s.state = outcome
  rfl

namespace InternedSession

/-- Every file is bound after its names were interned, beside it or before. -/
def InternsFirst (known : List String) : List (List String × Ast.SourceFile) → Prop
  | [] => True
  | (strings, file) :: rest =>
    (∀ n ∈ file.names, n ∈ known ++ strings) ∧ InternsFirst (known ++ strings) rest

/-- The names of the built-in functions. -/
def builtinNames : List String := Builtin.sigs.map Sig.name

theorem fst_bind (s : InternedSession) (file : Ast.SourceFile) :
    (s.bind file).1 = (@Session.bind Nat _ (s.interner.internAll builtinNames).keyed s.session
      file).1 := by
  rw [bind, builtinNames]

theorem options_bind (s : InternedSession) (file : Ast.SourceFile) :
    (s.bind file).2.session.options = s.session.options := by
  rw [bind, @Session.options_bind]

/-- A bind gives what it gives with names as their own keys, if the names of the file were
interned. -/
theorem fst_bind_eq_bindFile {s : InternedSession} {file : Ast.SourceFile}
    (h : ∀ n ∈ file.names, n ∈ s.interner.strings) :
    (s.bind file).1 = bindFile s.session.options file := by
  have hmem : ∀ n, n ∈ (s.interner.internAll builtinNames).strings ↔ n ∈ s.interner.strings ∨
    n ∈ builtinNames :=
    fun _ => Interner.mem_internAll
  rw [fst_bind]
  generalize s.interner.internAll builtinNames = i at hmem
  refine @Session.bind_eq_bindFile Nat i.keyed _ s.session file {n | n ∈ i.strings} i.handle_injOn
    (fun f hf => ?_) fun n hn => ?_
  · exact (hmem f.name).mpr (.inr (List.mem_map_of_mem hf))
  · exact (hmem n).mpr (.inl (h n hn))

variable {steps : List (List String × Ast.SourceFile)}

/-- What was known before a bind is known after it. -/
theorem InternsFirst.mono {known known' : List String} (h : InternsFirst known steps)
    (hsub : ∀ n ∈ known, n ∈ known') :
    InternsFirst known' steps := by
  induction steps generalizing known known' with
  | nil => trivial
  | cons step steps ih =>
    have hsub' : ∀ n ∈ known ++ step.1, n ∈ known' ++ step.1 := by
      intro n hn
      rcases List.mem_append.mp hn with hn | hn
      · exact List.mem_append_left _ (hsub n hn)
      · exact List.mem_append_right _ hn
    exact ⟨fun n hn => hsub' n (h.1 n hn), ih h.2 hsub'⟩

/-- Every file of a session is bound as if names were their own keys and nothing had been bound
before. -/
theorem bindAll_eq_map {s : InternedSession} (h : InternsFirst s.interner.strings steps) :
    s.bindAll steps = steps.map fun step => bindFile s.session.options step.2 := by
  induction steps generalizing s with
  | nil => rfl
  | cons step steps ih =>
    obtain ⟨strings, file⟩ := step
    have hnames : ∀ n ∈ file.names, n ∈ (s.intern strings).interner.strings :=
      fun n hn => Interner.mem_internAll.mpr (List.mem_append.mp (h.1 n hn))
    have hrest : InternsFirst ((s.intern strings).bind file).2.interner.strings steps := by
      refine h.2.mono fun n hn => ?_
      exact Interner.mem_internAll.mpr (.inl (Interner.mem_internAll.mpr (List.mem_append.mp hn)))
    rw [bindAll, ih hrest, options_bind, fst_bind_eq_bindFile hnames]
    rfl

/-- The results of a session do not depend on its history. Whatever it did before, whatever its
interner holds and in whatever order strings are interned on the way: each file gives the result of
a session of its own with the same options, whose interner has seen the names of that file only, in
any order. So does every other session with these options, in whatever state, whose keys tell the
names of the file and of the built-in functions apart. -/
theorem bindAll_eq_fresh (s : InternedSession) (steps : List (List String × Ast.SourceFile))
    (h : InternsFirst s.interner.strings steps) (own : Ast.SourceFile → List String)
    (hown : ∀ step ∈ steps, ∀ n, n ∈ own step.2 ↔ n ∈ step.2.names) :
    let fresh (file : Ast.SourceFile) :=
      ((start s.session.options (Interner.empty.internAll (own file))).bind file).1
    s.bindAll steps = steps.map (fun step => fresh step.2) ∧
      ∀ (κ : Type) [DecidableEq κ] [Keyed κ] (t : Session κ) step, step ∈ steps →
        t.options = s.session.options →
        Set.InjOn (Keyed.key : String → κ) {n | n ∈ builtinNames ∨ n ∈ step.2.names} →
        (t.bind step.2).1 = fresh step.2 := by
  intro fresh
  have hfresh : ∀ step ∈ steps, fresh step.2 = bindFile s.session.options step.2 := fun step hstep =>
    fst_bind_eq_bindFile fun n hn => Interner.mem_internAll.mpr (.inr ((hown step hstep n).mpr hn))
  refine ⟨?_, fun κ _ _ t step hstep hoptions hkeys => ?_⟩
  · rw [bindAll_eq_map h]
    exact List.map_congr_left fun step hstep => (hfresh step hstep).symm
  · rw [hfresh step hstep, ← hoptions]
    exact t.bind_eq_bindFile step.2 hkeys (fun f hf => .inl (List.mem_map_of_mem hf)) fun n hn =>
      .inr hn

/-- `print x`. -/
def printing : Ast.SourceFile :=
  let o : Origin := default
  ⟨0, o, [.print o (.name ⟨o, "x"⟩)], "main", "print x"⟩

/-- `let y = x`. -/
def copying : Ast.SourceFile :=
  let o : Origin := default
  ⟨1, o, [.bindName o ⟨o, "y"⟩ false none (.name ⟨o, "x"⟩)], "main", "let y = x"⟩

/-- The number of `x` was handed out before the first file, and that of `y` before it is needed. -/
theorem printing_copying_eq_fresh :
    (start {} (Interner.empty.internAll ["z", "x"])).bindAll [(["y"], printing), ([], copying)] =
      [((start {} (Interner.empty.internAll ["x"])).bind printing).1,
        ((start {} (Interner.empty.internAll ["x", "y"])).bind copying).1] := by
  refine (bindAll_eq_fresh _ [(["y"], printing), ([], copying)] ?_
    (fun file => if file.id = 0 then ["x"] else ["x", "y"]) ?_).1
  · refine ⟨?_, ?_, trivial⟩ <;> decide
  · intro step hstep n
    rcases List.mem_cons.mp hstep with rfl | hstep
    · have hnames : printing.names = ["x"] := by decide
      rfl
    · obtain rfl := List.mem_singleton.mp hstep
      have hnames : copying.names = ["y", "x"] := by decide
      rw [hnames]
      simp [copying, or_comm]

end InternedSession

end Bindery
