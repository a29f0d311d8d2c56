import Bindery.Proofs.Binding.Rules

/-!
# What lambdas capture

Symbols are numbered in the order of declaration, and a lambda declares everything inside it before
it is left. The number of symbols at its entry is therefore its mark (`State.Marked`): a variable in
sight belongs to the lambda if its number is not below the mark, and is free in it otherwise. So a
lambda has captured the references below its mark, each once and in the order of first reference
(`capturedBy`).
-/

namespace Bindery

namespace Binding

/-! ## Marks -/

/-- The lambda with scope `b` was entered when there were `m` symbols: of the variables in sight,
those declared in `b` or inside it are those with a number from `m` on. -/
structure State.Marked (s : State) (b m : Nat) : Prop where
  mem : b ∈ s.captures.boundaries
  le : m ≤ s.syms.size
  split : ∀ (c : Nat) sc name (id : Nat), c ∈ s.scopes.chain s.current → s.scopes.get? c = some sc →
    sc.varNames.get? name = some id → (b ≤ c ↔ m ≤ id)

namespace State.Marked

variable {s t : State} {b m : Nat} {own : List String}

/-- Steps that keep what is around them keep marks: a name that they add gets a new number. -/
theorem grows (h : s.Marked b m) (hs : s.Valid) (hg : Grows own s t) : t.Marked b m where
  mem := hg.boundaries ▸ h.mem
  le := Nat.le_trans h.le (Symbols.size_le hg.syms)
  split c sc' name id hc hsc' hid := by
    rw [hg.current, Scopes.chain_eq_of_agrees hs.nested (hg.valid hs).nested hg.scopes.agrees
      hs.current_lt] at hc
    have hle := Scopes.le_of_mem_chain hs.nested hs.current_lt hc
    obtain ⟨sc, hsc⟩ := Scopes.exists_get?_of_lt (Nat.lt_of_le_of_lt hle hs.current_lt)
    obtain ⟨sc'', hsc'', hgrows⟩ := hg.scopes c sc hsc
    rw [hsc'] at hsc''
    cases hsc''
    obtain ⟨added, hadded, hentries⟩ := hgrows.varNames
    rcases OrderedMap.get?_append hentries hid with hid | hid
    · exact h.split c sc name id hc hsc hid
    · obtain ⟨hown, hsize⟩ := hadded _ hid
      have hcurrent : c = s.current := by
        by_contra hne
        rw [if_neg hne] at hown
        cases hown
      have hb := Scopes.le_of_mem_chain hs.nested hs.current_lt (hs.boundaries b h.mem)
      subst hcurrent
      exact iff_of_true hb (Nat.le_trans h.le hsize)

theorem opened (h : s.Marked b m) (hs : s.Valid) (kind : ScopeKind) : (s.opened kind).Marked b m where
  mem := h.mem
  le := h.le
  split c sc name id hc hsc hid := by
    rcases Scopes.get?_push_eq_some hsc with hsc | ⟨-, depth, rfl⟩
    · refine h.split c sc name id ?_ hsc hid
      rw [hs.chain_opened kind] at hc
      exact (List.mem_cons.mp hc).resolve_left (Nat.ne_of_lt (Scopes.get?_eq_some_lt hsc))
    · cases hid

theorem entering (h : s.Marked b m) (hs : s.Valid) : s.enteringLambda.Marked b m where
  mem := List.mem_cons_of_mem _ h.mem
  le := h.le
  split := (h.opened hs .lambda).split

/-- The mark of a lambda that is just being entered. -/
theorem entered (hs : s.Valid) : s.enteringLambda.Marked s.scopes.size s.syms.size where
  mem := List.mem_cons_self
  le := Nat.le_refl _
  split c sc name id hc hsc hid := by
    rcases Scopes.get?_push_eq_some hsc with hsc | ⟨-, depth, rfl⟩
    · obtain ⟨sym, hsym, -, -⟩ := hs.var_known c sc name id hsc hid
      have hc := Scopes.get?_eq_some_lt hsc
      have hid := Symbols.get?_eq_some_lt hsym
      omega
    · cases hid

/-- A variable in sight is free in the lambda if its number is below the mark. -/
theorem isFree_iff (hm : s.Marked b m) (hs : s.Valid) {c id : Nat} {sc : Scope} {name : String}
    (hc : c ∈ s.scopes.chain s.current) (hsc : s.scopes.get? c = some sc)
    (hid : sc.varNames.get? name = some id) : s.scopes.isFree c b = true ↔ id < m := by
  have hsplit := hm.split c sc name id hc hsc hid
  have hwithin := Scopes.mem_chain_iff_le hs.nested hs.current_lt (hs.boundaries b hm.mem) hc
  rw [Scopes.isFree, Scopes.isWithin]
  simp only [Bool.not_eq_true', List.contains_eq_mem, decide_eq_false_iff_not]
  rw [hwithin]
  omega

end State.Marked

/-! ## Captured symbols -/

/-- What a lambda with mark `m` has captured after references, if it had captured `cs` before. -/
def capturedBy (m : Nat) (cs refs : List SymId) : List SymId :=
  refs.foldl (fun cs r => if r < m ∧ r ∉ cs then cs ++ [r] else cs) cs

theorem capturedBy_append (m : Nat) (cs refs refs' : List SymId) :
    capturedBy m cs (refs ++ refs') = capturedBy m (capturedBy m cs refs) refs' := List.foldl_append

theorem capturedBy_eq (m : Nat) (cs refs : List SymId) :
    capturedBy m cs refs = cs ++ ((refs.filter (· < m)).removeAll cs).eraseDups := by
  induction refs generalizing cs with
  | nil => simp [capturedBy, List.removeAll]
  | cons r refs ih =>
    show capturedBy m (if r < m ∧ r ∉ cs then cs ++ [r] else cs) refs = _
    rw [ih]
    by_cases hr : r < m
    · by_cases hcs : r ∈ cs
      · simp [hr, hcs, List.removeAll]
      · rw [if_pos ⟨hr, hcs⟩, List.filter_cons_of_pos (by simpa using hr)]
        simp only [List.removeAll]
        rw [List.filter_cons_of_pos (by simpa using hcs), List.eraseDups_cons, List.append_assoc,
          List.singleton_append]
        generalize refs.filter (· < m) = small
        rw [List.filter_filter]
        congr 3
        refine List.filter_congr fun x _ => ?_
        by_cases hx : x = r <;> simp [hx]
    · rw [if_neg (fun h => hr h.1), List.filter_cons_of_neg (by simpa using hr)]

/-- A lambda captures every symbol once, in the order of first reference. -/
theorem capturedBy_nil (m : Nat) (refs : List SymId) :
    capturedBy m [] refs = (refs.filter (· < m)).eraseDups := by
  rw [capturedBy_eq]
  simp [List.removeAll]

variable {c : Captures} {isMutable : Bool} {declaring : ScopeId} {symbol : SymId}

theorem Captures.frames_observe {a : Scopes}
    (h : (c.observe a symbol declaring isMutable).1 ≠ .mutableCapture) :
    (c.observe a symbol declaring isMutable).2.frames =
      c.frames.map fun f => if a.isFree declaring f.boundary then f.capture symbol else f := by
  unfold Captures.observe at h ⊢
  split at h
  · next hany =>
    rw [if_pos hany]
    split at h
    · exact absurd rfl h
    · next himmutable => rw [if_neg himmutable]
  · next hnone =>
    rw [if_neg hnone]
    simp only [List.any_eq_true, not_exists, not_and] at hnone
    refine (List.map_id c.frames).symm.trans (List.map_congr_left fun f hf => ?_)
    rw [if_neg (hnone f hf)]
    rfl

/-- A captured variable is not mutable. -/
theorem Captures.isMutable_of_isFree {a : Scopes}
    (h : (c.observe a symbol declaring isMutable).1 ≠ .mutableCapture)
    {f : LambdaFrame} (hf : f ∈ c.frames) (hfree : a.isFree declaring f.boundary = true) :
    isMutable = false := by
  unfold Captures.observe at h
  rw [if_pos (List.any_eq_true.mpr ⟨f, hf, hfree⟩)] at h
  cases isMutable with
  | false => rfl
  | true => exact absurd rfl h

theorem Captures.getElem?_exit (c : Captures) (i : Nat) : c.exit.2.frames[i]? = c.frames[i + 1]? := by
  obtain ⟨_ | ⟨f, frames⟩⟩ := c <;> rfl

theorem Captures.exit_eq {b : ScopeId} {cs : List SymId} (h : c.frames[0]? = some ⟨b, cs⟩) :
    c.exit.1 = cs := by
  obtain ⟨_ | ⟨f, frames⟩⟩ := c
  · cases h
  · cases h
    rfl

end Binding

end Bindery
