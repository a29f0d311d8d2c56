/-!
# Repeated names

Named things that stand in a row: those whose name stood before, and the first ones of each name.
-/

namespace Bindery

variable {α : Type} (again : Bool) (name : α → String)

/-- The items whose name is in `taken` or is the name of an item before them, if `again`; the other
items, if not. -/
def occurring (taken : List String) : List α → List α
  | [] => []
  | a :: as => (if decide (name a ∈ taken) = again then [a] else []) ++ occurring (name a :: taken) as

/-- The items whose name is in `taken` or is the name of an item before them. -/
abbrev repeats (taken : List String) (as : List α) : List α := occurring true name taken as

/-- The items whose name is neither in `taken` nor the name of an item before them. -/
abbrev firsts (taken : List String) (as : List α) : List α := occurring false name taken as

variable {taken taken' : List String} {as : List α}

/-- It does not matter in which order and how often names are taken. -/
theorem occurring_congr (h : ∀ x, x ∈ taken ↔ x ∈ taken') :
    occurring again name taken as = occurring again name taken' as := by
  induction as generalizing taken taken' with
  | nil => rfl
  | cons a as ih =>
    rw [occurring, occurring, @ih _ (name a :: taken') (by simp [h]), decide_eq_decide.mpr (h _)]

/-- For the items that follow `as`, the names of those are taken too. -/
theorem occurring_append (h : ∀ x, x ∈ taken' ↔ x ∈ taken ∨ x ∈ as.map name) (bs : List α) :
    occurring again name taken (as ++ bs) = occurring again name taken as ++ occurring again name
      taken' bs := by
  induction as generalizing taken with
  | nil => exact occurring_congr again name (by simp [h])
  | cons a as ih =>
    rw [List.cons_append, occurring, occurring, List.append_assoc, @ih (name a :: taken) (by
      simp [h, or_assoc, or_left_comm])]

theorem mem_map_firsts (x : String) : x ∈ (firsts name taken as).map name ↔ x ∉ taken ∧
    x ∈ as.map name := by
  induction as generalizing taken with
  | nil => simp [occurring]
  | cons a as ih =>
    rw [firsts, occurring, List.map_append, List.mem_append]
    by_cases ha : name a ∈ taken <;> by_cases hx : x = name a <;> simp_all

/-- Nothing is repeated where the names are distinct and none of them is taken. -/
theorem repeats_eq_nil_iff : repeats name taken as = [] ↔ (as.map name).Nodup ∧ ∀ x ∈ as.map name,
    x ∉ taken := by
  induction as generalizing taken with
  | nil => simp [occurring]
  | cons a as ih =>
    rw [repeats, occurring, List.append_eq_nil_iff, ih, List.map_cons, List.nodup_cons]
    by_cases ha : name a ∈ taken
    · simp [ha]
    · constructor
      · rintro ⟨-, hnodup, hfree⟩
        have ha' : name a ∉ as.map name := fun h => hfree _ h (by simp)
        exact ⟨⟨ha', hnodup⟩, by simp_all⟩
      · rintro ⟨⟨ha', hnodup⟩, hfree⟩
        refine ⟨by simp [ha], hnodup, fun x hx htaken => ?_⟩
        rcases List.mem_cons.mp htaken with rfl | htaken
        · exact ha' hx
        · exact hfree x (List.mem_cons_of_mem _ hx) htaken

end Bindery
