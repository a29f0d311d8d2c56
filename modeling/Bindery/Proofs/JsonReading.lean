import Bindery.Config.Json

/-!
# Reading JSON never runs out of fuel

The readers of values, items and members call each other with one unit of fuel less. What a reader
leaves of a text is shorter than the text (`Json.shortens_read`), so two units for each character
are enough, and what is read does not change with more (`Json.readValue_of_le`).
-/

namespace Bindery.Json

/-- What the reader leaves of a text is shorter than the text. -/
def Shortens {α : Type} (read : List Char → Option (α × List Char)) : Prop :=
  ∀ cs a rest, read cs = some (a, rest) → rest.length < cs.length

variable {cs rest : List Char}

theorem length_skipBlanks (cs : List Char) : (skipBlanks cs).length ≤ cs.length :=
  (List.dropWhile_sublist _).length_le

theorem length_of_skipBlanks {c : Char} (h : skipBlanks cs = c :: rest) : rest.length < cs.length := by
  have hle := length_skipBlanks cs
  rw [h, List.length_cons] at hle
  exact hle

theorem length_of_digits {ds : List Char} (h : digits cs = (ds, rest)) :
    ds.length + rest.length = cs.length := by
  cases h
  rw [← List.length_append, List.takeWhile_append_dropWhile]

/-! ## Strings and numbers -/

theorem shortens_readPieces : Shortens readPieces := by
  intro cs
  fun_induction readPieces cs <;> grind [Option.bind_eq_some_iff]

theorem shortens_readWhole : Shortens readWhole := by
  intro cs n rest h
  unfold readWhole at h
  split at h
  · cases h
  · cases h
  · next hnil _ hdigits =>
    cases h
    have hlength := length_of_digits hdigits
    have hpos := List.length_pos_iff.mpr hnil
    omega

theorem length_readFraction {b : Bool} (h : readFraction cs = some (b, rest)) :
    rest.length ≤ cs.length := by
  unfold readFraction at h
  split at h
  · split at h
    · cases h
    · next hdigits =>
      cases h
      have hlength := length_of_digits hdigits
      rw [List.length_cons]
      omega
  · cases h
    exact Nat.le_refl _

theorem length_dropSign (cs : List Char) : (dropSign cs).length ≤ cs.length := by
  fun_cases dropSign cs <;> simp

theorem length_readExponent {b : Bool} (h : readExponent cs = some (b, rest)) :
    rest.length ≤ cs.length := by
  unfold readExponent at h
  split at h
  case h_3 =>
    cases h
    exact Nat.le_refl _
  all_goals
    next cs' =>
    split at h
    · cases h
    · next hdigits =>
      cases h
      have hlength := length_of_digits hdigits
      have hsign := length_dropSign cs'
      rw [List.length_cons]
      omega

theorem shortens_readNumber : Shortens readNumber := by
  intro cs v rest h
  obtain ⟨⟨value, cs₁⟩, hwhole, h⟩ := Option.bind_eq_some_iff.mp h
  obtain ⟨⟨hasFraction, cs₂⟩, hfraction, h⟩ := Option.bind_eq_some_iff.mp h
  obtain ⟨⟨hasExponent, cs₃⟩, hexponent, h⟩ := Option.bind_eq_some_iff.mp h
  have hwhole := shortens_readWhole _ _ _ hwhole
  have hfraction := length_readFraction hfraction
  have hexponent := length_readExponent hexponent
  split at hwhole <;> grind

/-! ## Values -/

theorem shortens_read (fuel : Nat) :
    Shortens (readValue fuel) ∧ Shortens (readItems fuel) ∧ Shortens (readMembers fuel) := by
  induction fuel with
  | zero => refine ⟨?_, ?_, ?_⟩ <;> intro cs a rest h <;> cases h
  | succ fuel ih =>
    obtain ⟨hvalue, hitems, hmembers⟩ := ih
    refine ⟨fun cs v rest h => ?_, fun cs v rest h => ?_, fun cs v rest h => ?_⟩
    · have hblanks := length_skipBlanks cs
      rw [readValue] at h
      grind [Option.bind_eq_some_iff, Shortens, length_skipBlanks, shortens_readPieces,
        shortens_readNumber]
    · rw [readItems] at h
      grind [Option.bind_eq_some_iff, Shortens, length_skipBlanks]
    · rw [readMembers] at h
      split at h
      · next cs₁ hquote =>
        obtain ⟨⟨key, cs₂⟩, hkey, h⟩ := Option.bind_eq_some_iff.mp h
        have hquote := length_of_skipBlanks hquote
        have hkey := shortens_readPieces _ _ _ hkey
        dsimp only at h
        split at h
        · next hcolon =>
          obtain ⟨⟨value, cs₃⟩, hread, h⟩ := Option.bind_eq_some_iff.mp h
          have hcolon := length_of_skipBlanks hcolon
          have hread := hvalue _ _ _ hread
          grind [Option.bind_eq_some_iff, Shortens, length_skipBlanks]
        · cases h
      · cases h

/-- One more unit of fuel changes nothing. A value takes one unit before a reader of something
shorter is called, and items and members take one before their first value. -/
theorem read_succ (fuel : Nat) :
    (∀ cs : List Char, 2 * cs.length + 1 ≤ fuel → readValue (fuel + 1) cs = readValue fuel cs) ∧
      (∀ cs : List Char, 2 * cs.length + 2 ≤ fuel → readItems (fuel + 1) cs = readItems fuel cs) ∧
      ∀ cs : List Char, 2 * cs.length + 2 ≤ fuel → readMembers (fuel + 1) cs = readMembers fuel
        cs := by
  induction fuel with
  | zero => refine ⟨?_, ?_, ?_⟩ <;> intro cs h <;> omega
  | succ fuel ih =>
    obtain ⟨hvalue, hitems, hmembers⟩ := ih
    refine ⟨fun cs h => ?_, fun cs h => ?_, fun cs h => ?_⟩
    · rw [readValue, readValue]
      split
      case h_5 cs₁ hopen =>
        have hopen := length_of_skipBlanks hopen
        have hblanks := length_skipBlanks cs₁
        generalize skipBlanks cs₁ = cs₂ at hblanks
        split
        · rfl
        · rw [hitems _ (by omega)]
      case h_6 cs₁ hopen =>
        have hopen := length_of_skipBlanks hopen
        have hblanks := length_skipBlanks cs₁
        generalize skipBlanks cs₁ = cs₂ at hblanks
        split
        · rfl
        · rw [hmembers _ (by omega)]
      all_goals rfl
    · rw [readItems, readItems, hvalue cs (by omega)]
      refine Option.bind_congr fun p hp => ?_
      have hitem := (shortens_read fuel).1 cs p.1 p.2 hp
      dsimp only
      split
      case h_2 hcomma =>
        have hcomma := length_of_skipBlanks hcomma
        rw [hitems _ (by omega)]
      all_goals rfl
    · rw [readMembers, readMembers]
      split
      case h_1 cs₁ hquote =>
        have hquote := length_of_skipBlanks hquote
        refine Option.bind_congr fun p hp => ?_
        have hkey := shortens_readPieces cs₁ p.1 p.2 hp
        dsimp only
        split
        case h_1 cs₂ hcolon =>
          have hcolon := length_of_skipBlanks hcolon
          rw [hvalue _ (by omega)]
          refine Option.bind_congr fun q hq => ?_
          have hitem := (shortens_read fuel).1 cs₂ q.1 q.2 hq
          split
          case h_2 hcomma =>
            have hcomma := length_of_skipBlanks hcomma
            rw [hmembers _ (by omega)]
          all_goals rfl
        all_goals rfl
      all_goals rfl

/-- The fuel that a text is given is enough: with more of it, the same value is read. -/
theorem readValue_of_le {fuel : Nat} (h : 2 * cs.length + 2 ≤ fuel) :
    readValue fuel cs = readValue (2 * cs.length + 2) cs := by
  obtain ⟨k, rfl⟩ := Nat.exists_eq_add_of_le h
  clear h
  induction k with
  | zero => rfl
  | succ k ih => rw [← Nat.add_assoc, (read_succ _).1 cs (by omega), ih]

end Bindery.Json
