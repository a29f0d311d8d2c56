import Bindery.Diagnostic.Template
import Mathlib.Data.List.Basic

/-!
# Filling a template

`Template.fill` goes over the text once for every argument, and each time over what the arguments
before have left. If every opening brace of the text begins a hole and no argument has one, all
holes are filled as if at once: what an argument has put into the text is never taken for a hole.
The invariant is that the text stays a list of pieces, in which opening braces stand only at the
beginnings of the holes that are still open.
-/

namespace Bindery

/-- Two texts that begin with a stretch of characters of one class have the same stretch and the
same rest. -/
theorem append_inj_of_span {α : Type} {p : α → Bool} {xs ys us vs : List α}
    (hxs : ∀ a ∈ xs, p a = true)
    (hys : ∀ a ∈ ys, p a = true) (hus : ∀ a ∈ us.head?, p a = false)
    (hvs : ∀ a ∈ vs.head?, p a = false)
    (h : xs ++ us = ys ++ vs) : xs = ys ∧ us = vs := by
  have hspan : ∀ {zs ws : List α}, (∀ a ∈ zs, p a = true) → (∀ a ∈ ws.head?, p a = false) →
      (zs ++ ws).takeWhile p = zs := by
    intro zs ws hzs hws
    rw [List.takeWhile_append_of_pos hzs]
    cases ws with
    | nil => exact List.append_nil zs
    | cons w ws => rw [List.takeWhile_cons_of_neg (by simp [hws w rfl]), List.append_nil]
  have heq : xs = ys := by rw [← hspan hxs hus, h, hspan hys hvs]
  subst heq
  exact ⟨rfl, List.append_cancel_left h⟩

namespace Template

/-- A piece of a template. -/
inductive Piece where
  | char (c : Char)
  | hole (k : Nat)
deriving DecidableEq

namespace Piece

/-- The piece as written. -/
def text : Piece → List Char
  | .char c => [c]
  | .hole k => Template.hole k

/-- The piece with the arguments put in. A hole without an argument stays. -/
def filled (args : List (List Char)) : Piece → List Char
  | .char c => [c]
  | .hole k => args[k]?.getD (Template.hole k)

end Piece

/-- Every opening brace of the text begins a hole. -/
def IsRegular (text : List Char) :
    Prop := ∀ rest, '\x7b' :: rest <:+ text → ∃ k, hole k <+: '\x7b' :: rest

/-- The text consists of the pieces, and no opening brace is a piece of its own. -/
def Consists (text : List Char) (pieces : List Piece) :
    Prop := text = pieces.flatMap Piece.text ∧ .char '\x7b' ∉ pieces

/-! ## Holes -/

theorem isDigit_of_mem {c : Char} {k : Nat} (h : c ∈ Nat.toDigits 10 k) : c.isDigit = true :=
  Nat.isDigit_of_mem_toDigits (by decide) (by decide) h

/-- After its first character a hole has no opening brace. -/
theorem not_mem_tail_hole (k : Nat) : '\x7b' ∉ Nat.toDigits 10 k ++ ['\x7d'] := by
  intro h
  rcases List.mem_append.mp h with h | h
  · exact absurd (isDigit_of_mem h) (by decide)
  · exact absurd h (by decide)

/-- A hole ends with its closing brace, so a text begins with at most one. -/
theorem index_eq_of_hole {k j : Nat} {rest : List Char} (h : hole k <+: hole j ++ rest) : k = j := by
  obtain ⟨tail, htail⟩ := h
  simp only [hole, List.cons_append, List.append_assoc, List.nil_append, List.cons.injEq,
    true_and] at htail
  have heq :=
    (append_inj_of_span (fun _ => isDigit_of_mem) (fun _ => isDigit_of_mem) (by simp) (by simp)
      htail).1
  rw [← @Nat.ofDigitChars_ten_toDigits k, heq, Nat.ofDigitChars_ten_toDigits]

/-! ## One round -/

section

variable (k : Nat) (a rest : List Char)

theorem replaceFrom_skip (pattern : List Char) (skipped : List Char) :
    replaceFrom pattern a skipped.length (skipped ++ rest) = replaceFrom pattern a 0 rest := by
  induction skipped with
  | nil => rfl
  | cons c cs ih => exact ih

/-- Text without an opening brace is copied. -/
theorem replaceFrom_append_of_not_mem {plain : List Char} (h : '\x7b' ∉ plain) :
    replaceFrom (hole k) a 0 (plain ++ rest) = plain ++ replaceFrom (hole k) a 0 rest := by
  induction plain with
  | nil => rfl
  | cons c cs ih =>
    obtain ⟨hc, hcs⟩ := not_or.mp (List.mem_cons.not.mp h)
    have hno : (hole k).isPrefixOf (c :: (cs ++ rest)) = false := by
      simp [hole, List.isPrefixOf, hc]
    rw [List.cons_append, replaceFrom, hno, if_neg Bool.false_ne_true, ih hcs, List.cons_append]

/-- The hole of the round is filled, and any other is copied. -/
theorem replaceFrom_append_hole (j : Nat) :
    replaceFrom (hole k) a 0 (hole j ++ rest) = (if j = k then a else hole j) ++
      replaceFrom (hole k) a 0 rest := by
  have htail := replaceFrom_append_of_not_mem k a rest (not_mem_tail_hole j)
  split
  · next hjk =>
    subst hjk
    have hyes : (hole j).isPrefixOf (hole j ++ rest) = true :=
      List.isPrefixOf_iff_prefix.mpr (List.prefix_append _ _)
    have hskip := replaceFrom_skip a rest (hole j) (Nat.toDigits 10 j ++ ['\x7d'])
    show (if (hole j).isPrefixOf (hole j ++ rest) then _ else _) = _
    rw [if_pos hyes]
    exact congrArg (a ++ ·) hskip
  · next hjk =>
    have hno : ¬(hole k).isPrefixOf (hole j ++ rest) = true := fun h =>
      hjk (index_eq_of_hole (List.isPrefixOf_iff_prefix.mp h)).symm
    show (if (hole k).isPrefixOf (hole j ++ rest) then _ else _) = _
    rw [if_neg hno]
    exact congrArg ('\x7b' :: ·) htail

end

section

variable {pieces : List Piece} {args : List (List Char)} {a : List Char}

/-- One round fills the holes of the next number, whatever the rounds before have put in. -/
theorem replaceFrom_filled (hpieces : .char '\x7b' ∉ pieces) (hargs : ∀ b ∈ args, '\x7b' ∉ b) :
    replaceFrom (hole args.length) a 0 (pieces.flatMap (Piece.filled args)) =
      pieces.flatMap (Piece.filled (args ++ [a])) := by
  induction pieces with
  | nil => rfl
  | cons piece pieces ih =>
    obtain ⟨hpiece, hrest⟩ := not_or.mp (List.mem_cons.not.mp hpieces)
    rw [List.flatMap_cons, List.flatMap_cons, ← ih hrest]
    cases piece with
    | char c =>
      exact replaceFrom_append_of_not_mem _ _ _ fun h => hpiece (by rw [List.mem_singleton.mp h])
    | hole k =>
      rcases Nat.lt_or_ge k args.length with hlt | hge
      · -- This hole has its argument already, which the round passes over.
        have hold : Piece.filled args (.hole k) = args[k] := by simp [Piece.filled, hlt]
        have hnew : Piece.filled (args ++ [a]) (.hole k) = args[k] := by
          simp [Piece.filled, List.getElem?_append_left hlt, hlt]
        rw [hold, hnew, replaceFrom_append_of_not_mem _ _ _ (hargs _ (List.getElem_mem hlt))]
      · have hopen : Piece.filled args (.hole k) = hole k := by simp [Piece.filled, hge]
        have hnew : Piece.filled (args ++ [a]) (.hole k) = if k = args.length then a else hole k := by
          simp only [Piece.filled, List.getElem?_append_right hge, List.getElem?_singleton,
            Nat.sub_eq_zero_iff_le]
          have hiff : k ≤ args.length ↔ k = args.length :=
            ⟨fun h => Nat.le_antisymm h hge, Nat.le_of_eq⟩
          simp only [hiff]
          split <;> rfl
        rw [hopen, hnew, replaceFrom_append_hole]

/-- All rounds. -/
theorem fillFrom_filled (hpieces : .char '\x7b' ∉ pieces) (hargs : ∀ b ∈ args, '\x7b' ∉ b)
    {more : List (List Char)}
    (hmore : ∀ b ∈ more, '\x7b' ∉ b) :
    fillFrom args.length (pieces.flatMap (Piece.filled args)) more =
      pieces.flatMap (Piece.filled (args ++ more)) := by
  induction more generalizing args with
  | nil => rw [List.append_nil, fillFrom]
  | cons a more ih =>
    obtain ⟨ha, hmore⟩ := List.forall_mem_cons.mp hmore
    have hargs' : ∀ b ∈ args ++ [a], '\x7b' ∉ b := by simpa [or_imp, forall_and, ha] using hargs
    have hround := ih hargs' hmore
    rwa [List.length_append, List.length_singleton, List.append_assoc, List.singleton_append,
      ← replaceFrom_filled hpieces hargs] at hround

end

/-! ## Templates -/

theorem IsRegular.exists_pieces {text : List Char} (h : IsRegular text) :
    ∃ pieces, Consists text pieces := by
  induction hn : text.length using Nat.strongRecOn generalizing text with
  | ind n ih =>
    cases text with
    | nil => exact ⟨[], rfl, List.not_mem_nil⟩
    | cons c cs =>
      have hrest : ∀ {before rest}, c :: cs = before ++ rest → before ≠ [] → ∃ pieces,
        Consists rest pieces := by
        intro before rest heq hbefore
        refine ih rest.length ?_ (fun r hr => h r (hr.trans ⟨before, heq.symm⟩)) rfl
        rw [← hn, heq, List.length_append]
        exact Nat.lt_add_of_pos_left (List.length_pos_iff.mpr hbefore)
      by_cases hc : c = '\x7b'
      · subst hc
        obtain ⟨k, rest, hrest'⟩ := h cs List.suffix_rfl
        obtain ⟨pieces, rfl, hpieces⟩ := hrest hrest'.symm (List.cons_ne_nil _ _)
        exact ⟨.hole k :: pieces, hrest'.symm, by simp [hpieces]⟩
      · obtain ⟨pieces, rfl, hpieces⟩ := @hrest [c] cs rfl (List.cons_ne_nil _ _)
        exact ⟨.char c :: pieces, rfl, by simp [hpieces, Ne.symm hc]⟩

/-- Filling a text in which every opening brace begins a hole, with arguments that have no opening
brace, is simultaneous: the text falls into characters and holes, every hole that has an argument is
replaced by it as it is, and all other pieces stay. -/
theorem filling_is_simultaneous (text : String) (args : List String) (htext : IsRegular text.toList)
    (hargs : ∀ a ∈ args, '\x7b' ∉ a.toList) :
    (∃ pieces, Consists text.toList pieces) ∧ ∀ pieces, Consists text.toList pieces →
      fill text args = String.ofList (pieces.flatMap (Piece.filled (args.map String.toList))) := by
  refine ⟨htext.exists_pieces, fun pieces hpieces => congrArg String.ofList ?_⟩
  have hunfilled : pieces.flatMap (Piece.filled []) = text.toList := by
    rw [hpieces.1]
    exact congrArg (pieces.flatMap ·) (funext fun piece => by cases piece <;> rfl)
  have hrounds :=
    @fillFrom_filled pieces [] hpieces.2 (List.forall_mem_nil _) _ (List.forall_mem_map.mpr hargs)
  rwa [hunfilled] at hrounds

/-- The holes come in any order and again, one has no argument, and the second argument would close
the first. -/
theorem repeated_holes_are_filled :
    IsRegular "{1}{0}x{2}{1}".toList ∧ fill "{1}{0}x{2}{1}" ["\x7d", "0\x7d"] =
      "0\x7d\x7dx{2}0\x7d" := by
  have hregular : IsRegular "{1}{0}x{2}{1}".toList := by
    intro rest h
    simp [List.suffix_cons_iff] at h
    rcases h with rfl | rfl | rfl | rfl
    · exact ⟨1, by decide⟩
    · exact ⟨0, by decide⟩
    · exact ⟨2, by decide⟩
    · exact ⟨1, by decide⟩
  refine ⟨hregular, ?_⟩
  exact (filling_is_simultaneous _ ["\x7d", "0\x7d"] hregular (by decide)).2
    [.hole 1, .hole 0, .char 'x', .hole 2, .hole 1] ⟨by decide, by decide⟩

end Template

end Bindery
