import Bindery.Binding.WrittenType
import Bindery.Proofs.MessageFilling
import Bindery.Proofs.Ty.Shape

/-!
# Reading a type off its text

Messages show types by their texts only. Two types whose names are words of letters, digits and
underscores, none of them the name of a built-in type, and each a record, a sum or a placeholder
throughout, have different texts if they are different. The texts are read from left to right: a
type begins with a word, a parenthesis or `<error>`, what follows the word tells a function from a
type with arguments, and the text of a type ends where a comma, `>` or `)` follows that it has not
opened itself. So a text followed by such a character is the text of one type only.
-/

namespace Bindery

/-- What a type uses a name for. -/
inductive NameUse where
  | declared (kind : Nominal)
  | placeholder
deriving DecidableEq

/-- The type that a name stands for in a use. -/
def NameUse.apply (name : String) (args : List Ty) : NameUse → Ty
  | .declared kind => .nominal kind name args
  | .placeholder => .generic name

/-- Whether a character may stand in a name. -/
def isNameChar (c : Char) : Bool := c.isAlphanum || c == '_'

/-- A name that a record, a sum or a placeholder may have: a word, and not the name of a built-in
type. -/
abbrev IsTypeName (name : String) : Prop :=
  name ≠ "" ∧ name.toList.all isNameChar ∧ TypeHead.builtin? name = none

namespace Ty

mutual

/-- The names that a type uses for records, sums and placeholders. -/
def uses : Ty → List (NameUse × String)
  | .error | .prim _ => []
  | .generic n => [(.placeholder, n)]
  | .container _ t => t.uses
  | .result v e => v.uses ++ e.uses
  | .fn ps r => usesAll ps ++ r.uses
  | .tuple ts => usesAll ts
  | .nominal k n ts => (.declared k, n) :: usesAll ts

/-- The names that types use. -/
def usesAll : List Ty → List (NameUse × String)
  | [] => []
  | t :: ts => t.uses ++ usesAll ts

end

theorem mem_usesAll {use : NameUse × String} {ts : List Ty} :
    use ∈ usesAll ts ↔ ∃ t ∈ ts, use ∈ t.uses := by
  induction ts with
  | nil => simp [usesAll]
  | cons t ts ih => simp [usesAll, ih]

/-! ## Types that begin with a name -/

/-- The name and the arguments of a type that is written with its name first. -/
def applied? : Ty → Option (String × List Ty)
  | .error | .fn .. | .tuple _ => none
  | .prim p => some (p.name, [])
  | .generic n => some (n, [])
  | .container c t => some (c.name, [t])
  | .result v e => some (resultName, [v, e])
  | .nominal _ n ts => some (n, ts)

/-- The arguments as they follow the name. -/
def enclosed : List Ty → List Char
  | [] => []
  | ts => '<' :: ((renderAll ts).toList ++ ['>'])

variable {t u : Ty} {name : String} {ts us : List Ty}

theorem render_applied (h : t.applied? = some (name, ts)) :
    t.render.toList = name.toList ++ enclosed ts := by
  cases t with
  | error | fn | tuple => cases h
  | nominal =>
    cases h
    cases ts <;> simp [render, enclosed]
  | _ =>
    cases h
    simp [render, renderAll, enclosed]

/-- A type that begins with a name is the built-in one of that name, or what it uses the name
for. -/
theorem eq_apply (h : t.applied? = some (name, ts)) :
    (∃ head, TypeHead.builtin? name = some head ∧ t = head.apply ts) ∨
      ∃ use, (use, name) ∈ t.uses ∧ t = use.apply name ts := by
  cases t with
  | error | fn | tuple => cases h
  | prim p =>
    cases h
    exact .inl ⟨.prim p, by cases p <;> rfl, rfl⟩
  | generic n =>
    cases h
    exact .inr ⟨.placeholder, List.mem_singleton_self _, rfl⟩
  | container c t =>
    cases h
    exact .inl ⟨.container c, by cases c <;> rfl, rfl⟩
  | result v e =>
    cases h
    exact .inl ⟨.result, rfl, rfl⟩
  | nominal k n ts =>
    cases h
    exact .inr ⟨.declared k, List.mem_cons_self, rfl⟩

theorem uses_of_applied (h : t.applied? = some (name, ts)) : usesAll ts ⊆ t.uses := by
  cases t with
  | error | fn | tuple => cases h
  | nominal =>
    cases h
    exact List.subset_cons_self _ _
  | _ =>
    cases h
    simp [usesAll, uses]

/-! ## Reading -/

/-- The rest of a text behind a type: nothing, or a character that the type has not opened. -/
def Ends (rest : List Char) : Prop := ∀ c ∈ rest.head?, c = ',' ∨ c = '>' ∨ c = ')'

/-- The rest of a text behind a list of types begins with a closing character. -/
def Closes (rest : List Char) : Prop := ∃ c tail, rest = c :: tail ∧ (c = '>' ∨ c = ')')

/-- Names are allowed if they are names of types and each has one use. -/
structure Allowed (P : NameUse × String → Prop) : Prop where
  name : ∀ use, P use → IsTypeName use.2
  role : ∀ a b, P a → P b → a.2 = b.2 → a.1 = b.1

/-- The text of the type, followed by the end of a type, is the text of no other type with allowed
names. -/
def Reads (P : NameUse × String → Prop) (t : Ty) : Prop :=
  ∀ u rest rest', (∀ use ∈ u.uses, P use) → Ends rest → Ends rest' →
    t.render.toList ++ rest = u.render.toList ++ rest' → t = u ∧ rest = rest'

theorem Closes.ends {rest : List Char} (h : Closes rest) : Ends rest := by
  obtain ⟨c, tail, rfl, hc⟩ := h
  intro d hd
  cases hd
  exact .inr hc

/-- The types of a list behind its first one. -/
def following : List Ty → List Char
  | [] => []
  | ts => ',' :: ' ' :: (renderAll ts).toList

theorem renderAll_cons (t : Ty) (ts : List Ty) :
    (renderAll (t :: ts)).toList = t.render.toList ++ following ts := by
  cases ts <;> simp [renderAll, following]

theorem Closes.following {rest : List Char} (h : Closes rest) (ts : List Ty) :
    Ends (following ts ++ rest) := by
  cases ts with
  | nil => exact h.ends
  | cons => simp [Ends, Ty.following]

theorem Closes.ne_comma {rest more : List Char} (h : Closes rest) : rest ≠ ',' :: more := by
  rintro rfl
  obtain ⟨c, tail, hcons, rfl | rfl⟩ := h <;> cases hcons

theorem Ends.ne_angle {rest more : List Char} (h : Ends rest) : rest ≠ '<' :: more := by
  rintro rfl
  simpa using h '<' rfl

section

variable {P : NameUse × String → Prop} {rest rest' : List Char}

/-- A name is a word. -/
theorem Allowed.word (hP : Allowed P) (ht : ∀ use ∈ t.uses, P use) (h : t.applied? = some (name, ts)) :
    name.toList ≠ [] ∧ ∀ c ∈ name.toList, isNameChar c = true := by
  have hnamed : ∀ {use n}, (use, n) ∈ t.uses → n.toList ≠ [] ∧ ∀ c ∈ n.toList,
    isNameChar c = true := fun huse =>
    ⟨by simpa using (hP.name _ (ht _ huse)).1, List.all_eq_true.mp (hP.name _ (ht _ huse)).2.1⟩
  cases t with
  | error | fn | tuple => cases h
  | prim p =>
    cases h
    cases p <;> exact ⟨by decide, List.all_eq_true.mp rfl⟩
  | container c _ =>
    cases h
    cases c <;> exact ⟨by decide, List.all_eq_true.mp rfl⟩
  | result =>
    cases h
    exact ⟨by decide, List.all_eq_true.mp rfl⟩
  | generic | nominal =>
    cases h
    exact hnamed List.mem_cons_self

/-- The word ends behind the name. -/
theorem Ends.enclosed (hrest : Ends rest) (ts : List Ty) :
    ∀ c ∈ (enclosed ts ++ rest).head?, isNameChar c = false ∧ c ≠ '(' := by
  intro c hc
  cases ts with
  | nil => rcases hrest c hc with rfl | rfl | rfl <;> decide
  | cons =>
    cases hc
    decide

/-- How a type begins that does not begin with a name. -/
theorem render_of_not_applied (h : t.applied? = none) :
    ∃ lead c more, t.render.toList = lead ++ c :: more ∧ (lead = [] ∨ c = '(') ∧
      (∀ c ∈ lead, isNameChar c = true) ∧ (c = '<' ∨ c = '(') := by
  cases t with
  | error => exact ⟨[], '<', "error>".toList, rfl, .inl rfl, by simp, .inl rfl⟩
  | fn ps r =>
    exact ⟨['f', 'n'], '(', (renderAll ps ++ ") -> " ++ r.render).toList, by simp [render], .inr rfl,
      List.all_eq_true.mp rfl, .inr rfl⟩
  | tuple ts =>
    exact ⟨[], '(', (renderAll ts ++ ")").toList, by simp [render], .inl rfl, by simp, .inr rfl⟩
  | _ => cases h

theorem Allowed.not_applied (hP : Allowed P) (ht : ∀ use ∈ t.uses, P use)
    (happ : t.applied? = some (name, ts))
    (hnone : u.applied? = none) (hrest : Ends rest) :
    t.render.toList ++ rest ≠ u.render.toList ++ rest' := by
  intro heq
  obtain ⟨hnil, hword⟩ := hP.word ht happ
  obtain ⟨lead, c, more, hu, hlead, hchars, hc⟩ := render_of_not_applied hnone
  rw [render_applied happ, hu, List.append_assoc, List.append_assoc] at heq
  obtain ⟨hname, hargs⟩ := append_inj_of_span hword hchars (fun d hd => (hrest.enclosed ts d hd).1)
    (by rcases hc with rfl | rfl <;> simp [isNameChar]) heq
  rcases hlead with rfl | rfl
  · exact hnil hname
  · exact (hrest.enclosed ts '(' (by rw [hargs]; rfl)).2 rfl

/-- The text of a type does not begin with a closing character. -/
theorem Allowed.opens (hP : Allowed P) (ht : ∀ use ∈ t.uses, P use) :
    ¬Closes (t.render.toList ++ rest) := by
  rintro ⟨c, tail, heq, hc⟩
  have hother : isNameChar c = false := by rcases hc with rfl | rfl <;> decide
  have hlead : ∀ {lead more : List Char}, lead ++ more = c :: tail →
    (∀ d ∈ lead, isNameChar d = true) → lead = [] := by
    intro lead more hcons hword
    cases lead with
    | nil => rfl
    | cons d lead =>
      cases hcons
      rw [hword c List.mem_cons_self] at hother
      cases hother
  cases happ : t.applied? with
  | some p =>
    rw [render_applied happ, List.append_assoc] at heq
    exact (hP.word ht happ).1 (hlead heq (hP.word ht happ).2)
  | none =>
    obtain ⟨lead, d, more, hu, -, hword, hd⟩ := render_of_not_applied happ
    rw [hu, List.append_assoc] at heq
    obtain rfl := hlead heq hword
    cases heq
    rcases hc with rfl | rfl <;> rcases hd with hd | hd <;> cases hd

/-- What is read of each type is read of a list of types. -/
theorem Allowed.readsAll (hP : Allowed P) (h : ∀ t ∈ ts, Reads P t) (ht : ∀ use ∈ usesAll ts, P use)
    (hu : ∀ use ∈ usesAll us, P use) (hrest : Closes rest) (hrest' : Closes rest')
    (heq : (renderAll ts).toList ++ rest = (renderAll us).toList ++ rest') :
    ts = us ∧ rest = rest' := by
  have hempty : ∀ {rest}, (renderAll []).toList ++ rest = rest := rfl
  induction ts generalizing us with
  | nil =>
    cases us with
    | nil => exact ⟨rfl, heq⟩
    | cons u us =>
      rw [renderAll_cons, List.append_assoc, hempty] at heq
      exact (hP.opens (fun use huse => hu use (List.mem_append_left _ huse)) (heq ▸ hrest)).elim
  | cons t ts ih =>
    obtain ⟨ht, hts⟩ := List.forall_mem_append.mp ht
    rw [renderAll_cons, List.append_assoc] at heq
    cases us with
    | nil => exact (hP.opens ht (heq.trans hempty ▸ hrest')).elim
    | cons u us =>
      obtain ⟨hu, hus⟩ := List.forall_mem_append.mp hu
      rw [renderAll_cons, List.append_assoc] at heq
      obtain ⟨rfl, hmore⟩ :=
        h t List.mem_cons_self u _ _ hu (hrest.following ts) (hrest'.following us) heq
      obtain ⟨rfl, hrests⟩ : ts = us ∧ rest = rest' := by
        -- A list goes on with a comma, and no list is closed by one.
        cases ts with
        | nil =>
          cases us with
          | nil => exact ⟨rfl, hmore⟩
          | cons => exact (hrest.ne_comma hmore).elim
        | cons =>
          cases us with
          | nil => exact (hrest'.ne_comma hmore.symm).elim
          | cons =>
            exact ih (fun t ht => h t (List.mem_cons_of_mem _ ht)) hts hus
              (by simpa [following] using hmore)
      exact ⟨rfl, hrests⟩

/-- A type that begins with a name is read if its arguments are. -/
theorem Allowed.reads_applied (hP : Allowed P) (happ : t.applied? = some (name, ts))
    (ht : ∀ use ∈ t.uses, P use)
    (h : ∀ t ∈ ts, Reads P t) : Reads P t := by
  intro u rest rest' hu hrest hrest' heq
  cases happ' : u.applied? with
  | none => exact (hP.not_applied ht happ happ' hrest heq).elim
  | some p =>
    obtain ⟨name', us⟩ := p
    have hts : ∀ use ∈ usesAll ts, P use := fun use huse => ht use (uses_of_applied happ huse)
    have hus : ∀ use ∈ usesAll us, P use := fun use huse => hu use (uses_of_applied happ' huse)
    rw [render_applied happ, render_applied happ', List.append_assoc, List.append_assoc] at heq
    obtain ⟨hname, hargs⟩ := append_inj_of_span (hP.word ht happ).2 (hP.word hu happ').2
      (fun c hc => (hrest.enclosed ts c hc).1) (fun c hc => (hrest'.enclosed us c hc).1) heq
    obtain rfl := String.toList_inj.mp hname
    obtain ⟨rfl, hrests⟩ : ts = us ∧ rest = rest' := by
      cases ts with
      | nil =>
        cases us with
        | nil => exact ⟨rfl, hargs⟩
        | cons => exact (hrest.ne_angle hargs).elim
      | cons =>
        cases us with
        | nil => exact (hrest'.ne_angle hargs.symm).elim
        | cons =>
          obtain ⟨hlists, hrests⟩ :=
            hP.readsAll h hts hus ⟨'>', rest, rfl, .inl rfl⟩ ⟨'>', rest', rfl, .inl rfl⟩
            (by simpa [enclosed] using hargs)
          exact ⟨hlists, List.tail_eq_of_cons_eq hrests⟩
    refine ⟨?_, hrests⟩
    have hbuiltin : ∀ {use head}, P (use, name) → TypeHead.builtin? name = some head → False :=
      fun huse hhead => by
      rw [(hP.name _ huse).2.2] at hhead
      cases hhead
    rcases eq_apply happ with ⟨head, hhead, htype⟩ | ⟨use, huse, htype⟩ <;>
      rcases eq_apply happ' with ⟨head', hhead', htype'⟩ | ⟨use', huse', htype'⟩
    · rw [htype, htype', Option.some.inj (hhead.symm.trans hhead')]
    · exact (hbuiltin (hu _ huse') hhead).elim
    · exact (hbuiltin (ht _ huse) hhead').elim
    · rw [htype, htype', show use = use' from hP.role _ _ (ht _ huse) (hu _ huse') rfl]

/-- Every type with allowed names is read. -/
theorem Allowed.reads (hP : Allowed P) (t : Ty) (ht : ∀ use ∈ t.uses, P use) : Reads P t := by
  induction t using Ty.induction with
  | error =>
    intro u rest rest' hu _ hrest' heq
    cases u with
    | error => exact ⟨rfl, List.append_cancel_left heq⟩
    | fn | tuple => simp [render] at heq
    | _ => exact (hP.not_applied hu rfl rfl hrest' heq.symm).elim
  | fn ps r ihps ihr =>
    obtain ⟨hps, hr⟩ := List.forall_mem_append.mp ht
    have hclose : ∀ more, Closes (") -> ".toList ++ more) := fun _ => ⟨')', _, rfl, .inr rfl⟩
    intro u rest rest' hu hrest hrest' heq
    cases u with
    | fn qs q =>
      obtain ⟨hqs, hq⟩ := List.forall_mem_append.mp hu
      simp only [render, String.toList_append, List.append_assoc] at heq
      obtain ⟨rfl, harrow⟩ :=
        hP.readsAll (fun p hp => ihps p hp fun use huse => hps use (mem_usesAll.mpr ⟨p, hp, huse⟩))
        hps hqs (hclose _) (hclose _) (List.append_cancel_left heq)
      obtain ⟨rfl, hrests⟩ := ihr hr q rest rest' hq hrest hrest' (List.append_cancel_left harrow)
      exact ⟨rfl, hrests⟩
    | error | tuple => simp [render] at heq
    | _ => exact (hP.not_applied hu rfl rfl hrest' heq.symm).elim
  | tuple ts ih =>
    have hclose : ∀ more, Closes (")".toList ++ more) := fun _ => ⟨')', _, rfl, .inr rfl⟩
    intro u rest rest' hu _ hrest' heq
    cases u with
    | tuple us =>
      simp only [render, String.toList_append, List.append_assoc] at heq
      obtain ⟨rfl, hclosed⟩ :=
        hP.readsAll (fun t h => ih t h fun use huse => ht use (mem_usesAll.mpr ⟨t, h, huse⟩))
        ht hu (hclose _) (hclose _) (List.append_cancel_left heq)
      exact ⟨rfl, List.append_cancel_left hclosed⟩
    | error | fn => simp [render] at heq
    | _ => exact (hP.not_applied hu rfl rfl hrest' heq.symm).elim
  | prim | generic => exact hP.reads_applied rfl ht (List.forall_mem_nil _)
  | container c t ih => exact hP.reads_applied rfl ht (List.forall_mem_singleton.mpr (ih ht))
  | result v e ihv ihe =>
    obtain ⟨hv, he⟩ := List.forall_mem_append.mp ht
    exact hP.reads_applied rfl ht (by simp [ihv hv, ihe he])
  | nominal k n ts ih =>
    exact hP.reads_applied rfl ht fun t h => ih t h fun use huse =>
      ht use (List.mem_cons_of_mem _ (mem_usesAll.mpr ⟨t, h, huse⟩))

end

/-- Types are told apart by their texts. -/
theorem rendering_is_unambiguous (t u : Ty) (hnames : ∀ use ∈ t.uses ++ u.uses, IsTypeName use.2)
    (hroles : ∀ a ∈ t.uses ++ u.uses, ∀ b ∈ t.uses ++ u.uses, a.2 = b.2 → a.1 = b.1)
    (h : t.render = u.render) :
    t = u := by
  have hallowed : Allowed (· ∈ t.uses ++ u.uses) := ⟨hnames, fun a b ha hb => hroles a ha b hb⟩
  have hnil : Ends [] := by simp [Ends]
  exact (hallowed.reads t (fun _ => List.mem_append_left _) u [] []
    (fun _ => List.mem_append_right _) hnil hnil
    (by rw [h])).1

/-- A type that comes out of a substitution is the one that its text shows. -/
theorem substituted_type_is_shown :
    (fn [.generic "T"] (.tuple [.generic "E", .error])).subst
        (.ofArguments ["T"] [.list (.sum "fn" [.record "Box" [.generic "E"]])]) =
      .fn [.list (.sum "fn" [.record "Box" [.generic "E"]])] (.tuple [.generic "E", .error]) :=
  rendering_is_unambiguous _ _ (by decide) (by decide) (by decide)

end Ty

end Bindery
