import Bindery.Proofs.Binding.MirrorFile
import Bindery.Proofs.NameResolution

/-!
# Root causes

A value that is unknown is reported once, where it is named, and its type is then compatible with
everything. So if parts of a file without diagnostics are replaced by names that stand for nothing,
these names are reported, each once and in order. Apart from them only the follow-ups of
`Ast.followUps` can be reported: an empty collection, results of a body without a written return
type, and names of variants in tuple patterns take their meaning from other values, and these may
now be unknown. `root_cause_disturbs_others` shows that each of them does occur, that a name which
is called is reported as a function, and that an unknown value can bring to light arguments that
disagree about a type parameter.
-/

namespace Bindery

open Ast

/-- If parts of a file without diagnostics, whose type arguments are all settled, are replaced by
names that stand for nothing, then these names are reported as undefined, each once and in the order
in which they are bound. Every other diagnostic is a follow-up, so there is none if the file has no
place for a follow-up. -/
theorem unknown_names_are_reported_once {session : Session} {file file' : SourceFile}
    {p : Bound.Program} {xs ys : List Unknown}
    (h : session.BindsQuietly file p) (hlimit : session.options.maxDiagnostics = none)
    (hexact : p.isExact = true)
    (hreplaced : Stmt.FileReplaced file.stmts file'.stmts xs ys)
    (hunknown : ∀ x ∈ xs ++ ys, p.syms.globals.declaration? x.name.text = none)
    (htame : ∀ n ∈ Stmt.allNodes true file'.stmts, n.isTame p.syms.isBareVariant = true) :
    let diagnostic (f : Finding) := f.toDiagnostic file'.name (LineMap.ofText file'.text)
    let followUps := Ast.followUps p.syms.isBareVariant (Stmt.allNodes true file'.stmts)
    ∃ p' diagnostics, (session.bind file').1 = .ok ⟨p', diagnostics⟩ ∧
      diagnostics.filter (fun d => d.code == 1004 || d.code == 1005) =
        (xs ++ ys).map (fun x => diagnostic x.finding) ∧
      (∀ d ∈ diagnostics, (d.code == 1004 || d.code == 1005) = false → d ∈ followUps.map diagnostic) ∧
      (followUps = [] → diagnostics = (xs ++ ys).map fun x => diagnostic x.finding) := by
  intro diagnostic followUps
  obtain ⟨ph, rfl, hsilent⟩ := h.exists_phases
  obtain ⟨ph', hran⟩ := Binding.exists_phases file'.stmts session.state
  obtain ⟨fs, hfs, hnames, hothers⟩ := ph.mirrored ph' hreplaced hsilent hexact hunknown htame
  have hdiagnostics : ph'.final.diagnostics file' = fs.map diagnostic := by
    rw [Binding.State.diagnostics, hfs]
    rfl
  have hundefined : (fs.filter Finding.isUndefined).map diagnostic = (xs ++ ys).map fun x =>
    diagnostic x.finding := by
    rw [hnames, List.map_map]
    rfl
  refine ⟨ph'.program, fs.map diagnostic, ?_, ?_, ?_, ?_⟩
  · rw [Session.bind_eq_of_ran hran, Options.limit, hlimit, hdiagnostics]
  · rw [← hundefined, List.filter_map]
    exact congrArg (List.map diagnostic) (List.filter_congr fun f _ => Problem.code_mem_iff f.range
      f.problem)
  · intro d hd hcode
    obtain ⟨f, hf, rfl⟩ := List.mem_map.mp hd
    have hother : f.isUndefined = false := (Problem.code_mem_iff f.range f.problem).symm.trans hcode
    exact List.mem_map_of_mem (hothers f hf hother)
  · intro hnone
    rw [← hundefined, List.filter_eq_self.mpr]
    intro f hf
    by_contra hother
    have hmem : f ∈ followUps := hothers f hf (Bool.eq_false_iff.mpr hother)
    rw [hnone] at hmem
    cases hmem

/-! ## Files with a part left open -/

namespace RootCauses

/-- The name `q`, which stands for nothing in the files below. -/
def unknown : Expr := .name ⟨default, "q"⟩

def named (text : String) : Name := ⟨default, text⟩

def use (text : String) : Expr := .name (named text)

def number (n : Int64) : Expr := .literal default (.int n)

def type (text : String) : TyExpr := .named default (named text) []

def fileOf (stmts : List Stmt) : SourceFile := ⟨default, default, stmts, "parts", ""⟩

/-- The codes of the diagnostics of a file. -/
def codes (file : SourceFile) :
    List Nat := (((Session.start {}).bind file).2.state.diagnostics file).map (·.code)

/-- A function that matches on a sum, and a lambda, with one part open in the function and one in
the statements:

    record Box<T> { value: T }
    sum Shape { Circle(Int), Square }
    fn area(s: Shape) -> Int { return match s { Circle(r) => r * inner, Square => 1 } }
    let b = Box { value: outer }
    let grow = fn(n: Int) => n + b.value
    print grow(area(Circle(2)))
-/
def shapes (inner outer : Expr) : SourceFile :=
  fileOf [
    .record default (named "Box") [named "T"] [⟨default, named "value", type "T"⟩],
    .sum default (named "Shape") [] [⟨default, named "Circle", some (type "Int")⟩,
      ⟨default, named "Square", none⟩],
    .fn default (named "area") [] [⟨default, named "s", type "Shape"⟩] (some (type "Int"))
      ⟨default, [.ret default (some (.matchOn default (use "s")
        [⟨default, .variant default (named "Circle") (some (.name (named "r"))),
        .binary default .multiply (use "r") inner⟩,
          ⟨default, .variant default (named "Square") none, number 1⟩]))]⟩,
    .bindName default (named "b") false none
      (.record default (named "Box") [] [⟨default, named "value", outer⟩]),
    .bindName default (named "grow") false none
      (.lambda default [⟨default, named "n", type "Int"⟩] none
      (.binary default .add (use "n") (.field default (use "b") (named "value")))),
    .print default (.call default (use "grow") []
      [.call default (use "area") [] [.call default (use "Circle") [] [number 2]]])]

/-- Both open parts become the name `q`. -/
theorem shapes_replaced :
    Stmt.FileReplaced (shapes (number 3) (number 4)).stmts (shapes unknown unknown).stmts
      [⟨named "q", false⟩] [⟨named "q", false⟩] := by
  have hname : ∀ text, Expr.Replaced (use text) (use text) [] :=
    fun text => .parts (.name (named text))
  have hnumber : ∀ n, Expr.Replaced (number n) (number n) [] :=
    fun n => .parts (.literal default (.int n))
  have hopen : ∀ n, Expr.Replaced (number n) unknown [⟨named "q", false⟩] := fun n => .whole rfl rfl
  have harms :=
    Arm.AllReplaced.cons default (.variant default (named "Circle") (some (.name (named "r"))))
    (.parts (.binary default .multiply (hname "r") (hopen 3))) (by decide)
    (.cons default (.variant default (named "Square") none) (hnumber 1) (by decide) .nil)
  have hbody := Block.Replaced.mk default
    (.cons (.retValue default (.parts (.matchOn default (hname "s") harms))) .nil (by decide))
  have hcircle :=
    Expr.Replaced.parts (.call default [] (.name (named "Circle")) (.cons (hnumber 2) .nil))
  have harea := Expr.Replaced.parts (.call default [] (.name (named "area")) (.cons hcircle .nil))
  have hprint :=
    Stmt.Replaced.print default
      (.parts (.call default [] (.name (named "grow")) (.cons harea .nil)))
  have hgrow := Stmt.Replaced.bindName default (named "grow") false none (.parts (.lambda default
    [⟨default, named "n", type "Int"⟩] none (.parts (.binary default .add (hname "n")
      (.parts (.field default (named "value") (hname "b"))))) (by decide)))
  have hbox :=
    Stmt.Replaced.bindName default (named "b") false none (.parts (.record default (named "Box") []
    (.cons default (named "value") (hopen 4) .nil)))
  have hstatements :=
    Stmt.FileReplaced.stmt hbox (.stmt hgrow (.stmt hprint .nil (by decide)) (by decide))
    (by decide)
  exact .record _ _ _ _ (.sum _ _ _ _ (.fn _ _ _ _ _ hbody (by decide) hstatements))

/-- Both names are reported where they stand, and nothing else is. -/
theorem shapes_report_both_parts :
    ∃ p, (Session.start {}).BindsQuietly (shapes (number 3) (number 4)) p ∧ p.isExact = true ∧
      ∃ p', ((Session.start {}).bind (shapes unknown unknown)).1 =
        .ok ⟨p', [⟨named "q", false⟩, ⟨named "q", false⟩].map
        fun x : Unknown => x.finding.toDiagnostic "parts" (LineMap.ofText "")⟩ := by
  obtain ⟨p, hquiet, hp⟩ := exists_bindsQuietly {} (shapes (number 3) (number 4))
    (fun p => p.isExact && (p.syms.globals.declaration? "q").isNone &&
      (Stmt.allNodes true (shapes unknown unknown).stmts).all (Node.isTame p.syms.isBareVariant) &&
      (followUps p.syms.isBareVariant (Stmt.allNodes true (shapes unknown unknown).stmts)).isEmpty)
    (by decide) (by decide +kernel)
  simp only [Bool.and_eq_true, List.all_eq_true, Option.isNone_iff_eq_none, List.isEmpty_iff] at hp
  obtain ⟨⟨⟨hexact, hunknown⟩, htame⟩, hnone⟩ := hp
  obtain ⟨p', diagnostics, houtcome, -, -, hall⟩ :=
    unknown_names_are_reported_once hquiet rfl hexact shapes_replaced
    (by simpa [named] using hunknown) htame
  refine ⟨p, hquiet, hexact, p', ?_⟩
  rw [houtcome, hall hnone]
  rfl

/-- `print e(1)`. -/
def called (e : Expr) : SourceFile := fileOf [.print default (.call default e [] [number 1])]

/-- `let x = match 1 { 1 => e, _ => [] }`. -/
def besideEmptyList (e : Expr) : SourceFile :=
  fileOf [.bindName default (named "x") false none (.matchOn default (number 1)
    [⟨default, .literal default (.int 1), e⟩, ⟨default, .wildcard default, .list default []⟩])]

/-- `fn f(b: Bool) { if b { return [e] }  return [2] }`. -/
def returned (e : Expr) : SourceFile :=
  fileOf [.fn default (named "f") [] [⟨default, named "b", type "Bool"⟩] none
    ⟨default,
      [.expr default (.ifElse default (use "b") ⟨default, [.ret default (some (.list default [e]))]⟩
      none),
      .ret default (some (.list default [number 2]))]⟩]

/-- `sum S { A, B }`. -/
def sum : Stmt := .sum default (named "S") [] [⟨default, named "A", none⟩, ⟨default, named "B", none⟩]

/-- `match e { pattern => body, _ => 2 }`. -/
def matched (e : Expr) (pattern : Pattern) (body : Expr) : Expr :=
  .matchOn default e [⟨default, pattern, body⟩, ⟨default, .wildcard default, number 2⟩]

/-- `sum S { A, B }` and `print match e { (A, A) => 1, _ => 2 }`. -/
def matchedTwice (e : Expr) : SourceFile :=
  fileOf [sum,
    .print default (matched e (.tuple default [.name (named "A"), .name (named "A")]) (number 1))]

/-- `sum S { A, B }`, `let mut A = 0` and `print match (e, 1) { (A, _) => { A = 3  1 }, _ => 2
}`. -/
def assigned (e : Expr) : SourceFile :=
  fileOf [sum, .bindName default (named "A") true none (number 0),
    .print default (matched (.tuple default [e, number 1])
      (.tuple default [.name (named "A"), .wildcard default])
      (.block ⟨default, [.assign default (named "A") (number 3), .expr default (number 1)]⟩))]

/-- `sum S { A, B }`, `fn A<T>(v: T) -> T { return v }` and `print match (e, 1) { (A, _) =>
A<Int>(1), _ => 2 }`. -/
def calledAtType (e : Expr) : SourceFile :=
  fileOf [sum, .fn default (named "A") [named "T"] [⟨default, named "v", type "T"⟩] (some (type "T"))
      ⟨default, [.ret default (some (use "v"))]⟩,
    .print default (matched (.tuple default [e, number 1])
      (.tuple default [.name (named "A"), .wildcard default])
      (.call default (use "A") [type "Int"] [number 1]))]

/-- `fn first<T>(a: T, b: T) -> T { return a }` and `let y: Int = first(e, "x")`. -/
def unsettled (e : Expr) : SourceFile :=
  fileOf [.fn default (named "first") [named "T"] [⟨default, named "a", type "T"⟩,
    ⟨default, named "b", type "T"⟩]
      (some (type "T")) ⟨default, [.ret default (some (use "a"))]⟩,
    .bindName default (named "y") false (some (type "Int"))
      (.call default (use "first") [] [e, .literal default (.string "x")])]

/-- One unknown part is reported as a function, brings further diagnostics with it, or brings to
light a disagreement that the part has hidden: in each of these files, which have no diagnostic
before their part becomes unknown. -/
theorem root_cause_disturbs_others :
    (codes (called (.lambda default [⟨default, named "n", type "Int"⟩] none (use "n"))) = [] ∧
      codes (called unknown) = [1005]) ∧
    (codes (besideEmptyList (.list default [number 2])) = [] ∧ codes (besideEmptyList unknown) =
      [1004, 2022]) ∧
    (codes (returned (number 1)) = [] ∧ codes (returned unknown) = [1004, 2006]) ∧
    (codes (matchedTwice (.tuple default [use "A", use "B"])) = [] ∧ codes (matchedTwice unknown) =
      [1004, 1001]) ∧
    (codes (assigned (use "B")) = [] ∧ codes (assigned unknown) = [1004, 1007, 3002]) ∧
    (codes (calledAtType (use "B")) = [] ∧ codes (calledAtType unknown) = [1004, 2012, 3002]) ∧
    (codes (unsettled (number 1)) = [] ∧ codes (unsettled unknown) = [1004, 2001]) := by
  decide +kernel

end RootCauses

end Bindery
