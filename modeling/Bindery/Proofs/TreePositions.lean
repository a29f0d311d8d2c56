import Bindery.Proofs.Ast.Parts
import Bindery.Ast.Builder
import Mathlib.Data.List.Perm.Basic
import Mathlib.Data.List.Range

/-!
# The positions of built trees

A builder is used call by call. Each call takes trees that were built before and puts them under a
new one; a tree that was put under another is not used again. The invariant of such a history is
that the places of all trees at hand, together, are the slots handed out so far, each once. It
follows from what one call does: the places of the tree it makes are those of the trees it was given
and a stretch of new slots.
-/

namespace Bindery.Ast

/-- Where the part is. -/
@[simp] def Part.origin : Part → Origin
  | .node origin => origin
  | .name n => n.origin

/-- What a call of a builder makes, files apart. -/
inductive Built where
  | name (n : Name)
  | type (t : TyExpr)
  | param (p : Param)
  | expr (e : Expr)
  | block (b : Block)
  | arm (a : Arm)
  | pattern (p : Pattern)
  | stmt (s : Stmt)

namespace Built

/-- The nodes and names of a tree. -/
@[simp] def parts : Built → List Part
  | .name n => [.name n]
  | .type t => t.parts
  | .param p => p.parts
  | .expr e => e.parts
  | .block b => b.parts
  | .arm a => Arm.allParts [a]
  | .pattern p => p.parts
  | .stmt s => s.parts

/-- The places of a tree. -/
@[simp] def origins (t : Built) : List Origin := t.parts.map Part.origin

end Built

/-! ## Shapes -/

mutual

/-- A written type without its names and places. -/
def TyExpr.shape : TyExpr → TyExpr
  | .named _ _ args => .named default default (TyExpr.shapes args)
  | .fn _ params ret => .fn default (TyExpr.shapes params) ret.shape
  | .tuple _ elems => .tuple default (TyExpr.shapes elems)

def TyExpr.shapes : List TyExpr → List TyExpr
  | [] => []
  | t :: ts => t.shape :: TyExpr.shapes ts

end

mutual

/-- A pattern without its names, constants and places. -/
def Pattern.shape : Pattern → Pattern
  | .literal .. => .literal default default
  | .wildcard _ => .wildcard default
  | .name _ => .name default
  | .tuple _ elems => .tuple default (Pattern.shapes elems)
  | .variant _ _ none => .variant default default none
  | .variant _ _ (some payload) => .variant default default payload.shape

def Pattern.shapes : List Pattern → List Pattern
  | [] => []
  | p :: ps => p.shape :: Pattern.shapes ps

end

def Param.shape (p : Param) : Param := ⟨default, default, p.annot.shape⟩

mutual

/-- An expression without its names, constants, operators and places. -/
def Expr.shape : Expr → Expr
  | .literal .. => .literal default default
  | .name _ => .name default
  | .binary _ _ left right => .binary default default left.shape right.shape
  | .unary _ _ operand => .unary default default operand.shape
  | .call _ callee tyArgs args => .call default callee.shape (TyExpr.shapes tyArgs) (Expr.shapes args)
  | .lambda _ params ret body =>
    .lambda default (params.map Param.shape) (ret.map TyExpr.shape) body.shape
  | .record _ _ tyArgs fields =>
    .record default default (TyExpr.shapes tyArgs) (FieldInit.shapes fields)
  | .field _ target _ => .field default target.shape default
  | .tuple _ elems => .tuple default (Expr.shapes elems)
  | .list _ elems => .list default (Expr.shapes elems)
  | .map _ entries => .map default (MapEntry.shapes entries)
  | .index _ target index => .index default target.shape index.shape
  | .ifElse _ cond thenBranch none => .ifElse default cond.shape thenBranch.shape none
  | .ifElse _ cond thenBranch (some elseBranch) =>
    .ifElse default cond.shape thenBranch.shape elseBranch.shape
  | .block block => .block block.shape
  | .matchOn _ scrutinee arms => .matchOn default scrutinee.shape (Arm.shapes arms)
  | .spawn _ body => .spawn default body.shape
  | .scope _ body => .scope default body.shape
  | .channel _ element => .channel default element.shape
  | .par _ inner => .par default inner.shape

def Expr.shapes : List Expr → List Expr
  | [] => []
  | e :: es => e.shape :: Expr.shapes es

def FieldInit.shapes : List FieldInit → List FieldInit
  | [] => []
  | ⟨_, _, value⟩ :: fields => ⟨default, default, value.shape⟩ :: FieldInit.shapes fields

def MapEntry.shapes : List MapEntry → List MapEntry
  | [] => []
  | ⟨_, key, value⟩ :: entries => ⟨default, key.shape, value.shape⟩ :: MapEntry.shapes entries

def Arm.shapes : List Arm → List Arm
  | [] => []
  | ⟨_, pattern, body⟩ :: arms => ⟨default, pattern.shape, body.shape⟩ :: Arm.shapes arms

def Block.shape : Block → Block
  | ⟨_, stmts⟩ => ⟨default, Stmt.shapes stmts⟩

/-- A statement without its names and places. -/
def Stmt.shape : Stmt → Stmt
  | .bindName _ _ _ annot init =>
    .bindName default default default (annot.map TyExpr.shape) init.shape
  | .assign _ _ value => .assign default default value.shape
  | .expr _ value => .expr default value.shape
  | .print _ value => .print default value.shape
  | .ret _ none => .ret default none
  | .ret _ (some value) => .ret default value.shape
  | .block block => .block block.shape
  | .whileLoop _ cond body => .whileLoop default cond.shape body.shape
  | .forLoop _ _ iterable body => .forLoop default default iterable.shape body.shape
  | .breakLoop _ => .breakLoop default
  | .continueLoop _ => .continueLoop default
  | .fn _ _ tyParams params ret body =>
    .fn default default (tyParams.map default) (params.map Param.shape) (ret.map TyExpr.shape)
      body.shape
  | .record _ _ tyParams fields =>
    .record default default (tyParams.map default)
      (fields.map fun d => ⟨default, default, d.annot.shape⟩)
  | .sum _ _ tyParams variants =>
    .sum default default (tyParams.map default)
      (variants.map fun d => ⟨default, default, d.payload.map TyExpr.shape⟩)

def Stmt.shapes : List Stmt → List Stmt
  | [] => []
  | s :: ss => s.shape :: Stmt.shapes ss

end

theorem TyExpr.length_shape :
    (∀ t : TyExpr, t.shape.parts.length = t.parts.length) ∧
      ∀ ts, (TyExpr.allParts (TyExpr.shapes ts)).length = (TyExpr.allParts ts).length := by
  apply TyExpr.shape.mutual_induct <;> intros <;>
    simp_all [TyExpr.shape, TyExpr.shapes, TyExpr.parts, TyExpr.allParts]

theorem TyExpr.length_optionShape (t : Option TyExpr) :
    (TyExpr.optionParts (t.map TyExpr.shape)).length = (TyExpr.optionParts t).length := by
  cases t with
  | none => rfl
  | some t => exact TyExpr.length_shape.1 t

theorem Pattern.length_shape :
    (∀ t : Pattern, t.shape.parts.length = t.parts.length) ∧
      ∀ ts, (Pattern.allParts (Pattern.shapes ts)).length = (Pattern.allParts ts).length := by
  apply Pattern.shape.mutual_induct <;> intros <;>
    simp_all [Pattern.shape, Pattern.shapes, Pattern.parts, Pattern.allParts]

/-- The number of parts does not change with the names, constants, operators and places. -/
theorem length_shape :
    (∀ e : Expr, e.shape.parts.length = e.parts.length) ∧
      (∀ as, (Arm.allParts (Arm.shapes as)).length = (Arm.allParts as).length) ∧
      (∀ b : Block, b.shape.parts.length = b.parts.length) ∧
      (∀ ss, (Stmt.allParts (Stmt.shapes ss)).length = (Stmt.allParts ss).length) ∧
      (∀ s : Stmt, s.shape.parts.length = s.parts.length) ∧
      (∀ es, (MapEntry.allParts (MapEntry.shapes es)).length = (MapEntry.allParts es).length) ∧
      (∀ fs, (FieldInit.allParts (FieldInit.shapes fs)).length = (FieldInit.allParts fs).length) ∧
      ∀ es, (Expr.allParts (Expr.shapes es)).length = (Expr.allParts es).length := by
  apply Expr.shape.mutual_induct <;> intros <;>
    simp_all [Expr.shape, Expr.shapes, FieldInit.shapes, MapEntry.shapes, Arm.shapes, Block.shape,
      Stmt.shape, Stmt.shapes,
      Expr.parts, Expr.allParts, FieldInit.allParts, MapEntry.allParts, Arm.allParts, Block.parts,
        Stmt.parts, Stmt.allParts,
      TyExpr.length_shape, TyExpr.length_optionShape, Pattern.length_shape, Param.parts,
        Param.shape, FieldDecl.parts,
      VariantDecl.parts, List.length_flatMap, Function.comp_def]

/-- A tree without its names, constants, operators and places. -/
def Built.shape : Built → Built
  | .name _ => .name default
  | .type t => .type t.shape
  | .param p => .param p.shape
  | .expr e => .expr e.shape
  | .block b => .block b.shape
  | .arm a => .arm ⟨default, a.pattern.shape, a.body.shape⟩
  | .pattern p => .pattern p.shape
  | .stmt s => .stmt s.shape

theorem Built.length_shape (t : Built) : t.shape.origins.length = t.origins.length := by
  rcases t with _ | _ | _ | _ | _ | ⟨_, _, _⟩ | _ | _ <;>
    simp [Built.shape, Param.shape, Param.parts, Arm.allParts, TyExpr.length_shape,
      Pattern.length_shape,
      Ast.length_shape]

/-! ## Calls -/

namespace Builder

/-- The place that is a slot. -/
def slot (n : Nat) : Origin := ⟨.single n, n, true⟩

/-- The places of consecutive slots. -/
def slots (n k : Nat) : List Origin := (List.range' n k).map slot

/-- The call of a builder that is given the trees takes so many slots. -/
inductive Offers : List Built → Nat → Build Built → Prop
  | name (text) : Offers [] 1 (.name <$> name text)
  | namedType (text args) : Offers (args.map .type) 2 (.type <$> namedType text args)
  | fnType (params ret) : Offers (params.map .type ++ [.type ret]) 1 (.type <$> fnType params ret)
  | tupleType (elems) : Offers (elems.map .type) 1 (.type <$> tupleType elems)
  | literal (value) : Offers [] 1 (.expr <$> literal value)
  | nameExpr (text) : Offers [] 1 (.expr <$> nameExpr text)
  | binary (op left right) : Offers [.expr left, .expr right] 1 (.expr <$> binary op left right)
  | unary (op operand) : Offers [.expr operand] 1 (.expr <$> unary op operand)
  | callValue (callee tyArgs args) :
    Offers (.expr callee :: (tyArgs.map .type ++ args.map .expr)) 1
      (.expr <$> callValue callee tyArgs args)
  | callName (text tyArgs args) :
    Offers (tyArgs.map .type ++ args.map .expr) 2 (.expr <$> callName text tyArgs args)
  | param (text annot) : Offers [.type annot] 2 (.param <$> param text annot)
  | lambda (params) (ret : Option TyExpr) (body) :
    Offers (params.map .param ++ (ret.toList.map .type ++ [.expr body])) 1
      (.expr <$> lambda params ret body)
  | record (type tyArgs) (fields : List (String × Expr)) :
    Offers (tyArgs.map .type ++ fields.flatMap fun f => [.expr f.2]) (2 * fields.length + 2)
      (.expr <$> record type tyArgs fields)
  | field (target text) : Offers [.expr target] 2 (.expr <$> field target text)
  | tuple (elems) : Offers (elems.map .expr) 1 (.expr <$> tuple elems)
  | list (elems) : Offers (elems.map .expr) 1 (.expr <$> list elems)
  | map (entries : List (Expr × Expr)) :
    Offers (entries.flatMap fun e => [.expr e.1, .expr e.2]) (entries.length + 1)
      (.expr <$> map entries)
  | index (target index) : Offers [.expr target, .expr index] 1 (.expr <$> Builder.index target index)
  | block (stmts) : Offers (stmts.map .stmt) 1 (.block <$> block stmts)
  | ifElse (cond thenBranch) (elseBranch : Option Expr) :
    Offers (.expr cond :: (thenBranch.map .stmt ++ elseBranch.toList.map .expr)) 2
      (.expr <$> ifElse cond thenBranch elseBranch)
  | blockExpr (stmts) : Offers (stmts.map .stmt) 1 (.expr <$> blockExpr stmts)
  | arm (pattern body) : Offers [.pattern pattern, .expr body] 1 (.arm <$> arm pattern body)
  | matchOn (scrutinee arms) :
    Offers (.expr scrutinee :: arms.map .arm) 1 (.expr <$> matchOn scrutinee arms)
  | spawn (body) : Offers (body.map .stmt) 2 (.expr <$> spawn body)
  | scope (body) : Offers (body.map .stmt) 2 (.expr <$> scope body)
  | channel (element) : Offers [.type element] 1 (.expr <$> channel element)
  | par (inner) : Offers [.expr inner] 1 (.expr <$> par inner)
  | literalPattern (value) : Offers [] 1 (.pattern <$> literalPattern value)
  | wildcard : Offers [] 1 (.pattern <$> wildcard)
  | namePattern (text) : Offers [] 1 (.pattern <$> namePattern text)
  | tuplePattern (elems) : Offers (elems.map .pattern) 1 (.pattern <$> tuplePattern elems)
  | variantPattern (text) (payload : Option Pattern) :
    Offers (payload.toList.map .pattern) 2 (.pattern <$> variantPattern text payload)
  | bindName (text isMutable) (annot : Option TyExpr) (init) :
    Offers (annot.toList.map .type ++ [.expr init]) 2 (.stmt <$> bindName text isMutable annot init)
  | assign (text value) : Offers [.expr value] 2 (.stmt <$> assign text value)
  | exprStmt (value) : Offers [.expr value] 1 (.stmt <$> exprStmt value)
  | print (value) : Offers [.expr value] 1 (.stmt <$> print value)
  | ret (value : Option Expr) : Offers (value.toList.map .expr) 1 (.stmt <$> ret value)
  | blockStmt (stmts) : Offers (stmts.map .stmt) 1 (.stmt <$> blockStmt stmts)
  | whileLoop (cond body) : Offers (.expr cond :: body.map .stmt) 2 (.stmt <$> whileLoop cond body)
  | forLoop (text iterable body) :
    Offers (.expr iterable :: body.map .stmt) 3 (.stmt <$> forLoop text iterable body)
  | breakLoop : Offers [] 1 (.stmt <$> breakLoop)
  | continueLoop : Offers [] 1 (.stmt <$> continueLoop)
  | fn (text) (tyParams : List String) (params) (ret : Option TyExpr) (body) :
    Offers (params.map .param ++ (ret.toList.map .type ++ body.map .stmt)) (tyParams.length + 3)
      (.stmt <$> fn text tyParams params ret body)
  | recordDecl (text) (tyParams : List String) (fields : List (String × TyExpr)) :
    Offers (fields.flatMap fun f => [.type f.2]) (2 * fields.length + (tyParams.length + 2))
      (.stmt <$> recordDecl text tyParams fields)
  | sumDecl (text) (tyParams : List String) (variants : List (String × Option TyExpr)) :
    Offers (variants.flatMap fun v => v.2.toList.map .type)
      (2 * variants.length + (tyParams.length + 2))
      (.stmt <$> sumDecl text tyParams variants)

/-! ## One call -/

section

variable {α β : Type} {origins : α → List Origin} {origins' : β → List Origin} {m : Build α}
    {f : α → Build β}
  {k j : Nat} {given rest : List Origin}

/-- The step takes `k` slots, which both counters count, and its answer has them and the given
places, each once. -/
def Allots (origins : α → List Origin) (k : Nat) (given : List Origin) (m : Build α) : Prop :=
  ∀ b, b.cursor = b.nextId → (m.run b).2.cursor = (m.run b).2.nextId ∧ (m.run b).2.nextId =
    b.nextId + k ∧
    (origins (m.run b).1).Perm (slots b.nextId k ++ given)

namespace Allots

theorem pure {a : α} (h : (origins a).Perm given) : Allots origins 0 given (pure a) :=
  fun _ hb => ⟨hb, rfl, h⟩

theorem counted {a : α} (h : ∀ o, (origins a).count o = given.count o) :
    Allots origins 0 given (Pure.pure a) :=
  pure (List.perm_iff_count.mpr h)

theorem seq {all : List Origin} (hm : Allots origins k given m) (rest : List Origin)
    (hall : (given ++ rest).Perm all)
    (hf : ∀ a, Allots origins' j (origins a ++ rest) (f a)) :
    Allots origins' (k + j) all (m >>= f) := by
  intro b hb
  obtain ⟨hb', hk, hperm⟩ := hm b hb
  obtain ⟨hb'', hj, hperm'⟩ := hf (m.run b).1 (m.run b).2 hb'
  rw [hk] at hj hperm'
  refine ⟨hb'', hj.trans (Nat.add_assoc _ _ _), hperm'.trans ?_⟩
  have hslots : slots b.nextId (k + j) = slots b.nextId k ++ slots (b.nextId + k) j := by
    rw [slots, ← List.range'_append_1, List.map_append]
    rfl
  rw [List.perm_iff_count] at hperm hall ⊢
  intro o
  have hperm := hperm o
  have hall := hall o
  simp only [hslots, List.count_append] at hperm hall ⊢
  omega

theorem origin : Allots (fun o => [o]) 1 [] origin := fun b hb =>
  ⟨congrArg (· + 1) hb, rfl, .of_eq (congrArg (fun n => [Origin.mk (.single n) b.nextId true]) hb)⟩

/-- The node of the call. -/
theorem own {f : Origin → Build β} (hf : ∀ o, Allots origins' j (o :: rest) (f o)) :
    Allots origins' (j + 1) rest (Builder.origin >>= f) :=
  Nat.add_comm 1 j ▸ origin.seq rest (.refl _) hf

/-- A name. -/
theorem named {text : String} {f : Name → Build β}
    (hf : ∀ n, Allots origins' j (n.origin :: rest) (f n)) :
    Allots origins' (j + 1) rest (name text >>= f) :=
  Nat.add_comm 1 j ▸ @seq _ _ (fun n : Name => [n.origin]) _ _ f 1 j [] _ origin rest (.refl _) hf

/-- A block. -/
theorem body {stmts : List Stmt} {f : Block → Build β}
    (hf : ∀ o, Allots origins' j (o :: rest) (f ⟨o, stmts⟩)) :
    Allots origins' (j + 1) rest (block stmts >>= f) := own hf

theorem built {g : α → Built} (h : Allots (fun a => (g a).origins) k given m) :
    Allots Built.origins k given (g <$> m) :=
  h

theorem names (texts : List String) :
    Allots (fun ns => (ns.map Part.name).map Part.origin) texts.length [] (names texts) := by
  induction texts with
  | nil => exact .pure (.refl _)
  | cons text texts ih =>
    exact .named fun n => ih.seq [n.origin] (.refl _) fun ns =>
      .pure (List.perm_append_singleton _ _).symm

/-- Members that have a name each, built one after the other. -/
theorem labelled {γ δ : Type} {build : List (String × γ) → Build (List δ)} {parts : List δ → List Part}
    {children : γ → List Built} (make : Origin → Name → γ → δ) (hnil : build [] = Pure.pure [])
    (hcons : ∀ c cs, build (c :: cs) = do
      let o ← Builder.origin
      let n ← name c.1
      let rest ← build cs
      return make o n c.2 :: rest)
    (hparts : parts [] = [] ∧ ∀ o n x xs, (parts (make o n x :: xs)).map Part.origin =
      o :: n.origin :: ((children x).flatMap Built.origins ++ (parts xs).map Part.origin))
    (cs : List (String × γ)) :
    Allots (fun xs => (parts xs).map Part.origin) (2 * cs.length)
      ((cs.flatMap (children ·.2)).flatMap Built.origins) (build cs) := by
  induction cs with
  | nil => exact hnil ▸ .pure (by rw [hparts.1]; exact .refl _)
  | cons c cs ih =>
    rw [hcons, List.length_cons, Nat.mul_succ]
    refine .own fun o => .named fun n => ih.seq (n.origin :: o :: (children c.2).flatMap Built.origins)
      (List.perm_iff_count.mpr fun p => ?_) fun xs => .counted fun p => ?_
    · simp +arith [List.count_cons]
    · simp +arith [hparts.2, List.count_cons]

theorem mapEntries (entries : List (Expr × Expr)) :
    Allots (fun es => (MapEntry.allParts es).map Part.origin) entries.length
      ((entries.flatMap fun e => [.expr e.1, .expr e.2]).flatMap Built.origins)
      (mapEntries entries) := by
  induction entries with
  | nil => exact .pure (.refl _)
  | cons entry entries ih =>
    refine .own fun o => ih.seq (o :: (entry.1.parts ++ entry.2.parts).map Part.origin)
      (List.perm_iff_count.mpr fun p => ?_) fun es => .counted fun p => ?_
    · simp +arith [List.count_cons]
    · simp +arith [MapEntry.allParts, List.count_cons]

end Allots

end

section

variable {α : Type} {g : α → Built} {all : List α → List Part}

theorem flatMap_origins (hnil : all [] = []) (hcons : ∀ x xs, all (x :: xs) = (g x).parts ++ all xs)
    (xs : List α) :
    (xs.map g).flatMap Built.origins = (all xs).map Part.origin := by
  induction xs with
  | nil => rw [hnil]; rfl
  | cons x xs ih => rw [List.map_cons, List.flatMap_cons, ih, hcons, List.map_append, Built.origins]

@[simp] theorem flatMap_types (ts : List TyExpr) :
    (ts.map .type).flatMap Built.origins = (TyExpr.allParts ts).map Part.origin :=
  flatMap_origins rfl (fun _ _ => rfl) ts

@[simp] theorem allParts_toList (t : Option TyExpr) :
    TyExpr.allParts t.toList = TyExpr.optionParts t := by
  cases t with
  | none => rfl
  | some t => exact List.append_nil _

@[simp] theorem flatMap_exprs (es : List Expr) :
    (es.map .expr).flatMap Built.origins = (Expr.allParts es).map Part.origin :=
  flatMap_origins rfl (fun _ _ => rfl) es

@[simp] theorem flatMap_params (ps : List Param) :
    (ps.map .param).flatMap Built.origins = (ps.flatMap Param.parts).map Part.origin :=
  flatMap_origins rfl (fun _ _ => rfl) ps

@[simp] theorem flatMap_patterns (ps : List Pattern) :
    (ps.map .pattern).flatMap Built.origins = (Pattern.allParts ps).map Part.origin :=
  flatMap_origins rfl (fun _ _ => rfl) ps

@[simp] theorem flatMap_stmts (ss : List Stmt) :
    (ss.map .stmt).flatMap Built.origins = (Stmt.allParts ss).map Part.origin :=
  flatMap_origins rfl (fun _ _ => rfl) ss

@[simp] theorem flatMap_arms (arms : List Arm) :
    (arms.map .arm).flatMap Built.origins = (Arm.allParts arms).map Part.origin :=
  flatMap_origins rfl (by rintro ⟨_, _, _⟩ _; simp [Arm.allParts]) arms

end

/-- What every call does to the places. -/
theorem allots_of_offers {children : List Built} {k : Nat} {m : Build Built}
    (h : Offers children k m) :
    Allots Built.origins k (children.flatMap Built.origins) m := by
  cases h with
  | name | nameExpr | namePattern => exact .built (.named fun _ => .pure (.refl _))
  | namedType | param | field | bindName | assign =>
    refine .built (.own fun o => .named fun n => .counted fun p => ?_)
    simp +arith [TyExpr.parts, Param.parts, Expr.parts, Stmt.parts, List.count_cons]
  | variantPattern _ payload =>
    refine .built (.own fun o => .named fun n => .counted fun p => ?_)
    cases payload <;> simp +arith [Pattern.parts, List.count_cons]
  | callName text tyArgs args =>
    refine .built (@Allots.named _ _ _ _ text (fun n => callValue (.name n) tyArgs args) fun n =>
      .own fun o =>
      .counted fun p => ?_)
    simp +arith [Expr.parts, List.count_cons]
  | blockExpr | blockStmt =>
    refine .built (.body fun o => .counted fun p => ?_)
    simp [Expr.parts, Stmt.parts, Block.parts, List.count_cons]
  | ifElse _ _ elseBranch =>
    refine .built (.own fun o => .body fun n => .counted fun p => ?_)
    cases elseBranch <;>
      simp +arith [Expr.parts, Block.parts, List.count_cons]
  | ret value =>
    refine .built (.own fun o => .counted fun p => ?_)
    cases value <;> simp [Stmt.parts, List.count_cons]
  | spawn | scope | whileLoop =>
    refine .built (.own fun o => .body fun n => .counted fun p => ?_)
    simp +arith [Expr.parts, Stmt.parts, Block.parts, List.count_cons]
  | forLoop =>
    refine .built (.own fun o => .named fun n => .body fun n => .counted fun p => ?_)
    simp +arith [Stmt.parts, Block.parts, List.count_cons]
  | record type tyArgs fields =>
    have hfields := @Allots.labelled _ _ fieldInits FieldInit.allParts ([.expr ·])
      (fun o n value => ⟨o, n, value⟩) rfl
      (fun _ _ => rfl) ⟨rfl, by simp [FieldInit.allParts]⟩ fields
    rw [List.flatMap_append]
    refine .built (hfields.seq _ List.perm_append_comm
      fun fs => .own fun o => .named fun n => .counted fun p => ?_)
    simp +arith [Expr.parts, List.count_cons]
  | map entries =>
    refine .built ((Allots.mapEntries entries).seq [] (.of_eq (List.append_nil _)) fun es =>
      .own fun o =>
      .counted fun p => ?_)
    simp [Expr.parts, List.count_cons]
  | fn text tyParams params ret body =>
    refine .built (.own fun o => .named fun n => (Allots.names tyParams).seq _ (.refl _) fun ns =>
      .body fun o' =>
      .counted fun p => ?_)
    simp +arith [Stmt.parts, Block.parts, List.count_cons]
  | recordDecl text tyParams fields =>
    have hfields := @Allots.labelled _ _ fieldDecls (·.flatMap FieldDecl.parts) ([.type ·])
      (fun o n annot => ⟨o, n, annot⟩) rfl (fun _ _ => rfl)
      ⟨rfl, by simp [FieldDecl.parts]⟩ fields
    refine .built (hfields.seq [] (.of_eq (List.append_nil _)) fun fs => .own fun o => .named fun n =>
      (Allots.names tyParams).seq _ (.refl _) fun ns => .counted fun p => ?_)
    simp +arith [Stmt.parts, List.count_cons]
  | sumDecl text tyParams variants =>
    have hvariants :=
      @Allots.labelled _ _ variantDecls (·.flatMap VariantDecl.parts) (·.toList.map .type)
      (fun o n payload => ⟨o, n, payload⟩) rfl (fun _ _ => rfl)
      ⟨rfl, by simp [VariantDecl.parts]⟩ variants
    refine .built (hvariants.seq [] (.of_eq (List.append_nil _)) fun vs => .own fun o =>
      .named fun n =>
      (Allots.names tyParams).seq _ (.refl _) fun ns => .counted fun p => ?_)
    simp +arith [Stmt.parts, List.count_cons]
  | _ =>
    refine .built (.own fun o => .counted fun p => ?_)
    simp [TyExpr.parts, Expr.parts, Pattern.parts, Arm.allParts, Block.parts, Stmt.parts,
      List.count_cons]

/-! ## Histories -/

/-- Calls of a builder, the trees at hand after them, which are not under another tree, and the
files made. -/
inductive History : List Built → List SourceFile → Builder → Prop
  | start (interner : Interner) : History [] [] ⟨0, 0, interner⟩
  | call {made rest children : List Built} {files : List SourceFile} {b : Builder} {k : Nat}
    {m : Build Built}
    (before : History made files b) (offered : Offers children k m)
    (taken : made.Perm (children ++ rest)) :
    History ((m.run b).1 :: rest) files (m.run b).2
  | finish {made rest : List Built} {files : List SourceFile} {b : Builder} (id : TreeId)
    (fileName text : String)
    (stmts : List Stmt) (before : History made files b) (taken : made.Perm (stmts.map .stmt ++ rest)) :
    History rest (((Builder.finish id fileName text stmts).run b).1 :: files)
      ((Builder.finish id fileName text stmts).run b).2

/-- The places of all nodes and names but the files themselves. -/
def places (made : List Built) (files : List SourceFile) : List Origin :=
  made.flatMap Built.origins ++ files.flatMap fun f => (Stmt.allParts f.stmts).map Part.origin

/-- The places are the slots handed out, each once, and the counters are in step. -/
structure Numbered (made : List Built) (files : List SourceFile) (b : Builder) : Prop where
  inStep : b.cursor = b.nextId
  slots : ((places made files ++ files.map SourceFile.origin).map Origin.id).Perm (List.range b.nextId)
  single : ∀ o ∈ places made files, o.range = .single o.id
  file : ∀ f ∈ files, f.origin.range = ⟨0, f.origin.id⟩

variable {made made' : List Built} {files : List SourceFile} {b : Builder}

theorem places_perm (h : made.Perm made') (files : List SourceFile) :
    (places made files).Perm (places made' files) := (h.flatMap_right _).append_right _

theorem map_id_slots (n k : Nat) : (slots n k).map Origin.id = List.range' n k :=
  List.map_map.trans (List.map_id _)

theorem range_perm (n k : Nat) : (List.range' n k ++ List.range n).Perm (List.range (n + k)) := by
  rw [List.range_eq_range', List.range_eq_range', ← List.range'_append_1, Nat.zero_add]
  exact List.perm_append_comm

theorem History.numbered (h : History made files b) : Numbered made files b := by
  induction h with
  | start => exact ⟨rfl, .refl _, by simp [places], by simp⟩
  | @call made rest children files b k m before offered taken ih =>
    obtain ⟨hstep, hnext, hperm⟩ := allots_of_offers offered b ih.inStep
    have hplaces : (places ((m.run b).1 :: rest) files).Perm
      (Builder.slots b.nextId k ++ places made files) := by
      refine .trans ?_ ((places_perm taken files).symm.append_left _)
      simpa [places] using hperm.append_right _
    refine ⟨hstep, ?_, fun o ho => ?_, ih.file⟩
    · refine ((hplaces.append_right _).map _).trans ?_
      rw [List.append_assoc, List.map_append, map_id_slots, hnext]
      exact (ih.slots.append_left _).trans (range_perm b.nextId k)
    · rcases List.mem_append.mp (hplaces.mem_iff.mp ho) with ho | ho
      · obtain ⟨n, -, rfl⟩ := List.mem_map.mp ho
        rfl
      · exact ih.single o ho
  | @finish made rest files b id fileName text stmts before taken ih =>
    have hplaces : (places rest (((Builder.finish id fileName text stmts).run b).1 :: files)).Perm
        (places made files) := by
      refine .trans ?_ (places_perm taken files).symm
      simp only [places, List.flatMap_append, flatMap_stmts, List.flatMap_cons, List.append_assoc]
      rw [← List.append_assoc, ← List.append_assoc]
      exact List.perm_append_comm.append_right _
    refine ⟨congrArg (· + 1) ih.inStep, ?_, fun o ho => ih.single o (hplaces.mem_iff.mp ho),
      fun f hf => ?_⟩
    · refine ((hplaces.append_right _).map _).trans ?_
      rw [List.map_append, List.map_cons, List.map_cons]
      refine List.perm_middle.trans ?_
      rw [← List.map_append]
      exact (ih.slots.append_left [b.nextId]).trans (range_perm b.nextId 1)
    · rcases List.mem_cons.mp hf with rfl | hf
      · exact congrArg (Range.mk 0) ih.inStep
      · exact ih.file f hf

end Builder

end Bindery.Ast
