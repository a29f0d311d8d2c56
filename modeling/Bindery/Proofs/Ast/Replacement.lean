import Bindery.Proofs.Binding.Tree
import Bindery.Proofs.Ast.Nodes

/-!
# Replacing parts of a syntax tree by names

`Expr.Replaced e e' xs` says that `e'` is `e` with some of its parts replaced by the names `xs`, in
the order in which they stand in the tree. Each name covers the text of the part that it replaces,
and stands for no variable there: what is declared inside the tree has another name wherever it is
in scope. A part that is replaced has no `return`, `break` or `continue` of its own, so that the
replacement does not change where the code around it goes on. The name of a function that is called
is no such part, but any other expression that is called may become a name, which then is a function
that is not known.

`followUps` lists what may be reported of a tree in which a value has become unknown, beside the
unknown value itself. These are the places whose meaning rests on the type of something else: an
empty collection needs its element type from around it, the results of a body without a written
return type are compared with each other, and a name in a pattern means a variant only if the
matched value is known to be of its sum.
-/

namespace Bindery.Ast

/-! ## Names in patterns -/

/-- The names of a pattern that stand in a tuple. -/
def Pattern.tupled : Pattern → List Name
  | .tuple _ elems => Pattern.allNames elems
  | .variant _ _ (some payload) => payload.tupled
  | _ => []

/-- The names in tuple patterns that may mean variants. -/
def ambiguousNames (bare : String → Bool) (arms : List Arm) : List Name :=
  (arms.flatMap fun arm => arm.pattern.tupled).filter fun name => bare name.text

/-! ## What may follow -/

namespace Node

/-- What may be reported at a node once some value is unknown. `bare` tells the names of variants
without payload. -/
def followUps (bare : String → Bool) : Node → List Finding
  | .expr (.list o []) => [⟨o.range, .emptyLiteral "list"⟩]
  | .expr (.map o []) => [⟨o.range, .emptyLiteral "map"⟩]
  | .expr (.lambda o _ none body) =>
    if returns (body.nodes false) then [⟨o.range, .inconsistentReturns "<lambda>"⟩] else []
  | .expr (.matchOn _ _ arms) =>
    if ambiguousNames bare arms = [] then []
    else (ambiguousNames bare arms).map (fun name => ⟨name.range, .alreadyDeclared name.text⟩) ++
      arms.map fun arm => ⟨arm.pattern.range, .unreachableArm⟩
  | .stmt (.assign _ target _) =>
    if bare target.text then [⟨target.range, .assignToImmutable target.text⟩] else []
  | .stmt (.fn _ name _ _ none body) =>
    if returns (body.nodes false) then [⟨name.range, .inconsistentReturns name.text⟩] else []
  | _ => []

/-- Whether the node is no call that gives type arguments to the name of a variant without
payload. -/
def isTame (bare : String → Bool) : Node → Bool
  | .expr (.call _ (.name name) (_ :: _) _) => !bare name.text
  | _ => true

end Node

/-- What may be reported of a tree once some value is unknown. -/
def followUps (bare : String → Bool) (nodes : List Node) : List Finding :=
  nodes.flatMap (Node.followUps bare)

/-! ## Replacement -/

/-- A name that stands for nothing, and whether it is called. -/
structure Unknown where
  name : Name
  isCalled : Bool

/-- What is found at a name that stands for nothing. -/
def Unknown.finding (x : Unknown) : Finding :=
  ⟨x.name.range, if x.isCalled then .undefinedFn x.name.text else .undefinedVar x.name.text⟩

/-- None of the unknown names is among the given ones. -/
def Avoids (names : List String) (xs : List Unknown) : Prop := ∀ x ∈ xs, x.name.text ∉ names

instance (names : List String) (xs : List Unknown) : Decidable (Avoids names xs) :=
  inferInstanceAs (Decidable (∀ x ∈ xs, x.name.text ∉ names))

mutual

/-- The second expression is the first one with parts, or the whole, replaced by the names. -/
inductive Expr.Replaced : Expr → Expr → List Unknown → Prop
  | whole {e : Expr} {x : Name} (hrange : x.range = e.range) (hjumps : jumps (e.nodes false) = false) :
    Expr.Replaced e (.name x) [⟨x, false⟩]
  | parts {e e' : Expr} {xs : List Unknown} (h : e.PartsReplaced e' xs) : Expr.Replaced e e' xs

/-- The second expression is the first one with proper parts replaced by the names. -/
inductive Expr.PartsReplaced : Expr → Expr → List Unknown → Prop
  | literal (o : Origin) (v : Literal) : Expr.PartsReplaced (.literal o v) (.literal o v) []
  | name (n : Name) : Expr.PartsReplaced (.name n) (.name n) []
  | binary (o : Origin) (op : BinaryOp) {left left' right right' : Expr} {xs ys : List Unknown}
    (hleft : left.Replaced left' xs) (hright : right.Replaced right' ys) :
    Expr.PartsReplaced (.binary o op left right) (.binary o op left' right') (xs ++ ys)
  | unary (o : Origin) (op : UnaryOp) {e e' : Expr} {xs : List Unknown} (h : e.Replaced e' xs) :
    Expr.PartsReplaced (.unary o op e) (.unary o op e') xs
  | call (o : Origin) (tyArgs : List TyExpr) {callee callee' : Expr} {args args' : List Expr}
    {xs ys : List Unknown}
    (hcallee : callee.PartsReplaced callee' xs) (hargs : Expr.AllReplaced args args' ys) :
    Expr.PartsReplaced (.call o callee tyArgs args) (.call o callee' tyArgs args') (xs ++ ys)
  /-- What is called was no name and becomes one. -/
  | callee (o : Origin) (tyArgs : List TyExpr) {callee : Expr} {x : Name} {args args' : List Expr}
    {ys : List Unknown}
    (hcallee : ∀ n, callee ≠ .name n) (hrange : x.range = callee.range)
    (hjumps : jumps (callee.nodes false) = false)
    (hargs : Expr.AllReplaced args args' ys) :
    Expr.PartsReplaced (.call o callee tyArgs args) (.call o (.name x) tyArgs args')
      ([⟨x, true⟩] ++ ys)
  | lambda (o : Origin) (params : List Param) (ret : Option TyExpr) {body body' : Expr}
    {xs : List Unknown}
    (h : body.Replaced body' xs) (havoids : Avoids (params.map fun p => p.name.text) xs) :
    Expr.PartsReplaced (.lambda o params ret body) (.lambda o params ret body') xs
  | record (o : Origin) (type : Name) (tyArgs : List TyExpr) {fields fields' : List FieldInit}
    {xs : List Unknown}
    (h : FieldInit.AllReplaced fields fields' xs) :
    Expr.PartsReplaced (.record o type tyArgs fields) (.record o type tyArgs fields') xs
  | field (o : Origin) (name : Name) {e e' : Expr} {xs : List Unknown} (h : e.Replaced e' xs) :
    Expr.PartsReplaced (.field o e name) (.field o e' name) xs
  | tuple (o : Origin) {es es' : List Expr} {xs : List Unknown} (h : Expr.AllReplaced es es' xs) :
    Expr.PartsReplaced (.tuple o es) (.tuple o es') xs
  | list (o : Origin) {es es' : List Expr} {xs : List Unknown} (h : Expr.AllReplaced es es' xs) :
    Expr.PartsReplaced (.list o es) (.list o es') xs
  | map (o : Origin) {entries entries' : List MapEntry} {xs : List Unknown}
    (h : MapEntry.AllReplaced entries entries' xs) :
    Expr.PartsReplaced (.map o entries) (.map o entries') xs
  | index (o : Origin) {target target' index index' : Expr} {xs ys : List Unknown}
    (htarget : target.Replaced target' xs) (hindex : index.Replaced index' ys) :
    Expr.PartsReplaced (.index o target index) (.index o target' index') (xs ++ ys)
  | ifOnly (o : Origin) {cond cond' : Expr} {block block' : Block} {xs ys : List Unknown}
    (hcond : cond.Replaced cond' xs) (hthen : block.Replaced block' ys) :
    Expr.PartsReplaced (.ifElse o cond block none) (.ifElse o cond' block' none) (xs ++ ys)
  | ifElse (o : Origin) {cond cond' e e' : Expr} {block block' : Block} {xs ys zs : List Unknown}
    (hcond : cond.Replaced cond' xs) (hthen : block.Replaced block' ys) (helse : e.Replaced e' zs) :
    Expr.PartsReplaced (.ifElse o cond block (some e)) (.ifElse o cond' block' (some e'))
      (xs ++ (ys ++ zs))
  | block {b b' : Block} {xs : List Unknown} (h : b.Replaced b' xs) :
    Expr.PartsReplaced (.block b) (.block b') xs
  | matchOn (o : Origin) {e e' : Expr} {arms arms' : List Arm} {xs ys : List Unknown}
    (hscrutinee : e.Replaced e' xs)
    (harms : Arm.AllReplaced arms arms' ys) :
    Expr.PartsReplaced (.matchOn o e arms) (.matchOn o e' arms') (xs ++ ys)
  | spawn (o : Origin) {b b' : Block} {xs : List Unknown} (h : b.Replaced b' xs) :
    Expr.PartsReplaced (.spawn o b) (.spawn o b') xs
  | scope (o : Origin) {b b' : Block} {xs : List Unknown} (h : b.Replaced b' xs) :
    Expr.PartsReplaced (.scope o b) (.scope o b') xs
  | channel (o : Origin) (element : TyExpr) :
    Expr.PartsReplaced (.channel o element) (.channel o element) []
  | par (o : Origin) {e e' : Expr} {xs : List Unknown} (h : e.Replaced e' xs) :
    Expr.PartsReplaced (.par o e) (.par o e') xs

/-- The same for lists of expressions. -/
inductive Expr.AllReplaced : List Expr → List Expr → List Unknown → Prop
  | nil : Expr.AllReplaced [] [] []
  | cons {e e' : Expr} {es es' : List Expr} {xs ys : List Unknown} (h : e.Replaced e' xs)
    (hs : Expr.AllReplaced es es' ys) : Expr.AllReplaced (e :: es) (e' :: es') (xs ++ ys)

/-- The same for the fields of a record expression. -/
inductive FieldInit.AllReplaced : List FieldInit → List FieldInit → List Unknown → Prop
  | nil : FieldInit.AllReplaced [] [] []
  | cons (o : Origin) (name : Name) {e e' : Expr} {fields fields' : List FieldInit}
    {xs ys : List Unknown}
    (h : e.Replaced e' xs) (hs : FieldInit.AllReplaced fields fields' ys) :
    FieldInit.AllReplaced (⟨o, name, e⟩ :: fields) (⟨o, name, e'⟩ :: fields') (xs ++ ys)

/-- The same for the entries of a map expression. -/
inductive MapEntry.AllReplaced : List MapEntry → List MapEntry → List Unknown → Prop
  | nil : MapEntry.AllReplaced [] [] []
  | cons (o : Origin) {key key' value value' : Expr} {entries entries' : List MapEntry}
    {xs ys zs : List Unknown}
    (hkey : key.Replaced key' xs) (hvalue : value.Replaced value' ys)
    (hs : MapEntry.AllReplaced entries entries' zs) :
    MapEntry.AllReplaced (⟨o, key, value⟩ :: entries) (⟨o, key', value'⟩ :: entries')
      (xs ++ (ys ++ zs))

/-- The same for the arms of a match. -/
inductive Arm.AllReplaced : List Arm → List Arm → List Unknown → Prop
  | nil : Arm.AllReplaced [] [] []
  | cons (o : Origin) (pattern : Pattern) {e e' : Expr} {arms arms' : List Arm} {xs ys : List Unknown}
    (h : e.Replaced e' xs) (havoids : Avoids pattern.identifiers xs)
    (hs : Arm.AllReplaced arms arms' ys) :
    Arm.AllReplaced (⟨o, pattern, e⟩ :: arms) (⟨o, pattern, e'⟩ :: arms') (xs ++ ys)

/-- The same for blocks. -/
inductive Block.Replaced : Block → Block → List Unknown → Prop
  | mk (o : Origin) {ss ss' : List Stmt} {xs : List Unknown} (h : Stmt.AllReplaced ss ss' xs) :
    Block.Replaced ⟨o, ss⟩ ⟨o, ss'⟩ xs

/-- The same for statements in a body. Declarations have no place there. -/
inductive Stmt.Replaced : Stmt → Stmt → List Unknown → Prop
  | bindName (o : Origin) (name : Name) (isMutable : Bool) (annot : Option TyExpr) {e e' : Expr}
    {xs : List Unknown} (h : e.Replaced e' xs) :
    Stmt.Replaced (.bindName o name isMutable annot e) (.bindName o name isMutable annot e') xs
  | assign (o : Origin) (target : Name) {e e' : Expr} {xs : List Unknown} (h : e.Replaced e' xs) :
    Stmt.Replaced (.assign o target e) (.assign o target e') xs
  | expr (o : Origin) {e e' : Expr} {xs : List Unknown} (h : e.Replaced e' xs) :
    Stmt.Replaced (.expr o e) (.expr o e') xs
  | print (o : Origin) {e e' : Expr} {xs : List Unknown} (h : e.Replaced e' xs) :
    Stmt.Replaced (.print o e) (.print o e') xs
  | ret (o : Origin) : Stmt.Replaced (.ret o none) (.ret o none) []
  | retValue (o : Origin) {e e' : Expr} {xs : List Unknown} (h : e.Replaced e' xs) :
    Stmt.Replaced (.ret o (some e)) (.ret o (some e')) xs
  | block {b b' : Block} {xs : List Unknown} (h : b.Replaced b' xs) :
    Stmt.Replaced (.block b) (.block b') xs
  | whileLoop (o : Origin) {cond cond' : Expr} {b b' : Block} {xs ys : List Unknown}
    (hcond : cond.Replaced cond' xs) (hbody : b.Replaced b' ys) :
    Stmt.Replaced (.whileLoop o cond b) (.whileLoop o cond' b') (xs ++ ys)
  | forLoop (o : Origin) (item : Name) {e e' : Expr} {b b' : Block} {xs ys : List Unknown}
    (hiterable : e.Replaced e' xs)
    (hbody : b.Replaced b' ys) (havoids : Avoids [item.text] ys) :
    Stmt.Replaced (.forLoop o item e b) (.forLoop o item e' b') (xs ++ ys)
  | breakLoop (o : Origin) : Stmt.Replaced (.breakLoop o) (.breakLoop o) []
  | continueLoop (o : Origin) : Stmt.Replaced (.continueLoop o) (.continueLoop o) []

/-- The same for lists of statements. A statement may declare a name for those that follow. -/
inductive Stmt.AllReplaced : List Stmt → List Stmt → List Unknown → Prop
  | nil : Stmt.AllReplaced [] [] []
  | cons {s s' : Stmt} {ss ss' : List Stmt} {xs ys : List Unknown} (h : s.Replaced s' xs)
    (hs : Stmt.AllReplaced ss ss' ys) (havoids : Avoids s.identifiers ys) :
    Stmt.AllReplaced (s :: ss) (s' :: ss') (xs ++ ys)

end

/-- A tree without a jump has no `return`. -/
theorem returns_of_jumps {nodes : List Node} (h : jumps nodes = false) : returns nodes = false := by
  induction nodes with
  | nil => rfl
  | cons n nodes ih =>
    rw [jumps_cons, Bool.or_eq_false_iff] at h
    rw [returns_cons, ih h.2]
    unfold Node.isReturn
    split
    · cases h.1
    · rfl

variable {xs : List Unknown}

/-- An expression is replaced as a whole or in parts. -/
theorem Expr.Replaced.whole_or_parts {e e' : Expr} (h : e.Replaced e' xs) :
    (∃ x, x.range = e.range ∧ jumps (e.nodes false) = false ∧ e' = .name x ∧ xs = [⟨x, false⟩]) ∨
      e.PartsReplaced e' xs := by
  cases h with
  | whole hrange hjumps => exact .inl ⟨_, hrange, hjumps, rfl, rfl⟩
  | parts h => exact .inr h

/-- The fields of a record expression keep their names. -/
theorem FieldInit.names_of_allReplaced (fields : List FieldInit) {fields' : List FieldInit}
    (h : FieldInit.AllReplaced fields fields' xs) :
    fields'.map (fun f => f.name.text) = fields.map fun f => f.name.text := by
  induction fields generalizing fields' xs with
  | nil =>
    cases h
    rfl
  | cons field fields ih =>
    cases h with
    | cons _ _ _ hs => rw [List.map_cons, List.map_cons, ih hs]

private theorem returns_append_congr {ns ns' ms ms' : List Node} (hns : returns ns' = returns ns)
    (hms : returns ms' = returns ms) : returns (ns' ++ ms') = returns (ns ++ ms) := by
  rw [returns_append, returns_append, hns, hms]

mutual

/-- Replacement neither adds nor takes away a `return`. An expression is no `return` itself. -/
theorem Expr.returns_of_replaced (e : Expr) {e' : Expr} {xs : List Unknown} (h : e.Replaced e' xs) :
    returns (e'.nodes false) = returns (e.nodes false) := by
  rcases h.whole_or_parts with ⟨x, -, hjumps, rfl, -⟩ | h
  · exact (returns_of_jumps hjumps).symm
  · match e, h with
    | .literal .., .literal .. | .name _, .name _ | .channel .., .channel .. | .lambda ..,
      .lambda .. => rfl
    | .binary _ _ left right, .binary _ _ hleft hright | .index _ left right, .index _ hleft hright =>
      exact (returns_append_congr (left.returns_of_replaced hleft)
        (right.returns_of_replaced hright) :)
    | .unary _ _ e, .unary _ _ h | .field _ e _, .field _ _ h | .par _ e, .par _ h =>
      exact (e.returns_of_replaced h :)
    | .call _ callee _ args, .call _ _ hcallee hargs =>
      exact (returns_append_congr (callee.returns_of_replaced (.parts hcallee))
        (Expr.returns_of_allReplaced args hargs) :)
    | .call _ callee _ args, .callee _ _ _ _ hjumps hargs =>
      simp only [Expr.nodes, returns_cons, returns_append, returns_of_jumps hjumps,
        Expr.returns_of_allReplaced args hargs]
      rfl
    | .record _ _ _ fields, .record _ _ _ h => exact FieldInit.returns_of_allReplaced fields h
    | .tuple _ es, .tuple _ h | .list _ es, .list _ h => exact Expr.returns_of_allReplaced es h
    | .map _ entries, .map _ h => exact MapEntry.returns_of_allReplaced entries h
    | .ifElse _ cond thenBranch none, .ifOnly _ hcond hthen =>
      exact (returns_append_congr (cond.returns_of_replaced hcond)
        (thenBranch.returns_of_replaced hthen) :)
    | .ifElse _ cond thenBranch (some elseBranch), .ifElse _ hcond hthen helse =>
      exact (returns_append_congr (returns_append_congr (cond.returns_of_replaced hcond)
        (thenBranch.returns_of_replaced hthen)) (elseBranch.returns_of_replaced helse) :)
    | .block b, .block h | .spawn _ b, .spawn _ h | .scope _ b, .scope _ h =>
      exact b.returns_of_replaced h
    | .matchOn _ scrutinee arms, .matchOn _ hscrutinee harms =>
      exact (returns_append_congr (scrutinee.returns_of_replaced hscrutinee)
        (Arm.returns_of_allReplaced arms harms) :)

theorem Expr.returns_of_allReplaced (es : List Expr) {es' : List Expr} {xs : List Unknown}
    (h : Expr.AllReplaced es es' xs) :
    returns (Expr.allNodes false es') = returns (Expr.allNodes false es) := by
  match es, h with
  | [], .nil => rfl
  | e :: es, .cons h hs =>
    exact returns_append_congr (e.returns_of_replaced h) (Expr.returns_of_allReplaced es hs)

theorem FieldInit.returns_of_allReplaced (fields : List FieldInit) {fields' : List FieldInit}
    {xs : List Unknown}
    (h : FieldInit.AllReplaced fields fields' xs) :
    returns (FieldInit.allNodes false fields') = returns (FieldInit.allNodes false fields) := by
  match fields, h with
  | [], .nil => rfl
  | ⟨_, _, e⟩ :: fields, .cons _ _ h hs =>
    exact returns_append_congr (e.returns_of_replaced h) (FieldInit.returns_of_allReplaced fields hs)

theorem MapEntry.returns_of_allReplaced (entries : List MapEntry) {entries' : List MapEntry}
    {xs : List Unknown}
    (h : MapEntry.AllReplaced entries entries' xs) :
    returns (MapEntry.allNodes false entries') = returns (MapEntry.allNodes false entries) := by
  match entries, h with
  | [], .nil => rfl
  | ⟨_, key, value⟩ :: entries, .cons _ hkey hvalue hs =>
    exact returns_append_congr
      (returns_append_congr (key.returns_of_replaced hkey) (value.returns_of_replaced hvalue))
      (MapEntry.returns_of_allReplaced entries hs)

theorem Arm.returns_of_allReplaced (arms : List Arm) {arms' : List Arm} {xs : List Unknown}
    (h : Arm.AllReplaced arms arms' xs) :
    returns (Arm.allNodes false arms') = returns (Arm.allNodes false arms) := by
  match arms, h with
  | [], .nil => rfl
  | ⟨_, _, e⟩ :: arms, .cons _ _ h _ hs =>
    exact returns_append_congr (e.returns_of_replaced h) (Arm.returns_of_allReplaced arms hs)

theorem Block.returns_of_replaced (b : Block) {b' : Block} {xs : List Unknown} (h : b.Replaced b' xs) :
    returns (b'.nodes false) = returns (b.nodes false) := by
  match b, h with
  | ⟨_, ss⟩, .mk _ h => exact Stmt.returns_of_allReplaced ss h

theorem Stmt.returns_of_replaced (s : Stmt) {s' : Stmt} {xs : List Unknown} (h : s.Replaced s' xs) :
    returns (s'.nodes false) = returns (s.nodes false) := by
  match s, h with
  | .bindName _ _ _ _ e, .bindName _ _ _ _ h | .assign _ _ e, .assign _ _ h | .expr _ e, .expr _ h
  | .print _ e, .print _ h => exact e.returns_of_replaced h
  | .ret _ (some _), .retValue _ _ | .ret _ none, .ret _ | .breakLoop _, .breakLoop _
  | .continueLoop _, .continueLoop _ => rfl
  | .block b, .block h => exact b.returns_of_replaced h
  | .whileLoop _ cond b, .whileLoop _ hcond hbody =>
    exact (returns_append_congr (cond.returns_of_replaced hcond) (b.returns_of_replaced hbody) :)
  | .forLoop _ _ iterable b, .forLoop _ _ hiterable hbody _ =>
    exact (returns_append_congr (iterable.returns_of_replaced hiterable)
      (b.returns_of_replaced hbody) :)

theorem Stmt.returns_of_allReplaced (ss : List Stmt) {ss' : List Stmt} {xs : List Unknown}
    (h : Stmt.AllReplaced ss ss' xs) :
    returns (Stmt.allNodes false ss') = returns (Stmt.allNodes false ss) := by
  match ss, h with
  | [], .nil => rfl
  | s :: ss, .cons h hs _ =>
    exact returns_append_congr (s.returns_of_replaced h) (Stmt.returns_of_allReplaced ss hs)

end

/-! ## Files -/

/-- The second file is the first one with parts replaced by names: by those of the first list in the
bodies of its functions, and by those of the second list in its other statements. What is declared
at the top level stays as it is. -/
inductive Stmt.FileReplaced : List Stmt → List Stmt → List Unknown → List Unknown → Prop
  | nil : Stmt.FileReplaced [] [] [] []
  | record (o : Origin) (name : Name) (tyParams : List Name) (fields : List FieldDecl)
    {ss ss' : List Stmt}
    {xs ys : List Unknown} (hs : Stmt.FileReplaced ss ss' xs ys) :
    Stmt.FileReplaced (.record o name tyParams fields :: ss) (.record o name tyParams fields :: ss')
      xs ys
  | sum (o : Origin) (name : Name) (tyParams : List Name) (variants : List VariantDecl)
    {ss ss' : List Stmt}
    {xs ys : List Unknown} (hs : Stmt.FileReplaced ss ss' xs ys) :
    Stmt.FileReplaced (.sum o name tyParams variants :: ss) (.sum o name tyParams variants :: ss')
      xs ys
  | fn (o : Origin) (name : Name) (tyParams : List Name) (params : List Param) (ret : Option TyExpr)
    {body body' : Block} {ss ss' : List Stmt} {xs ys zs : List Unknown} (h : body.Replaced body' xs)
    (havoids : Avoids (params.map fun p => p.name.text) xs) (hs : Stmt.FileReplaced ss ss' ys zs) :
    Stmt.FileReplaced (.fn o name tyParams params ret body :: ss)
      (.fn o name tyParams params ret body' :: ss') (xs ++ ys) zs
  | stmt {s s' : Stmt} {ss ss' : List Stmt} {xs ys zs : List Unknown} (h : s.Replaced s' ys)
    (hs : Stmt.FileReplaced ss ss' xs zs) (havoids : Avoids s.identifiers zs) :
    Stmt.FileReplaced (s :: ss) (s' :: ss') xs (ys ++ zs)

theorem Stmt.isDeclaration_of_replaced {s s' : Stmt} (h : s.Replaced s' xs) :
    s.isDeclaration = false ∧ s'.isDeclaration = false := by
  cases h <;> exact ⟨rfl, rfl⟩

/-- The statements of a file that are no declarations. -/
theorem Stmt.FileReplaced.stmts {ss ss' : List Stmt} {ys : List Unknown}
    (h : Stmt.FileReplaced ss ss' xs ys) :
    Stmt.AllReplaced (ss.filter fun s => !s.isDeclaration) (ss'.filter fun s => !s.isDeclaration)
      ys := by
  induction h with
  | nil => exact .nil
  | record _ _ _ _ _ ih | sum _ _ _ _ _ ih | fn _ _ _ _ _ _ _ _ ih => exact ih
  | stmt h hs havoids ih =>
    obtain ⟨hs, hs'⟩ := Stmt.isDeclaration_of_replaced h
    rw [List.filter_cons_of_pos (by simp [hs]), List.filter_cons_of_pos (by simp [hs'])]
    exact .cons h ih havoids

/-- The nodes of some of the statements. -/
theorem Stmt.mem_allNodes_of_filter {deep : Bool} {p : Stmt → Bool} {n : Node} {ss : List Stmt}
    (h : n ∈ Stmt.allNodes deep (ss.filter p)) : n ∈ Stmt.allNodes deep ss := by
  induction ss with
  | nil => exact h
  | cons s ss ih =>
    by_cases hs : p s = true
    · rw [List.filter_cons_of_pos hs] at h
      exact List.mem_append.mpr ((List.mem_append.mp h).imp_right ih)
    · rw [List.filter_cons_of_neg hs] at h
      exact List.mem_append_right _ (ih h)

end Bindery.Ast
