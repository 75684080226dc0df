import IcFront.Scopes.Arena
import IcFront.Tables.Diagnostic
import IcFront.Types.Table
import Mathlib.Data.List.Basic

/-!
# The outline of a program

What a program declares and where, read off its syntax tree alone. A *region* is
a part of a program that opens a scope: the program itself, a class, a method or
a statement block. `Program.regions` lists the regions in document order, each
with its declarations in source order, the position of the region around it
(`outer`) and the positions of those directly inside it (`inner`).

A statement block declares the local variables that stand in it, also those in
the branches of its conditionals and loops, but not those of the blocks inside
it; and likewise the body of a method (`Stmt.locals`).

Which declarations of a region count is said by `kept`: those whose types are
known (`Declaration.resolvable`), and of several with one name the first
(`firstWins`).
-/

namespace IcFront

variable {α β ε : Type}

/-! ## The first of each name -/

/-- What is kept, with one more unless something kept has its name already. -/
def keepFirst (name : α → String) (kept : List α) (x : α) : List α :=
  if kept.any (name · == name x) then kept else kept ++ [x]

/-- The first of each name, in order. -/
def firstWins (name : α → String) (xs : List α) : List α := xs.foldl (keepFirst name) []

/-- Of two things of one name it does not matter which one is dropped. -/
theorem keepFirst_congr {name : α → String} {kept : List α} {x y : α} (hname : name x = name y)
    (h : kept.any (name · == name x) = false → x = y) :
    keepFirst name kept x = keepFirst name kept y := by
  unfold keepFirst
  rw [← hname]
  split
  next => rfl
  next hfree => rw [h (Bool.eq_false_iff.mpr hfree)]

/-- Whatever is kept or dropped, the names met stay the same. -/
theorem any_foldl_keepFirst (name : α → String) (n : String) (kept xs : List α) :
    (xs.foldl (keepFirst name) kept).any (name · == n) = (kept ++ xs).any (name · == n) := by
  induction xs generalizing kept with
  | nil => rw [List.foldl_nil, List.append_nil]
  | cons x xs ih =>
    rw [List.foldl_cons, ih, keepFirst]
    split
    next h =>
      obtain ⟨y, hy, hname⟩ := List.any_eq_true.mp h
      have hyx : name y = name x := eq_of_beq hname
      by_cases hn : name x = n
      · have hleft : kept.any (name · == n) = true :=
          List.any_eq_true.mpr ⟨y, hy, by rw [hyx, hn]; exact beq_self_eq_true n⟩
        simp [hleft]
      · simp [beq_eq_false_iff_ne.mpr hn]
    next => simp

/-- Keeping looks at names only. -/
theorem foldl_keepFirst_map (nameA : α → String) (nameB : β → String) (f : α → β)
    (hf : ∀ x, nameB (f x) = nameA x) (kept xs : List α) :
    (xs.map f).foldl (keepFirst nameB) (kept.map f) =
      (xs.foldl (keepFirst nameA) kept).map f := by
  induction xs generalizing kept with
  | nil => rfl
  | cons x xs ih =>
    have hstep : keepFirst nameB (kept.map f) (f x) = (keepFirst nameA kept x).map f := by
      simp only [keepFirst, List.any_map, Function.comp_def, hf]
      split
      next => rfl
      next => rw [List.map_append, List.map_singleton]
    rw [List.map_cons, List.foldl_cons, List.foldl_cons, hstep, ih]

/-- Which names are kept can be told from the names. -/
theorem map_foldl_keepFirst (name : α → String) (kept xs : List α) :
    (xs.foldl (keepFirst name) kept).map name =
      (xs.map name).foldl (keepFirst id) (kept.map name) :=
  (foldl_keepFirst_map name id name (fun _ => rfl) kept xs).symm

/-! ## Declarations -/

/-- What a name is declared as. -/
inductive DeclaredType
  | class_
  | value (type : TypeRef)
  | method (result : TypeRef) (parameters : List TypeRef)
  deriving DecidableEq, Repr

/-- The types that a declared type spells. -/
def DeclaredType.types : DeclaredType → List TypeRef
  | class_ => []
  | value type => [type]
  | method result parameters => result :: parameters

/-- A declaration as it is written. -/
structure Declaration where
  name : String
  kind : SymbolKind
  line : Int
  type : DeclaredType
  deriving DecidableEq, Repr

/-- Whether the base of a type is primitive or one of the classes declared. -/
def TypeRef.isKnown (declared : List String) (type : TypeRef) : Bool :=
  match type.base with
  | .primitive _ => true
  | .user className => declared.contains className

/-- What is wrong with a type written at a line: that it is not known. -/
def TypeRef.undefined? (declared : List String) (line : Int) (type : TypeRef) :
    Option Diagnostic :=
  if type.isKnown declared then none else some ⟨.undefinedClass type.base.name, line⟩

/-- Whether all types of a declaration are known. -/
def Declaration.resolvable (declared : List String) (x : Declaration) : Bool :=
  x.type.types.all (·.isKnown declared)

/-- The declarations that a scope keeps of those it is asked to hold, in order. -/
def kept (declared : List String) (xs : List Declaration) : List Declaration :=
  firstWins (·.name) (xs.filter (·.resolvable declared))

theorem kept_append (declared : List String) (xs ys : List Declaration) :
    kept declared (xs ++ ys) =
      (ys.filter (·.resolvable declared)).foldl (keepFirst (·.name)) (kept declared xs) := by
  rw [kept, firstWins, List.filter_append, List.foldl_append]
  rfl

/-- The declaration of a field. -/
def Field.declaration (f : Field) : Declaration := ⟨f.name, .field, f.line, .value f.type⟩

/-- The declaration of a parameter. -/
def Formal.declaration (f : Formal) : Declaration := ⟨f.name, .parameter, f.line, .value f.type⟩

/-- The declaration of a method. Whatever is not virtual counts as static. -/
def Method.declaration (m : Method ε) : Declaration where
  name := m.name
  kind :=
    match m.form with
    | .virtual _ => .virtualMethod
    | _ => .staticMethod
  line := m.line
  type := .method m.type (m.formals.map (·.type))

/-- The declaration of a class. -/
def ClassDecl.declaration (c : ClassDecl ε) : Declaration := ⟨c.name, .class_, c.line, .class_⟩

/-- The local variables that a statement declares for the scope it stands in. -/
def Stmt.locals : Stmt ε → List Declaration
  | .localVar type name _ line => [⟨name, .localVariable, line, .value type⟩]
  | .ifThen _ body _ => body.locals
  | .ifElse _ body otherwise _ => body.locals ++ otherwise.locals
  | .while_ _ body _ => body.locals
  | _ => []

/-! ## Outlines -/

/-- A region with all regions inside it. -/
inductive Outline
  | region (kind : ScopeKind) (name : String) (declarations : List Declaration)
      (inner : List Outline)

mutual

/-- The blocks in a statement that lie in no other block of it, in source order. -/
def Stmt.blocks : Stmt ε → List Outline
  | .block body _ _ => [.region .block "" (body.flatMap Stmt.locals) (blocksOf body)]
  | .ifThen _ body _ => body.blocks
  | .ifElse _ body otherwise _ => body.blocks ++ otherwise.blocks
  | .while_ _ body _ => body.blocks
  | _ => []

/-- The outermost blocks in statements, in source order. -/
def Stmt.blocksOf : List (Stmt ε) → List Outline
  | [] => []
  | s :: ss => s.blocks ++ blocksOf ss

end

/-- The outline of a method: its parameters and the local variables of its body. -/
def Method.outline (m : Method ε) : Outline :=
  .region .method m.name
    (m.formals.map Formal.declaration ++ m.form.body.flatMap Stmt.locals)
    (Stmt.blocksOf m.form.body)

/-- The outline of a class: its fields and methods. -/
def ClassDecl.outline (c : ClassDecl ε) : Outline :=
  .region .class_ c.name
    (c.fields.map Field.declaration ++ c.methods.map Method.declaration)
    (c.methods.map Method.outline)

/-- The outline of a program under a name: its classes. -/
def Program.outline (p : Program ε) (name : String) : Outline :=
  .region .global name (p.classes.map ClassDecl.declaration) (p.classes.map ClassDecl.outline)

/-- The names of the classes that a program declares. -/
def Program.declared (p : Program ε) : List String := p.classes.map (·.name)

/-! ## Regions in document order -/

mutual

/-- The number of regions of an outline. -/
def Outline.size : Outline → Nat
  | .region _ _ _ inner => sizes inner + 1

/-- The number of regions of outlines. -/
def Outline.sizes : List Outline → Nat
  | [] => 0
  | o :: os => o.size + sizes os

end

/-- The positions of outlines listed one after the other, the first at `key`. -/
def Outline.keys (key : Nat) : List Outline → List Nat
  | [] => []
  | o :: os => key :: keys (key + o.size) os

/-- A region on its own: what it is and declares, and its place among the others. -/
structure Region where
  kind : ScopeKind
  name : String
  declarations : List Declaration
  /-- The position of the region around it. -/
  outer : Option Nat
  /-- The positions of the regions directly inside it, in source order. -/
  inner : List Nat

/-- A region that is not inside another. -/
def Region.apart (r : Region) : Region := { r with outer := none }

mutual

/-- The regions of an outline in document order, the first of them at `key`. -/
def Outline.regions (outer : Option Nat) (key : Nat) : Outline → List Region
  | .region kind name declarations inner =>
    ⟨kind, name, declarations, outer, keys (key + 1) inner⟩ ::
      regionsOf (some key) (key + 1) inner

/-- The regions of outlines that lie side by side. -/
def Outline.regionsOf (outer : Option Nat) (key : Nat) : List Outline → List Region
  | [] => []
  | o :: os => o.regions outer key ++ regionsOf outer (key + o.size) os

end

/-- The regions of a program in document order. -/
def Program.regions (p : Program ε) (name : String) : List Region :=
  (p.outline name).regions none 0

namespace Outline

mutual

theorem length_regions (outer : Option Nat) (key : Nat) :
    ∀ o : Outline, (o.regions outer key).length = o.size
  | .region _ _ _ inner => by
    rw [regions, List.length_cons, length_regionsOf (some key) (key + 1) inner, size]

theorem length_regionsOf (outer : Option Nat) (key : Nat) :
    ∀ os : List Outline, (regionsOf outer key os).length = sizes os
  | [] => rfl
  | o :: os => by
    rw [regionsOf, List.length_append, length_regions outer key o,
      length_regionsOf outer (key + o.size) os, sizes]

end

theorem keys_append (key : Nat) (os os' : List Outline) :
    keys key (os ++ os') = keys key os ++ keys (key + sizes os) os' := by
  induction os generalizing key with
  | nil => rfl
  | cons o os ih => rw [List.cons_append, keys, keys, ih, sizes, Nat.add_assoc, List.cons_append]

theorem regionsOf_append (outer : Option Nat) (key : Nat) (os os' : List Outline) :
    regionsOf outer key (os ++ os') =
      regionsOf outer key os ++ regionsOf outer (key + sizes os) os' := by
  induction os generalizing key with
  | nil => rfl
  | cons o os ih =>
    rw [List.cons_append, regionsOf, regionsOf, ih, sizes, Nat.add_assoc, List.append_assoc]

/-- What lies around outlines does not show in what they are otherwise. -/
theorem regionsOf_apart (outer : Option Nat) (key : Nat) (os : List Outline) :
    (regionsOf outer key os).map Region.apart = (regionsOf none key os).map Region.apart := by
  induction os generalizing key with
  | nil => rfl
  | cons o os ih =>
    obtain ⟨kind, name, xs, inner⟩ := o
    rw [regionsOf, regionsOf, List.map_append, List.map_append, ih]
    rfl

end Outline

end IcFront
