import IcFront.Proofs.Moved
import IcFront.Proofs.Superclasses

/-!
# Where names are looked up

A *site* is a place in a program where names can stand: the program itself, a class, a
method, or a block in the body of a method. `Program.sites` lists the sites in document
order, and `Site.path` says where the names at a site are looked up: in the block and the
blocks around it, from the inside out, in the method, in the class, in its superclasses,
the nearest first, and at last among the classes of the program. A place on the path is a
`Frame`, the key of a scope with the declarations that the scope is asked to hold.

Blocks are found on the syntax tree (`Stmt.nests`), and superclasses in the graph of the
superclasses accepted (`Program.lineage`).
-/

namespace IcFront

variable {ε : Type}

/-- A place to look a name up in: the key of a scope, and what it is asked to hold. -/
structure Frame where
  key : Nat
  declarations : List Declaration

/-- What a place declares under a name: of the declarations kept there, the one that has
the name. -/
def Frame.find? (declared : List String) (f : Frame) (n : String) : Option Declaration :=
  (kept declared f.declarations).find? (·.name == n)

/-! ## Blocks -/

mutual

/-- The blocks in a statement in document order, the first of them at `key`, each with the
blocks around it from the inside out. -/
def Stmt.nests (around : List Frame) (key : Nat) : Stmt ε → List (Frame × List Frame)
  | .block body _ _ =>
    let b : Frame := ⟨key, body.flatMap Stmt.locals⟩
    (b, around) :: nestsOf (b :: around) (key + 1) body
  | .ifThen _ body _ => body.nests around key
  | .ifElse _ body otherwise _ =>
    body.nests around key ++ otherwise.nests around (key + Outline.sizes body.blocks)
  | .while_ _ body _ => body.nests around key
  | .assign .. | .call .. | .return_ .. | .break_ _ | .continue_ _ | .localVar .. => []

/-- The blocks in statements, with the blocks around them. -/
def Stmt.nestsOf (around : List Frame) (key : Nat) : List (Stmt ε) → List (Frame × List Frame)
  | [] => []
  | s :: ss => s.nests around key ++ nestsOf around (key + Outline.sizes s.blocks) ss

end

/-! ## Methods, classes and the program -/

/-- The place of a method: its parameters and the local variables of its body. -/
def Method.frame (key : Nat) (m : Method ε) : Frame :=
  ⟨key, m.formals.map Formal.declaration ++ m.form.body.flatMap Stmt.locals⟩

/-- The place of a class: its fields and methods. -/
def ClassDecl.frame (key : Nat) (c : ClassDecl ε) : Frame :=
  ⟨key, c.fields.map Field.declaration ++ c.methods.map Method.declaration⟩

/-- The place of a program: its classes. -/
def Program.frame (p : Program ε) : Frame := ⟨0, p.classes.map ClassDecl.declaration⟩

/-- The place of the class at a position. -/
def Program.classFrame? (p : Program ε) (i : Nat) : Option Frame :=
  p.classes[i]?.map (·.frame (p.classKey i))

/-- The superclasses of the class at a position, the nearest first, as far as they are
accepted. -/
def Program.lineage (p : Program ε) (i : Nat) : List Nat :=
  chain (accepted p.superclass?) p.classes.length i

/-- The places to look a name up in from a class. -/
def Program.classPath (p : Program ε) (i : Nat) : List Frame :=
  (i :: p.lineage i).filterMap p.classFrame? ++ [p.frame]

/-! ## Sites -/

/-- A place in a program where names can stand. Classes are given by their positions,
methods with the keys of their scopes. -/
inductive Site (ε : Type)
  | program
  | class_ (i : Nat)
  | method (i : Nat) (key : Nat) (m : Method ε)
  /-- A block in the body of a method, with the blocks around it. -/
  | block (i : Nat) (key : Nat) (m : Method ε) (b : Frame) (around : List Frame)

/-- A method and the blocks in its body. -/
def Method.sites (i key : Nat) (m : Method ε) : List (Site ε) :=
  .method i key m :: (Stmt.nestsOf [] (key + 1) m.form.body).map fun n => .block i key m n.1 n.2

/-- Methods and their blocks, the first method at `key`. -/
def Method.sitesOf (i key : Nat) : List (Method ε) → List (Site ε)
  | [] => []
  | m :: ms => m.sites i key ++ sitesOf i (key + m.outline.size) ms

/-- A class, and the sites in it. -/
def ClassDecl.sites (i key : Nat) (c : ClassDecl ε) : List (Site ε) :=
  .class_ i :: Method.sitesOf i (key + 1) c.methods

/-- The sites of a program in document order. -/
def Program.sites (p : Program ε) : List (Site ε) :=
  .program :: p.classes.zipIdx.flatMap fun c => c.1.sites c.2 (p.classKey c.2)

namespace Site

/-- The key of the scope of a site. -/
def key (p : Program ε) : Site ε → Nat
  | program => 0
  | class_ i => p.classKey i
  | method _ key _ => key
  | block _ _ _ b _ => b.key

/-- The places to look a name up in from a site, the nearest first. -/
def path (p : Program ε) : Site ε → List Frame
  | program => [p.frame]
  | class_ i => p.classPath i
  | method i key m => m.frame key :: p.classPath i
  | block i key m b around => b :: around ++ m.frame key :: p.classPath i

/-- The key of the method that a site is or lies in. -/
def method? : Site ε → Option Nat
  | program | class_ _ => none
  | method _ key _ | block _ key _ _ _ => some key

/-- The name of a site. Blocks have none. -/
def title (p : Program ε) (name : String) : Site ε → String
  | program => name
  | class_ i => (p.declared[i]?).getD ""
  | method _ _ m => m.name
  | block .. => ""

/-- What a site is called in a list of scopes: by its name, or by that of the method that
it lies in. -/
def label (p : Program ε) (name : String) : Site ε → String
  | block _ _ m _ _ => "statement block in " ++ m.name
  | site => site.title p name

/-- The heading of a site in a listing. A block says what it lies in, the method itself or
another block of it. -/
def heading (p : Program ε) (name : String) : Site ε → String
  | program => ScopeKind.global.text ++ " Symbol Table: " ++ name
  | class_ i => ScopeKind.class_.text ++ " Symbol Table: " ++ (class_ i : Site ε).title p name
  | method _ _ m => ScopeKind.method.text ++ " Symbol Table: " ++ m.name
  | block _ _ m _ around =>
    let place := if around.isEmpty then m.name else "statement block in " ++ m.name
    "Statement Block Symbol Table ( located in " ++ place ++ " )"

end Site

/-! ## Keys of sites -/

namespace Outline

theorem sizes_append (os os' : List Outline) : sizes (os ++ os') = sizes os + sizes os' := by
  induction os with
  | nil => rw [List.nil_append, sizes, Nat.zero_add]
  | cons o os ih => rw [List.cons_append, sizes, sizes, ih, Nat.add_assoc]

theorem placed_append (outer : Option Nat) (key : Nat) (os os' : List Outline) :
    placed outer key (os ++ os') = placed outer key os ++ placed outer (key + sizes os) os' := by
  rw [placed, regionsOf_append, List.zipIdx_append, length_regionsOf, placed, placed]

end Outline

open Outline

mutual

theorem Stmt.nests_keys (around : List Frame) (key : Nat) :
    ∀ s : Stmt ε, (s.nests around key).map (·.1.key) = List.range' key (sizes s.blocks)
  | .block body _ _ => by
    rw [nests, List.map_cons, nestsOf_keys _ (key + 1) body, blocks, sizes, sizes, Nat.add_zero,
      size, List.range'_succ]
  | .ifThen _ body _ => by rw [nests, blocks, nests_keys around key body]
  | .ifElse _ body otherwise _ => by
    rw [nests, blocks, List.map_append, nests_keys around key body, nests_keys _ _ otherwise,
      sizes_append, List.range'_append_1]
  | .while_ _ body _ => by rw [nests, blocks, nests_keys around key body]
  | .assign .. | .call .. | .return_ .. | .break_ _ | .continue_ _ | .localVar .. => by
    rw [nests, blocks]
    · rfl
    all_goals simp

theorem Stmt.nestsOf_keys (around : List Frame) (key : Nat) :
    ∀ ss : List (Stmt ε),
      (nestsOf around key ss).map (·.1.key) = List.range' key (sizes (blocksOf ss))
  | [] => rfl
  | s :: ss => by
    rw [nestsOf, blocksOf, List.map_append, nests_keys around key s, nestsOf_keys _ _ ss,
      sizes_append, List.range'_append_1]

end

section Keys

variable (p : Program ε) (i key : Nat)

theorem Method.sites_keys (m : Method ε) :
    (m.sites i key).map (Site.key p) = List.range' key m.outline.size := by
  rw [sites, List.map_cons, List.map_map, outline, size, List.range'_succ]
  exact congrArg (key :: ·) (Stmt.nestsOf_keys [] (key + 1) m.form.body)

theorem Method.sitesOf_keys (ms : List (Method ε)) :
    (sitesOf i key ms).map (Site.key p) = List.range' key (sizes (ms.map outline)) := by
  induction ms generalizing key with
  | nil => rfl
  | cons m ms ih =>
    rw [sitesOf, List.map_append, m.sites_keys, ih, List.map_cons, sizes, List.range'_append_1]

theorem ClassDecl.sites_keys (c : ClassDecl ε) :
    (c.sites i (p.classKey i)).map (Site.key p) = List.range' (p.classKey i) c.outline.size := by
  rw [sites, List.map_cons, Method.sitesOf_keys, outline, size, List.range'_succ]
  rfl

/-- The sites of classes have the keys from that of the first class on. -/
theorem Program.classSites_keys (cs : List (ClassDecl ε))
    (h : p.classKeys.drop i = keys key (cs.map ClassDecl.outline)) :
    ((cs.zipIdx i).flatMap fun c => c.1.sites c.2 (p.classKey c.2)).map (Site.key p) =
      List.range' key (sizes (cs.map ClassDecl.outline)) := by
  induction cs generalizing i key with
  | nil => rfl
  | cons c cs ih =>
    rw [List.map_cons, keys] at h
    have hkey : p.classKey i = key := by
      rw [classKey, List.getD_eq_getElem?_getD, ← Nat.add_zero i, ← List.getElem?_drop, h]
      rfl
    have hrest : p.classKeys.drop (i + 1) =
        keys (key + c.outline.size) (cs.map ClassDecl.outline) := by
      rw [← List.drop_drop, h]
      rfl
    rw [List.zipIdx_cons, List.flatMap_cons, List.map_append, ih _ _ hrest, c.sites_keys, hkey,
      List.map_cons, sizes, List.range'_append_1]

/-- The position of a site in document order is the key of its scope. -/
theorem Program.sites_keys :
    p.sites.map (Site.key p) = List.range (sizes (p.classes.map ClassDecl.outline) + 1) := by
  rw [sites, List.map_cons, p.classSites_keys 0 1 p.classes rfl, List.range_eq_range',
    List.range'_succ]
  rfl

end Keys

/-! ## Sites and regions -/

/-- Whether a place is that of a region of a program, of a given kind and name, and lies in
a given region. -/
def Frame.Stands (p : Program ε) (name : String) (kind : ScopeKind) (title : String)
    (outer : Option Nat) (f : Frame) : Prop :=
  ∃ inner, (⟨kind, title, f.declarations, outer, inner⟩, f.key) ∈ p.loose name

/-- The key of the innermost of places, or of the scope that they lie in. -/
def Frame.innermost (o : Nat) (fs : List Frame) : Nat := (fs.head?.map Frame.key).getD o

namespace Program

variable (p : Program ε) (name : String)

/-- Whether places are those of blocks, each directly inside the next, and the last of them
in a given scope. -/
def BlocksIn (o : Nat) : List Frame → Prop
  | [] => True
  | b :: around =>
    b.Stands p name .block "" (some (Frame.innermost o around)) ∧ BlocksIn o around

end Program

namespace Site

/-- Whether a site is in a program what it says, by the regions of the program. -/
def Stands (p : Program ε) (name : String) : Site ε → Prop
  | program => True
  | class_ i => i < p.classes.length
  | method i key m =>
    i < p.classes.length ∧ (m.frame key).Stands p name .method m.name (some (p.classKey i))
  | block i key m b around =>
    i < p.classes.length ∧ (m.frame key).Stands p name .method m.name (some (p.classKey i)) ∧
      p.BlocksIn name key (b :: around)

end Site

section Stands

variable {p : Program ε} {name : String} {i o key : Nat}

mutual

/-- The blocks in a statement lie where the regions of its blocks do. -/
theorem Stmt.nests_blocksIn {around : List Frame} {key : Nat}
    (haround : p.BlocksIn name o around) :
    ∀ s : Stmt ε,
      (∀ x ∈ placed (some (Frame.innermost o around)) key s.blocks, x ∈ p.loose name) →
        ∀ n ∈ s.nests around key, p.BlocksIn name o (n.1 :: n.2)
  | .block body _ _ => by
    intro h n hn
    rw [blocks, placed_region_cons] at h
    rw [nests, List.mem_cons] at hn
    have hblock : p.BlocksIn name o (⟨key, body.flatMap Stmt.locals⟩ :: around) :=
      ⟨⟨_, h _ List.mem_cons_self⟩, haround⟩
    rcases hn with rfl | hinner
    · exact hblock
    · refine nestsOf_blocksIn hblock body (fun x hx => h x ?_) n hinner
      exact List.mem_cons_of_mem _ (List.mem_append_left _ hx)
  | .ifThen _ body _ => by
    intro h n hn
    rw [blocks] at h
    rw [nests] at hn
    exact nests_blocksIn haround body h n hn
  | .ifElse _ body otherwise _ => by
    intro h n hn
    rw [blocks, placed_append] at h
    rw [nests, List.mem_append] at hn
    rcases hn with hbody | hotherwise
    · exact nests_blocksIn haround body (fun x hx => h x (List.mem_append_left _ hx)) n hbody
    · exact nests_blocksIn haround otherwise (fun x hx => h x (List.mem_append_right _ hx)) n
        hotherwise
  | .while_ _ body _ => by
    intro h n hn
    rw [blocks] at h
    rw [nests] at hn
    exact nests_blocksIn haround body h n hn
  | .assign .. | .call .. | .return_ .. | .break_ _ | .continue_ _ | .localVar .. => by
    intro _ n hn
    rw [nests] at hn
    exact absurd hn List.not_mem_nil

theorem Stmt.nestsOf_blocksIn {around : List Frame} {key : Nat}
    (haround : p.BlocksIn name o around) :
    ∀ ss : List (Stmt ε),
      (∀ x ∈ placed (some (Frame.innermost o around)) key (blocksOf ss), x ∈ p.loose name) →
        ∀ n ∈ nestsOf around key ss, p.BlocksIn name o (n.1 :: n.2)
  | [] => fun _ _ hn => absurd hn List.not_mem_nil
  | s :: ss => by
    intro h n hn
    rw [blocksOf, placed_append] at h
    rw [nestsOf, List.mem_append] at hn
    rcases hn with hfirst | hrest
    · exact nests_blocksIn haround s (fun x hx => h x (List.mem_append_left _ hx)) n hfirst
    · exact nestsOf_blocksIn haround ss (fun x hx => h x (List.mem_append_right _ hx)) n hrest

end

theorem Method.sitesOf_stand (hi : i < p.classes.length) (ms : List (Method ε))
    (h : ∀ x ∈ placed (some (p.classKey i)) key (ms.map outline), x ∈ p.loose name) :
    ∀ s ∈ sitesOf i key ms, s.Stands p name := by
  induction ms generalizing key with
  | nil => exact fun _ hs => absurd hs List.not_mem_nil
  | cons m ms ih =>
    intro s hs
    rw [List.map_cons, outline, placed_region_cons] at h
    rw [sitesOf, List.mem_append, sites, List.mem_cons] at hs
    have hmethod : (m.frame key).Stands p name .method m.name (some (p.classKey i)) :=
      ⟨_, h _ List.mem_cons_self⟩
    rcases hs with (rfl | hblock) | hrest
    · exact ⟨hi, hmethod⟩
    · obtain ⟨n, hn, rfl⟩ := List.mem_map.mp hblock
      have hnone : p.BlocksIn name key [] := trivial
      refine ⟨hi, hmethod, Stmt.nestsOf_blocksIn hnone m.form.body (fun x hx => h x ?_) n hn⟩
      exact List.mem_cons_of_mem _ (List.mem_append_left _ hx)
    · refine ih (fun x hx => h x ?_) s hrest
      exact List.mem_cons_of_mem _ (List.mem_append_right _ hx)

/-- The regions of a class lie from the key of the class on. -/
theorem Program.mem_loose_of_class {c : ClassDecl ε} (hc : p.classes[i]? = some c)
    {x : Region × Nat}
    (hx : x ∈ (c.outline.regions none (p.classKey i)).zipIdx (p.classKey i)) :
    x ∈ p.loose name := by
  refine List.mem_cons_of_mem _ (mem_placed_iff.mpr ⟨i, c.outline, p.classKey i, ?_, ?_, hx⟩)
  · rw [List.getElem?_map, hc, Option.map_some]
  · exact p.getElem?_classKeys (List.getElem?_eq_some_iff.mp hc).1

theorem ClassDecl.frame_stands {c : ClassDecl ε} (hc : p.classes[i]? = some c) :
    (c.frame (p.classKey i)).Stands p name .class_ c.name none :=
  ⟨_, Program.mem_loose_of_class hc List.mem_cons_self⟩

theorem Program.frame_stands (p : Program ε) (name : String) :
    p.frame.Stands p name .global name none := ⟨_, List.mem_cons_self⟩

theorem ClassDecl.sites_stand {c : ClassDecl ε} (hc : p.classes[i]? = some c) :
    ∀ s ∈ c.sites i (p.classKey i), s.Stands p name := by
  intro s hs
  have hi : i < p.classes.length := (List.getElem?_eq_some_iff.mp hc).1
  rcases List.mem_cons.mp hs with rfl | hmethods
  · exact hi
  · refine Method.sitesOf_stand hi c.methods (fun x hx => ?_) s hmethods
    exact Program.mem_loose_of_class hc (List.mem_cons_of_mem _ hx)

/-- Every site of a program stands where it says. -/
theorem Program.sites_stand (p : Program ε) (name : String) :
    ∀ s ∈ p.sites, s.Stands p name := by
  intro s hs
  rcases List.mem_cons.mp hs with rfl | hclass
  · trivial
  · obtain ⟨⟨c, i⟩, hc, hs⟩ := List.mem_flatMap.mp hclass
    exact ClassDecl.sites_stand (List.mk_mem_zipIdx_iff_getElem?.mp hc) s hs

end Stands

end IcFront
