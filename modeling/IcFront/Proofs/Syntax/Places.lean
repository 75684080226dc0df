import IcFront.Syntax.FromDocument
import Mathlib.Data.List.Basic

/-!
# The places of a program

A program has places for nodes of certain kinds (`Place`). What stands in a place holds
the places below it (`Place.held`), so that the places of a document are reached from the
document itself, downwards (`Stands`). A document may stand where it does not belong
(`Misplaced`), and then nothing below it is looked at.

The parameters of a method have two places. One that comes after a parameter of an
undeclared class has a place of its own (`Place.laterFormal`), since what stands there is
used as a parameter and not asked what it is.
-/

namespace IcFront

namespace Document

/-- The items of a part that is a list. -/
def items (d : Document) (name : String) : List Document :=
  match d.part? name with
  | some (.list ds) => ds
  | _ => []

/-- A part of which there is one. -/
def single (d : Document) (name : String) : List Document := (d.part? name).toList

/-- A part that stands for nothing if it is null. -/
def unlessNull (d : Document) (name : String) : List Document :=
  match d.part? name with
  | none | some .null => []
  | some e => [e]

/-- The names of the classes of a program. -/
def classNames (d : Document) : List String :=
  (d.items "classes").filterMap fun c => (c.getText "name").toOption

/-- Whether a parameter has the type of an undeclared class. -/
def isOfUndeclared (declared : List String) (d : Document) : Bool :=
  d.kind == "Formal" && (d.single "type").any fun t =>
    t.kind == "UserType" && ((t.getText "name").toOption.any fun n => !declared.contains n)

end Document

/-! ## Places -/

/-- The places of a program in which documents stand. -/
inductive Place
  | program
  | classDecl
  | field
  | method
  | formal
  | laterFormal
  | type
  | statement
  deriving DecidableEq, Repr

namespace Place

/-- The kinds of node that belong in a place. -/
def kinds : Place → List String
  | program => ["Program"]
  | classDecl => ["ICClass"]
  | field => ["Field"]
  | method => ["Method", "VirtualMethod", "StaticMethod", "LibraryMethod"]
  | formal | laterFormal => ["Formal"]
  | type => ["PrimitiveType", "UserType"]
  | statement => ["LocalVariable", "StatementsBlock", "If", "While", "Assignment",
      "CallStatement", "Return", "Break", "Continue"]

/-- The places of parameters, up to the first of an undeclared class and after it. -/
def ofFormals (declared : List String) : List Document → List (Place × Document)
  | [] => []
  | f :: fs =>
    (formal, f) ::
      if f.isOfUndeclared declared then fs.map (laterFormal, ·) else ofFormals declared fs

/-- The places below a document in a place, and what stands there. -/
def held (declared : List String) (p : Place) (d : Document) : List (Place × Document) :=
  match p with
  | program => (d.items "classes").map (classDecl, ·)
  | classDecl => (d.items "fields").map (field, ·) ++ (d.items "methods").map (method, ·)
  | method => (d.single "type").map (type, ·) ++ ofFormals declared (d.items "formals") ++
      (d.items "statements").map (statement, ·)
  | field | formal | laterFormal => (d.single "type").map (type, ·)
  | type => []
  | statement =>
    match d.kind with
    | "LocalVariable" => (d.single "type").map (type, ·)
    | "StatementsBlock" => (d.items "statements").map (statement, ·)
    | "If" => (d.single "operation" ++ d.unlessNull "else_operation").map (statement, ·)
    | "While" => (d.single "operation").map (statement, ·)
    | _ => []

/-- Whether a document in a place is looked into: it belongs there, or is not asked. -/
def Opens (p : Place) (d : Document) : Prop := d.kind ∈ p.kinds ∨ p = laterFormal

end Place

/-- A document `e` stands in a place `q` of what stands in the place `p`. -/
inductive Stands (declared : List String) : Place → Document → Place → Document → Prop
  | here (p : Place) (d : Document) : Stands declared p d p d
  | inside {p q r : Place} {d c e : Document} (hopens : p.Opens d)
      (hheld : (q, c) ∈ p.held declared d) (h : Stands declared q c r e) :
      Stands declared p d r e

instance (p : Place) (d : Document) : Decidable (p.Opens d) :=
  inferInstanceAs (Decidable (_ ∨ _))

/-- A document `e` stands in a place of the program `d`. -/
def Document.Has (d : Document) (p : Place) (e : Document) : Prop :=
  Stands d.classNames .program d p e

/-! ## What is wrong in a place -/

/-- A document does not fit its place: it is of another kind, a primitive type that there
is not, or a library method with statements. -/
inductive Misplaced : Place → Document → Prop
  | kind {p : Place} {d : Document} (h : d.kind ∉ p.kinds) : Misplaced p d
  | primitive {d : Document} {name : String} (hkind : d.kind = "PrimitiveType")
      (hname : d.part? "name" = some (.text name))
      (h : name ∉ ["int", "boolean", "string", "void"]) : Misplaced .type d
  | libraryBody {d : Document} (hkind : d.kind = "LibraryMethod")
      (h : d.items "statements" ≠ []) : Misplaced .method d

/-- A malformation that is a document in the wrong place, and not one without a part that
it needs. -/
def Malformed.IsMisplacement : Malformed → Prop
  | noPart .. => False
  | _ => True

namespace Document

/-- Whether a document is a text. -/
def isText : Document → Bool
  | text _ => true
  | _ => false

/-- Whether a document is an integer. -/
def isInt : Document → Bool
  | int _ => true
  | _ => false

/-- Whether a document is a list. -/
def isList : Document → Bool
  | list _ => true
  | _ => false

/-- Whether a document is null. -/
def isNull : Document → Bool
  | null => true
  | _ => false

/-- Whether a part of a node is there, and of the sort that its name says. The key of a
scope may be anything. -/
def partFits (name : String) (part : Option Document) : Bool :=
  match name with
  | "name" => part.any isText
  | "line" | "dimension" => part.any isInt
  | "classes" | "fields" | "methods" | "formals" | "statements" => part.any isList
  | "super_class_name" => part.any fun d => d.isNull || d.isText
  | "scope" => true
  | _ => part.isSome

variable {part : Option Document}

theorem exists_text (h : part.any isText = true) : ∃ s, part = some (.text s) := by
  obtain ⟨d, hd, htext⟩ := Option.any_eq_true _ _ |>.mp h
  cases d <;> first | exact ⟨_, hd⟩ | cases htext

theorem exists_int (h : part.any isInt = true) : ∃ n, part = some (.int n) := by
  obtain ⟨d, hd, hint⟩ := Option.any_eq_true _ _ |>.mp h
  cases d <;> first | exact ⟨_, hd⟩ | cases hint

theorem exists_list (h : part.any isList = true) : ∃ ds, part = some (.list ds) := by
  obtain ⟨d, hd, hlist⟩ := Option.any_eq_true _ _ |>.mp h
  cases d <;> first | exact ⟨_, hd⟩ | cases hlist

theorem null_or_text (h : (part.any fun d => d.isNull || d.isText) = true) :
    part = some .null ∨ ∃ s, part = some (.text s) := by
  obtain ⟨d, hd, hfits⟩ := Option.any_eq_true _ _ |>.mp h
  cases d <;> first | exact .inl hd | exact .inr ⟨_, hd⟩ | cases hfits

theorem exists_part (h : part.isSome = true) : ∃ d, part = some d := Option.isSome_iff_exists.mp h

end Document

/-- The kind of node that a document is used as. -/
def Place.nodeKind (p : Place) (d : Document) : String :=
  if p = laterFormal then "Formal" else d.kind

/-- A document that is looked into has the parts that it is used with. -/
def Place.Supplied (p : Place) (d : Document) : Prop :=
  p.Opens d → ∀ name ∈ (Document.partsOf (p.nodeKind d)).map Document.Part.name,
    Document.partFits name (d.part? name) = true

instance (p : Place) (d : Document) : Decidable (p.Supplied d) :=
  inferInstanceAs (Decidable (_ → _))

/-- Whether all that stands in a document passes a test, none of it deeper than a bound. -/
def Place.everywhere (declared : List String) (test : Place → Document → Bool) :
    (depth : Nat) → Place → Document → Bool
  | 0, _, _ => false
  | depth + 1, p, d => test p d &&
      (!decide (p.Opens d) ||
        (p.held declared d).all fun x => everywhere declared test depth x.1 x.2)

section

variable {declared : List String} {p : Place} {d : Document}

/-- What stands in a document that passes a test everywhere passes it. -/
theorem Place.of_everywhere (test : Place → Document → Bool) (depth : Nat)
    (h : everywhere declared test depth p d = true) {r : Place} {e : Document}
    (hr : Stands declared p d r e) : test r e = true := by
  induction hr generalizing depth with
  | here p d =>
    cases depth with
    | zero => cases h
    | succ depth => exact (Bool.and_eq_true_iff.mp h).1
  | @inside p q r d c e hopens hheld _ ih =>
    cases depth with
    | zero => cases h
    | succ depth =>
      have hbelow := (Bool.and_eq_true_iff.mp h).2
      simp only [hopens, decide_true, Bool.not_true, Bool.false_or, List.all_eq_true] at hbelow
      exact ih depth (hbelow (q, c) hheld)

/-- What stands in a document is it, or stands in what it holds. -/
theorem exists_stands_iff {F : Place → Document → Prop} :
    (∃ r e, Stands declared p d r e ∧ F r e) ↔
      F p d ∨ p.Opens d ∧ ∃ x ∈ p.held declared d, ∃ r e, Stands declared x.1 x.2 r e ∧ F r e := by
  constructor
  · rintro ⟨r, e, h, hF⟩
    cases h with
    | here => exact .inl hF
    | inside hopens hheld h => exact .inr ⟨hopens, _, hheld, r, e, h, hF⟩
  · rintro (hF | ⟨hopens, ⟨q, c⟩, hheld, r, e, h, hF⟩)
    · exact ⟨p, d, .here p d, hF⟩
    · exact ⟨r, e, .inside hopens hheld h, hF⟩

/-- Somewhere in a document something does not fit its place. What comes after a parameter
of an undeclared class is not asked what it is. -/
def Flawed (declared : List String) (p : Place) (d : Document) : Prop :=
  ∃ r e, Stands declared p d r e ∧ Misplaced r e ∧ r ≠ .laterFormal

/-- Whatever is looked into has its parts. -/
def Furnished (declared : List String) (p : Place) (d : Document) : Prop :=
  ∀ r e, Stands declared p d r e → r.Supplied e

theorem flawed_iff : Flawed declared p d ↔ (Misplaced p d ∧ p ≠ .laterFormal) ∨
    p.Opens d ∧ ∃ x ∈ p.held declared d, Flawed declared x.1 x.2 :=
  exists_stands_iff

theorem Furnished.here (h : Furnished declared p d) : p.Supplied d := h p d (.here p d)

/-- A document that belongs in its place has each part of its kind. -/
theorem Furnished.part {kind : String} (h : Furnished declared p d) (name : String)
    (hd : d.kind = kind) (hp : p ≠ .laterFormal := by decide) (hk : kind ∈ p.kinds := by decide)
    (hname : name ∈ (Document.partsOf kind).map Document.Part.name := by decide) :
    Document.partFits name (d.part? name) = true := by
  refine h.here (.inl (hd ▸ hk)) name ?_
  rwa [Place.nodeKind, if_neg hp, hd]

theorem Furnished.inside (h : Furnished declared p d) (hopens : p.Opens d) {x : Place × Document}
    (hheld : x ∈ p.held declared d) : Furnished declared x.1 x.2 :=
  fun r e hr => h r e (.inside hopens hheld hr)

/-- What is used as a later parameter has each part of a parameter. -/
theorem Furnished.formalPart (h : Furnished declared .laterFormal d) (name : String)
    (hname : name ∈ (Document.partsOf "Formal").map Document.Part.name := by decide) :
    Document.partFits name (d.part? name) = true :=
  h.here (.inr rfl) name hname

/-- A document of another kind than its place is for is a flaw. -/
theorem flawed_of_kind (hp : p ≠ .laterFormal) (h : d.kind ∉ p.kinds) : Flawed declared p d :=
  ⟨p, d, .here p d, .kind h, hp⟩

/-- Where only the kind can be wrong, a document of a right kind is flawed if something
that it holds is. -/
theorem flawed_iff_held (hd : d.kind ∈ p.kinds)
    (ht : p ≠ .type := by decide) (hm : p ≠ .method := by decide) :
    Flawed declared p d ↔ ∃ x ∈ p.held declared d, Flawed declared x.1 x.2 := by
  rw [flawed_iff]
  constructor
  · rintro (⟨h | h | h, -⟩ | ⟨-, h⟩)
    · exact absurd hd h
    · exact absurd rfl ht
    · exact absurd rfl hm
    · exact h
  · exact fun h => .inr ⟨.inl hd, h⟩

/-- Where documents share a place, one of them may have what is asked for. -/
theorem exists_placed_iff {q : Place} {ds : List Document} {F : Place × Document → Prop} :
    (∃ x ∈ ds.map (q, ·), F x) ↔ ∃ c ∈ ds, F (q, c) := by
  simp only [List.mem_map, exists_exists_and_eq_and]

/-- A later parameter is flawed if its type is. -/
theorem flawed_laterFormal_iff {t : Document} (ht : d.single "type" = [t]) :
    Flawed declared .laterFormal d ↔ Flawed declared .type t := by
  rw [flawed_iff, Place.held, exists_placed_iff, ht]
  simp [Place.Opens]

/-- A parameter has all that a later one has. -/
theorem Furnished.laterFormal (h : Furnished declared .formal d) (hd : d.kind = "Formal") :
    Furnished declared .laterFormal d := by
  intro r e hr
  cases hr with
  | here => exact fun _ name hname => h.part name hd (by decide) (by decide) hname
  | inside _ hheld hr => exact h.inside (.inl (by rw [hd]; decide)) hheld r e hr

/-- What is wrong with a parameter as a later one is wrong with it anyway. -/
theorem Flawed.formal (h : Flawed declared .laterFormal d) : Flawed declared .formal d := by
  by_cases hd : d.kind ∈ Place.formal.kinds
  · obtain ⟨r, e, hr, hmisplaced, hne⟩ := h
    cases hr with
    | here => exact absurd rfl hne
    | inside _ hheld hr => exact ⟨r, e, .inside (.inl hd) hheld hr, hmisplaced, hne⟩
  · exact flawed_of_kind (by decide) hd

/-- The places of parameters are two. -/
theorem Place.ofFormals_place {ds : List Document} {x : Place × Document}
    (hx : x ∈ ofFormals declared ds) : x.2 ∈ ds ∧ (x.1 = formal ∨ x.1 = laterFormal) := by
  induction ds with
  | nil => simp [ofFormals] at hx
  | cons f fs ih =>
    rw [ofFormals] at hx
    rcases List.mem_cons.mp hx with rfl | hx
    · exact ⟨List.mem_cons_self, .inl rfl⟩
    · split at hx
      · obtain ⟨c, hc, rfl⟩ := List.mem_map.mp hx
        exact ⟨List.mem_cons_of_mem _ hc, .inr rfl⟩
      · exact ⟨List.mem_cons_of_mem _ (ih hx).1, (ih hx).2⟩

/-- Every parameter stands in one of the places of parameters. -/
theorem Place.mem_ofFormals (declared : List String) {ds : List Document} (hd : d ∈ ds) :
    (formal, d) ∈ ofFormals declared ds ∨ (laterFormal, d) ∈ ofFormals declared ds := by
  induction ds with
  | nil => cases hd
  | cons f fs ih =>
    rw [ofFormals]
    rcases List.mem_cons.mp hd with rfl | hd
    · exact .inl List.mem_cons_self
    · split
      · exact .inr (List.mem_cons_of_mem _ (List.mem_map_of_mem hd))
      · exact (ih hd).imp (List.mem_cons_of_mem _) (List.mem_cons_of_mem _)

section

variable {q : Place} {ds : List Document} (hheld : p.held declared d = ds.map (q, ·))

include hheld

/-- What a document holds is furnished, if it holds documents in one place. -/
theorem Furnished.placed (h : Furnished declared p d) (hopens : p.Opens d) :
    ∀ c ∈ ds, Furnished declared q c := by
  intro c hc
  have hmem : (q, c) ∈ p.held declared d := hheld ▸ List.mem_map_of_mem hc
  exact h.inside hopens hmem

/-- A document is flawed where one that it holds is, if it holds documents in one place. -/
theorem flawed_iff_placed (hd : d.kind ∈ p.kinds)
    (ht : p ≠ .type := by decide) (hm : p ≠ .method := by decide) :
    Flawed declared p d ↔ ∃ c ∈ ds, Flawed declared q c := by
  rw [flawed_iff_held hd ht hm, hheld, exists_placed_iff]

end

end

end IcFront
