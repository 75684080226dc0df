import IcFront.Proofs.Outline

/-!
# What is looked at in a program, and in which order

An `Item` is a part of a declaration that may be rejected: a type or a name.
`Item.rejection` says what is reported of it, if anything.

`Program.items` lists the items of a program in the order in which they are looked
at: the names of all classes; then class by class the fields, and method by method
the type of the result, the parameters, the statements and the name of the method
itself. In a statement the items of all that lies in it come before the names of
the local variables that it declares for its surroundings.
-/

namespace IcFront

variable {ε : Type}

/-- A part of a declaration that may be rejected. -/
inductive Item
  /-- A type written at a line. -/
  | type (type : TypeRef) (line : Int)
  /-- A name declared in a place, and what was declared in that place before. -/
  | name (x : Declaration) (place : String) (earlier : List Declaration)

/-- What is reported of an item: a type that is not known, or a resolvable
declaration whose name is kept already. -/
def Item.rejection (declared : List String) : Item → Option Diagnostic
  | type t line => t.undefined? declared line
  | name x place earlier =>
    if x.resolvable declared ∧ (kept declared earlier).any (·.name == x.name) then
      some ⟨.duplicateDeclaration x.name place, x.line⟩
    else none

section Rejection

variable {declared : List String} {x : Declaration}

theorem Item.rejection_name_of_resolvable (hx : x.resolvable declared = true) (place : String)
    (earlier : List Declaration) :
    (name x place earlier).rejection declared =
      if (kept declared earlier).any (·.name == x.name) then
        some ⟨.duplicateDeclaration x.name place, x.line⟩
      else none := by
  simp only [rejection, hx, true_and]

theorem Item.rejection_name_of_not_resolvable (hx : ¬ x.resolvable declared = true)
    (place : String) (earlier : List Declaration) :
    (name x place earlier).rejection declared = none :=
  if_neg fun h => hx h.1

end Rejection

/-- What a region of a kind with a name is called in messages. -/
def ScopeKind.place (kind : ScopeKind) (name : String) : String :=
  ({ kind, name } : Scope).describe

namespace Item

/-- The names of declarations, one after the other. -/
def names (place : String) (earlier : List Declaration) : List Declaration → List Item
  | [] => []
  | x :: xs => .name x place earlier :: names place (earlier ++ [x]) xs

/-- The types and names of declarations, one after the other. -/
def entered (place : String) (earlier : List Declaration) : List Declaration → List Item
  | [] => []
  | x :: xs =>
    x.type.types.map (.type · x.line) ++
      .name x place earlier :: entered place (earlier ++ [x]) xs

end Item

mutual

/-- The items of a statement that lie in it: the types of its local variables, and
all items of its blocks. -/
def Stmt.items : Stmt ε → List Item
  | .localVar type _ _ line => [.type type line]
  | .block body _ _ => itemsOf (ScopeKind.block.place "") [] body
  | .ifThen _ body _ => body.items
  | .ifElse _ body otherwise _ => body.items ++ otherwise.items
  | .while_ _ body _ => body.items
  | _ => []

/-- The items of statements that stand in a place: of each what lies in it, and then
the names of the local variables that it declares in the place. -/
def Stmt.itemsOf (place : String) (earlier : List Declaration) : List (Stmt ε) → List Item
  | [] => []
  | s :: ss =>
    s.items ++ Item.names place earlier s.locals ++ itemsOf place (earlier ++ s.locals) ss

end

/-- The items in a method. -/
def Method.items (m : Method ε) : List Item :=
  let place := ScopeKind.method.place m.name
  let parameters := m.formals.map Formal.declaration
  .type m.type m.line :: Item.entered place [] parameters ++
    Stmt.itemsOf place parameters m.form.body

/-- The items of the methods of a class: of each those in it, and then its name. -/
def Method.itemsOf (place : String) (earlier : List Declaration) : List (Method ε) → List Item
  | [] => []
  | m :: ms =>
    m.items ++ .name m.declaration place earlier :: itemsOf place (earlier ++ [m.declaration]) ms

/-- The items in a class. -/
def ClassDecl.items (c : ClassDecl ε) : List Item :=
  let place := ScopeKind.class_.place c.name
  let fields := c.fields.map Field.declaration
  Item.entered place [] fields ++ Method.itemsOf place fields c.methods

/-- The items of a program under a name. -/
def Program.items (p : Program ε) (name : String) : List Item :=
  Item.names (ScopeKind.global.place name) [] (p.classes.map ClassDecl.declaration) ++
    p.classes.flatMap ClassDecl.items

end IcFront
