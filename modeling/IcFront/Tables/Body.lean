import IcFront.Tables.Draft

/-!
# Scopes of bodies

The statements of a body declare local variables and open blocks. What a
statement declares for the scope around it is collected first (`Exports`) and
declared when the statement is done: an `if` or a loop passes on what its
branches export, in their order, while a block exports only its own scope, which
takes what the statements inside it export.
-/

namespace IcFront

/-- What a statement declares for the scope that it stands in. -/
structure Exports where
  symbols : List Symbol
  scopes : List Nat

namespace Exports

/-- Nothing. -/
def none : Exports := ⟨[], []⟩

/-- What two statements export, one after the other. -/
def append (a b : Exports) : Exports := ⟨a.symbols ++ b.symbols, a.scopes ++ b.scopes⟩

end Exports

namespace Draft

/-- Declares exported symbols in a scope, and makes exported scopes its children. -/
def receive (d : Draft) (key : Nat) (e : Exports) : Draft :=
  let d := e.symbols.foldl (fun d s => d.declare key s) d
  { d with scopes := e.scopes.foldl (fun a child => a.addChild key child) d.scopes }

variable {ε : Type}

mutual

/-- Makes the scopes in a statement. Gives the statement with their keys, and what
it exports. -/
def statement (d : Draft) : Stmt ε → Draft × Stmt ε × Exports
  | .localVar type name initial line =>
    let (d, id) := d.typeOf type line
    (d, .localVar type name initial line,
      ⟨id.toList.map fun id => ⟨name, .localVariable, id, line⟩, []⟩)
  | .block body line _ =>
    let (d, key) := d.newScope .block ""
    let (d, body) := d.statements key body
    (d, .block body line (some key), ⟨[], [key]⟩)
  | .ifThen condition body line =>
    let (d, body, e) := d.statement body
    (d, .ifThen condition body line, e)
  | .ifElse condition body otherwise line =>
    let (d, body, e) := d.statement body
    let (d, otherwise, f) := d.statement otherwise
    (d, .ifElse condition body otherwise line, e.append f)
  | .while_ condition body line =>
    let (d, body, e) := d.statement body
    (d, .while_ condition body line, e)
  | s => (d, s, .none)

/-- Makes the scopes in statements, and lets a scope receive what each exports
before the next one is looked at. -/
def statements (d : Draft) (key : Nat) : List (Stmt ε) → Draft × List (Stmt ε)
  | [] => (d, [])
  | s :: ss =>
    let (d, s, e) := d.statement s
    let (d, ss) := (d.receive key e).statements key ss
    (d, s :: ss)

end

end Draft

end IcFront
