import IcFront.Scopes.Symbol

/-!
# Scopes

All scopes of a program live in one `Arena` and are named by their *keys*, 0 for
the first one made and so on. A scope holds the symbols declared in it, in
order and with no name twice, and the keys of its children and of its parent.

Children and parent are set independently (`addChild`, `setParent`);
`linkBelow` makes the parents below a scope agree with the children.
-/

namespace IcFront

/-- The kinds of scope. -/
inductive ScopeKind
  | global
  | class_
  | method
  | block
  deriving DecidableEq, Repr

namespace ScopeKind

/-- The name of a kind of scope. -/
def text : ScopeKind → String
  | global => "Global"
  | class_ => "Class"
  | method => "Method"
  | block => "Statement Block"

/-- The name of a kind of scope inside a sentence. -/
def lowerText : ScopeKind → String
  | global => "global"
  | class_ => "class"
  | method => "method"
  | block => "statement block"

/-- Every kind of scope. -/
def all : List ScopeKind := [global, class_, method, block]

/-- The kind of scope with a given name. -/
def ofText? (word : String) : Option ScopeKind :=
  all.find? fun k => k.text == word

end ScopeKind

/-- A scope. -/
structure Scope where
  kind : ScopeKind
  name : String := ""
  symbols : List Symbol := []
  children : List Nat := []
  parent : Option Nat := none
  deriving DecidableEq, Repr

namespace Scope

/-- The symbol declared in a scope under a name. -/
def lookup (s : Scope) (name : String) : Option Symbol := s.symbols.find? fun x => x.name == name

/-- What a scope is called in messages. Blocks have no names. -/
def describe (s : Scope) : String :=
  match s.kind with
  | .block => "statement block"
  | kind => kind.lowerText ++ " scope '" ++ s.name ++ "'"

end Scope

/-- The scopes of a program, in the order of their keys. -/
structure Arena where
  scopes : List Scope := []
  deriving DecidableEq, Repr

namespace Arena

/-- The number of scopes. -/
def size (a : Arena) : Nat := a.scopes.length

/-- The scope with a key. -/
def get? (a : Arena) (key : Nat) : Option Scope := a.scopes[key]?

/-- Makes a scope without symbols, children or parent. -/
def newScope (a : Arena) (kind : ScopeKind) (name : String) : Arena × Nat :=
  (⟨a.scopes ++ [{ kind := kind, name := name }]⟩, a.scopes.length)

/-- Changes the scope with a key. -/
def modify (a : Arena) (key : Nat) (f : Scope → Scope) : Arena := ⟨a.scopes.modify key f⟩

/-- Declares a symbol in a scope, after those already there; none if the name is
already declared in it. -/
def insert? (a : Arena) (key : Nat) (s : Symbol) : Option Arena :=
  match a.get? key with
  | none => none
  | some scope =>
    match scope.lookup s.name with
    | some _ => none
    | none => some (a.modify key fun scope => { scope with symbols := scope.symbols ++ [s] })

/-- Makes a scope the last child of another. -/
def addChild (a : Arena) (parent child : Nat) : Arena :=
  a.modify parent fun scope => { scope with children := scope.children ++ [child] }

/-- Makes a scope the parent of another. -/
def setParent (a : Arena) (child parent : Nat) : Arena :=
  a.modify child fun scope => { scope with parent := some parent }

/-- The children of a scope. -/
def childrenOf (a : Arena) (key : Nat) : List Nat :=
  match a.get? key with
  | some scope => scope.children
  | none => []

/-- Points every scope at most `depth` levels below `root` at the scope it is a
child of. -/
def linkWithin : (depth : Nat) → Arena → (root : Nat) → Arena
  | 0, a, _ => a
  | depth + 1, a, root =>
    (a.childrenOf root).foldl (fun a child => linkWithin depth (a.setParent child root) child) a

/-- Points every scope below `root` at the scope it is a child of. -/
def linkBelow (a : Arena) (root : Nat) : Arena := linkWithin a.size a root

end Arena

end IcFront
