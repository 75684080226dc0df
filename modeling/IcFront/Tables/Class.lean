import IcFront.Tables.Body

/-!
# Scopes of classes

Every class is *registered* first: it gets its type and its symbol in the global
scope. Then it gets its scope, with its fields, its methods, and the scopes of
its methods below it. Since all classes are registered before any scope is
made, a class may use classes declared after it.
-/

namespace IcFront

variable {ε : Type}

namespace Draft

/-- Gives a class its type and its symbol in the global scope. -/
def register (d : Draft) (global : Nat) (c : ClassDecl ε) : Draft × TypeId :=
  let (types, id) := d.types.internClass c.name
  let d := { d with types }
  ((d.declare global ⟨c.name, .class_, id, c.line⟩).note (.registered c.name id), id)

/-- Registers classes, one after the other. -/
def registerAll (d : Draft) (global : Nat) :
    List (ClassDecl ε) → Draft × List (ClassDecl ε × TypeId)
  | [] => (d, [])
  | c :: cs =>
    let (d, id) := d.register global c
    let (d, rest) := d.registerAll global cs
    (d, (c, id) :: rest)

/-- Declares a field in the scope of its class. -/
def field (d : Draft) (key : Nat) (f : Field) : Draft :=
  match d.typeOf f.type f.line with
  | (d, some id) => d.declare key ⟨f.name, .field, id, f.line⟩
  | (d, none) => d

/-- Declares a parameter in the scope of its method. -/
def parameter (d : Draft) (key : Nat) (f : Formal) : Draft :=
  match d.typeOf f.type f.line with
  | (d, some id) => d.declare key ⟨f.name, .parameter, id, f.line⟩
  | (d, none) => d

/-- Makes the scope of a method, with its parameters and the scopes of its body.
The local variables of the body itself go straight into it. -/
def methodScope (d : Draft) (m : Method ε) : Draft × Method ε × Nat :=
  let (d, key) := d.newScope .method m.name
  let d := m.formals.foldl (fun d f => d.parameter key f) d
  let (d, body) := d.statements key m.form.body
  ({ d with scopes := d.scopes.linkBelow key },
    { m with form := m.form.withBody body, scope := some key }, key)

/-- Makes the scope of a method below that of its class, and declares the method
if it has a signature. -/
def method (d : Draft) (key : Nat) (m : Method ε) : Draft × Method ε :=
  let (d, type) := d.signature m
  let (d, m, scope) := d.methodScope m
  let d := d.attach key scope
  match type with
  | some id => (d.declare key ⟨m.name, m.form.symbolKind, id, m.line⟩, m)
  | none => (d, m)

/-- Makes the scopes of methods, one after the other. -/
def methods (d : Draft) (key : Nat) : List (Method ε) → Draft × List (Method ε)
  | [] => (d, [])
  | m :: ms =>
    let (d, m) := d.method key m
    let (d, ms) := d.methods key ms
    (d, m :: ms)

end Draft

/-- A class with its type and its scope. -/
structure ScopedClass (ε : Type) where
  decl : ClassDecl ε
  type : TypeId
  scope : Nat

namespace Draft

/-- Makes the scope of a registered class, with all scopes below it. -/
def classScope (d : Draft) (c : ClassDecl ε) (type : TypeId) : Draft × ScopedClass ε :=
  let (d, key) := d.newScope .class_ c.name
  let d := c.fields.foldl (fun d f => d.field key f) d
  let (d, methods) := d.methods key c.methods
  (d, ⟨{ c with methods, scope := some key }, type, key⟩)

/-- Makes the scopes of registered classes, one after the other. -/
def classScopes (d : Draft) : List (ClassDecl ε × TypeId) → Draft × List (ScopedClass ε)
  | [] => (d, [])
  | (c, type) :: cs =>
    let (d, s) := d.classScope c type
    let (d, rest) := d.classScopes cs
    (d, s :: rest)

end Draft

end IcFront
