import IcFront.Proofs.Types.Indexed
import IcFront.Session

/-!
# Sessions that work in place

A `Session` gives a new session with every answer, so that a request that fails cannot
but leave the old one. A `Workspace` is changed where it stands: a request looks things
up, checks them and changes them one after the other (`InPlace`), and whatever was changed
before it failed would stay changed. The types of a workspace are in an indexed table, so
that even a new type takes two changes, one of the entries and one of an index.

Linking goes from a scope to its children by calls that lie in each other. Where children
go round in circles there is no end to them; `depth` is how many there may be, and a
request that needs more is `tooDeep`.
-/

namespace IcFront

/-- Why a request gets no answer. -/
inductive Halt
  | failed (fault : RequestFault)
  | tooDeep
  deriving DecidableEq, Repr

/-- What the requests of a session change: the scopes, the types, with the name of their
table, and what they only read. -/
structure Workspace where
  scopes : Arena := {}
  types : IndexedTable := .new
  name : String := ""
  classScopes : List Nat := []

/-- The table without its indexes. -/
def IndexedTable.plain (x : IndexedTable) (name : String) : TypeTable :=
  { name, entries := x.entries.map (·.2), superclasses := x.superclasses }

/-- The session that a workspace shows to requests that only read. -/
def Workspace.session (w : Workspace) : Session :=
  { scopes := w.scopes, types := w.types.plain w.name, classScopes := w.classScopes }

/-- Steps that change a workspace and may halt. What was changed before stays changed. -/
abbrev InPlace := ExceptT Halt (StateM Workspace)

namespace InPlace

/-- Fails for a reason. -/
def fail {α : Type} (fault : RequestFault) : InPlace α := throw (.failed fault)

/-- A step that changes nothing, and fails where a check does. -/
def check {α : Type} (x : Except RequestFault α) : InPlace α :=
  match x with
  | .ok a => pure a
  | .error fault => fail fault

/-! ## Scopes -/

/-- The key that a reference means. -/
def keyOf (reference : Int) : InPlace Nat := do check ((← get).session.key reference)

/-- The scope with a key. -/
def scopeAt (key : Nat) : InPlace Scope := do
  match (← get).scopes.get? key with
  | some scope => return scope
  | none => fail .noSuchScope

/-- Changes the scope with a key. -/
def modifyScope (key : Nat) (f : Scope → Scope) : InPlace Unit :=
  modify fun w => { w with scopes := w.scopes.modify key f }

/-- Makes a scope without symbols, children or parent. -/
def newScope (kind : ScopeKind) (name : String) : InPlace Nat := do
  let key := (← get).scopes.size
  modify fun w => { w with scopes := ⟨w.scopes.scopes ++ [{ kind, name }]⟩ }
  return key

/-- Declares a symbol in a scope. -/
def insert (key : Nat) (s : Symbol) : InPlace Unit := do
  let scope ← scopeAt key
  match scope.lookup s.name with
  | some _ => fail (.duplicate s.name scope.describe)
  | none => modifyScope key fun scope => { scope with symbols := scope.symbols ++ [s] }

/-- Makes a scope the last child of another. -/
def addChild (parent child : Nat) : InPlace Unit :=
  modifyScope parent fun scope => { scope with children := scope.children ++ [child] }

/-- Makes a scope the parent of another. -/
def setParent (child parent : Nat) : InPlace Unit :=
  modifyScope child fun scope => { scope with parent := some parent }

/-- Points every scope below `root` at the scope it is a child of. -/
def link : (depth : Nat) → (root : Nat) → InPlace Unit
  | 0, _ => throw .tooDeep
  | depth + 1, root => do
    let scope ← scopeAt root
    scope.children.forM fun child => do
      let _ ← scopeAt child
      setParent child root
      link depth child

/-! ## Types -/

/-- Changes the table of types. -/
def modifyTypes (f : IndexedTable → IndexedTable) : InPlace Unit :=
  modify fun w => { w with types := f w.types }

/-- Puts one more type into the table, which no index has yet, and gives its id. -/
def enter (e : TypeEntry) : InPlace TypeId := do
  let id : TypeId := (← get).types.entries.length + 1
  modifyTypes fun x => { x with entries := x.entries ++ [(id, e)] }
  return id

/-- The type with an id. -/
def entryAt (id : TypeId) : InPlace TypeEntry := do
  match (← get).types.entry? id with
  | some (_, e) => return e
  | none => fail (.type (.unknownId id))

/-- The id of a primitive type. -/
def internPrimitive (kind : PrimitiveKind) : InPlace TypeId := do
  match (← get).types.primitives.lookup kind with
  | some id => return id
  | none =>
    let id ← enter (.primitive kind)
    modifyTypes fun x => { x with primitives := (kind, id) :: x.primitives }
    return id

/-- A new class type. -/
def internClass (className : String) : InPlace TypeId := do
  let id ← enter (.class_ className)
  modifyTypes fun x =>
    match x.classes.lookup className with
    | some _ => x
    | none => { x with classes := (className, id) :: x.classes }
  return id

/-- The id of the type of arrays of a type of the table. -/
def internArray (element : TypeId) : InPlace TypeId := do
  let _ ← entryAt element
  match (← get).types.arrays.lookup element with
  | some id => return id
  | none =>
    let id ← enter (.array element)
    modifyTypes fun x => { x with arrays := (element, id) :: x.arrays }
    return id

/-- The id of a method type. -/
def internMethod (result : TypeId) (parameters : List TypeId) : InPlace TypeId := do
  match (← get).types.methods.lookup (result, parameters) with
  | some id => return id
  | none =>
    let id ← enter (.method result parameters)
    modifyTypes fun x => { x with methods := ((result, parameters), id) :: x.methods }
    return id

/-- Makes the class with a name the superclass of a class, and gives its id. -/
def setSuperclass (id : TypeId) (superclass : String) : InPlace TypeId := do
  match ← entryAt id with
  | .class_ className =>
    match (← get).types.classes.lookup superclass with
    | none => fail (.type (.unresolvedSuperclass className superclass))
    | some s =>
      modifyTypes fun x => { x with superclasses := (id, s) :: x.superclasses }
      return s
  | _ => fail (.type (.notAClass id))

/-- Does what a table of types is asked to do. -/
def call : Call → InPlace TypeId
  | .internPrimitive kind => internPrimitive kind
  | .internClass className => internClass className
  | .internArray element => internArray element
  | .internMethod result parameters => internMethod result parameters
  | .setSuperclass id superclass => setSuperclass id superclass

/-! ## Requests -/

/-- The scope with a key as an answer. -/
def showScope (key : Nat) : InPlace Answer := do return .scope key (← scopeAt key)

/-- Answers a request. What only reads is answered as in the session that the workspace
shows. -/
def perform (depth : Nat) : Request → InPlace Answer
  | .newScope kind name => do
    let kind ← check (Session.kindOf ScopeKind.ofText? .scopeKind kind)
    showScope (← newScope kind name)
  | .insert scope spec => do
    let key ← keyOf scope
    let s ← check (Session.symbolOf spec)
    insert key s
    showScope key
  | .addChild scope child => do
    let key ← keyOf scope
    let child ← keyOf child
    addChild key child
    showScope key
  | .setParent scope parent => do
    let key ← keyOf scope
    let parent ← keyOf parent
    setParent key parent
    showScope key
  | .linkBelow scope => do
    let key ← keyOf scope
    link depth key
    return .parents ((← get).scopes.scopes.map (·.parent))
  | .internPrimitive kind => do
    let kind ← check (Session.kindOf PrimitiveKind.ofName? .primitiveKind kind)
    return .id (← call (.internPrimitive kind))
  | .internClass name => do return .id (← call (.internClass name))
  | .internArray element => do return .id (← call (.internArray element))
  | .internMethod result parameters => do
    return .id (← call (.internMethod result parameters))
  | .setSuperclass id name => do return .id (← call (.setSuperclass id name))
  | query => do
    let (_, answer) ← check ((← get).session.perform query)
    return answer

/-! ## What steps do -/

section Runs

variable {α : Type}

theorem run_get (f : Workspace → InPlace α) (w : Workspace) :
    ((get : InPlace Workspace) >>= f).run.run w = (f w).run.run w := rfl

theorem run_check (x : Except RequestFault α) {β : Type} (f : α → InPlace β) (w : Workspace) :
    (check x >>= f).run.run w =
      match x with
      | .ok a => (f a).run.run w
      | .error fault => (.error (.failed fault), w) := by
  cases x <;> rfl

theorem run_scopeAt (key : Nat) (f : Scope → InPlace α) (w : Workspace) :
    (scopeAt key >>= f).run.run w =
      match w.scopes.get? key with
      | some scope => (f scope).run.run w
      | none => (.error (.failed .noSuchScope), w) := by
  rw [scopeAt, bind_assoc, run_get]
  cases w.scopes.get? key <;> rfl

theorem run_entryAt (id : TypeId) (f : TypeEntry → InPlace α) (w : Workspace) :
    (entryAt id >>= f).run.run w =
      match w.types.entry? id with
      | some (_, e) => (f e).run.run w
      | none => (.error (.failed (.type (.unknownId id))), w) := by
  rw [entryAt, bind_assoc, run_get]
  cases w.types.entry? id <;> rfl

/-- How a call ends that gives what a table gives. -/
def ended (w : Workspace) :
    Except TypeFault (IndexedTable × TypeId) → Except Halt TypeId × Workspace
  | .ok (x, id) => (.ok id, { w with types := x })
  | .error fault => (.error (.failed (.type fault)), w)

/-- Change by change, a call does what the table does in one step. -/
theorem run_call (c : Call) (w : Workspace) : (call c).run.run w = ended w (w.types.call c) := by
  cases c with
  | internPrimitive kind =>
    rw [call, internPrimitive, run_get, IndexedTable.call, IndexedTable.internPrimitive]
    cases w.types.primitives.lookup kind <;> rfl
  | internClass className =>
    rw [call, IndexedTable.call, IndexedTable.internClass]
    show (_, { w with types := _ }) = _
    dsimp only [IndexedTable.add]
    cases w.types.classes.lookup className <;> rfl
  | internArray element =>
    rw [call, internArray, run_entryAt, IndexedTable.call, IndexedTable.internArray]
    cases w.types.entry? element with
    | none => rfl
    | some e =>
      rw [run_get]
      cases w.types.arrays.lookup element <;> rfl
  | internMethod result parameters =>
    rw [call, internMethod, run_get, IndexedTable.call, IndexedTable.internMethod]
    cases w.types.methods.lookup (result, parameters) <;> rfl
  | setSuperclass id superclass =>
    rw [call, setSuperclass, run_entryAt, IndexedTable.call, IndexedTable.setSuperclass]
    cases w.types.entry? id with
    | none => rfl
    | some e =>
      obtain ⟨id', e⟩ := e
      cases e with
      | primitive _ | array _ | method _ _ => rfl
      | class_ className =>
        dsimp only
        rw [run_get]
        cases w.types.classes.lookup superclass <;> rfl

end Runs

end InPlace

namespace Workspace

/-- How a request ends, and the workspace after it. -/
def step (depth : Nat) (w : Workspace) (r : Request) : Except Halt Answer × Workspace :=
  (InPlace.perform depth r).run.run w

/-- How requests end that are made one after another, and the workspace after them. A
request that fails does not keep the others from being made. -/
def run (depth : Nat) (w : Workspace) : List Request → List (Except Halt Answer) × Workspace
  | [] => ([], w)
  | r :: rs =>
    let (outcome, w) := w.step depth r
    let (outcomes, w) := run depth w rs
    (outcome :: outcomes, w)

end Workspace

/-- How the requests of a session end, and the session after them. -/
def Session.run (s : Session) : List Request → List (Except RequestFault Answer) × Session
  | [] => ([], s)
  | r :: rs =>
    let (s, outcome) := s.step r
    let (outcomes, s) := run s rs
    (outcome :: outcomes, s)

/-! ## Where a workspace starts -/

namespace IndexedTable

/-- An index with a key, unless the key is in it already. -/
def withKey {κ : Type} [BEq κ] (index : List (κ × TypeId)) (k : κ) (id : TypeId) :
    List (κ × TypeId) :=
  match index.lookup k with
  | some _ => index
  | none => (k, id) :: index

/-- The table with one more type, which the index of its sort has unless it has one for
the same. -/
def file (x : IndexedTable) (e : TypeEntry) : IndexedTable :=
  let (x, id) := x.add e
  match e with
  | .primitive kind => { x with primitives := withKey x.primitives kind id }
  | .class_ className => { x with classes := withKey x.classes className id }
  | .array element => { x with arrays := withKey x.arrays element id }
  | .method result parameters => { x with methods := withKey x.methods (result, parameters) id }

/-- A table with all its indexes. -/
def index (t : TypeTable) : IndexedTable := t.entries.foldl file { superclasses := t.superclasses }

end IndexedTable

/-- The workspace that a session is given in. -/
def Workspace.of (s : Session) : Workspace :=
  { scopes := s.scopes, types := .index s.types, name := s.types.name, classScopes := s.classScopes }

/-- The sessions that requests start with: one with nothing but the primitive types, and
the tables of a compiled program. -/
inductive Session.Start : Session → Prop
  | empty (name : String) : Start { types := .new name }
  | compiled {source name : String} {choice : LibraryChoice} {c : Compilation}
      (h : compile source name choice = .ok c) : Start (.ofTables c.tables)

end IcFront
