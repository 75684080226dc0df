import IcFront.Compilation
import IcFront.Text.Quoted

/-!
# Sessions

A session works on an arena of scopes and a type table by single requests, each
of which is answered or fails. A request that fails leaves everything as it
was: `Session.perform` gives the next session only with an answer.

Scopes are referred to by keys counted from either end, so that -1 is the newest
scope. Kinds are given by their names.
-/

namespace IcFront

/-- A symbol as a request gives it, its kind by name. -/
structure SymbolSpec where
  name : String
  kind : String
  type : TypeId
  line : Int := 0

/-- What can be asked of a session. The first key of a request is looked up
before anything else. -/
inductive Request
  | newScope (kind : String) (name : String)
  | insert (scope : Int) (symbol : SymbolSpec)
  | addChild (scope : Int) (child : Int)
  | setParent (scope : Int) (parent : Int)
  /-- Links the scopes below a scope, and asks for the parents of all scopes. -/
  | linkBelow (scope : Int)
  | scope (scope : Int)
  | scopes
  | parentOf (scope : Int)
  | enclosingMethod (scope : Int)
  | childrenOf (scope : Int)
  | ancestors (scope : Int)
  | walk (scope : Int)
  | lookup (scope : Int) (name : String)
  | lookupLocal (scope : Int) (name : String)
  | contains (scope : Int) (name : String)
  | resolve (scope : Int) (name : String)
  | label (scope : Int)
  | describeScope (scope : Int)
  | sameSymbol (a : SymbolSpec) (b : SymbolSpec)
  | isMethod (kind : String)
  | internPrimitive (kind : String)
  | internClass (name : String)
  | internArray (element : TypeId)
  | internMethod (result : TypeId) (parameters : List TypeId)
  | lookupClass (name : String)
  | setSuperclass (id : TypeId) (name : String)
  | superclassOf (id : TypeId)
  | entry (id : TypeId)
  | describe (id : TypeId)
  | idsOf (kind : String)
  | classScope (name : String)
  | typeListing
  | scopeListing (scope : Int)

/-- The vocabularies that a kind can be missing from. -/
inductive Vocabulary
  | scopeKind
  | symbolKind
  | primitiveKind
  | typeKind
  deriving DecidableEq, Repr

/-- The name of a vocabulary. -/
def Vocabulary.text : Vocabulary → String
  | scopeKind => "ScopeKind"
  | symbolKind => "SymbolKind"
  | primitiveKind => "PrimitiveKind"
  | typeKind => "TypeKind"

/-- Why a request fails. -/
inductive RequestFault
  | noSuchScope
  | unknownWord (word : String) (vocabulary : Vocabulary)
  | duplicate (name : String) (place : String)
  | type (fault : TypeFault)
  deriving DecidableEq, Repr

/-- The wording of a fault of a type table. -/
def TypeFault.message : TypeFault → String
  | unknownId id => "unknown type id " ++ toString id
  | notAClass id => "type " ++ toString id ++ " is not a class type"
  | unresolvedSuperclass className superclass =>
    (SemanticError.unresolvedSuperclass className superclass).message
  | circular id => "type " ++ toString id ++ " contains itself"

/-- The wording of a fault. -/
def RequestFault.message : RequestFault → String
  | noSuchScope => "list index out of range"
  | unknownWord word vocabulary => quoted word ++ " is not a valid " ++ vocabulary.text
  | duplicate name place => (SemanticError.duplicateDeclaration name place).message
  | type fault => fault.message

/-- What a request is answered with. -/
inductive Answer
  | scope (key : Nat) (s : Scope)
  | scopes (all : List Scope)
  | parents (all : List (Option Nat))
  | key (key : Option Nat)
  | keys (all : List Nat)
  | symbol (s : Option Symbol)
  | resolved (found : Option (Nat × Symbol))
  | bool (value : Bool)
  | text (value : String)
  | id (value : Option TypeId)
  | ids (all : List TypeId)
  | entry (id : TypeId) (e : TypeEntry)

/-- What the requests of a session work on: an arena, a type table, and the
scopes of the classes of the program they come from. -/
structure Session where
  scopes : Arena := {}
  types : TypeTable
  classScopes : List Nat := []

namespace Session

/-- The session on the tables of a program. -/
def ofTables (t : SymbolTables) : Session := ⟨t.scopes, t.types, t.classScopes⟩

/-- The key that a reference means: keys from 0 count up from the first scope, and
those below 0 count down from the last. -/
def key (s : Session) (reference : Int) : Except RequestFault Nat :=
  let n : Int := s.scopes.size
  if 0 ≤ reference ∧ reference < n then .ok reference.toNat
  else if -n ≤ reference ∧ reference < 0 then .ok (n + reference).toNat
  else .error .noSuchScope

/-- The kind with a name. -/
def kindOf {α : Type} (ofText? : String → Option α) (vocabulary : Vocabulary) (word : String) :
    Except RequestFault α :=
  match ofText? word with
  | some k => .ok k
  | none => .error (.unknownWord word vocabulary)

/-- The symbol that a request gives. -/
def symbolOf (spec : SymbolSpec) : Except RequestFault Symbol := do
  let kind ← kindOf SymbolKind.ofText? .symbolKind spec.kind
  return ⟨spec.name, kind, spec.type, spec.line⟩

/-- A scope as an answer. -/
def scopeAnswer (s : Session) (key : Nat) : Except RequestFault Answer :=
  match s.scopes.get? key with
  | some scope => .ok (.scope key scope)
  | none => .error .noSuchScope

/-- The session with other scopes, and one of them as the answer. -/
def withScopes (s : Session) (scopes : Arena) (key : Nat) : Except RequestFault (Session × Answer) := do
  let s := { s with scopes }
  let answer ← s.scopeAnswer key
  return (s, answer)

/-- What a type table says, as an outcome of a request. -/
def ofTypes {α : Type} (x : Except TypeFault α) : Except RequestFault α :=
  match x with
  | .ok a => .ok a
  | .error fault => .error (.type fault)

/-- Answers a request and gives the session after it. -/
def perform (s : Session) : Request → Except RequestFault (Session × Answer)
  | .newScope kind name => do
    let kind ← kindOf ScopeKind.ofText? .scopeKind kind
    let (scopes, key) := s.scopes.newScope kind name
    s.withScopes scopes key
  | .insert scope spec => do
    let key ← s.key scope
    let symbol ← symbolOf spec
    match s.scopes.insert? key symbol with
    | some scopes => s.withScopes scopes key
    | none => .error (.duplicate symbol.name (s.scopes.describe key))
  | .addChild scope child => do
    let key ← s.key scope
    let child ← s.key child
    s.withScopes (s.scopes.addChild key child) key
  | .setParent scope parent => do
    let key ← s.key scope
    let parent ← s.key parent
    s.withScopes (s.scopes.setParent key parent) key
  | .linkBelow scope => do
    let key ← s.key scope
    let scopes := s.scopes.linkBelow key
    return ({ s with scopes }, .parents (scopes.scopes.map (·.parent)))
  | .scope scope => do
    let key ← s.key scope
    return (s, ← s.scopeAnswer key)
  | .scopes => return (s, .scopes s.scopes.scopes)
  | .parentOf scope => do
    let key ← s.key scope
    return (s, .key (s.scopes.parentOf key))
  | .enclosingMethod scope => do
    let key ← s.key scope
    return (s, .key (s.scopes.enclosingMethod key))
  | .childrenOf scope => do
    let key ← s.key scope
    return (s, .keys (s.scopes.childrenOf key))
  | .ancestors scope => do
    let key ← s.key scope
    return (s, .keys (s.scopes.ancestors key))
  | .walk scope => do
    let key ← s.key scope
    return (s, .keys (s.scopes.walk key))
  | .lookup scope name => do
    let key ← s.key scope
    return (s, .symbol (s.scopes.lookup key name))
  | .lookupLocal scope name => do
    let key ← s.key scope
    return (s, .symbol (s.scopes.lookupLocal key name))
  | .contains scope name => do
    let key ← s.key scope
    return (s, .bool (s.scopes.lookupLocal key name).isSome)
  | .resolve scope name => do
    let key ← s.key scope
    return (s, .resolved (s.scopes.resolve key name))
  | .label scope => do
    let key ← s.key scope
    return (s, .text (s.scopes.label key))
  | .describeScope scope => do
    let key ← s.key scope
    return (s, .text (s.scopes.describe key))
  | .sameSymbol a b => do
    let a ← symbolOf a
    let b ← symbolOf b
    return (s, .bool (a.same b))
  | .isMethod kind => do
    let kind ← kindOf SymbolKind.ofText? .symbolKind kind
    return (s, .bool kind.isMethod)
  | .internPrimitive kind => do
    let kind ← kindOf PrimitiveKind.ofName? .primitiveKind kind
    let (types, id) := s.types.internPrimitive kind
    return ({ s with types }, .id id)
  | .internClass name =>
    let (types, id) := s.types.internClass name
    return ({ s with types }, .id id)
  | .internArray element => do
    let (types, id) ← ofTypes (s.types.internArray element)
    return ({ s with types }, .id id)
  | .internMethod result parameters =>
    let (types, id) := s.types.internMethod result parameters
    return ({ s with types }, .id id)
  | .lookupClass name => return (s, .id (s.types.lookupClass name))
  | .setSuperclass id name => do
    let (types, superclass) ← ofTypes (s.types.setSuperclass id name)
    return ({ s with types }, .id superclass)
  | .superclassOf id => return (s, .id (s.types.superclassOf id))
  | .entry id =>
    match s.types.entry? id with
    | some e => return (s, .entry id e)
    | none => .error (.type (.unknownId id))
  | .describe id => do
    let text ← ofTypes (s.types.describe id)
    return (s, .text text)
  | .idsOf kind => do
    let kind ← kindOf TypeKind.ofText? .typeKind kind
    return (s, .ids (s.types.idsOf kind))
  | .classScope name =>
    return (s, .key (s.classScopes.find? fun key => s.scopes.nameOf key == name))
  | .typeListing => do
    let text ← ofTypes s.types.listing
    return (s, .text text)
  | .scopeListing scope => do
    let key ← s.key scope
    let text ← ofTypes (s.scopes.listing s.types key)
    return (s, .text text)

/-- The session after a request: the same one if the request fails. -/
def step (s : Session) (r : Request) : Session × Except RequestFault Answer :=
  match s.perform r with
  | .ok (s, answer) => (s, .ok answer)
  | .error fault => (s, .error fault)

end Session

end IcFront
