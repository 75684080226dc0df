import IcFront.Proofs.Json.Printed

/-!
# Documents read back from JSON text

`Document.json` is what the text of a document says: a node is an object whose first member
`_type` is its kind. Two sorts of document say the same as others. The kind of a literal is
a text, and a number with decimal places may be an integer. A document is `Recoverable` if it
has none of the latter, kinds of literal just where literals have their kinds, and no node
with two parts of one name.

The text of such a document is cut into the tokens of what it says (`cuts_jsonAt`), and so
it is read as that (`read_toJson`). There the members of an object are told by their names
(`unambiguous_json`), and the document is built again from what it says, each node from its
first member (`document?_json`).
-/

namespace IcFront

namespace Document

mutual

/-- What the JSON text of a document says. -/
def json : Document → Json.Value
  | null => .null
  | bool b => .bool b
  | int n => .number n 0
  | decimal digits places => .number digits (-places)
  | text s => .string s
  | literalKind k => .string ("LiteralKind." ++ k.constant)
  | list items => .array (jsonOfItems items)
  | node kind parts => .object (("_type", .string kind) :: jsonOfParts parts)

/-- What the items of a list say. -/
def jsonOfItems : List Document → List Json.Value
  | [] => []
  | d :: ds => d.json :: jsonOfItems ds

/-- What the parts of a node say. -/
def jsonOfParts : List (String × Document) → List (String × Json.Value)
  | [] => []
  | (name, d) :: rest => (name, d.json) :: jsonOfParts rest

end

/-- Whether a part of a node is the kind of a literal. -/
@[simp] def IsLiteralKind (kind name : String) : Prop := kind = "Literal" ∧ name = "kind"

instance (kind name : String) : Decidable (IsLiteralKind kind name) :=
  inferInstanceAs (Decidable (_ ∧ _))

mutual

/-- Whether a document can be told from what its text says: its numbers are integers, it has
kinds of literal just where literals have their kinds, and the parts of a node have names of
their own. -/
@[simp] def Recoverable : Document → Prop
  | decimal .. | literalKind _ => False
  | list items => AllRecoverable items
  | node kind parts => ("_type" :: parts.map (·.1)).Nodup ∧ PartsRecoverable kind parts
  | _ => True

/-- `Recoverable` for every document of a list. -/
@[simp] def AllRecoverable : List Document → Prop
  | [] => True
  | d :: ds => d.Recoverable ∧ AllRecoverable ds

/-- `Recoverable` for every part of a node. -/
@[simp] def PartsRecoverable (kind : String) : List (String × Document) → Prop
  | [] => True
  | (name, d) :: rest =>
    (if IsLiteralKind kind name then ∃ k, d = literalKind k else d.Recoverable) ∧
      PartsRecoverable kind rest

end

open Json

mutual

/-- The text of a document is cut into the tokens of what it says. -/
theorem cuts_jsonAt : ∀ (d : Document) (level : Nat), d.Recoverable →
    Cuts (d.jsonAt level) d.json.tokens
  | null, _, _ => cuts_null
  | bool true, _, _ => cuts_bool true
  | bool false, _, _ => cuts_bool false
  | int n, _, _ => cuts_int n
  | text s, _, _ => cuts_quoted s
  | list items, level, h => by
    rw [Recoverable] at h
    rw [jsonAt, json, Value.tokens]
    exact cuts_bracketed (cuts_jsonItems items (level + 1) h) level rfl rfl
  | node kind parts, level, h => by
    rw [Recoverable] at h
    have hkind := cuts_pair "_type" (cuts_quoted kind)
    rw [jsonAt, json, Value.tokens, Value.tokensOfMembers]
    exact cuts_bracketed (.cons hkind (cuts_jsonParts kind parts (level + 1) h.2)) level rfl rfl
  | decimal .., _, h | literalKind _, _, h => by
    rw [Recoverable] at h
    exact h.elim

theorem cuts_jsonItems : ∀ (ds : List Document) (level : Nat), AllRecoverable ds →
    List.Forall₂ Cuts (jsonItems level ds) (Value.tokensOfItems (jsonOfItems ds))
  | [], _, _ => .nil
  | d :: ds, level, h => by
    rw [AllRecoverable] at h
    exact .cons (cuts_jsonAt d level h.1) (cuts_jsonItems ds level h.2)

theorem cuts_jsonParts (kind : String) : ∀ (parts : List (String × Document)) (level : Nat),
    PartsRecoverable kind parts →
      List.Forall₂ Cuts (jsonParts level parts) (Value.tokensOfMembers (jsonOfParts parts))
  | [], _, _ => .nil
  | (name, d) :: rest, level, h => by
    rw [PartsRecoverable] at h
    refine .cons (cuts_pair name ?_) (cuts_jsonParts kind rest level h.2)
    obtain ⟨hpart, -⟩ := h
    split at hpart
    next =>
      obtain ⟨k, rfl⟩ := hpart
      exact cuts_quoted _
    next => exact cuts_jsonAt d level hpart

end

/-- The text of a document, with a line end after it, is read as what the document says. -/
theorem read_toJson {d : Document} (h : d.Recoverable) :
    Json.read (d.toJson ++ "\n") = some d.json := by
  have hend : tokens? ['\n'] = some [] := by
    rw [tokens?_space rfl, tokens?]
  refine read_of_tokens ?_
  rw [toJson, String.toList_append, String.toList_ofList]
  show tokens? (d.jsonAt 0 ++ ['\n']) = _
  rw [cuts_jsonAt d 0 h ['\n'] fun c hc => ?_, hend]
  · exact congrArg some (List.append_nil _)
  · cases hc
    rfl

end Document

/-! ## Documents from values -/

namespace Json.Value

mutual

/-- Whether a member of an object is told by its name, in an object that is a value or lies
inside of it. -/
def Unambiguous : Value → Prop
  | array items => AllUnambiguous items
  | object members => (members.map (·.1)).Nodup ∧ MembersUnambiguous members
  | _ => True

/-- `Unambiguous` for every value of a list. -/
def AllUnambiguous : List Value → Prop
  | [] => True
  | v :: vs => v.Unambiguous ∧ AllUnambiguous vs

/-- `Unambiguous` for every member of an object. -/
def MembersUnambiguous : List (String × Value) → Prop
  | [] => True
  | (_, v) :: rest => v.Unambiguous ∧ MembersUnambiguous rest

end

/-- The kind of literal that a text names, as the constant that stands for it. -/
def literalKind? : Value → Option Document
  | string s => (LiteralKind.all.find? fun k => s == "LiteralKind." ++ k.constant).map .literalKind
  | _ => none

mutual

/-- The document that a value is: an object is the node whose kind is its first member
`_type`, and a text is a kind of literal where a literal has its kind. -/
def document? : Value → Option Document
  | null => some .null
  | bool b => some (.bool b)
  | number n exponent => if exponent = 0 then some (.int n) else none
  | string s => some (.text s)
  | array items => (documents? items).map .list
  | object ((first, string kind) :: members) =>
    if first = "_type" then (parts? kind members).map (.node kind) else none
  | object _ => none

/-- The documents that values are. -/
def documents? : List Value → Option (List Document)
  | [] => some []
  | v :: vs => v.document?.bind fun d => (documents? vs).map (d :: ·)

/-- The parts of a node of a kind that the members of an object are. -/
def parts? (kind : String) : List (String × Value) → Option (List (String × Document))
  | [] => some []
  | (name, v) :: rest =>
    (if Document.IsLiteralKind kind name then v.literalKind? else v.document?).bind fun d =>
      (parts? kind rest).map ((name, d) :: ·)

end

end Json.Value

namespace Document

open Json Value

theorem names_jsonOfParts (parts : List (String × Document)) :
    (jsonOfParts parts).map (·.1) = parts.map (·.1) := by
  induction parts with
  | nil => rfl
  | cons part rest ih => exact congrArg (part.1 :: ·) ih

mutual

/-- What a document says has members of different names. -/
theorem unambiguous_json : ∀ d : Document, d.Recoverable → d.json.Unambiguous
  | null, _ | bool _, _ | text _, _ | int _, _ => trivial
  | list items, h => by
    rw [Recoverable] at h
    exact allUnambiguous_json items h
  | node kind parts, h => by
    rw [Recoverable] at h
    rw [json, Unambiguous, List.map_cons, names_jsonOfParts]
    exact ⟨h.1, trivial, membersUnambiguous_json kind parts h.2⟩
  | decimal .., h | literalKind _, h => by
    rw [Recoverable] at h
    exact h.elim

theorem allUnambiguous_json : ∀ ds : List Document, AllRecoverable ds →
    AllUnambiguous (jsonOfItems ds)
  | [], _ => trivial
  | d :: ds, h => by
    rw [AllRecoverable] at h
    exact ⟨unambiguous_json d h.1, allUnambiguous_json ds h.2⟩

theorem membersUnambiguous_json (kind : String) : ∀ parts : List (String × Document),
    PartsRecoverable kind parts → MembersUnambiguous (jsonOfParts parts)
  | [], _ => trivial
  | (name, d) :: rest, h => by
    rw [PartsRecoverable] at h
    obtain ⟨hpart, hrest⟩ := h
    refine ⟨?_, membersUnambiguous_json kind rest hrest⟩
    split at hpart
    next =>
      obtain ⟨k, rfl⟩ := hpart
      trivial
    next => exact unambiguous_json d hpart

end

theorem literalKind?_json (k : LiteralKind) :
    (literalKind k).json.literalKind? = some (literalKind k) := by
  rw [json]
  cases k <;> rfl

mutual

/-- What a document says tells the document. -/
theorem document?_json : ∀ d : Document, d.Recoverable → d.json.document? = some d
  | null, _ | bool _, _ | text _, _ => rfl
  | int n, _ => by rw [json, document?, if_pos rfl]
  | list items, h => by
    rw [Recoverable] at h
    rw [json, document?, documents?_json items h, Option.map_some]
  | node kind parts, h => by
    rw [Recoverable] at h
    rw [json, document?, if_pos rfl, parts?_json kind parts h.2, Option.map_some]
  | decimal .., h | literalKind _, h => by
    rw [Recoverable] at h
    exact h.elim

theorem documents?_json : ∀ ds : List Document, AllRecoverable ds →
    documents? (jsonOfItems ds) = some ds
  | [], _ => rfl
  | d :: ds, h => by
    rw [AllRecoverable] at h
    rw [jsonOfItems, documents?, document?_json d h.1, documents?_json ds h.2]
    rfl

theorem parts?_json (kind : String) : ∀ parts : List (String × Document),
    PartsRecoverable kind parts → parts? kind (jsonOfParts parts) = some parts
  | [], _ => rfl
  | (name, d) :: rest, h => by
    rw [PartsRecoverable] at h
    obtain ⟨hpart, hrest⟩ := h
    have hd : (if IsLiteralKind kind name then d.json.literalKind? else d.json.document?) =
        some d := by
      split at hpart
      next hkind =>
        obtain ⟨k, rfl⟩ := hpart
        rw [if_pos hkind, literalKind?_json]
      next hkind => rw [if_neg hkind, document?_json d hpart]
    rw [jsonOfParts, parts?, hd, parts?_json kind rest hrest]
    rfl

end

end Document

end IcFront
