import IcFront.Proofs.Separators
import IcFront.Proofs.Steps
import IcFront.Proofs.Types.Unambiguous
import IcFront.Scopes.Listing

/-!
# Sections of a listing

What the section of a scope is made of is a `Panel`: a heading, a line for each symbol, and
a line that names the children. If nothing in it looks like a separator (`Panel.Plain`), its
parts can be read back. The heading tells the kind and the name (`Panel.eq_of_heading`), and
the lines below it tell the symbols and what the children are called (`Panel.Plain.eq_of_body`).

A line of a symbol is cut at the colon and then at a space. But for methods the name comes
last, and there are spaces in the types of methods, so that one side of the space has none
in both cases (`SymbolText.Plain.eq_of_text`).
-/

namespace IcFront

/-! ## Lines of symbols -/

/-- What the line of a symbol shows. -/
structure SymbolText where
  kind : SymbolKind
  name : String
  type : String

namespace SymbolText

variable {x y : SymbolText}

/-- What stands behind the kind of a symbol. -/
def words (x : SymbolText) : String :=
  match x.kind with
  | .class_ => x.name
  | .virtualMethod | .staticMethod => x.name ++ (" " ++ x.type)
  | .field | .parameter | .localVariable => x.type ++ (" " ++ x.name)

/-- The line of a symbol, without what it is indented by. -/
def text (x : SymbolText) : String := x.kind.text ++ (": " ++ x.words)

/-- What the line of a symbol shows can be read back. -/
structure Plain (x : SymbolText) : Prop where
  line : '\n' ∉ x.name.toList ∧ '\n' ∉ x.type.toList
  classType : x.kind = .class_ → x.type = x.name
  nameSpace : ' ' ∉ x.name.toList
  typeSpace : x.kind.isMethod = false → ' ' ∉ x.type.toList

theorem Plain.eq_of_words (h : x.Plain) (h' : y.Plain) (hkind : x.kind = y.kind)
    (heq : x.words = y.words) : x.name = y.name ∧ x.type = y.type := by
  unfold words at heq
  rw [← hkind] at heq
  cases hx : x.kind with
  | class_ =>
    simp only [hx] at heq
    rw [h.classType hx, h'.classType (hkind ▸ hx)]
    exact ⟨heq, heq⟩
  | virtualMethod | staticMethod =>
    simp only [hx] at heq
    exact eq_of_cut_text rfl h.nameSpace h'.nameSpace heq
  | field | parameter | localVariable =>
    simp only [hx] at heq
    have hspace := h.typeSpace (by rw [hx]; rfl)
    have hspace' := h'.typeSpace (by rw [← hkind, hx]; rfl)
    exact (eq_of_cut_text rfl hspace hspace' heq).symm

/-- Lines of symbols are the same only if they show the same. -/
theorem Plain.eq_of_text (h : x.Plain) (h' : y.Plain) (heq : x.text = y.text) : x = y := by
  have hcolon : ∀ kind : SymbolKind, ':' ∉ kind.text.toList := by
    intro kind
    cases kind <;> decide
  obtain ⟨hkindText, hwords⟩ := eq_of_cut_text rfl (hcolon _) (hcolon _) heq
  have hkind : x.kind = y.kind := by
    revert hkindText
    cases x.kind <;> cases y.kind <;> simp [SymbolKind.text]
  obtain ⟨hname, htype⟩ := h.eq_of_words h' hkind hwords
  obtain ⟨kind, name, type⟩ := x
  obtain ⟨kind', name', type'⟩ := y
  exact SymbolText.mk.injEq .. ▸ ⟨hkind, hname, htype⟩

theorem Plain.newline_not_mem (h : x.Plain) : '\n' ∉ x.text.toList := by
  have hkind : '\n' ∉ x.kind.text.toList := by cases x.kind <;> decide
  have hwords : '\n' ∉ x.words.toList := by
    unfold words
    split <;> simp [h.line.1, h.line.2]
  simp [text, hkind, hwords]

end SymbolText

/-! ## Sections -/

/-- What the section of a scope shows. -/
structure Panel where
  kind : ScopeKind
  title : String
  place : String
  symbols : List SymbolText
  labels : List String

namespace Panel

variable {p q : Panel}

/-- The heading of a section. -/
def heading (p : Panel) : String :=
  match p.kind with
  | .block => "Statement Block Symbol Table ( located in " ++ p.place ++ " )"
  | kind => kind.text ++ " Symbol Table: " ++ p.title

/-- The lines of symbols, which are indented. -/
def symbolLines (p : Panel) : List String := p.symbols.map fun x => "    " ++ x.text

/-- The line that names the children, if there are any. -/
def childrenLine (p : Panel) : List String :=
  if p.labels.isEmpty then [] else ["Children tables: " ++ ", ".intercalate p.labels]

/-- The lines below the heading. -/
def body (p : Panel) : List String := p.symbolLines ++ p.childrenLine

/-- What a section shows can be read back. -/
structure Plain (p : Panel) : Prop where
  block : p.kind = .block → p.title = "" ∧ '\n' ∉ p.place.toList
  symbols : ∀ x ∈ p.symbols, x.Plain
  labels : ∀ label ∈ p.labels, ',' ∉ label.toList ∧ '\n' ∉ label.toList

/-- A heading tells the kind and the name. -/
theorem eq_of_heading (h : p.Plain) (h' : q.Plain) (heq : p.heading = q.heading) :
    p.kind = q.kind ∧ p.title = q.title := by
  unfold heading at heq
  have hkind : p.kind = q.kind := by
    -- The first letters of the headings differ.
    have hhead := congrArg (fun text : String => text.toList.head?) heq
    revert hhead
    cases p.kind <;> cases q.kind <;> simp [ScopeKind.text]
  refine ⟨hkind, ?_⟩
  by_cases hblock : p.kind = .block
  · rw [(h.block hblock).1, (h'.block (hkind ▸ hblock)).1]
  · rw [← hkind] at heq
    have hsame : p.kind.text ++ " Symbol Table: " ++ p.title =
        p.kind.text ++ " Symbol Table: " ++ q.title := by
      split at heq
      next hp => exact absurd hp hblock
      next => exact heq
    exact (String.append_right_inj _).mp hsame

theorem eq_of_childrenLine (h : p.Plain) (h' : q.Plain) (heq : p.childrenLine = q.childrenLine) :
    p.labels = q.labels := by
  have hp := fun label hlabel => (h.labels label hlabel).1
  have hq := fun label hlabel => (h'.labels label hlabel).1
  unfold childrenLine at heq
  cases hlabels : p.labels with
  | nil => cases hlabels' : q.labels with
    | nil => rfl
    | cons label' labels' => simp [hlabels, hlabels'] at heq
  | cons label labels => cases hlabels' : q.labels with
    | nil => simp [hlabels, hlabels'] at heq
    | cons label' labels' =>
      rw [hlabels] at heq hp
      rw [hlabels'] at heq hq
      have hnames := (String.append_right_inj _).mp (List.cons.inj heq).1
      exact eq_of_intercalate rfl (by decide) hp hq hnames

/-- The lines below the heading tell the symbols and what the children are called. -/
theorem eq_of_body (h : p.Plain) (h' : q.Plain) (heq : p.body = q.body) :
    p.symbols = q.symbols ∧ p.labels = q.labels := by
  -- Lines of symbols are indented, and the one of the children is not.
  let indented (line : String) : Bool := line.toList.head? == some ' '
  have hsymbols : ∀ r : Panel, ∀ line ∈ r.symbolLines, indented line = true := by
    intro r
    exact List.forall_mem_map.mpr fun x _ => by simp [indented]
  have hchildren : ∀ r : Panel, ∀ line ∈ r.childrenLine.head?, indented line = false := by
    intro r line hline
    unfold childrenLine at hline
    split at hline
    next => cases hline
    next =>
      obtain rfl := Option.some.inj hline
      simp [indented]
  obtain ⟨hlines, hline⟩ :=
    eq_of_cut (hsymbols p) (hsymbols q) (hchildren p) (hchildren q) heq
  refine ⟨(eq_of_map_eq (fun x hx y hy htext => ?_) hlines).1, eq_of_childrenLine h h' hline⟩
  exact (h.symbols x hx).eq_of_text (h'.symbols y hy) ((String.append_right_inj _).mp htext)

namespace Plain

variable (h : p.Plain)
include h

theorem isLine_body : ∀ line ∈ p.body, IsLine line := by
  intro line hline
  rcases List.mem_append.mp hline with hsymbol | hchildren
  · obtain ⟨x, hx, rfl⟩ := List.mem_map.mp hsymbol
    exact ⟨fun heq => by simpa using congrArg String.toList heq,
      by simp [(h.symbols x hx).newline_not_mem]⟩
  · unfold childrenLine at hchildren
    split at hchildren
    next => cases hchildren
    next =>
      obtain rfl := List.mem_singleton.mp hchildren
      have hnames : '\n' ∉ (", ".intercalate p.labels).toList :=
        not_mem_intercalate (by decide) fun label hlabel => (h.labels label hlabel).2
      refine ⟨fun heq => by simpa using congrArg String.toList heq, ?_⟩
      rw [String.toList_append, List.mem_append, not_or]
      exact ⟨by decide, hnames⟩

theorem isLine_heading (htitle : '\n' ∉ p.title.toList) : IsLine p.heading := by
  have hkind : '\n' ∉ p.kind.text.toList := by cases p.kind <;> decide
  unfold heading
  split
  next hblock =>
    have hplace := (h.block hblock).2
    exact ⟨fun heq => by simpa using congrArg String.toList heq, by simp [hplace]⟩
  next =>
    exact ⟨fun heq => by simpa using congrArg String.toList heq, by simp [hkind, htitle]⟩

end Plain

end Panel

/-! ## The sections of an arena -/

namespace Arena

/-- What the section of a scope shows. -/
def panel (a : Arena) (types : TypeTable) (s : Scope) : Panel where
  kind := s.kind
  title := s.name
  place := match s.parent with
    | some parent => a.label parent
    | none => "?"
  symbols := s.symbols.map fun x => ⟨x.kind, x.name, types.spelled x.type⟩
  labels := s.children.map a.label

theorem heading_panel (a : Arena) (types : TypeTable) (s : Scope) :
    (a.panel types s).heading = a.heading s := rfl

theorem childrenLine_panel (a : Arena) (types : TypeTable) (s : Scope) :
    (a.panel types s).childrenLine = a.childrenLine s := by
  rw [Panel.childrenLine, childrenLine, panel, List.isEmpty_map]

theorem listing_symbol {types : TypeTable} {x : Symbol}
    (h : types.describe x.type = .ok (types.spelled x.type)) :
    x.listing types = .ok (SymbolText.text ⟨x.kind, x.name, types.spelled x.type⟩) := by
  unfold Symbol.listing SymbolText.text SymbolText.words
  cases x.kind <;> simp [h, String.append_assoc]

/-- If all types of symbols are described, a section shows them. -/
theorem section_eq {a : Arena} {types : TypeTable} {k : Nat} {s : Scope} (hs : a.get? k = some s)
    (h : ∀ x ∈ s.symbols, types.describe x.type = .ok (types.spelled x.type)) :
    a.section_ types k =
      .ok ("\n".intercalate ((a.panel types s).heading :: (a.panel types s).body)) := by
  have hsymbols : s.symbols.mapM (Symbol.listing types) =
      .ok ((a.panel types s).symbols.map SymbolText.text) := by
    rw [panel, List.map_map]
    exact mapM_eq_map fun x hx => listing_symbol (h x hx)
  rw [section_, hs, Panel.body, Panel.symbolLines, childrenLine_panel, heading_panel]
  simp only [hsymbols]
  refine congrArg (fun lines => Except.ok ("\n".intercalate (a.heading s :: lines ++ _))) ?_
  exact List.map_map

end Arena

end IcFront
