import IcFront.Compilation
import IcFront.Proofs.Grammar.Trees
import IcFront.Proofs.Library
import IcFront.Proofs.Syntax.ReadBack
import IcFront.Proofs.Tables.CheckedLinking
import IcFront.Proofs.Tables.ScopeTree

/-!
# Compiling, step by step

`compilePrinting` compiles a program step by step and prints on the way: the syntax tree
before the tables are built, and the two listings after that. The tables are built from
the document of the tree, whose nodes are looked at one by one (`buildTables`), and both
the construction and the listings are checked for all that might stop them.

Once the source and the library are read, nothing does: a compilation that stops has
printed nothing (`compile_stops_before_printing`).
-/

namespace IcFront

/-! ## What is printed -/

/-- Why a compilation stops. -/
inductive Stop
  | refused (e : CompileError)
  | fault (e : Fault)

/-- Steps that print and may stop. What is printed before a stop stays printed. -/
abbrev Printing := ExceptT Stop (StateM String)

namespace Printing

/-- Prints a text. -/
def print (text : String) : Printing Unit := modify (· ++ text)

/-- A step that prints nothing, and stops where it fails. -/
def orStop {ε α : Type} (reason : ε → Stop) (x : Except ε α) : Printing α :=
  match x with
  | .error e => throw (reason e)
  | .ok a => pure a

variable {ε α β : Type}

theorem run_orStop {reason : ε → Stop} {x : Except ε α} {a : α} (h : x = .ok a)
    (next : α → Printing β) (printed : String) :
    (orStop reason x >>= next).run.run printed = (next a).run.run printed := by
  subst h
  rfl

theorem run_print (text : String) (next : Unit → Printing β) (printed : String) :
    (print text >>= next).run.run printed = (next ()).run.run (printed ++ text) := rfl

end Printing

open Printing

/-- The tables of a program that is given as a document. -/
def buildTables (d : Document) (name : String) : Except Fault (SymbolTables × Program Expr) := do
  let p ← (Program.ofDocument Expr.ofDocument d).mapError .malformed
  SymbolTables.buildChecked p name

/-- Compiles a source text under a name, and prints what is asked for as soon as it is
there. -/
def compilePrinting (source name : String) (choice : LibraryChoice) (tree tables : Bool) :
    Printing SymbolTables := do
  let p ← orStop (.refused ∘ .source) (Program.parse source)
  let library ← orStop (.refused ∘ .library) choice.load
  let d := (p.withLibrary library).toDocument Expr.toDocument
  if tree then print (d.toJson ++ "\n")
  let (t, _) ← orStop .fault (buildTables d name)
  if tables then
    let symbols ← orStop .fault (t.scopes.listingChecked t.types t.globalScope)
    print (symbols ++ "\n")
    let types ← orStop (.fault ∘ .types) t.types.listing
    print types
  return t

/-- How a compilation ends, and what it has printed by then. -/
def compilePrinted (source name : String) (choice : LibraryChoice) (tree tables : Bool) :
    Except Stop SymbolTables × String :=
  (compilePrinting source name choice tree tables).run.run ""

/-! ## Tables can be printed -/

/-- Every id that printing tables meets is that of a type, which has a spelling, and all
scopes are found. -/
structure SymbolTables.Printable (t : SymbolTables) : Prop where
  symbols : ∀ s ∈ t.scopes.symbols, t.types.Holds s.type
  parts : ∀ id e, t.types.entry? id = some e → ∀ part ∈ e.parts, t.types.Holds part
  described : ∀ id, t.types.Holds id → ∃ text, t.types.describe id = .ok text
  scopes_listed : ∃ text, t.scopes.listingChecked t.types t.globalScope = .ok text ∧
    t.scopes.listing t.types t.globalScope = .ok text
  types_listed : ∃ text, t.types.listing = .ok text

theorem Symbol.listing_ok {types : TypeTable} {s : Symbol} {text : String}
    (h : types.describe s.type = .ok text) : ∃ line, s.listing types = .ok line := by
  unfold listing
  cases s.kind <;> simp only [h] <;> exact ⟨_, rfl⟩

/-- The tables of every program can be printed. -/
theorem SymbolTables.ofProgram_printable {ε : Type} (p : Program ε) (name : String) :
    (ofProgram p name).1.Printable := by
  have hsound := ofProgram_types_sound p name
  have htree := isTree_ofProgram p name
  refine ⟨fun s hs => ofProgram_holds p name hs, fun id e hid part hpart => ?_,
    fun id hid => hsound.describe hid, ?_, hsound.listing⟩
  · obtain ⟨hpos, hlt⟩ := hsound id e hid part hpart
    exact ⟨hpos, (Int.le_of_lt hlt).trans (TypeTable.holds_of_entry hid).2⟩
  · refine htree.listing_checked fun scope hscope s hs => ?_
    obtain ⟨text, htext⟩ :=
      hsound.describe (ofProgram_holds p name (List.mem_flatMap.mpr ⟨scope, hscope, hs⟩))
    exact s.listing_ok htext

/-! ## Nothing stops after parsing -/

theorem loadLibrary_standIn {path text : String} {c : ClassDecl Expr}
    (h : loadLibrary path text = .ok c) : ∀ m ∈ c.methods, ∀ f ∈ m.formals, f.standIn = none := by
  unfold loadLibrary at h
  split at h
  next p hp =>
    have hmem : c ∈ p.classes := (libraryOf_ok h).1 ▸ List.mem_singleton_self c
    exact Program.parse_standIn hp c hmem
  next => cases h

/-- A library class is read from a text too. -/
theorem exists_loadLibrary {choice : LibraryChoice} {c : ClassDecl Expr}
    (h : choice.load = .ok (some c)) : ∃ path text, loadLibrary path text = .ok c := by
  cases choice with
  | none => cases h
  | standard =>
    cases hl : loadStandard with
    | error e =>
      rw [LibraryChoice.load, hl] at h
      cases h
    | ok l =>
      rw [LibraryChoice.load, hl] at h
      cases h
      exact ⟨standardPath, standardText, hl⟩
  | file f =>
    cases hl : f.loadLibrary with
    | error e =>
      rw [LibraryChoice.load, hl] at h
      cases h
    | ok l =>
      rw [LibraryChoice.load, hl] at h
      cases h
      unfold SourceFile.loadLibrary at hl
      split at hl
      next => cases hl
      next =>
        split at hl
        next => cases hl
        next text _ => exact ⟨f.path, text, hl⟩

theorem load_standIn {choice : LibraryChoice} {c : ClassDecl Expr}
    (h : choice.load = .ok (some c)) : ∀ m ∈ c.methods, ∀ f ∈ m.formals, f.standIn = none := by
  obtain ⟨path, text, hload⟩ := exists_loadLibrary h
  exact loadLibrary_standIn hload

/-- The formal parameters of a program with its library are all its own. -/
theorem withLibrary_standIn {source : String} {p : Program Expr} {choice : LibraryChoice}
    {library : Option (ClassDecl Expr)} (hp : Program.parse source = .ok p)
    (hl : choice.load = .ok library) :
    ∀ c ∈ (p.withLibrary library).classes, ∀ m ∈ c.methods, ∀ f ∈ m.formals,
      f.standIn = none := by
  cases library with
  | none => exact Program.parse_standIn hp
  | some l =>
    intro c hc
    rcases List.mem_cons.mp hc with rfl | hc
    · exact load_standIn hl
    · exact Program.parse_standIn hp c hc

/-- What was read from texts is built, whatever name it is given. -/
theorem buildTables_eq {source : String} {p : Program Expr} {choice : LibraryChoice}
    {library : Option (ClassDecl Expr)} (hp : Program.parse source = .ok p)
    (hl : choice.load = .ok library) (name : String) :
    buildTables ((p.withLibrary library).toDocument Expr.toDocument) name =
      .ok (SymbolTables.ofProgram (p.withLibrary library) name) := by
  rw [buildTables, Program.ofDocument_toDocument Expr.readsBack (withLibrary_standIn hp hl)]
  exact SymbolTables.buildChecked_eq _ name

theorem compile_eq {source : String} {p : Program Expr} {choice : LibraryChoice}
    {library : Option (ClassDecl Expr)} (hp : Program.parse source = .ok p)
    (hl : choice.load = .ok library) (name : String) :
    ∃ log, compile source name choice = .ok ⟨p.withLibrary library,
      (SymbolTables.ofProgram (p.withLibrary library) name).1, log⟩ := by
  rw [compile, hp, hl]
  exact ⟨_, rfl⟩

/-- What is printed once the source and the library are read. -/
theorem compilePrinted_eq {source : String} {p : Program Expr} {choice : LibraryChoice}
    {library : Option (ClassDecl Expr)} (hp : Program.parse source = .ok p)
    (hl : choice.load = .ok library) (name : String) (tree tables : Bool) :
    ∃ c text, compile source name choice = .ok c ∧ c.dump tree tables = .ok text ∧
      compilePrinted source name choice tree tables = (.ok c.tables, text) := by
  obtain ⟨log, hcompile⟩ := compile_eq hp hl name
  have hbuilt := buildTables_eq hp hl name
  have hprintable := SymbolTables.ofProgram_printable (p.withLibrary library) name
  obtain ⟨symbols, hchecked, hsymbols⟩ := hprintable.scopes_listed
  obtain ⟨types, htypes⟩ := hprintable.types_listed
  refine ⟨_, (if tree then
      ((p.withLibrary library).toDocument Expr.toDocument).toJson ++ "\n" else "") ++
    if tables then symbols ++ "\n" ++ types else "", hcompile, ?_, ?_⟩
  · unfold Compilation.dump
    simp only [hsymbols, htypes]
    cases tables with
    | true => simp only [if_true, String.append_assoc]; rfl
    | false => simp only [Bool.false_eq_true, if_false, String.append_empty]; rfl
  · cases tree <;> cases tables <;>
    · rw [compilePrinted, compilePrinting, run_orStop hp, run_orStop hl]
      simp only [if_true, if_false, Bool.false_eq_true, run_print, run_orStop hbuilt,
        run_orStop hchecked, run_orStop htypes, String.append_assoc, String.empty_append,
        String.append_empty]
      rfl

/-- Once the source and the library are read, the tables are built and everything asked
for is printed. A compilation that stops has printed nothing. -/
theorem compile_stops_before_printing (source name : String) (choice : LibraryChoice)
    (tree tables : Bool) :
    (∀ p library, Program.parse source = .ok p → choice.load = .ok library →
      buildTables ((p.withLibrary library).toDocument Expr.toDocument) name =
          .ok (SymbolTables.ofProgram (p.withLibrary library) name) ∧
        (SymbolTables.ofProgram (p.withLibrary library) name).1.Printable) ∧
    (match compile source name choice with
      | .error e => compilePrinted source name choice tree tables = (.error (.refused e), "")
      | .ok c => ∃ text, c.dump tree tables = .ok text ∧
          compilePrinted source name choice tree tables = (.ok c.tables, text)) ∧
    ∀ stop, (compilePrinted source name choice tree tables).1 = .error stop →
      (compilePrinted source name choice tree tables).2 = "" := by
  refine ⟨fun p library hp hl => ⟨buildTables_eq hp hl name,
    SymbolTables.ofProgram_printable (p.withLibrary library) name⟩, ?_⟩
  cases hp : Program.parse source with
  | error e =>
    have hprinted : compilePrinted source name choice tree tables =
        (.error (.refused (.source e)), "") := by
      rw [compilePrinted, compilePrinting, hp]
      rfl
    simp only [compile, hp, hprinted, implies_true, and_true]
  | ok p =>
    cases hl : choice.load with
    | error e =>
      have hprinted : compilePrinted source name choice tree tables =
          (.error (.refused (.library e)), "") := by
        rw [compilePrinted, compilePrinting, hp, hl]
        rfl
      simp only [compile, hp, hl, hprinted, implies_true, and_true]
    | ok library =>
      obtain ⟨c, text, hc, hdump, hprinted⟩ := compilePrinted_eq hp hl name tree tables
      rw [hc, hprinted]
      exact ⟨⟨text, hdump, rfl⟩, fun stop hstop => absurd hstop (by simp)⟩

end IcFront
