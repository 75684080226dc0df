import IcFront.Proofs.Tables.ScopeTree

/-!
# The numbering of nodes

Some nodes of a syntax tree open a scope: the program, its classes, their methods, and
the blocks in the bodies of methods. `Program.openings` lists them in document order, as
they stand in the tree, each with the key that it carries. To build tables is to number
these nodes: the key of each is its position in the list (`ofProgram_numbered`).

`Program.unscoped` is a tree without its keys. It stands for all that a tree says but for
them: building tables changes nothing else in a tree, and heeds no key that is in it
already.
-/

namespace IcFront

variable {α ε : Type}

/-! ## Nodes that open a scope -/

/-- A node that opens a scope: the kind and the name of the scope, and the key that the
node carries. -/
structure Opening where
  kind : ScopeKind
  name : String
  scope : Option Nat

mutual

/-- The blocks in a statement, each before those inside it. -/
def Stmt.openings : Stmt ε → List Opening
  | .block body _ scope => ⟨.block, "", scope⟩ :: openingsOf body
  | .ifThen _ body _ => body.openings
  | .ifElse _ body otherwise _ => body.openings ++ otherwise.openings
  | .while_ _ body _ => body.openings
  | .assign .. | .call .. | .return_ .. | .break_ _ | .continue_ _ | .localVar .. => []

/-- The blocks in statements, in document order. -/
def Stmt.openingsOf : List (Stmt ε) → List Opening
  | [] => []
  | s :: ss => s.openings ++ openingsOf ss

end

/-- A method and the blocks in it. -/
def Method.openings (m : Method ε) : List Opening :=
  ⟨.method, m.name, m.scope⟩ :: Stmt.openingsOf m.form.body

/-- A class, and what opens a scope in it. -/
def ClassDecl.openings (c : ClassDecl ε) : List Opening :=
  ⟨.class_, c.name, c.scope⟩ :: c.methods.flatMap Method.openings

/-- The nodes of a program that open a scope, in document order, the first of them the
program itself under the name that its tables are given. -/
def Program.openings (p : Program ε) (name : String) : List Opening :=
  ⟨.global, name, p.scope⟩ :: p.classes.flatMap ClassDecl.openings

/-- Nodes that carry keys one after the other, the first of them `key`. -/
def Opening.numbered (key : Nat) (os : List Opening) : List Opening :=
  (os.zipIdx key).map fun o => { o.1 with scope := some o.2 }

/-! ## Trees without keys -/

mutual

/-- A statement without keys. -/
def Stmt.unscoped : Stmt ε → Stmt ε
  | .block body line _ => .block (unscopedAll body) line none
  | .ifThen condition body line => .ifThen condition body.unscoped line
  | .ifElse condition body otherwise line =>
    .ifElse condition body.unscoped otherwise.unscoped line
  | .while_ condition body line => .while_ condition body.unscoped line
  | .assign target value line => .assign target value line
  | .call e line => .call e line
  | .return_ value line => .return_ value line
  | .break_ line => .break_ line
  | .continue_ line => .continue_ line
  | .localVar type name initial line => .localVar type name initial line

/-- Statements without keys. -/
def Stmt.unscopedAll : List (Stmt ε) → List (Stmt ε)
  | [] => []
  | s :: ss => s.unscoped :: unscopedAll ss

end

/-- A method without keys. -/
def Method.unscoped (m : Method ε) : Method ε :=
  { m with form := m.form.withBody (Stmt.unscopedAll m.form.body), scope := none }

/-- A class without keys. -/
def ClassDecl.unscoped (c : ClassDecl ε) : ClassDecl ε :=
  { c with methods := c.methods.map Method.unscoped, scope := none }

/-- A program without keys. -/
def Program.unscoped (p : Program ε) : Program ε :=
  { p with classes := p.classes.map ClassDecl.unscoped, scope := none }

namespace Opening

@[simp] theorem numbered_nil (key : Nat) : numbered key [] = [] := rfl

@[simp] theorem numbered_cons (key : Nat) (o : Opening) (os : List Opening) :
    numbered key (o :: os) = { o with scope := some key } :: numbered (key + 1) os := rfl

theorem numbered_append (key : Nat) (os os' : List Opening) :
    numbered key (os ++ os') = numbered key os ++ numbered (key + os.length) os' := by
  rw [numbered, List.zipIdx_append, List.map_append, numbered, numbered]

end Opening

/-- A form takes any body, or it is that of a library method, which has none. -/
theorem MethodForm.body_withBody (form : MethodForm ε) {f : List (Stmt ε) → List (Stmt ε)}
    (hf : f [] = []) : (form.withBody (f form.body)).body = f form.body := by
  cases form with
  | library => exact hf.symm
  | _ => rfl

theorem MethodForm.withBody_withBody (form : MethodForm ε) (body body' : List (Stmt ε)) :
    (form.withBody body).withBody body' = form.withBody body' := by
  cases form <;> rfl

/-! ## Nodes and regions -/

section Titles

open Outline

/-- The regions of outlines have the kinds and the names of nodes. -/
def SameTitles (rs : List Region) (os : List Opening) : Prop :=
  rs.map (fun r => (r.kind, r.name)) = os.map fun o => (o.kind, o.name)

theorem SameTitles.append {rs rs' : List Region} {os os' : List Opening} (h : SameTitles rs os)
    (h' : SameTitles rs' os') : SameTitles (rs ++ rs') (os ++ os') := by
  unfold SameTitles at *
  rw [List.map_append, List.map_append, h, h']

theorem SameTitles.cons {rs : List Region} {os : List Opening} (h : SameTitles rs os) (r : Region)
    (scope : Option Nat) : SameTitles (r :: rs) (⟨r.kind, r.name, scope⟩ :: os) :=
  congrArg ((r.kind, r.name) :: ·) h

theorem SameTitles.length_eq {rs : List Region} {os : List Opening} (h : SameTitles rs os) :
    rs.length = os.length := by
  have hlen := congrArg List.length h
  rwa [List.length_map, List.length_map] at hlen

/-- Side by side there are as many nodes as regions, if there are for each. -/
theorem sameTitles_map {f : α → Outline} {g : α → List Opening}
    (h : ∀ x outer key, SameTitles ((f x).regions outer key) (g x)) (outer : Option Nat)
    (key : Nat) (xs : List α) : SameTitles (regionsOf outer key (xs.map f)) (xs.flatMap g) := by
  induction xs generalizing key with
  | nil => rfl
  | cons x xs ih =>
    rw [List.map_cons, regionsOf, List.flatMap_cons]
    exact (h x outer key).append (ih _)

mutual

theorem Stmt.sameTitles_blocks (outer : Option Nat) (key : Nat) :
    ∀ s : Stmt ε, SameTitles (regionsOf outer key s.blocks) s.openings
  | .block body _ scope => by
    rw [Stmt.blocks, Stmt.openings, regionsOf, regions, regionsOf, List.append_nil]
    exact (Stmt.sameTitles_blocksOf (some key) (key + 1) body).cons _ scope
  | .ifThen _ body _ => by
    rw [Stmt.blocks, Stmt.openings]
    exact Stmt.sameTitles_blocks outer key body
  | .ifElse _ body otherwise _ => by
    rw [Stmt.blocks, Stmt.openings, regionsOf_append]
    exact (Stmt.sameTitles_blocks outer key body).append
      (Stmt.sameTitles_blocks outer _ otherwise)
  | .while_ _ body _ => by
    rw [Stmt.blocks, Stmt.openings]
    exact Stmt.sameTitles_blocks outer key body
  | .assign .. | .call .. | .return_ .. | .break_ _ | .continue_ _ | .localVar .. => by
    rw [Stmt.blocks, Stmt.openings]
    · rfl
    all_goals simp

theorem Stmt.sameTitles_blocksOf (outer : Option Nat) (key : Nat) :
    ∀ ss : List (Stmt ε), SameTitles (regionsOf outer key (Stmt.blocksOf ss)) (Stmt.openingsOf ss)
  | [] => rfl
  | s :: ss => by
    rw [Stmt.blocksOf, Stmt.openingsOf, regionsOf_append]
    exact (Stmt.sameTitles_blocks outer key s).append (Stmt.sameTitles_blocksOf outer _ ss)

end

theorem Method.sameTitles (m : Method ε) (outer : Option Nat) (key : Nat) :
    SameTitles (m.outline.regions outer key) m.openings :=
  (Stmt.sameTitles_blocksOf (some key) (key + 1) m.form.body).cons _ m.scope

theorem ClassDecl.sameTitles (c : ClassDecl ε) (outer : Option Nat) (key : Nat) :
    SameTitles (c.outline.regions outer key) c.openings :=
  (sameTitles_map Method.sameTitles (some key) (key + 1) c.methods).cons _ c.scope

theorem Program.sameTitles (p : Program ε) (name : String) :
    SameTitles (p.regions name) (p.openings name) :=
  (sameTitles_map ClassDecl.sameTitles (some 0) 1 p.classes).cons _ p.scope

theorem Stmt.length_openings (s : Stmt ε) : s.openings.length = sizes s.blocks := by
  rw [← (Stmt.sameTitles_blocks none 0 s).length_eq, length_regionsOf]

theorem Method.length_openings (m : Method ε) : m.openings.length = m.outline.size := by
  rw [← (m.sameTitles none 0).length_eq, length_regions]

theorem ClassDecl.length_openings (c : ClassDecl ε) : c.openings.length = c.outline.size := by
  rw [← (c.sameTitles none 0).length_eq, length_regions]

end Titles

/-! ## Numbering while tables are made -/

namespace Draft

open TypeTable Outline Opening

variable {declared : List String}

mutual

/-- The blocks in a statement are numbered, and nothing else changes in it. -/
theorem statement_numbered (d : Draft) (hK : d.types.Knows declared) : ∀ s : Stmt ε,
    (d.statement s).2.1.openings = numbered d.scopes.size s.openings ∧
      (d.statement s).2.1.unscoped = s.unscoped
  | .block body line _ => by
    have hbody := statements_numbered (d.newScope .block "").1
      (newScope_lt_size d .block "") hK body
    rw [size_newScope] at hbody
    rw [statement, Stmt.openings, Stmt.openings, Stmt.unscoped, Stmt.unscoped, hbody.1, hbody.2]
    exact ⟨rfl, rfl⟩
  | .ifThen _ body _ => by
    have hbody := statement_numbered d hK body
    rw [statement, Stmt.openings, Stmt.openings, Stmt.unscoped, Stmt.unscoped, hbody.1, hbody.2]
    exact ⟨rfl, rfl⟩
  | .ifElse _ body otherwise _ => by
    have hbody := statement_numbered d hK body
    have hotherwise := statement_numbered (d.statement body).1
      (hK.of_grows (grows_statement d body)) otherwise
    -- The other branch goes on where the first one stopped.
    rw [(statement_eq d hK body (.refl _)).1, Arena.size_extend, length_orphans,
      ← Stmt.length_openings] at hotherwise
    rw [statement, Stmt.openings, Stmt.openings, Stmt.unscoped, Stmt.unscoped, hbody.1, hbody.2,
      hotherwise.1, hotherwise.2, numbered_append]
    exact ⟨rfl, rfl⟩
  | .while_ _ body _ => by
    have hbody := statement_numbered d hK body
    rw [statement, Stmt.openings, Stmt.openings, Stmt.unscoped, Stmt.unscoped, hbody.1, hbody.2]
    exact ⟨rfl, rfl⟩
  | .localVar .. => by
    rw [statement]
    exact ⟨rfl, rfl⟩
  | .assign .. | .call .. | .return_ .. | .break_ _ | .continue_ _ => by
    rw [statement]
    · exact ⟨rfl, rfl⟩
    all_goals simp

/-- The blocks in statements are numbered one after the other. -/
theorem statements_numbered (d : Draft) {key : Nat} (hkey : key < d.scopes.size)
    (hK : d.types.Knows declared) : ∀ ss : List (Stmt ε),
    Stmt.openingsOf (d.statements key ss).2 = numbered d.scopes.size (Stmt.openingsOf ss) ∧
      Stmt.unscopedAll (d.statements key ss).2 = Stmt.unscopedAll ss
  | [] => ⟨rfl, rfl⟩
  | s :: ss => by
    have hone := statement_numbered d hK s
    have hscopes := (statement_eq d hK s (.refl _)).1
    have hsize : ((d.statement s).1.receive key (d.statement s).2.2).scopes.size =
        d.scopes.size + s.openings.length := by
      have hlt : key < (d.statement s).1.scopes.size := by
        rw [hscopes, Arena.size_extend]
        omega
      rw [receive_scopes _ _ hlt, Arena.size_modify, hscopes, Arena.size_extend, length_orphans,
        Stmt.length_openings]
    have hlt : key < ((d.statement s).1.receive key (d.statement s).2.2).scopes.size := by
      rw [hsize]
      omega
    have hrest := statements_numbered ((d.statement s).1.receive key (d.statement s).2.2) hlt
      (by rw [receive_types]; exact hK.of_grows (grows_statement d s)) ss
    rw [hsize] at hrest
    rw [statements, Stmt.openingsOf, Stmt.openingsOf, Stmt.unscopedAll, Stmt.unscopedAll,
      numbered_append, hone.1, hone.2, hrest.1, hrest.2]
    exact ⟨rfl, rfl⟩

end

/-- A method is numbered, and then the blocks in it. -/
theorem methodScope_numbered (d : Draft) (hK : d.types.Knows declared) (m : Method ε) :
    (d.methodScope m).2.1.openings = numbered d.scopes.size m.openings ∧
      (d.methodScope m).2.1.unscoped = m.unscoped := by
  -- The tables when the parameters are entered and the body is not worked through yet.
  let start := m.formals.foldl (fun e f => e.parameter (d.newScope .method m.name).2 f)
    (d.newScope .method m.name).1
  let body := (start.statements (d.newScope .method m.name).2 m.form.body).2
  have hkey := newScope_lt_size d .method m.name
  have hstart : start.scopes = _ := foldl_enter_scopes Formal.declaration (·.type) (fun _ => rfl)
    (d.newScope .method m.name).1 hkey hK m.formals (.refl _)
  have hgrows : TypeTable.Grows _ start.types :=
    grows_foldl_enter Formal.declaration (·.type) (d.newScope .method m.name).1 _ m.formals
  have hbody := statements_numbered start (by rw [hstart, Arena.size_modify]; exact hkey)
    (hK.of_grows hgrows) m.form.body
  rw [hstart, Arena.size_modify, size_newScope] at hbody
  have hform : (m.form.withBody body).body = body :=
    m.form.body_withBody (f := fun ss => (start.statements _ ss).2) rfl
  refine ⟨?_, ?_⟩
  · show ⟨.method, m.name, some d.scopes.size⟩ :: Stmt.openingsOf (m.form.withBody body).body = _
    rw [hform]
    exact congrArg (_ :: ·) hbody.1
  · show { m with
      form := (m.form.withBody body).withBody (Stmt.unscopedAll (m.form.withBody body).body)
      scope := none } = _
    rw [hform, MethodForm.withBody_withBody]
    exact congrArg (fun body => { m with form := m.form.withBody body, scope := none }) hbody.2

theorem method_numbered (d : Draft) (hK : d.types.Knows declared) (key : Nat) (m : Method ε) :
    (d.method key m).2.openings = numbered d.scopes.size m.openings ∧
      (d.method key m).2.unscoped = m.unscoped := by
  have hscope := methodScope_numbered (d.signature m).1 (hK.of_grows (grows_signature d m)) m
  rw [signature_scopes] at hscope
  have hresult : (d.method key m).2 = ((d.signature m).1.methodScope m).2.1 := by
    unfold method
    cases h : (d.signature m).2 <;> simp only [h]
  rw [hresult]
  exact hscope

theorem methods_numbered (d : Draft) {key : Nat} (hkey : key < d.scopes.size)
    (hK : d.types.Knows declared) (ms : List (Method ε)) :
    (d.methods key ms).2.flatMap Method.openings =
        numbered d.scopes.size (ms.flatMap Method.openings) ∧
      (d.methods key ms).2.map Method.unscoped = ms.map Method.unscoped := by
  induction ms generalizing d with
  | nil => exact ⟨rfl, rfl⟩
  | cons m ms ih =>
    have hone := method_numbered d hK key m
    have hsize : (d.method key m).1.scopes.size = d.scopes.size + m.openings.length := by
      rw [method_scopes d hkey hK m (.refl _), Arena.size_extend, Arena.size_modify,
        length_scopesOf_singleton, Method.length_openings]
    have hrest := ih (d.method key m).1 (by rw [hsize]; omega) (hK.of_grows (grows_method d key m))
    rw [hsize] at hrest
    rw [methods, List.flatMap_cons, List.flatMap_cons, List.map_cons, List.map_cons,
      numbered_append, hone.1, hone.2, hrest.1, hrest.2]
    exact ⟨rfl, rfl⟩

/-- A class is numbered, and then what opens a scope in it. -/
theorem classScope_numbered (d : Draft) (hK : d.types.Knows declared) (c : ClassDecl ε)
    (type : TypeId) :
    (d.classScope c type).2.decl.openings = numbered d.scopes.size c.openings ∧
      (d.classScope c type).2.decl.unscoped = c.unscoped := by
  have hkey := newScope_lt_size d .class_ c.name
  have hfields := foldl_enter_scopes Field.declaration (·.type) (fun _ => rfl)
    (d.newScope .class_ c.name).1 hkey hK c.fields (.refl _)
  have hgrows := grows_foldl_enter Field.declaration (·.type) (d.newScope .class_ c.name).1
    (d.newScope .class_ c.name).2 c.fields
  have hmethods := methods_numbered _ (by rw [hfields, Arena.size_modify]; exact hkey)
    (hK.of_grows hgrows) c.methods
  rw [hfields, Arena.size_modify, size_newScope] at hmethods
  exact ⟨congrArg (_ :: ·) hmethods.1,
    congrArg (fun methods => { c with methods, scope := none }) hmethods.2⟩

theorem classScopes_numbered (d : Draft) (hK : d.types.Knows declared)
    (cs : List (ClassDecl ε × TypeId)) :
    (d.classScopes cs).2.flatMap (·.decl.openings) =
        numbered d.scopes.size (cs.flatMap (·.1.openings)) ∧
      (d.classScopes cs).2.map (·.decl.unscoped) = cs.map (·.1.unscoped) := by
  induction cs generalizing d with
  | nil => exact ⟨rfl, rfl⟩
  | cons c cs ih =>
    have hone := classScope_numbered d hK c.1 c.2
    have hsize : (d.classScope c.1 c.2).1.scopes.size = d.scopes.size + c.1.openings.length := by
      rw [classScope_scopes d hK c.1 c.2 (.refl _), Arena.size_extend, length_scopesOf_singleton,
        ClassDecl.length_openings]
    have hrest := ih (d.classScope c.1 c.2).1 (hK.of_grows (grows_classScope d c.1 c.2))
    rw [hsize] at hrest
    rw [classScopes, List.flatMap_cons, List.flatMap_cons, List.map_cons, List.map_cons,
      numbered_append, hone.1, hone.2, hrest.1, hrest.2]
    exact ⟨rfl, rfl⟩

/-! ## Keys that are there already -/

mutual

/-- A statement is worked through the same whatever keys are in it. -/
theorem statement_unscoped (d : Draft) : ∀ s : Stmt ε, d.statement s.unscoped = d.statement s
  | .block body _ _ => by
    rw [Stmt.unscoped, statement, statement]
    simp only [statements_unscoped _ _ body]
  | .ifThen _ body _ => by
    rw [Stmt.unscoped, statement, statement, statement_unscoped d body]
  | .ifElse _ body otherwise _ => by
    rw [Stmt.unscoped, statement, statement, statement_unscoped d body]
    simp only [statement_unscoped (d.statement body).1 otherwise]
  | .while_ _ body _ => by
    rw [Stmt.unscoped, statement, statement, statement_unscoped d body]
  | .assign .. | .call .. | .return_ .. | .break_ _ | .continue_ _ | .localVar .. => by
    rw [Stmt.unscoped]

theorem statements_unscoped (d : Draft) (key : Nat) : ∀ ss : List (Stmt ε),
    d.statements key (Stmt.unscopedAll ss) = d.statements key ss
  | [] => rfl
  | s :: ss => by
    rw [Stmt.unscopedAll, statements, statements, statement_unscoped d s]
    simp only [statements_unscoped _ key ss]

end

theorem methodScope_unscoped (d : Draft) (m : Method ε) :
    d.methodScope m.unscoped = d.methodScope m := by
  have hbody : m.unscoped.form.body = Stmt.unscopedAll m.form.body :=
    m.form.body_withBody (f := Stmt.unscopedAll) rfl
  unfold methodScope
  rw [hbody]
  simp only [statements_unscoped]
  simp only [Method.unscoped, MethodForm.withBody_withBody]

theorem method_unscoped (d : Draft) (key : Nat) (m : Method ε) :
    d.method key m.unscoped = d.method key m := by
  have hsignature : d.signature m.unscoped = d.signature m := rfl
  unfold method
  rw [hsignature]
  simp only [methodScope_unscoped]

theorem methods_unscoped (d : Draft) (key : Nat) (ms : List (Method ε)) :
    d.methods key (ms.map Method.unscoped) = d.methods key ms := by
  induction ms generalizing d with
  | nil => rfl
  | cons m ms ih =>
    rw [List.map_cons, methods, methods, method_unscoped]
    simp only [ih]

theorem classScope_unscoped (d : Draft) (c : ClassDecl ε) (type : TypeId) :
    d.classScope c.unscoped type = d.classScope c type := by
  unfold classScope
  simp only [ClassDecl.unscoped, methods_unscoped]

theorem classScopes_unscoped (d : Draft) (cs : List (ClassDecl ε × TypeId)) :
    d.classScopes (cs.map fun c => (c.1.unscoped, c.2)) = d.classScopes cs := by
  induction cs generalizing d with
  | nil => rfl
  | cons c cs ih =>
    rw [List.map_cons, classScopes, classScopes, classScope_unscoped]
    simp only [ih]

theorem registerAll_unscoped (d : Draft) (key : Nat) (cs : List (ClassDecl ε)) :
    d.registerAll key (cs.map ClassDecl.unscoped) =
      ((d.registerAll key cs).1, (d.registerAll key cs).2.map fun c => (c.1.unscoped, c.2)) := by
  induction cs generalizing d with
  | nil => rfl
  | cons c cs ih =>
    have hregister : d.register key c.unscoped = d.register key c := rfl
    rw [List.map_cons, registerAll, registerAll, hregister]
    simp only [ih]
    rfl

end Draft

/-! ## The numbered program -/

namespace SymbolTables

theorem unlinked_unscoped (p : Program ε) (name : String) :
    unlinked p.unscoped name = unlinked p name := by
  have hregistered : registered p.unscoped name =
      ((registered p name).1, (registered p name).2.map fun c => (c.1.unscoped, c.2)) :=
    Draft.registerAll_unscoped _ _ p.classes
  rw [unlinked, unlinked, hregistered, Draft.classScopes_unscoped]

/-- The program that comes with its tables is the one that was given, with other
classes. -/
theorem ofProgram_snd (p : Program ε) (name : String) :
    (ofProgram p name).2 =
      { p with classes := (unlinked p name).2.map (·.decl), scope := some 0 } := rfl

/-- The nodes of the program that comes with its tables have the positions of their scopes
as keys, and are otherwise those that were given. -/
theorem ofProgram_snd_openings (p : Program ε) (name : String) :
    (ofProgram p name).2.openings name = Opening.numbered 0 (p.openings name) ∧
      (ofProgram p name).2.unscoped = p.unscoped := by
  obtain ⟨hopenings, hunscoped⟩ :=
    Draft.classScopes_numbered _ (registered_knows p name) (registered p name).2
  have hsize : (registered p name).1.scopes.size = 1 := by
    rw [registered_scopes p.declared p name (.refl _)]
    rfl
  rw [hsize, List.flatMap_def, List.flatMap_def, registered_map_fst p name ClassDecl.openings,
    ← List.flatMap_def, ← List.flatMap_def] at hopenings
  rw [registered_map_fst p name ClassDecl.unscoped] at hunscoped
  constructor
  · show ⟨.global, name, some 0⟩ ::
      ((unlinked p name).2.map ScopedClass.decl).flatMap ClassDecl.openings = _
    rw [List.flatMap_map]
    exact congrArg (_ :: ·) hopenings
  · show { p with
      classes := ((unlinked p name).2.map ScopedClass.decl).map ClassDecl.unscoped
      scope := none } = _
    rw [List.map_map]
    exact congrArg (fun classes => { p with classes, scope := none }) hunscoped

/-- Keys that a program has already make no difference to its tables. -/
theorem ofProgram_unscoped (p : Program ε) (name : String) :
    ofProgram p.unscoped name = ofProgram p name := by
  refine Prod.ext ?_ ?_
  · rw [ofProgram_fst, ofProgram_fst, unlinked_unscoped]
  · rw [ofProgram_snd, ofProgram_snd, unlinked_unscoped]
    rfl

/-- Building the tables of a program numbers the nodes that open a scope, in document
order. Each has as its key the position of its scope, which has its kind and name, and
there are no other scopes. Nothing else in the tree changes, and keys that it had before
make no difference. -/
theorem ofProgram_numbered (p : Program ε) (name : String) :
    let t := (ofProgram p name).1
    let q := (ofProgram p name).2
    q.openings name = Opening.numbered 0 (p.openings name) ∧
      t.scopes.size = (p.openings name).length ∧
      t.scopes.scopes.map (fun s => (s.kind, s.name)) =
        (p.openings name).map (fun o => (o.kind, o.name)) ∧
      q.unscoped = p.unscoped ∧
      ofProgram p.unscoped name = ofProgram p name := by
  intro t q
  have h := linked_linkedTo p name (Nat.le_refl p.classes.length)
  have htitles : t.scopes.scopes.map (fun s => (s.kind, s.name)) =
      (p.openings name).map fun o => (o.kind, o.name) := by
    have hregions := congrArg (List.map fun x => (x.1, x.2.1)) h.map_regions
    rw [List.map_map, List.map_map] at hregions
    show (ofProgram p name).1.scopes.scopes.map _ = _
    rw [ofProgram_scopes]
    exact hregions.trans (p.sameTitles name)
  obtain ⟨hopenings, hunscoped⟩ := ofProgram_snd_openings p name
  have hlen := congrArg List.length htitles
  rw [List.length_map, List.length_map] at hlen
  exact ⟨hopenings, hlen, htitles, hunscoped, ofProgram_unscoped p name⟩

end SymbolTables

end IcFront
