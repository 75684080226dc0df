import IcFront.Proofs.Review
import IcFront.Proofs.Tables.Linkage

/-!
# What is reported

Every step of making the tables reports what is rejected of the items that it
looks at, and nothing else (`Draft.Reports`); so the diagnostics of a program are
the rejections of its items, in order, and then those of superclasses
(`diagnostics_eq_rejections`).

Whether a name is rejected depends on the scope that it is declared in.
`Draft.Holds` says that this scope has the names that are kept of the declarations
met so far; each step carries it on to the declarations that it adds
(`Holds.receive`).
-/

namespace IcFront

variable {α ε : Type} {T : TypeTable} {declared : List String}

theorem names_resolved (xs : List Declaration) :
    (resolved T declared xs).map (·.name) =
      (xs.filter (·.resolvable declared)).map (·.name) := by
  rw [resolved, List.map_map]
  rfl

namespace Draft

open TypeTable Outline

/-! ## What a scope holds -/

/-- Whether the scope with a key is the one that messages call by a place, and its
names are those kept of some declarations. -/
def Holds (d : Draft) (declared : List String) (key : Nat) (place : String)
    (earlier : List Declaration) : Prop :=
  ∃ s, d.scopes.get? key = some s ∧ s.describe = place ∧
    s.symbols.map (·.name) = (kept declared earlier).map (·.name)

section Holds

variable {d d' : Draft} {key : Nat} {place : String} {earlier : List Declaration}

theorem Holds.lt_size (h : d.Holds declared key place earlier) : key < d.scopes.size := by
  obtain ⟨s, hs, _⟩ := h
  exact Arena.lt_size_of_get? hs

/-- A scope that is handed the symbols of more declarations holds those as well. -/
theorem Holds.receive (h : d.Holds declared key place earlier) {xs : List Declaration}
    {symbols : List Symbol} {children : List Nat} {more : List Scope}
    (hnames : symbols.map (·.name) = (xs.filter (·.resolvable declared)).map (·.name))
    (hd : d'.scopes = (d.scopes.modify key (·.receive symbols children)).extend more) :
    d'.Holds declared key place (earlier ++ xs) := by
  have hlt := h.lt_size
  obtain ⟨s, hs, hplace, hkept⟩ := h
  refine ⟨s.receive symbols children, ?_, hplace, ?_⟩
  · rw [hd, Arena.get?_extend_of_lt (by rw [Arena.size_modify]; exact hlt),
      Arena.get?_modify_self, hs, Option.map_some]
  · rw [kept_append, Scope.receive, map_foldl_keepFirst, map_foldl_keepFirst, hnames, hkept]

theorem Holds.receive_modify (h : d.Holds declared key place earlier) {xs : List Declaration}
    {symbols : List Symbol} {children : List Nat}
    (hnames : symbols.map (·.name) = (xs.filter (·.resolvable declared)).map (·.name))
    (hd : d'.scopes = d.scopes.modify key (·.receive symbols children)) :
    d'.Holds declared key place (earlier ++ xs) :=
  h.receive hnames (hd.trans (Arena.extend_nil _).symm)

/-- Scopes added at the end and children given change nothing about it. -/
theorem Holds.receive_children (h : d.Holds declared key place earlier) {children : List Nat}
    {more : List Scope}
    (hd : d'.scopes = (d.scopes.modify key (·.receive [] children)).extend more) :
    d'.Holds declared key place earlier := by
  rw [← List.append_nil earlier]
  exact h.receive rfl hd

theorem Holds.extend (h : d.Holds declared key place earlier) {more : List Scope}
    (hd : d'.scopes = d.scopes.extend more) : d'.Holds declared key place earlier := by
  have hreceive : d'.scopes = (d.scopes.modify key (·.receive [] [])).extend more := by
    simp [hd]
  exact h.receive_children hreceive

theorem holds_newScope (d : Draft) (declared : List String) (kind : ScopeKind) (name : String) :
    (d.newScope kind name).1.Holds declared (d.newScope kind name).2 (kind.place name) [] :=
  ⟨{ kind, name }, Arena.get?_extend_size d.scopes _ [], rfl, rfl⟩

/-! ## Declaring -/

/-- A name is reported if it is kept already. -/
theorem declare_diagnostics (h : d.Holds declared key place earlier) (s : Symbol) :
    (d.declare key s).diagnostics = d.diagnostics ++
      if (kept declared earlier).any (·.name == s.name) then
        [⟨.duplicateDeclaration s.name place, s.line⟩]
      else [] := by
  obtain ⟨scope, hscope, hplace, hnames⟩ := h
  have hany : (kept declared earlier).any (·.name == s.name) =
      scope.symbols.any (·.name == s.name) := by
    have h := congrArg (List.any · (· == s.name)) hnames
    simp only [List.any_map] at h
    exact h.symm
  rw [hany]
  unfold declare
  cases htaken : scope.symbols.any (·.name == s.name) with
  | true =>
    have hdescribe : d.scopes.describe key = place := by
      simp only [Arena.describe, hscope, hplace]
    rw [Arena.insert?_eq_none hscope htaken, hdescribe]
    simp [diagnostics, report, note, Event.diagnostic?]
  | false =>
    rw [Arena.insert?_eq_some hscope htaken]
    simp [diagnostics]

/-- What is rejected of items, and nothing else, is reported between two drafts. -/
def Reports (declared : List String) (d d' : Draft) (items : List Item) : Prop :=
  d'.diagnostics = d.diagnostics ++ items.filterMap (·.rejection declared)

theorem Reports.refl (declared : List String) (d : Draft) : Reports declared d d [] :=
  (List.append_nil d.diagnostics).symm

theorem Reports.trans {d'' : Draft} {items items' : List Item} (h : Reports declared d d' items)
    (h' : Reports declared d' d'' items') : Reports declared d d'' (items ++ items') := by
  unfold Reports at *
  rw [h', h, List.filterMap_append, List.append_assoc]

/-- Items of which nothing is rejected may be added. -/
theorem Reports.append_accepted {items : List Item} {item : Item} (h : Reports declared d d' items)
    (hitem : item.rejection declared = none) : Reports declared d d' (items ++ [item]) := by
  unfold Reports at *
  rw [h, List.filterMap_append, List.filterMap_cons_none hitem, List.filterMap_nil,
    List.append_nil]

/-- Declaring a resolvable declaration looks at its name. -/
theorem declare_reports (h : d.Holds declared key place earlier) {x : Declaration}
    (hx : x.resolvable declared = true) {s : Symbol} (hname : s.name = x.name)
    (hline : s.line = x.line) : Reports declared d (d.declare key s) [.name x place earlier] := by
  rw [Reports, declare_diagnostics h, hname, hline, List.filterMap_cons,
    Item.rejection_name_of_resolvable hx, List.filterMap_nil]
  split <;> rfl

/-- Symbols that are declared one after the other are looked at in turn. -/
theorem foldl_declare_reports (T : TypeTable) (h : d.Holds declared key place earlier)
    (xs : List Declaration) :
    Reports declared d ((resolved T declared xs).foldl (fun d s => d.declare key s) d)
      (Item.names place earlier xs) := by
  induction xs generalizing d earlier with
  | nil => exact .refl declared d
  | cons x xs ih =>
    rw [resolved_cons x xs, List.foldl_append, Item.names]
    by_cases hx : x.resolvable declared = true
    · have hone : resolved T declared [x] = [x.symbol T] := by simp [resolved, hx]
      have hnext : (d.declare key (x.symbol T)).Holds declared key place (earlier ++ [x]) :=
        h.receive_modify (names_resolved [x]) (hone ▸ declare_scopes d _ h.lt_size)
      rw [hone]
      exact (declare_reports h hx rfl rfl).trans (ih hnext)
    · -- What is not resolvable is not declared, so that its name stays free.
      have hone : resolved T declared [x] = [] := by simp [resolved, hx]
      have hsame : d.scopes =
          d.scopes.modify key (·.receive (resolved T declared [x]) []) := by
        simp [hone]
      have hnext : d.Holds declared key place (earlier ++ [x]) :=
        h.receive_modify (names_resolved [x]) hsame
      have haccepted := Item.rejection_name_of_not_resolvable hx place earlier
      rw [hone]
      exact ((Reports.refl declared d).append_accepted haccepted).trans (ih hnext)

theorem receive_reports (T : TypeTable) (h : d.Holds declared key place earlier)
    (xs : List Declaration) (children : List Nat) :
    Reports declared d (d.receive key ⟨resolved T declared xs, children⟩)
      (Item.names place earlier xs) :=
  foldl_declare_reports T h xs

theorem typeOf_reports (d : Draft) (type : TypeRef) (line : Int)
    (hK : d.types.Knows declared) :
    Reports declared d (d.typeOf type line).1 [.type type line] := by
  rw [Reports, (typeOf_eq d type line hK (.refl _)).2, List.filterMap_cons, List.filterMap_nil,
    Item.rejection]
  cases type.undefined? declared line <;> rfl

/-- Something entered is looked at twice, its type first. -/
theorem enter_reports (h : d.Holds declared key place earlier)
    (hK : d.types.Knows declared) {x : Declaration} {type : TypeRef}
    (hx : x.type = .value type) :
    Reports declared d (d.enter key x type) [.type type x.line, .name x place earlier] := by
  have htype := (typeOf_eq d type x.line hK (.refl _)).1
  have hreports := typeOf_reports d type x.line hK
  have hscopes : (d.typeOf type x.line).1.scopes = d.scopes.extend [] := by simp
  have hsame : (d.typeOf type x.line).1.Holds declared key place earlier := h.extend hscopes
  have hres : x.resolvable declared = type.isKnown declared := resolvable_value hx
  unfold enter
  split
  next d' id heq =>
    rw [heq] at htype hreports hsame
    have hknown : x.resolvable declared = true := by
      by_contra hk
      rw [if_neg (hres ▸ hk)] at htype
      exact absurd htype (by simp)
    exact hreports.trans (declare_reports hsame hknown rfl rfl)
  next d' heq =>
    rw [heq] at htype hreports
    have hunknown : ¬ x.resolvable declared = true := by
      intro hk
      rw [if_pos (hres ▸ hk)] at htype
      exact absurd htype (by simp)
    exact hreports.append_accepted (Item.rejection_name_of_not_resolvable hunknown place earlier)

theorem foldl_enter_reports (x : α → Declaration) (type : α → TypeRef)
    (hx : ∀ a, (x a).type = .value (type a)) (h : d.Holds declared key place earlier)
    (hK : d.types.Knows declared) (as : List α) :
    Reports declared d (as.foldl (fun d a => d.enter key (x a) (type a)) d)
      (Item.entered place earlier (as.map x)) := by
  induction as generalizing d earlier with
  | nil => exact .refl declared d
  | cons a as ih =>
    have hnext : (d.enter key (x a) (type a)).Holds declared key place (earlier ++ [x a]) :=
      h.receive_modify (names_resolved [x a]) (enter_scopes d h.lt_size hK (hx a) (.refl _))
    rw [List.foldl_cons, List.map_cons, Item.entered, hx a]
    exact (enter_reports h hK (hx a)).trans
      (ih hnext (hK.of_grows (grows_enter d key (x a) (type a))))

end Holds

/-! ## Statements -/

mutual

/-- A statement has all that lies in it looked at. -/
theorem statement_reports (d : Draft) (hK : d.types.Knows declared) :
    ∀ s : Stmt ε, Reports declared d (d.statement s).1 s.items
  | .localVar type name initial line => by
    rw [statement, Stmt.items]
    exact typeOf_reports d type line hK
  | .block body _ _ => by
    rw [statement, Stmt.items]
    exact statements_reports (holds_newScope d declared .block "") hK body
  | .ifThen _ body _ => by
    rw [statement, Stmt.items]
    exact statement_reports d hK body
  | .ifElse _ body otherwise _ => by
    rw [statement, Stmt.items]
    exact (statement_reports d hK body).trans
      (statement_reports (d.statement body).1 (hK.of_grows (grows_statement d body)) otherwise)
  | .while_ _ body _ => by
    rw [statement, Stmt.items]
    exact statement_reports d hK body
  | .assign .. | .call .. | .return_ .. | .break_ _ | .continue_ _ => by
    rw [Stmt.items]
    · exact .refl declared d
    all_goals simp

/-- Statements have the names looked at that each declares in their place, after all
that lies in it. -/
theorem statements_reports {d : Draft} {key : Nat} {place : String}
    {earlier : List Declaration} (h : d.Holds declared key place earlier)
    (hK : d.types.Knows declared) :
    ∀ ss : List (Stmt ε), Reports declared d (d.statements key ss).1 (Stmt.itemsOf place earlier ss)
  | [] => .refl declared d
  | s :: ss => by
    have hgrows := grows_statement d s
    obtain ⟨hscopes, hexports⟩ := statement_eq d hK s (.refl _)
    have hstatement := h.extend hscopes
    have hreceive := receive_scopes (d.statement s).1 (d.statement s).2.2 hstatement.lt_size
    rw [hexports] at hreceive
    -- The place holds what the statement exports before the next one is looked at.
    have hnext := hstatement.receive_modify (names_resolved s.locals) hreceive
    have hnames := receive_reports (d.statement s).1.types hstatement s.locals
      (keys d.scopes.size s.blocks)
    rw [← hexports] at hnext hnames
    rw [statements, Stmt.itemsOf]
    exact ((statement_reports d hK s).trans hnames).trans
      (statements_reports hnext (by rw [receive_types]; exact hK.of_grows hgrows) ss)

end

/-! ## Methods -/

theorem signature_reports (d : Draft) (hK : d.types.Knows declared) (m : Method ε) :
    Reports declared d (d.signature m).1 [.type m.type m.line] := by
  have htype := typeOf_reports d m.type m.line hK
  rw [signature_fst_eq]
  exact htype

theorem methodBody_reports (d : Draft) (hK : d.types.Knows declared) (m : Method ε) :
    Reports declared d (d.methodBody m)
      (Item.entered (ScopeKind.method.place m.name) [] (m.formals.map Formal.declaration) ++
        Stmt.itemsOf (ScopeKind.method.place m.name) (m.formals.map Formal.declaration)
          m.form.body) := by
  have hnew := holds_newScope d declared .method m.name
  have hformals := foldl_enter_scopes Formal.declaration (·.type) (fun _ => rfl)
    (d.newScope .method m.name).1 hnew.lt_size hK m.formals (.refl _)
  have hgrows := grows_foldl_enter Formal.declaration (·.type) (d.newScope .method m.name).1
    (d.newScope .method m.name).2 m.formals
  have hholds := hnew.receive_modify (names_resolved (m.formals.map Formal.declaration)) hformals
  exact Reports.trans
    (foldl_enter_reports Formal.declaration (·.type) (fun _ => rfl) hnew hK m.formals)
    (statements_reports hholds (hK.of_grows hgrows) m.form.body)

/-- A method is looked at, and then its name. -/
theorem method_reports {d : Draft} {key : Nat} {place : String} {earlier : List Declaration}
    (h : d.Holds declared key place earlier) (hK : d.types.Knows declared) (m : Method ε) :
    Reports declared d (d.method key m).1 (m.items ++ [.name m.declaration place earlier]) := by
  have hgrows := grows_signature d m
  have hsig := signature_eq d m hK (.refl _)
  -- The scope of the method is a child of that of the class, which else is as before.
  have hattach := attach_methodScope_scopes d h.lt_size hK m (.refl _)
  have hholds := h.receive_children hattach
  have hbody : Reports declared d
      (((d.signature m).1.methodScope m).1.attach key (d.signature m).1.scopes.size) m.items :=
    (signature_reports d hK m).trans (methodBody_reports _ (hK.of_grows hgrows) m)
  rw [method_fst]
  dsimp only
  by_cases hres : m.declaration.resolvable declared = true
  · rw [if_pos hres] at hsig
    rw [hsig]
    exact hbody.trans (declare_reports hholds hres rfl rfl)
  · rw [if_neg hres] at hsig
    rw [hsig]
    exact hbody.append_accepted (Item.rejection_name_of_not_resolvable hres place earlier)

theorem methods_reports {d : Draft} {key : Nat} {place : String} {earlier : List Declaration}
    (h : d.Holds declared key place earlier) (hK : d.types.Knows declared)
    (ms : List (Method ε)) :
    Reports declared d (d.methods key ms).1 (Method.itemsOf place earlier ms) := by
  induction ms generalizing d earlier with
  | nil => exact .refl declared d
  | cons m ms ih =>
    have hnext := h.receive (names_resolved [m.declaration])
      (method_scopes d h.lt_size hK m (.refl _))
    have hrest := ih hnext (hK.of_grows (grows_method d key m))
    rw [Method.itemsOf, List.append_cons]
    exact (method_reports h hK m).trans hrest

/-! ## Classes -/

theorem classScope_reports (d : Draft) (hK : d.types.Knows declared) (c : ClassDecl ε)
    (type : TypeId) : Reports declared d (d.classScope c type).1 c.items := by
  have hnew := holds_newScope d declared .class_ c.name
  have hfields := foldl_enter_scopes Field.declaration (·.type) (fun _ => rfl)
    (d.newScope .class_ c.name).1 hnew.lt_size hK c.fields (.refl _)
  have hgrows := grows_foldl_enter Field.declaration (·.type) (d.newScope .class_ c.name).1
    (d.newScope .class_ c.name).2 c.fields
  have hholds := hnew.receive_modify (names_resolved (c.fields.map Field.declaration)) hfields
  exact Reports.trans
    (foldl_enter_reports Field.declaration (·.type) (fun _ => rfl) hnew hK c.fields)
    (methods_reports hholds (hK.of_grows hgrows) c.methods)

theorem classScopes_reports (d : Draft) (hK : d.types.Knows declared)
    (cs : List (ClassDecl ε × TypeId)) :
    Reports declared d (d.classScopes cs).1 (cs.flatMap (·.1.items)) := by
  induction cs generalizing d with
  | nil => exact .refl declared d
  | cons c cs ih =>
    have hgrows := grows_classScope d c.1 c.2
    exact (classScope_reports d hK c.1 c.2).trans (ih (d.classScope c.1 c.2).1 (hK.of_grows hgrows))

theorem registerAll_reports {d : Draft} {key : Nat} {place : String}
    {earlier : List Declaration} (h : d.Holds declared key place earlier)
    (cs : List (ClassDecl ε)) :
    Reports declared d (d.registerAll key cs).1
      (Item.names place earlier (cs.map ClassDecl.declaration)) := by
  induction cs generalizing d earlier with
  | nil => exact .refl declared d
  | cons c cs ih =>
    let typed : Draft := { d with types := (d.types.internClass c.name).1 }
    let x : Symbol := ⟨c.name, .class_, (d.types.internClass c.name).2, c.line⟩
    have htyped : typed.Holds declared key place earlier := h
    have hdeclare : Reports declared typed (typed.declare key x)
        [.name c.declaration place earlier] :=
      declare_reports htyped rfl rfl rfl
    have hnote : (d.register key c).1.diagnostics = (typed.declare key x).diagnostics := by
      simp [typed, x, register, diagnostics, note, Event.diagnostic?]
    have hname : Reports declared d (d.register key c).1 [.name c.declaration place earlier] :=
      hnote.trans hdeclare
    have hscopes : (d.register key c).1.scopes = d.scopes.modify key (·.receive [x] []) :=
      declare_scopes typed x h.lt_size
    have hnames : [x].map (·.name) =
        ([c.declaration].filter (·.resolvable declared)).map (·.name) := rfl
    have hnext := h.receive_modify hnames hscopes
    exact hname.trans (ih hnext)

end Draft

/-! ## Programs -/

namespace SymbolTables

open Draft

/-- Before classes are linked, everything but superclasses has been looked at. -/
theorem unlinked_reports (p : Program ε) (name : String) :
    Reports p.declared { types := .new name } (unlinked p name).1
      (Item.names (ScopeKind.global.place name) [] (p.classes.map ClassDecl.declaration) ++
        p.classes.flatMap ClassDecl.items) := by
  let start : Draft := { types := .new name }
  have hnew := holds_newScope start p.declared .global name
  have hregister : Reports p.declared start (registered p name).1
      (Item.names (ScopeKind.global.place name) [] (p.classes.map ClassDecl.declaration)) :=
    registerAll_reports hnew p.classes
  have hscopes := classScopes_reports (registered p name).1 (registered_knows p name)
    (registered p name).2
  have hitems : (registered p name).2.flatMap (·.1.items) = p.classes.flatMap ClassDecl.items := by
    rw [List.flatMap_def, List.flatMap_def, ← registered_map_fst p name ClassDecl.items]
  rw [hitems] at hscopes
  exact hregister.trans hscopes

theorem unlinked_diagnostics (p : Program ε) (name : String) :
    (unlinked p name).1.diagnostics = (p.items name).filterMap (·.rejection p.declared) :=
  unlinked_reports p name

/-- Where linking stands, the rejections of the items have been reported, and the faults
of the classes linked so far. -/
theorem Linked.diagnostics_eq {p : Program ε} {name : String} {i : Nat} {d : Draft}
    (h : Linked p name i d) :
    d.diagnostics = (p.items name).filterMap (·.rejection p.declared) ++
      (List.range i).filterMap p.linkFault := by
  rw [h.diagnostics, unlinked_diagnostics]

/-- The diagnostics of a program are the rejections of its items, in order, and then
those of the superclasses of its classes. -/
theorem diagnostics_eq_rejections (p : Program ε) (name : String) :
    (ofProgram p name).1.diagnostics =
      (p.items name).filterMap (·.rejection p.declared) ++
        (List.range p.classes.length).filterMap p.linkFault := by
  rw [ofProgram_diagnostics, (linked_linkedTo p name (Nat.le_refl _)).diagnostics,
    unlinked_diagnostics]

end SymbolTables

end IcFront
