import IcFront.Proofs.Tables.Bodies
import IcFront.Tables.Class

/-!
# Scopes of classes, by their outlines

What working through fields, parameters, methods and classes makes of the tables.
Fields and parameters are entered in their scope alike (`Draft.enter`). The scope
of a method, with all below it, is laid out as its outline says as soon as the
method is done (`method_scopes`), and that of a class likewise, but for the
superclass it is to lie below (`classScopes_scopes`).
-/

namespace IcFront

variable {α ε : Type} {T : TypeTable} {declared : List String}

namespace Draft

open TypeTable Outline

/-! ## Fields and parameters -/

/-- Declares something with a value in a scope, if its type is known. -/
def enter (d : Draft) (key : Nat) (x : Declaration) (type : TypeRef) : Draft :=
  match d.typeOf type x.line with
  | (d, some id) => d.declare key ⟨x.name, x.kind, id, x.line⟩
  | (d, none) => d

theorem enter_types (d : Draft) (key : Nat) (x : Declaration) (type : TypeRef) :
    (d.enter key x type).types = (d.typeOf type x.line).1.types := by
  unfold enter
  split
  next d' id h => rw [declare_types, h]
  next d' h => rw [h]

theorem grows_enter (d : Draft) (key : Nat) (x : Declaration) (type : TypeRef) :
    d.types.Grows (d.enter key x type).types := by
  rw [enter_types]
  exact grows_typeOf d type x.line

theorem resolvable_value {x : Declaration} {type : TypeRef} (hx : x.type = .value type) :
    x.resolvable declared = type.isKnown declared := by
  simp [Declaration.resolvable, hx, DeclaredType.types]

/-- What is entered is handed to the scope if it is resolvable. -/
theorem enter_scopes (d : Draft) {key : Nat} (hkey : key < d.scopes.size)
    (hK : d.types.Knows declared) {x : Declaration} {type : TypeRef} (hx : x.type = .value type)
    (hT : (d.enter key x type).types.Grows T) :
    (d.enter key x type).scopes =
      d.scopes.modify key (·.receive (resolved T declared [x]) []) := by
  rw [enter_types] at hT
  have htype := (typeOf_eq d type x.line hK hT).1
  have hscopes := typeOf_scopes d type x.line
  rw [resolved, List.filter_singleton, resolvable_value hx]
  unfold enter
  split
  next d' id h =>
    rw [h] at htype hscopes
    by_cases hk : type.isKnown declared = true
    · rw [if_pos hk] at htype
      obtain rfl := Option.some.inj htype
      rw [declare_scopes d' _ (by rw [hscopes]; exact hkey), hscopes, hk]
      simp only [cond_true, List.map_cons, List.map_nil, Declaration.symbol, hx, DeclaredType.id]
    · rw [if_neg hk] at htype
      exact absurd htype (by simp)
  next d' h =>
    rw [h] at htype hscopes
    by_cases hk : type.isKnown declared = true
    · rw [if_pos hk] at htype
      exact absurd htype (by simp)
    · rw [hscopes, Bool.eq_false_iff.mpr hk]
      simp

theorem grows_foldl_enter (x : α → Declaration) (type : α → TypeRef) (d : Draft) (key : Nat)
    (as : List α) :
    d.types.Grows (as.foldl (fun d a => d.enter key (x a) (type a)) d).types := by
  induction as generalizing d with
  | nil => exact .refl _
  | cons a as ih => exact (grows_enter d key (x a) (type a)).trans (ih _)

/-- Declarations that are entered one after the other are handed to the scope. -/
theorem foldl_enter_scopes (x : α → Declaration) (type : α → TypeRef)
    (hx : ∀ a, (x a).type = .value (type a)) (d : Draft) {key : Nat}
    (hkey : key < d.scopes.size) (hK : d.types.Knows declared) (as : List α)
    (hT : (as.foldl (fun d a => d.enter key (x a) (type a)) d).types.Grows T) :
    (as.foldl (fun d a => d.enter key (x a) (type a)) d).scopes =
      d.scopes.modify key (·.receive (resolved T declared (as.map x)) []) := by
  induction as generalizing d with
  | nil => simp
  | cons a as ih =>
    rw [List.foldl_cons] at hT ⊢
    have hgrows := grows_enter d key (x a) (type a)
    have hstep := enter_scopes d hkey hK (hx a) ((grows_foldl_enter x type _ key as).trans hT)
    rw [ih _ (by rw [hstep, Arena.size_modify]; exact hkey) (hK.of_grows hgrows) hT, hstep,
      Arena.modify_modify, List.map_cons, resolved_cons (x a) (as.map x)]
    simp

/-! ## Methods -/

/-- The tables after the body of a method, whose scopes are not linked yet. -/
def methodBody (d : Draft) (m : Method ε) : Draft :=
  let (d, key) := d.newScope .method m.name
  let d := m.formals.foldl (fun d f => d.parameter key f) d
  (d.statements key m.form.body).1

theorem methodScope_fst (d : Draft) (m : Method ε) :
    (d.methodScope m).1 =
      { d.methodBody m with scopes := (d.methodBody m).scopes.linkBelow d.scopes.size } := rfl

theorem size_newScope (d : Draft) (kind : ScopeKind) (name : String) :
    (d.newScope kind name).1.scopes.size = d.scopes.size + 1 :=
  Arena.size_extend d.scopes [_]

theorem newScope_lt_size (d : Draft) (kind : ScopeKind) (name : String) :
    (d.newScope kind name).2 < (d.newScope kind name).1.scopes.size := by
  rw [size_newScope]
  exact Nat.lt_succ_self d.scopes.size

theorem grows_methodBody (d : Draft) (m : Method ε) : d.types.Grows (d.methodBody m).types :=
  (grows_foldl_enter Formal.declaration (·.type) (d.newScope .method m.name).1
    (d.newScope .method m.name).2 m.formals).trans (grows_statements _ _ m.form.body)

/-- Before they are linked, the scopes of a method have no parents. -/
theorem methodBody_scopes (d : Draft) (hK : d.types.Knows declared) (m : Method ε)
    (hT : (d.methodBody m).types.Grows T) :
    (d.methodBody m).scopes = d.scopes.extend (orphans T declared d.scopes.size [m.outline]) := by
  have hkey := newScope_lt_size d .method m.name
  have hformals := foldl_enter_scopes Formal.declaration (·.type) (fun _ => rfl)
    (d.newScope .method m.name).1 hkey hK m.formals ((grows_statements _ _ m.form.body).trans hT)
  have hgrows := grows_foldl_enter Formal.declaration (·.type) (d.newScope .method m.name).1
    (d.newScope .method m.name).2 m.formals
  have hbody := statements_scopes _ (by rw [hformals, Arena.size_modify]; exact hkey)
    (hK.of_grows hgrows) m.form.body hT
  refine hbody.trans ?_
  rw [hformals, Arena.size_modify, size_newScope]
  show (((d.scopes.extend [_]).modify d.scopes.size _).modify d.scopes.size _).extend _ = _
  rw [Arena.modify_extend_size, Arena.modify_extend_size, Scope.receive_receive,
    ← resolved_append, List.nil_append, Scope.receive_region, Arena.extend_extend,
    Method.outline, orphans_region_cons, orphans_nil, List.append_nil, List.singleton_append]

/-- The scope of a method is laid out as its outline says. -/
theorem methodScope_scopes (d : Draft) (hK : d.types.Knows declared) (m : Method ε)
    (hT : (d.methodBody m).types.Grows T) :
    (d.methodScope m).1.scopes =
      d.scopes.extend (scopesOf T declared none d.scopes.size [m.outline]) := by
  rw [methodScope_fst, methodBody_scopes d hK m hT, Method.outline, orphans_region_cons,
    orphans_nil, List.append_nil, Arena.linkBelow_regions _ _ _ rfl, scopesOf_region_cons,
    scopesOf_nil, List.append_nil]

/-- The parent that a scope at the end is given is that of its region. -/
theorem setParent_scopesOf (T : TypeTable) (declared : List String) (a : Arena) (parent : Nat)
    (o : Outline) :
    (a.extend (scopesOf T declared none a.size [o])).setParent a.size parent =
      a.extend (scopesOf T declared (some parent) a.size [o]) := by
  obtain ⟨kind, name, xs, inner⟩ := o
  rw [Arena.setParent_eq, scopesOf_region_cons, scopesOf_region_cons, Arena.modify_extend_size]
  rfl

theorem symbolKind_withBody (body : List (Stmt ε)) (form : MethodForm ε) :
    (form.withBody body).symbolKind = form.symbolKind := by
  cases form <;> rfl

/-- A method is worked through in these steps. -/
theorem method_fst (d : Draft) (key : Nat) (m : Method ε) :
    (d.method key m).1 =
      let d' := ((d.signature m).1.methodScope m).1.attach key (d.signature m).1.scopes.size
      match (d.signature m).2 with
      | some id => d'.declare key ⟨m.name, m.form.symbolKind, id, m.line⟩
      | none => d' := by
  have hform : ((d.signature m).1.methodScope m).2.1.form.symbolKind = m.form.symbolKind :=
    symbolKind_withBody _ m.form
  unfold method
  cases h : (d.signature m).2 with
  | some id =>
    simp only [h, ← hform]
    rfl
  | none =>
    simp only [h]
    rfl

theorem method_types (d : Draft) (key : Nat) (m : Method ε) :
    (d.method key m).1.types = ((d.signature m).1.methodBody m).types := by
  rw [method_fst]
  dsimp only
  split
  next => rw [declare_types]; rfl
  next => rfl

theorem grows_method (d : Draft) (key : Nat) (m : Method ε) :
    d.types.Grows (d.method key m).1.types := by
  rw [method_types]
  exact (grows_signature d m).trans (grows_methodBody _ m)

/-- A class is given the scope of a method, before the method is declared. -/
theorem attach_methodScope_scopes (d : Draft) {key : Nat} (hkey : key < d.scopes.size)
    (hK : d.types.Knows declared) (m : Method ε)
    (hT : ((d.signature m).1.methodBody m).types.Grows T) :
    (((d.signature m).1.methodScope m).1.attach key (d.signature m).1.scopes.size).scopes =
      (d.scopes.modify key (·.receive [] [d.scopes.size])).extend
        (scopesOf T declared (some key) d.scopes.size [m.outline]) := by
  have hscope := methodScope_scopes (d.signature m).1 (hK.of_grows (grows_signature d m)) m hT
  have hset := setParent_scopesOf T declared
    (d.scopes.modify key (·.receive [] [d.scopes.size])) key m.outline
  rw [Arena.size_modify] at hset
  rw [signature_scopes] at hscope ⊢
  show (((d.signature m).1.methodScope m).1.scopes.addChild key _).setParent _ _ = _
  rw [hscope, Arena.addChild_eq, Arena.modify_extend_of_lt hkey, hset]

/-- A class is given the scope of a method, and the method itself if its signature
is known. -/
theorem method_scopes (d : Draft) {key : Nat} (hkey : key < d.scopes.size)
    (hK : d.types.Knows declared) (m : Method ε) (hT : (d.method key m).1.types.Grows T) :
    (d.method key m).1.scopes =
      (d.scopes.modify key
          (·.receive (resolved T declared [m.declaration]) [d.scopes.size])).extend
        (scopesOf T declared (some key) d.scopes.size [m.outline]) := by
  rw [method_types] at hT
  have hsig := signature_eq d m hK ((grows_methodBody _ m).trans hT)
  have hattach := attach_methodScope_scopes d hkey hK m hT
  rw [method_fst]
  dsimp only
  -- The kind of a method is read off its form twice.
  have hkind : m.form.symbolKind = m.declaration.kind := by
    cases hf : m.form <;> simp only [MethodForm.symbolKind, Method.declaration, hf]
  by_cases hres : m.declaration.resolvable declared = true
  · rw [if_pos hres] at hsig
    rw [hsig]
    dsimp only
    rw [declare_scopes _ _ (by rw [hattach, Arena.size_extend, Arena.size_modify]; omega), hattach,
      Arena.modify_extend_of_lt (by rw [Arena.size_modify]; exact hkey), Arena.modify_modify,
      hkind, resolved, List.filter_singleton, hres]
    simp only [Scope.receive_receive, List.nil_append, List.append_nil]
    rfl
  · rw [if_neg hres] at hsig
    rw [hsig, resolved, List.filter_singleton, Bool.eq_false_iff.mpr hres]
    exact hattach

theorem grows_methods (d : Draft) (key : Nat) (ms : List (Method ε)) :
    d.types.Grows (d.methods key ms).1.types := by
  induction ms generalizing d with
  | nil => exact .refl _
  | cons m ms ih => exact (grows_method d key m).trans (ih (d.method key m).1)

/-- A class is given the scopes of its methods and the methods themselves. -/
theorem methods_scopes (d : Draft) {key : Nat} (hkey : key < d.scopes.size)
    (hK : d.types.Knows declared) (ms : List (Method ε))
    (hT : (d.methods key ms).1.types.Grows T) :
    (d.methods key ms).1.scopes =
      (d.scopes.modify key (·.receive (resolved T declared (ms.map Method.declaration))
          (keys d.scopes.size (ms.map Method.outline)))).extend
        (scopesOf T declared (some key) d.scopes.size (ms.map Method.outline)) := by
  induction ms generalizing d with
  | nil => simp [methods, keys]
  | cons m ms ih =>
    have hgrows := grows_method d key m
    have hstep := method_scopes d hkey hK m ((grows_methods (d.method key m).1 key ms).trans hT)
    have hsize : (d.method key m).1.scopes.size = d.scopes.size + m.outline.size := by
      rw [hstep, Arena.size_extend, Arena.size_modify, length_scopesOf_singleton]
    have hrest := ih (d.method key m).1 (by rw [hsize]; omega) (hK.of_grows hgrows) hT
    refine hrest.trans ?_
    rw [hsize, hstep, Arena.modify_extend_of_lt (by rw [Arena.size_modify]; exact hkey),
      Arena.modify_modify, Arena.extend_extend, List.map_cons, List.map_cons,
      scopesOf_cons _ _ m.outline (ms.map Method.outline),
      resolved_cons m.declaration (ms.map Method.declaration), keys]
    simp

/-! ## Classes -/

theorem grows_classScope (d : Draft) (c : ClassDecl ε) (type : TypeId) :
    d.types.Grows (d.classScope c type).1.types :=
  (grows_foldl_enter Field.declaration (·.type) (d.newScope .class_ c.name).1
    (d.newScope .class_ c.name).2 c.fields).trans (grows_methods _ _ c.methods)

/-- The scope of a class is laid out as its outline says, under no parent. -/
theorem classScope_scopes (d : Draft) (hK : d.types.Knows declared) (c : ClassDecl ε)
    (type : TypeId) (hT : (d.classScope c type).1.types.Grows T) :
    (d.classScope c type).1.scopes =
      d.scopes.extend (scopesOf T declared none d.scopes.size [c.outline]) := by
  have hkey := newScope_lt_size d .class_ c.name
  have hfields := foldl_enter_scopes Field.declaration (·.type) (fun _ => rfl)
    (d.newScope .class_ c.name).1 hkey hK c.fields ((grows_methods _ _ c.methods).trans hT)
  have hgrows := grows_foldl_enter Field.declaration (·.type) (d.newScope .class_ c.name).1
    (d.newScope .class_ c.name).2 c.fields
  have hmethods := methods_scopes _ (by rw [hfields, Arena.size_modify]; exact hkey)
    (hK.of_grows hgrows) c.methods hT
  refine hmethods.trans ?_
  rw [hfields, Arena.size_modify, size_newScope]
  show (((d.scopes.extend [_]).modify d.scopes.size _).modify d.scopes.size _).extend _ = _
  rw [Arena.modify_extend_size, Arena.modify_extend_size, Scope.receive_receive,
    ← resolved_append, List.nil_append, Scope.receive_region, Arena.extend_extend,
    ClassDecl.outline, scopesOf_region_cons, scopesOf_nil, List.append_nil, List.singleton_append]
  rfl

theorem grows_classScopes (d : Draft) (cs : List (ClassDecl ε × TypeId)) :
    d.types.Grows (d.classScopes cs).1.types := by
  induction cs generalizing d with
  | nil => exact .refl _
  | cons c cs ih => exact (grows_classScope d c.1 c.2).trans (ih (d.classScope c.1 c.2).1)

/-- The scopes of classes are laid out one after the other. -/
theorem classScopes_scopes (d : Draft) (hK : d.types.Knows declared)
    (cs : List (ClassDecl ε × TypeId)) (hT : (d.classScopes cs).1.types.Grows T) :
    (d.classScopes cs).1.scopes =
      d.scopes.extend (scopesOf T declared none d.scopes.size (cs.map (·.1.outline))) := by
  induction cs generalizing d with
  | nil => simp [classScopes]
  | cons c cs ih =>
    have hgrows := grows_classScope d c.1 c.2
    have hstep := classScope_scopes d hK c.1 c.2
      ((grows_classScopes (d.classScope c.1 c.2).1 cs).trans hT)
    have hsize : (d.classScope c.1 c.2).1.scopes.size = d.scopes.size + c.1.outline.size := by
      rw [hstep, Arena.size_extend, length_scopesOf_singleton]
    refine (ih (d.classScope c.1 c.2).1 (hK.of_grows hgrows) hT).trans ?_
    rw [hsize, hstep, Arena.extend_extend, List.map_cons,
      scopesOf_cons _ _ c.1.outline (cs.map (·.1.outline))]

/-- What linking the classes needs to know of them. -/
theorem classScopes_classes (d : Draft) (hK : d.types.Knows declared)
    (cs : List (ClassDecl ε × TypeId)) :
    (d.classScopes cs).2.map (fun s => (s.decl.name, s.decl.superclass, s.decl.line, s.type)) =
        cs.map (fun c => (c.1.name, c.1.superclass, c.1.line, c.2)) ∧
      (d.classScopes cs).2.map (·.scope) = keys d.scopes.size (cs.map (·.1.outline)) := by
  induction cs generalizing d with
  | nil => exact ⟨rfl, rfl⟩
  | cons c cs ih =>
    have hstep := classScope_scopes d hK c.1 c.2 (.refl _)
    have hsize : (d.classScope c.1 c.2).1.scopes.size = d.scopes.size + c.1.outline.size := by
      rw [hstep, Arena.size_extend, length_scopesOf_singleton]
    obtain ⟨hdecl, hscope⟩ := ih (d.classScope c.1 c.2).1 (hK.of_grows (grows_classScope d c.1 c.2))
    rw [hsize] at hscope
    exact ⟨congrArg (_ :: ·) hdecl, congrArg (d.scopes.size :: ·) hscope⟩

end Draft

end IcFront
