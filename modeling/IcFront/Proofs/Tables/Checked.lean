import IcFront.Proofs.Tables.Classes
import IcFront.Proofs.Types.Sound

/-!
# The scopes of classes, checked

The steps that make the scopes of classes, with all that might stop them. An array is
asked for through `internArray`, which refuses an element that is not in the table, and
the scopes of a method are linked by `linkChecked`.

Nothing stops a step on tables that are sound (`Draft.Sound`): it gives what the
unchecked step gives, and leaves the tables sound. In particular every symbol ever
declared has a type of the table.
-/

namespace IcFront

variable {ε : Type} {declared : List String}

namespace Draft

open TypeTable

/-! ## Checked steps -/

/-- `withBrackets`, checked. -/
def withBracketsChecked (t : TypeTable) (id : TypeId) : Nat → Except Fault (TypeTable × TypeId)
  | 0 => .ok (t, id)
  | n + 1 => do
    let (t, id) ← (t.internArray id).mapError .types
    withBracketsChecked t id n

/-- `find`, checked. -/
def findChecked (d : Draft) (type : TypeRef) : Except Fault (Draft × Option TypeId) :=
  let base := match type.base with
    | .primitive p => some (d.types.internPrimitive p.kind)
    | .user className => (d.types.lookupClass className).map fun id => (d.types, id)
  match base with
  | none => .ok (d, none)
  | some (types, id) => do
    let (types, id) ← withBracketsChecked types id type.dimension.toNat
    return ({ d with types }, some id)

/-- `typeOf`, checked. -/
def typeOfChecked (d : Draft) (type : TypeRef) (line : Int) :
    Except Fault (Draft × Option TypeId) := do
  match ← d.findChecked type with
  | (d, some id) => return (d, some id)
  | (d, none) => return (d.report (.undefinedClass type.base.name) line, none)

/-- `parameterTypes`, checked. -/
def parameterTypesChecked (d : Draft) : List Formal → Except Fault (Draft × Option (List TypeId))
  | [] => .ok (d, some [])
  | f :: fs => do
    match ← d.findChecked f.type with
    | (d, none) => return (d, none)
    | (d, some id) =>
      let (d, ids) ← parameterTypesChecked d fs
      return (d, ids.map (id :: ·))

/-- `signature`, checked. -/
def signatureChecked (d : Draft) (m : Method ε) : Except Fault (Draft × Option TypeId) := do
  let (d, result) ← d.typeOfChecked m.type m.line
  let (d, parameters) ← d.parameterTypesChecked m.formals
  match result, parameters with
  | some result, some parameters =>
    let (types, id) := d.types.internMethod result parameters
    return ({ d with types }, some id)
  | _, _ => return (d, none)

/-- `enter`, checked. -/
def enterChecked (d : Draft) (key : Nat) (x : Declaration) (type : TypeRef) :
    Except Fault Draft := do
  match ← d.typeOfChecked type x.line with
  | (d, some id) => return d.declare key ⟨x.name, x.kind, id, x.line⟩
  | (d, none) => return d

mutual

/-- `statement`, checked. -/
def statementChecked (d : Draft) : Stmt ε → Except Fault (Draft × Stmt ε × Exports)
  | .localVar type name initial line => do
    let (d, id) ← d.typeOfChecked type line
    return (d, .localVar type name initial line,
      ⟨id.toList.map fun id => ⟨name, .localVariable, id, line⟩, []⟩)
  | .block body line _ => do
    let (d, key) := d.newScope .block ""
    let (d, body) ← d.statementsChecked key body
    return (d, .block body line (some key), ⟨[], [key]⟩)
  | .ifThen condition body line => do
    let (d, body, e) ← d.statementChecked body
    return (d, .ifThen condition body line, e)
  | .ifElse condition body otherwise line => do
    let (d, body, e) ← d.statementChecked body
    let (d, otherwise, f) ← d.statementChecked otherwise
    return (d, .ifElse condition body otherwise line, e.append f)
  | .while_ condition body line => do
    let (d, body, e) ← d.statementChecked body
    return (d, .while_ condition body line, e)
  | s => .ok (d, s, .none)

/-- `statements`, checked. -/
def statementsChecked (d : Draft) (key : Nat) :
    List (Stmt ε) → Except Fault (Draft × List (Stmt ε))
  | [] => .ok (d, [])
  | s :: ss => do
    let (d, s, e) ← d.statementChecked s
    let (d, ss) ← (d.receive key e).statementsChecked key ss
    return (d, s :: ss)

end

/-- `methodScope`, checked. -/
def methodScopeChecked (d : Draft) (m : Method ε) : Except Fault (Draft × Method ε × Nat) := do
  let (d, key) := d.newScope .method m.name
  let d ← m.formals.foldlM (fun d f => d.enterChecked key f.declaration f.type) d
  let (d, body) ← d.statementsChecked key m.form.body
  let scopes ← Arena.linkChecked d.scopes.size d.scopes key
  return ({ d with scopes }, { m with form := m.form.withBody body, scope := some key }, key)

/-- `method`, checked. -/
def methodChecked (d : Draft) (key : Nat) (m : Method ε) : Except Fault (Draft × Method ε) := do
  let (d, type) ← d.signatureChecked m
  let (d, m, scope) ← d.methodScopeChecked m
  let d := d.attach key scope
  match type with
  | some id => return (d.declare key ⟨m.name, m.form.symbolKind, id, m.line⟩, m)
  | none => return (d, m)

/-- `methods`, checked. -/
def methodsChecked (d : Draft) (key : Nat) :
    List (Method ε) → Except Fault (Draft × List (Method ε))
  | [] => .ok (d, [])
  | m :: ms => do
    let (d, m) ← d.methodChecked key m
    let (d, ms) ← d.methodsChecked key ms
    return (d, m :: ms)

/-- `classScope`, checked. -/
def classScopeChecked (d : Draft) (c : ClassDecl ε) (type : TypeId) :
    Except Fault (Draft × ScopedClass ε) := do
  let (d, key) := d.newScope .class_ c.name
  let d ← c.fields.foldlM (fun d f => d.enterChecked key f.declaration f.type) d
  let (d, methods) ← d.methodsChecked key c.methods
  return (d, ⟨{ c with methods, scope := some key }, type, key⟩)

/-- `classScopes`, checked. -/
def classScopesChecked (d : Draft) :
    List (ClassDecl ε × TypeId) → Except Fault (Draft × List (ScopedClass ε))
  | [] => .ok (d, [])
  | (c, type) :: cs => do
    let (d, s) ← d.classScopeChecked c type
    let (d, rest) ← d.classScopesChecked cs
    return (d, s :: rest)

end Draft

/-! ## Symbols -/

namespace Arena

variable {a : Arena}

/-- The symbols of all scopes. -/
def symbols (a : Arena) : List Symbol := a.scopes.flatMap (·.symbols)

theorem mem_symbols {s : Symbol} :
    s ∈ a.symbols ↔ ∃ k scope, a.get? k = some scope ∧ s ∈ scope.symbols := by
  rw [symbols, List.mem_flatMap]
  constructor
  · intro hex
    obtain ⟨scope, hscope, hs⟩ := hex
    obtain ⟨k, hk⟩ := List.mem_iff_getElem?.mp hscope
    exact ⟨k, scope, hk, hs⟩
  · intro hex
    obtain ⟨k, scope, hk, hs⟩ := hex
    exact ⟨scope, List.mem_of_getElem? hk, hs⟩

/-- A change to a scope that adds only some symbols adds only those. -/
theorem mem_symbols_modify {key : Nat} {f : Scope → Scope} (more : List Symbol) {s : Symbol}
    (hs : s ∈ (a.modify key f).symbols)
    (hf : ∀ scope, ∀ s ∈ (f scope).symbols, s ∈ scope.symbols ∨ s ∈ more) :
    s ∈ a.symbols ∨ s ∈ more := by
  obtain ⟨k, scope, hk, hs⟩ := mem_symbols.mp hs
  rw [get?_modify] at hk
  split at hk
  next =>
    obtain ⟨scope', hk', rfl⟩ := Option.map_eq_some_iff.mp hk
    exact (hf scope' s hs).imp (fun hs => mem_symbols.mpr ⟨k, scope', hk', hs⟩) id
  next => exact Or.inl (mem_symbols.mpr ⟨k, scope, hk, hs⟩)

theorem mem_symbols_addChild {parent child : Nat} {s : Symbol}
    (hs : s ∈ (a.addChild parent child).symbols) : s ∈ a.symbols :=
  (mem_symbols_modify [] hs fun _ _ hs => Or.inl hs).resolve_right List.not_mem_nil

theorem mem_symbols_setParent {child parent : Nat} {s : Symbol}
    (hs : s ∈ (a.setParent child parent).symbols) : s ∈ a.symbols :=
  (mem_symbols_modify [] hs fun _ _ hs => Or.inl hs).resolve_right List.not_mem_nil

theorem mem_symbols_linkWithin {depth root : Nat} {s : Symbol}
    (hs : s ∈ (linkWithin depth a root).symbols) : s ∈ a.symbols := by
  induction depth generalizing a root with
  | zero => exact hs
  | succ depth ih =>
    rw [linkWithin] at hs
    generalize a.childrenOf root = children at hs
    induction children generalizing a with
    | nil => exact hs
    | cons child children ihc => exact mem_symbols_setParent (ih (ihc hs))

end Arena

namespace Draft

open TypeTable

/-! ## Sound tables -/

/-- The parts of types come before them, and symbols have types of the table. -/
structure Sound (d : Draft) : Prop where
  types : d.types.Sound
  symbols : ∀ s ∈ d.scopes.symbols, d.types.Holds s.type

variable {d : Draft}

theorem Sound.newScope (h : d.Sound) (kind : ScopeKind) (name : String) :
    (d.newScope kind name).1.Sound where
  types := h.types
  symbols := fun s hs => by
    refine h.symbols s ?_
    have hsame : (d.newScope kind name).1.scopes.symbols = d.scopes.symbols ++ [] :=
      List.flatMap_append
    rwa [hsame, List.append_nil] at hs

theorem Sound.declare (h : d.Sound) (key : Nat) {s : Symbol} (hs : d.types.Holds s.type) :
    (d.declare key s).Sound where
  types := by rw [declare_types]; exact h.types
  symbols := fun x hx => by
    rw [declare_types]
    unfold Draft.declare at hx
    split at hx
    next a ha =>
      unfold Arena.insert? at ha
      split at ha
      next => cases ha
      next scope _ =>
        split at ha
        next => cases ha
        next =>
          cases ha
          have hmore : ∀ scope : Scope, ∀ x ∈ scope.symbols ++ [s], x ∈ scope.symbols ∨ x ∈ [s] :=
            fun _ _ hx => List.mem_append.mp hx
          rcases Arena.mem_symbols_modify [s] hx hmore with hold | hnew
          · exact h.symbols x hold
          · exact List.mem_singleton.mp hnew ▸ hs
    next => exact h.symbols x hx

theorem Sound.receive (h : d.Sound) (key : Nat) {e : Exports}
    (he : ∀ s ∈ e.symbols, d.types.Holds s.type) : (d.receive key e).Sound := by
  have hdeclared : ∀ xs : List Symbol, (∀ s ∈ xs, d.types.Holds s.type) →
      (xs.foldl (fun d s => d.declare key s) d).Sound := by
    intro xs hxs
    clear he
    induction xs generalizing d with
    | nil => exact h
    | cons x xs ih =>
      refine ih (h.declare key (hxs x List.mem_cons_self)) fun s hs => ?_
      rw [declare_types]
      exact hxs s (List.mem_cons_of_mem _ hs)
  have hsymbols := hdeclared e.symbols he
  refine ⟨hsymbols.types, fun s hs => hsymbols.symbols s ?_⟩
  have hchildren : ∀ (ks : List Nat) (a : Arena),
      s ∈ (ks.foldl (fun a child => a.addChild key child) a).symbols → s ∈ a.symbols := by
    intro ks
    induction ks with
    | nil => exact fun _ hs => hs
    | cons k ks ih => exact fun a hs => Arena.mem_symbols_addChild (ih _ hs)
  exact hchildren e.scopes _ hs

theorem Sound.attach (h : d.Sound) (parent child : Nat) : (d.attach parent child).Sound where
  types := h.types
  symbols := fun s hs =>
    h.symbols s (Arena.mem_symbols_addChild (Arena.mem_symbols_setParent hs))

/-! ## Types -/

theorem withBracketsChecked_eq {t : TypeTable} {id : TypeId} (h : t.Sound) (hid : t.Holds id)
    (n : Nat) : withBracketsChecked t id n = .ok (withBrackets t id n) := by
  induction n generalizing t id with
  | zero => rfl
  | succ n ih =>
    obtain ⟨e, he⟩ := hid.entry?
    have harray : t.internArray id = .ok (t.intern (.array id)) := by
      rw [internArray, he]
    rw [withBracketsChecked, harray, withBrackets]
    exact ih (h.intern fun part hpart => List.mem_singleton.mp hpart ▸ hid) (holds_intern t _)

/-- Looking for a type has nothing to complain about, and what it gives is there. -/
theorem find_checked (h : d.Sound) (type : TypeRef) :
    d.findChecked type = .ok (d.find type) ∧ (d.find type).1.Sound ∧
      ∀ id, (d.find type).2 = some id → (d.find type).1.types.Holds id := by
  have hgrows := grows_find d type
  -- The base of the type is there, so that brackets can be put after it.
  have hbrackets : ∀ (t : TypeTable) (id : TypeId), t.Sound → t.Holds id →
      d.find type = ({ d with types := (withBrackets t id type.dimension.toNat).1 },
        some (withBrackets t id type.dimension.toNat).2) →
      (d.find type).1.Sound ∧
        ∀ id, (d.find type).2 = some id → (d.find type).1.types.Holds id := by
    intro t id ht hid heq
    obtain ⟨hsound, hholds⟩ := withBrackets_sound ht hid type.dimension.toNat
    rw [heq] at hgrows ⊢
    refine ⟨⟨hsound, fun s hs => (h.symbols s hs).of_grows hgrows⟩, fun id' hid' => ?_⟩
    obtain rfl := Option.some.inj hid'
    exact hholds
  cases hb : type.base with
  | primitive p =>
    have ht : (d.types.internPrimitive p.kind).1.Sound :=
      h.types.intern fun part hpart => absurd hpart (by simp [TypeEntry.parts])
    have hid : (d.types.internPrimitive p.kind).1.Holds (d.types.internPrimitive p.kind).2 :=
      holds_intern d.types (.primitive p.kind)
    have heq : d.find type = ({ d with types :=
        (withBrackets (d.types.internPrimitive p.kind).1 (d.types.internPrimitive p.kind).2
          type.dimension.toNat).1 },
        some (withBrackets (d.types.internPrimitive p.kind).1 (d.types.internPrimitive p.kind).2
          type.dimension.toNat).2) := by simp only [find, hb]
    refine ⟨?_, hbrackets _ _ ht hid heq⟩
    rw [heq]
    simp only [findChecked, hb, withBracketsChecked_eq ht hid]
    rfl
  | user className =>
    cases hl : d.types.lookupClass className with
    | none =>
      have heq : d.find type = (d, none) := by simp only [find, hb, hl, Option.map_none]
      rw [heq]
      refine ⟨?_, h, fun id hid => absurd hid (by simp)⟩
      simp only [findChecked, hb, hl, Option.map_none]
    | some id =>
      have hid := holds_of_entry (entry?_of_find? hl)
      have heq : d.find type =
          ({ d with types := (withBrackets d.types id type.dimension.toNat).1 },
            some (withBrackets d.types id type.dimension.toNat).2) := by
        simp only [find, hb, hl, Option.map_some]
      refine ⟨?_, hbrackets _ _ h.types hid heq⟩
      rw [heq]
      simp only [findChecked, hb, hl, Option.map_some, withBracketsChecked_eq h.types hid]
      rfl

theorem typeOf_checked (h : d.Sound) (type : TypeRef) (line : Int) :
    d.typeOfChecked type line = .ok (d.typeOf type line) ∧ (d.typeOf type line).1.Sound ∧
      ∀ id, (d.typeOf type line).2 = some id → (d.typeOf type line).1.types.Holds id := by
  obtain ⟨hchecked, hsound, hholds⟩ := find_checked h type
  unfold typeOfChecked typeOf
  rw [hchecked]
  split
  next d' id heq =>
    rw [heq] at hsound hholds ⊢
    exact ⟨rfl, hsound, hholds⟩
  next d' heq =>
    rw [heq] at hsound ⊢
    exact ⟨rfl, ⟨hsound.types, hsound.symbols⟩, fun id hid => absurd hid (by simp)⟩

theorem parameterTypes_checked (h : d.Sound) (fs : List Formal) :
    d.parameterTypesChecked fs = .ok (d.parameterTypes fs) ∧ (d.parameterTypes fs).1.Sound ∧
      ∀ ids, (d.parameterTypes fs).2 = some ids →
        ∀ id ∈ ids, (d.parameterTypes fs).1.types.Holds id := by
  induction fs generalizing d with
  | nil =>
    refine ⟨rfl, h, fun ids hids id hid => ?_⟩
    obtain rfl := Option.some.inj hids
    exact absurd hid List.not_mem_nil
  | cons f fs ih =>
    obtain ⟨hchecked, hsound, hholds⟩ := find_checked h f.type
    unfold parameterTypesChecked parameterTypes
    rw [hchecked]
    split
    next d' heq =>
      rw [heq] at hsound ⊢
      exact ⟨rfl, hsound, fun ids hids => absurd hids (by simp)⟩
    next d' id heq =>
      rw [heq] at hsound hholds ⊢
      obtain ⟨hrest, hsound', hholds'⟩ := ih hsound
      have hgrows := grows_parameterTypes d' fs
      refine ⟨?_, hsound', fun ids hids id' hid' => ?_⟩
      · show (d'.parameterTypesChecked fs >>= _) = _
        rw [hrest]
        rfl
      · obtain ⟨rest, hrest, rfl⟩ := Option.map_eq_some_iff.mp hids
        rcases List.mem_cons.mp hid' with rfl | hmem
        · exact (hholds id' rfl).of_grows hgrows
        · exact hholds' rest hrest id' hmem

theorem signature_checked (h : d.Sound) (m : Method ε) :
    d.signatureChecked m = .ok (d.signature m) ∧ (d.signature m).1.Sound ∧
      ∀ id, (d.signature m).2 = some id → (d.signature m).1.types.Holds id := by
  obtain ⟨hresult, hsound, hholds⟩ := typeOf_checked h m.type m.line
  obtain ⟨hparameters, hsound', hholds'⟩ := parameterTypes_checked hsound m.formals
  have hgrows := grows_parameterTypes (d.typeOf m.type m.line).1 m.formals
  have hchecked : d.signatureChecked m = .ok (d.signature m) := by
    rw [signatureChecked, hresult, signature_eq_match]
    dsimp only [bind, Except.bind]
    rw [hparameters]
    dsimp only
    cases (d.typeOf m.type m.line).2 with
    | none => rfl
    | some result =>
      cases ((d.typeOf m.type m.line).1.parameterTypes m.formals).2 <;> rfl
  refine ⟨hchecked, ?_⟩
  rw [signature_eq_match]
  dsimp only
  split
  next result parameters hr hp =>
    -- The result was found before the parameters were, and the table has grown since.
    have hparts : ∀ part ∈ (TypeEntry.method result parameters).parts,
        ((d.typeOf m.type m.line).1.parameterTypes m.formals).1.types.Holds part := by
      intro part hpart
      rcases List.mem_cons.mp hpart with rfl | hmem
      · exact (hholds part hr).of_grows hgrows
      · exact hholds' parameters hp part hmem
    refine ⟨⟨hsound'.types.intern hparts, fun s hs => ?_⟩, fun id hid => ?_⟩
    · exact (hsound'.symbols s hs).of_grows (grows_internMethod _ result parameters)
    · obtain rfl := Option.some.inj hid
      exact holds_intern _ _
  next => exact ⟨hsound', fun id hid => absurd hid (by simp)⟩

/-! ## Declarations and statements -/

theorem enter_checked (h : d.Sound) (key : Nat) (x : Declaration) (type : TypeRef) :
    d.enterChecked key x type = .ok (d.enter key x type) ∧ (d.enter key x type).Sound := by
  obtain ⟨hchecked, hsound, hholds⟩ := typeOf_checked h type x.line
  unfold enterChecked enter
  rw [hchecked]
  split
  next d' id heq =>
    rw [heq] at hsound hholds ⊢
    exact ⟨rfl, hsound.declare key (hholds id rfl)⟩
  next d' heq =>
    rw [heq] at hsound ⊢
    exact ⟨rfl, hsound⟩

theorem foldl_enter_checked {α : Type} (h : d.Sound) (key : Nat) (x : α → Declaration)
    (type : α → TypeRef) (as : List α) :
    as.foldlM (fun d a => d.enterChecked key (x a) (type a)) d =
        .ok (as.foldl (fun d a => d.enter key (x a) (type a)) d) ∧
      (as.foldl (fun d a => d.enter key (x a) (type a)) d).Sound := by
  induction as generalizing d with
  | nil => exact ⟨rfl, h⟩
  | cons a as ih =>
    obtain ⟨hchecked, hsound⟩ := enter_checked h key (x a) (type a)
    obtain ⟨hrest, hsound'⟩ := ih hsound
    refine ⟨?_, hsound'⟩
    rw [List.foldlM_cons, hchecked]
    exact hrest

mutual

/-- Nothing stops a statement, and what it exports has types of the table. -/
theorem statement_checked {d : Draft} (h : d.Sound) : ∀ s : Stmt ε,
    d.statementChecked s = .ok (d.statement s) ∧ (d.statement s).1.Sound ∧
      ∀ x ∈ (d.statement s).2.2.symbols, (d.statement s).1.types.Holds x.type
  | .localVar type name initial line => by
    obtain ⟨hchecked, hsound, hholds⟩ := typeOf_checked h type line
    rw [statementChecked, hchecked, statement]
    refine ⟨rfl, hsound, fun x hx => ?_⟩
    obtain ⟨id, hid, rfl⟩ := List.mem_map.mp hx
    exact hholds id (Option.mem_toList.mp hid)
  | .block body line scope => by
    obtain ⟨hchecked, hsound⟩ := statements_checked (h.newScope .block "") d.scopes.size body
    have hkey : (d.newScope .block "").2 = d.scopes.size := rfl
    rw [statementChecked, statement]
    dsimp only
    rw [hkey, hchecked]
    exact ⟨rfl, hsound, fun x hx => absurd hx List.not_mem_nil⟩
  | .ifThen condition body line => by
    obtain ⟨hchecked, hsound, hholds⟩ := statement_checked h body
    rw [statementChecked, statement, hchecked]
    exact ⟨rfl, hsound, hholds⟩
  | .ifElse condition body otherwise line => by
    obtain ⟨hbody, hsound, hholds⟩ := statement_checked h body
    obtain ⟨hotherwise, hsound', hholds'⟩ := statement_checked hsound otherwise
    have hgrows := grows_statement (d.statement body).1 otherwise
    rw [statementChecked, statement, hbody]
    dsimp only [bind, Except.bind]
    rw [hotherwise]
    refine ⟨rfl, hsound', fun x hx => ?_⟩
    rcases List.mem_append.mp hx with hx | hx
    · exact (hholds x hx).of_grows hgrows
    · exact hholds' x hx
  | .while_ condition body line => by
    obtain ⟨hchecked, hsound, hholds⟩ := statement_checked h body
    rw [statementChecked, statement, hchecked]
    exact ⟨rfl, hsound, hholds⟩
  | .assign .. | .call .. | .return_ .. | .break_ _ | .continue_ _ =>
    ⟨rfl, h, fun x hx => absurd hx List.not_mem_nil⟩

theorem statements_checked {d : Draft} (h : d.Sound) (key : Nat) : ∀ ss : List (Stmt ε),
    d.statementsChecked key ss = .ok (d.statements key ss) ∧ (d.statements key ss).1.Sound
  | [] => ⟨rfl, h⟩
  | s :: ss => by
    obtain ⟨hchecked, hsound, hholds⟩ := statement_checked h s
    obtain ⟨hrest, hsound'⟩ := statements_checked (hsound.receive key hholds) key ss
    rw [statementsChecked, statements, hchecked]
    dsimp only [bind, Except.bind]
    rw [hrest]
    exact ⟨rfl, hsound'⟩

end

/-! ## Methods and classes -/

/-- The body of a method leaves the tables sound. -/
theorem methodScope_checked (h : d.Sound) (hK : d.types.Knows declared) (m : Method ε) :
    d.methodScopeChecked m = .ok (d.methodScope m) ∧ (d.methodScope m).1.Sound := by
  obtain ⟨hformals, hsound⟩ := foldl_enter_checked (h.newScope .method m.name) d.scopes.size
    Formal.declaration (·.type) m.formals
  obtain ⟨hbody, hsound'⟩ := statements_checked hsound d.scopes.size m.form.body
  -- The scopes of the method are laid out before they are linked.
  have hscopes := methodBody_scopes d hK m (.refl _)
  rw [Method.outline, Outline.orphans_region_cons, Outline.orphans_nil, List.append_nil] at hscopes
  have hlinked : Arena.linkChecked (d.methodBody m).scopes.size (d.methodBody m).scopes
      d.scopes.size = .ok ((d.methodBody m).scopes.linkBelow d.scopes.size) := by
    rw [hscopes, Arena.linkBelow_regions _ _ _ rfl]
    exact Arena.linkChecked_regions d.scopes _ _ rfl
  refine ⟨?_, ⟨hsound'.types, fun s hs => hsound'.symbols s (Arena.mem_symbols_linkWithin hs)⟩⟩
  have hkey : (d.newScope .method m.name).2 = d.scopes.size := rfl
  rw [methodScopeChecked]
  dsimp only
  rw [hkey, hformals]
  dsimp only [bind, Except.bind]
  rw [hbody]
  show (Arena.linkChecked (d.methodBody m).scopes.size (d.methodBody m).scopes d.scopes.size
    >>= _) = _
  rw [hlinked]
  rfl

theorem method_checked (h : d.Sound) (hK : d.types.Knows declared) (key : Nat) (m : Method ε) :
    d.methodChecked key m = .ok (d.method key m) ∧ (d.method key m).1.Sound := by
  obtain ⟨hsignature, hsound, hholds⟩ := signature_checked h m
  obtain ⟨hscope, hsound'⟩ := methodScope_checked hsound (hK.of_grows (grows_signature d m)) m
  have hgrows := grows_methodBody (d.signature m).1 m
  have hattached := hsound'.attach key (d.signature m).1.scopes.size
  constructor
  · rw [methodChecked, hsignature, method]
    dsimp only [bind, Except.bind]
    rw [hscope]
    dsimp only
    cases (d.signature m).2 <;> rfl
  · rw [method_fst]
    dsimp only
    split
    next id hid => exact hattached.declare key ((hholds id hid).of_grows hgrows)
    next => exact hattached

theorem methods_checked (h : d.Sound) (hK : d.types.Knows declared) (key : Nat)
    (ms : List (Method ε)) :
    d.methodsChecked key ms = .ok (d.methods key ms) ∧ (d.methods key ms).1.Sound := by
  induction ms generalizing d with
  | nil => exact ⟨rfl, h⟩
  | cons m ms ih =>
    obtain ⟨hchecked, hsound⟩ := method_checked h hK key m
    obtain ⟨hrest, hsound'⟩ := ih hsound (hK.of_grows (grows_method d key m))
    rw [methodsChecked, methods, hchecked]
    dsimp only [bind, Except.bind]
    rw [hrest]
    exact ⟨rfl, hsound'⟩

theorem classScope_checked (h : d.Sound) (hK : d.types.Knows declared) (c : ClassDecl ε)
    (type : TypeId) :
    d.classScopeChecked c type = .ok (d.classScope c type) ∧ (d.classScope c type).1.Sound := by
  obtain ⟨hfields, hsound⟩ := foldl_enter_checked (h.newScope .class_ c.name) d.scopes.size
    Field.declaration (·.type) c.fields
  have hgrows := grows_foldl_enter Field.declaration (·.type) (d.newScope .class_ c.name).1
    d.scopes.size c.fields
  obtain ⟨hmethods, hsound'⟩ := methods_checked hsound (hK.of_grows hgrows) d.scopes.size c.methods
  have hkey : (d.newScope .class_ c.name).2 = d.scopes.size := rfl
  refine ⟨?_, hsound'⟩
  rw [classScopeChecked]
  dsimp only
  rw [hkey, hfields]
  dsimp only [bind, Except.bind]
  rw [hmethods]
  rfl

/-- Nothing stops the construction of the scopes of classes. -/
theorem classScopes_checked (h : d.Sound) (hK : d.types.Knows declared)
    (cs : List (ClassDecl ε × TypeId)) :
    d.classScopesChecked cs = .ok (d.classScopes cs) ∧ (d.classScopes cs).1.Sound := by
  induction cs generalizing d with
  | nil => exact ⟨rfl, h⟩
  | cons c cs ih =>
    obtain ⟨hchecked, hsound⟩ := classScope_checked h hK c.1 c.2
    obtain ⟨hrest, hsound'⟩ := ih hsound (hK.of_grows (grows_classScope d c.1 c.2))
    rw [classScopesChecked, classScopes, hchecked]
    dsimp only [bind, Except.bind]
    rw [hrest]
    exact ⟨rfl, hsound'⟩

end Draft

end IcFront
