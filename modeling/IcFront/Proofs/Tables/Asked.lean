import IcFront.Proofs.Mentioned
import IcFront.Proofs.Tables.Linkage
import IcFront.Proofs.Types.Sound
import Mathlib.Data.List.TakeWhile

/-!
# What a program asks of its type table

Whoever makes the tables of a program asks the type table for one type after another.
Which ones, and in which order, the program alone determines (`Program.asks`): a method
asks for its result, for its parameters as far as they are known, for its signature if
all of it is known, and then for its parameters again and for its local variables. The
types of the finished tables are the registered classes and what these questions add
(`ofProgram_entries`).

So what holds of finished types is shown along a list of questions. Every known type
that a declaration spells is there, and whenever it was asked for the answer was the id
it has at the end (`found_of_asked`, `holds_ofProgram`). And nothing is there that
nothing asked for: an array type is a declared type with some of its brackets
(`array_ofProgram`).
-/

namespace IcFront

variable {ε : Type} {declared : List String}

/-! ## Questions -/

/-- A question to a type table: for a type as written, or for the type of a method. -/
inductive Ask
  | type (type : TypeRef)
  | method (result : TypeRef) (parameters : List TypeRef)

namespace TypeTable

/-- The table and the id that looking for a type as written gives. -/
def look (t : TypeTable) (type : TypeRef) : TypeTable × Option TypeId :=
  ((Draft.find { types := t } type).1.types, (Draft.find { types := t } type).2)

/-- The table after a question. -/
def ask (t : TypeTable) : Ask → TypeTable
  | .type type => (t.look type).1
  | .method result parameters => (t.internMethod (t.idOf result) (parameters.map t.idOf)).1

/-- The table after questions, one after the other. -/
def askAll (t : TypeTable) (asks : List Ask) : TypeTable := asks.foldl ask t

@[simp] theorem askAll_nil (t : TypeTable) : t.askAll [] = t := rfl

theorem askAll_cons (t : TypeTable) (a : Ask) (asks : List Ask) :
    t.askAll (a :: asks) = (t.ask a).askAll asks := rfl

theorem askAll_append (t : TypeTable) (asks asks' : List Ask) :
    t.askAll (asks ++ asks') = (t.askAll asks).askAll asks' := List.foldl_append

end TypeTable

/-- What the declarations of a method ask for. -/
def Method.asks (declared : List String) (m : Method ε) : List Ask :=
  .type m.type ::
    (((m.formals.map (·.type)).takeWhile (·.isKnown declared)).map .type ++
      (if m.declaration.resolvable declared then [.method m.type (m.formals.map (·.type))]
        else []) ++
      (m.formals.map (·.type) ++ Stmt.typesOf m.form.body).map .type)

/-- What the declarations of a class ask for. -/
def ClassDecl.asks (declared : List String) (c : ClassDecl ε) : List Ask :=
  c.fields.map (fun f => .type f.type) ++ c.methods.flatMap (Method.asks declared)

/-- What the declarations of a program ask for. -/
def Program.asks (p : Program ε) : List Ask := p.classes.flatMap (ClassDecl.asks p.declared)

/-! ## The questions that are asked -/

namespace Draft

open TypeTable

theorem find_eq_look (d : Draft) (type : TypeRef) :
    ((d.find type).1.types, (d.find type).2) = d.types.look type := by
  cases hb : type.base with
  | primitive p => simp only [look, find, hb]
  | user className =>
    cases hl : d.types.lookupClass className <;>
      simp only [look, find, hb, hl, Option.map_none, Option.map_some]

theorem find_types (d : Draft) (type : TypeRef) :
    (d.find type).1.types = d.types.ask (.type type) := congrArg Prod.fst (find_eq_look d type)

theorem typeOf_asks (d : Draft) (type : TypeRef) (line : Int) :
    (d.typeOf type line).1.types = d.types.ask (.type type) :=
  (typeOf_types d type line).trans (find_types d type)

mutual

/-- A statement asks for the types of its local variables. -/
theorem statement_asks (d : Draft) : ∀ s : Stmt ε,
    (d.statement s).1.types = d.types.askAll (s.types.map .type)
  | .localVar type _ _ line => by
    rw [statement, Stmt.types]
    exact typeOf_asks d type line
  | .block body _ _ => by
    rw [statement, Stmt.types]
    exact statements_asks (d.newScope .block "").1 (d.newScope .block "").2 body
  | .ifThen _ body _ => by
    rw [statement, Stmt.types]
    exact statement_asks d body
  | .ifElse _ body otherwise _ => by
    rw [statement, Stmt.types, List.map_append, askAll_append, ← statement_asks d body]
    exact statement_asks (d.statement body).1 otherwise
  | .while_ _ body _ => by
    rw [statement, Stmt.types]
    exact statement_asks d body
  | .assign .. | .call .. | .return_ .. | .break_ _ | .continue_ _ => rfl

theorem statements_asks (d : Draft) (key : Nat) : ∀ ss : List (Stmt ε),
    (d.statements key ss).1.types = d.types.askAll ((Stmt.typesOf ss).map .type)
  | [] => rfl
  | s :: ss => by
    rw [statements, Stmt.typesOf, List.map_append, askAll_append, ← statement_asks d s]
    refine (statements_asks ((d.statement s).1.receive key (d.statement s).2.2) key ss).trans ?_
    rw [receive_types]

end

theorem foldl_enter_asks {α : Type} (x : α → Declaration) (type : α → TypeRef) (d : Draft)
    (key : Nat) (as : List α) :
    (as.foldl (fun d a => d.enter key (x a) (type a)) d).types =
      d.types.askAll (as.map fun a => .type (type a)) := by
  induction as generalizing d with
  | nil => rfl
  | cons a as ih =>
    rw [List.foldl_cons, ih, enter_types, typeOf_asks]
    rfl

/-- The parameters of a signature are asked for up to the first that is not known. -/
theorem parameterTypes_asks (d : Draft) (hK : d.types.Knows declared) (fs : List Formal) :
    (d.parameterTypes fs).1.types =
      d.types.askAll (((fs.map (·.type)).takeWhile (·.isKnown declared)).map .type) := by
  induction fs generalizing d with
  | nil => rfl
  | cons f fs ih =>
    have hfind := find_eq d f.type hK (.refl _)
    have htypes := find_types d f.type
    rw [List.map_cons, parameterTypes]
    cases hk : f.type.isKnown declared with
    | false =>
      -- Nothing is added for a type that is not known.
      rw [hk, if_neg (by simp)] at hfind
      rw [List.takeWhile_cons_of_neg (by simp [hk]), List.map_nil, askAll_nil]
      obtain ⟨className, hb, hl⟩ : ∃ className, f.type.base = .user className ∧
          d.types.lookupClass className = none := by
        cases hb : f.type.base with
        | primitive p =>
          rw [TypeRef.isKnown, hb] at hk
          cases hk
        | user className =>
          have hundeclared : declared.contains className = false := by
            rwa [TypeRef.isKnown, hb] at hk
          refine ⟨className, rfl, Option.isNone_iff_eq_none.mp ?_⟩
          rw [← Option.not_isSome, hK className, hundeclared, Bool.not_false]
      simp only [find, hb, hl, Option.map_none]
    | true =>
      rw [hk, if_pos rfl] at hfind
      rw [List.takeWhile_cons_of_pos hk, List.map_cons, askAll_cons, ← htypes]
      split
      next d' h => rw [h] at hfind; cases hfind
      next d' id h =>
        have hd' : d' = (d.find f.type).1 := by rw [h]
        subst hd'
        exact ih _ (hK.of_grows (grows_find d f.type))

/-- A signature is asked for after its result and its parameters, if all of them are
known. -/
theorem signature_asks (d : Draft) (hK : d.types.Knows declared) (m : Method ε) :
    (d.signature m).1.types =
      d.types.askAll (.type m.type ::
        (((m.formals.map (·.type)).takeWhile (·.isKnown declared)).map .type ++
          if m.declaration.resolvable declared then [.method m.type (m.formals.map (·.type))]
            else [])) := by
  have hres : m.declaration.resolvable declared =
      (m.type.isKnown declared && m.formals.all (·.type.isKnown declared)) := by
    simp [Declaration.resolvable, Method.declaration, DeclaredType.types, Function.comp_def]
  have hgrows := grows_typeOf d m.type m.line
  have htype := (typeOf_eq d m.type m.line hK (grows_parameterTypes _ m.formals)).1
  have hparams := parameterTypes_eq _ m.formals (hK.of_grows hgrows) (.refl _)
  have hasked := parameterTypes_asks _ (hK.of_grows hgrows) m.formals
  rw [typeOf_asks] at hasked
  have hsig := signature_eq_match d m
  simp only [htype, hparams] at hsig
  rw [askAll_cons, askAll_append, ← hasked, hres]
  by_cases hk : m.type.isKnown declared = true
  · by_cases hks : m.formals.all (·.type.isKnown declared) = true
    · simp only [if_pos hk, if_pos hks] at hsig
      rw [hsig, hk, hks, Bool.true_and, if_pos rfl, askAll_cons, askAll_nil, ask, List.map_map]
      rfl
    · simp only [if_pos hk, if_neg hks] at hsig
      rw [hsig, if_neg (by simp [hks]), askAll_nil]
  · simp only [if_neg hk] at hsig
    rw [hsig, if_neg (by simp [hk]), askAll_nil]

theorem methodBody_asks (d : Draft) (m : Method ε) :
    (d.methodBody m).types =
      d.types.askAll ((m.formals.map (·.type) ++ Stmt.typesOf m.form.body).map .type) := by
  have hformals := foldl_enter_asks Formal.declaration (·.type) (d.newScope .method m.name).1
    (d.newScope .method m.name).2 m.formals
  refine (statements_asks _ _ m.form.body).trans ?_
  rw [List.map_append, askAll_append, List.map_map]
  exact congrArg (TypeTable.askAll · _) hformals

theorem method_asks (d : Draft) (key : Nat) (hK : d.types.Knows declared) (m : Method ε) :
    (d.method key m).1.types = d.types.askAll (m.asks declared) := by
  rw [method_types, methodBody_asks, signature_asks d hK, ← askAll_append]
  rfl

theorem methods_asks (d : Draft) (key : Nat) (hK : d.types.Knows declared)
    (ms : List (Method ε)) :
    (d.methods key ms).1.types = d.types.askAll (ms.flatMap (Method.asks declared)) := by
  induction ms generalizing d with
  | nil => rfl
  | cons m ms ih =>
    refine (ih (d.method key m).1 (hK.of_grows (grows_method d key m))).trans ?_
    rw [List.flatMap_cons, askAll_append, method_asks d key hK]

theorem classScope_asks (d : Draft) (hK : d.types.Knows declared) (c : ClassDecl ε)
    (type : TypeId) : (d.classScope c type).1.types = d.types.askAll (c.asks declared) := by
  have hfields := foldl_enter_asks Field.declaration (·.type) (d.newScope .class_ c.name).1
    (d.newScope .class_ c.name).2 c.fields
  have hgrows := grows_foldl_enter Field.declaration (·.type) (d.newScope .class_ c.name).1
    (d.newScope .class_ c.name).2 c.fields
  refine (methods_asks _ _ (hK.of_grows hgrows) c.methods).trans ?_
  rw [ClassDecl.asks, askAll_append]
  exact congrArg (TypeTable.askAll · _) hfields

theorem classScopes_asks (d : Draft) (hK : d.types.Knows declared)
    (cs : List (ClassDecl ε × TypeId)) :
    (d.classScopes cs).1.types = d.types.askAll (cs.flatMap fun c => c.1.asks declared) := by
  induction cs generalizing d with
  | nil => rfl
  | cons c cs ih =>
    refine (ih (d.classScope c.1 c.2).1 (hK.of_grows (grows_classScope d c.1 c.2))).trans ?_
    rw [List.flatMap_cons, askAll_append, classScope_asks d hK]

end Draft

/-! ## What comes of a question -/

namespace TypeTable

open Draft

variable {t t' T : TypeTable} {type : TypeRef} {base id : TypeId}

theorem grows_ask (t : TypeTable) (a : Ask) : t.Grows (t.ask a) := by
  cases a with
  | type type => exact grows_find { types := t } type
  | method result parameters => exact grows_internMethod _ _ _

theorem grows_askAll (t : TypeTable) (asks : List Ask) : t.Grows (t.askAll asks) := by
  induction asks generalizing t with
  | nil => exact .refl t
  | cons a asks ih => exact (grows_ask t a).trans (ih (t.ask a))

/-- A known type is answered with the id that it has in the finished table. -/
theorem look_eq (hK : t.Knows declared) (hk : type.isKnown declared = true)
    (hT : (t.ask (.type type)).Grows T) : (t.look type).2 = some (T.idOf type) := by
  have hfind := find_eq { types := t } type hK hT
  rwa [if_pos hk] at hfind

theorem holds_withBrackets (hid : t.Holds id) (n : Nat) :
    (withBrackets t id n).1.Holds (withBrackets t id n).2 := by
  induction n generalizing t id with
  | zero => exact hid
  | succ n ih => exact ih (holds_intern t (.array id))

/-- What a question is answered with is an id of the table after it. -/
theorem holds_look (h : (t.look type).2 = some id) : (t.ask (.type type)).Holds id := by
  cases hb : type.base with
  | primitive p =>
    simp only [ask, look, find, hb] at h ⊢
    obtain rfl := Option.some.inj h
    exact holds_withBrackets (holds_intern t (.primitive p.kind)) _
  | user className =>
    cases hl : t.lookupClass className with
    | none =>
      simp only [look, find, hb, hl, Option.map_none] at h
      cases h
    | some base =>
      simp only [ask, look, find, hb, hl, Option.map_some] at h ⊢
      obtain rfl := Option.some.inj h
      exact holds_withBrackets (holds_of_entry (entry?_of_find? hl)) _

/-! ## Bases and brackets in growing tables -/

theorem base?_of_grows (hg : t.Grows t') {b : BaseType} (h : t.base? b = some id) :
    t'.base? b = some id := by
  cases b with
  | primitive p => exact find?_of_grows hg h
  | user className => exact find?_of_grows hg h

theorem bracketed?_of_grows (hg : t.Grows t') {n : Nat} (h : t.bracketed? base n = some id) :
    t'.bracketed? base n = some id := by
  induction n generalizing base with
  | zero => exact h
  | succ n ih =>
    obtain ⟨array, harray, hrest⟩ := Option.bind_eq_some_iff.mp h
    rw [bracketed?, find?_of_grows hg harray, Option.bind_some]
    exact ih hrest

/-- The last pair of brackets makes an array of all before it. -/
theorem bracketed?_succ (t : TypeTable) (base : TypeId) (n : Nat) :
    t.bracketed? base (n + 1) = (t.bracketed? base n).bind fun id => t.find? (.array id) := by
  induction n generalizing base with
  | zero => simp only [bracketed?, Option.bind_some, Option.bind_fun_some]
  | succ n ih =>
    rw [bracketed?, bracketed?, Option.bind_assoc]
    simp only [ih]

/-- A type of the table has its base there, and its brackets. -/
theorem Holds.bracketed (h : t.Holds (t.idOf type)) : ∃ base, t.base? type.base = some base ∧
    t.bracketed? base type.dimension.toNat = some (t.idOf type) := by
  unfold idOf at h ⊢
  cases hfound : (t.base? type.base).bind fun id => t.bracketed? id type.dimension.toNat with
  | none =>
    rw [hfound] at h
    exact absurd h.1 (by decide)
  | some id => exact Option.bind_eq_some_iff.mp hfound

/-- An id of a type stays the id of that type. -/
theorem idOf_of_grows (hg : t.Grows t') (h : t.Holds (t.idOf type)) :
    t'.idOf type = t.idOf type := by
  obtain ⟨base, hbase, hid⟩ := h.bracketed
  rw [idOf, base?_of_grows hg hbase, Option.bind_some, bracketed?_of_grows hg hid]
  rfl

/-- Whenever a known type is among the questions, the answer is the id it has after all
of them, which is that of a type. -/
theorem look_of_asks (hK : t.Knows declared) (hk : type.isKnown declared = true)
    {asks before after : List Ask} (hasks : asks = before ++ .type type :: after) :
    ((t.askAll before).look type).2 = some ((t.askAll asks).idOf type) ∧
      (t.askAll asks).Holds ((t.askAll asks).idOf type) := by
  have hgrows : ((t.askAll before).ask (.type type)).Grows (t.askAll asks) := by
    rw [hasks, askAll_append, askAll_cons]
    exact grows_askAll _ after
  have hlook := look_eq (hK.of_grows (grows_askAll t before)) hk hgrows
  exact ⟨hlook, (holds_look hlook).of_grows hgrows⟩

theorem holds_askAll (hK : t.Knows declared) (hk : type.isKnown declared = true)
    {asks : List Ask} (hmem : .type type ∈ asks) :
    (t.askAll asks).Holds ((t.askAll asks).idOf type) := by
  obtain ⟨before, after, hasks⟩ := List.append_of_mem hmem
  exact (look_of_asks hK hk hasks).2

/-! ## Arrays -/

/-- Every array of the table is one of some types, with some of its brackets: its
element has fewer. -/
def ArraysFrom (t : TypeTable) (types : List TypeRef) : Prop :=
  ∀ element, .array element ∈ t.entries → ∃ type ∈ types, ∃ base n,
    t.base? type.base = some base ∧ n < type.dimension.toNat ∧
      t.bracketed? base n = some element

variable {types : List TypeRef}

theorem mem_entries_intern {e e' : TypeEntry} (h : e' ∈ (t.intern e).1.entries) :
    e' ∈ t.entries ∨ e' = e := by
  unfold intern at h
  split at h
  next => exact .inl h
  next => exact (List.mem_append.mp h).imp_right List.mem_singleton.mp

/-- Arrays stay what they are when the table grows by none. -/
theorem ArraysFrom.of_grows (h : t.ArraysFrom types) (hg : t.Grows t')
    (hnew : ∀ element, .array element ∈ t'.entries → .array element ∈ t.entries) :
    t'.ArraysFrom types := by
  intro element hmem
  obtain ⟨type, htype, base, n, hbase, hlt, helement⟩ := h element (hnew element hmem)
  exact ⟨type, htype, base, n, base?_of_grows hg hbase, hlt, bracketed?_of_grows hg helement⟩

theorem ArraysFrom.intern (h : t.ArraysFrom types) {e : TypeEntry} (hclass : e.kind ≠ .class_)
    (harray : e.kind ≠ .array) : (t.intern e).1.ArraysFrom types := by
  refine h.of_grows (grows_intern t hclass) fun element hmem => ?_
  rcases mem_entries_intern hmem with hold | rfl
  · exact hold
  · exact absurd rfl harray

/-- A type gets one pair of brackets after the other. -/
theorem ArraysFrom.withBrackets (h : t.ArraysFrom types) (htype : type ∈ types)
    (hbase : t.base? type.base = some base) {k n : Nat} (hid : t.bracketed? base k = some id)
    (hle : k + n ≤ type.dimension.toNat) : (withBrackets t id n).1.ArraysFrom types := by
  induction n generalizing t id k with
  | zero => exact h
  | succ n ih =>
    have hg : t.Grows (t.intern (.array id)).1 := grows_intern t (by simp [TypeEntry.kind])
    have hbase' := base?_of_grows hg hbase
    have hid' := bracketed?_of_grows hg hid
    have hnext : (t.intern (.array id)).1.bracketed? base (k + 1) =
        some (t.intern (.array id)).2 := by
      rw [bracketed?_succ, hid', Option.bind_some, find?_intern]
    refine ih ?_ hbase' hnext (by omega)
    intro element hmem
    rcases mem_entries_intern hmem with hold | heq
    · obtain ⟨type', htype', base', m, hbase', hlt, helement⟩ := h element hold
      exact ⟨type', htype', base', m, base?_of_grows hg hbase', hlt,
        bracketed?_of_grows hg helement⟩
    · obtain rfl := TypeEntry.array.inj heq
      exact ⟨type, htype, base, k, hbase', by omega, hid'⟩

/-- A question adds arrays only for the brackets of the type that is asked for. -/
theorem ArraysFrom.ask (h : t.ArraysFrom types) {a : Ask}
    (ha : ∀ type, a = .type type → type ∈ types) : (t.ask a).ArraysFrom types := by
  cases a with
  | method result parameters => exact h.intern (by simp [TypeEntry.kind]) (by simp [TypeEntry.kind])
  | type type =>
    have htype := ha type rfl
    cases hb : type.base with
    | primitive p =>
      simp only [TypeTable.ask, look, find, hb]
      have hbase : (t.internPrimitive p.kind).1.base? type.base =
          some (t.internPrimitive p.kind).2 := hb ▸ find?_intern t (.primitive p.kind)
      exact (h.intern (by simp [TypeEntry.kind]) (by simp [TypeEntry.kind])).withBrackets htype
        hbase (k := 0) rfl (Nat.zero_add _).le
    | user className =>
      cases hl : t.lookupClass className with
      | none =>
        simp only [TypeTable.ask, look, find, hb, hl, Option.map_none]
        exact h
      | some base =>
        simp only [TypeTable.ask, look, find, hb, hl, Option.map_some]
        exact h.withBrackets htype (hb ▸ hl) (k := 0) rfl (Nat.zero_add _).le

theorem ArraysFrom.askAll (h : t.ArraysFrom types) {asks : List Ask}
    (hasks : ∀ type, .type type ∈ asks → type ∈ types) : (t.askAll asks).ArraysFrom types := by
  induction asks generalizing t with
  | nil => exact h
  | cons a asks ih =>
    refine ih (h.ask fun type ha => hasks type (ha ▸ List.mem_cons_self)) fun type ha => ?_
    exact hasks type (List.mem_cons_of_mem _ ha)

end TypeTable

/-! ## What a program asks for -/

theorem Method.mem_asks {m : Method ε} {type : TypeRef} :
    .type type ∈ m.asks declared ↔ type ∈ m.types := by
  have hsignature : ∀ result parameters, Ask.type type ∉
      if m.declaration.resolvable declared then [Ask.method result parameters] else [] := by
    intro result parameters
    split <;> simp
  have hprefix : type ∈ (m.formals.map (·.type)).takeWhile (·.isKnown declared) →
      type ∈ m.formals.map (·.type) := fun h => (List.takeWhile_sublist _).subset h
  simp only [asks, types, List.mem_cons, List.mem_append, List.mem_map_of_injective
    (f := Ask.type) (fun _ _ => Ask.type.inj), Ask.type.injEq, hsignature, or_false]
  tauto

theorem ClassDecl.mem_asks {c : ClassDecl ε} {type : TypeRef} :
    .type type ∈ c.asks declared ↔ type ∈ c.types := by
  simp only [asks, types, List.mem_append, List.mem_map, List.mem_flatMap, Method.mem_asks,
    Ask.type.injEq]

/-- A program asks for the types that it mentions. -/
theorem Program.mem_asks {p : Program ε} {type : TypeRef} :
    .type type ∈ p.asks ↔ type ∈ p.types := by
  simp only [asks, types, List.mem_flatMap, ClassDecl.mem_asks]

/-- A method asks for the types in its signature, and only then for the signature. -/
theorem Program.asks_method {p : Program ε} {c : ClassDecl ε} {m : Method ε}
    (hc : c ∈ p.classes) (hm : m ∈ c.methods)
    (hres : m.declaration.resolvable p.declared = true) : ∃ earlier later, p.asks = earlier ++
      (m.type :: m.formals.map (·.type)).map .type ++
        .method m.type (m.formals.map (·.type)) :: later := by
  obtain ⟨cs, cs', hcs⟩ := List.append_of_mem hc
  obtain ⟨ms, ms', hms⟩ := List.append_of_mem hm
  have hall : (m.formals.map (·.type)).takeWhile (·.isKnown p.declared) =
      m.formals.map (·.type) :=
    List.takeWhile_eq_self_iff.mpr fun type ht =>
      List.all_eq_true.mp hres type (List.mem_cons_of_mem _ ht)
  refine ⟨cs.flatMap (ClassDecl.asks p.declared) ++ (c.fields.map (fun f => .type f.type) ++
      ms.flatMap (Method.asks p.declared)),
    (m.formals.map (·.type) ++ Stmt.typesOf m.form.body).map .type ++
      ms'.flatMap (Method.asks p.declared) ++ cs'.flatMap (ClassDecl.asks p.declared), ?_⟩
  rw [asks, hcs, List.flatMap_append, List.flatMap_cons, ClassDecl.asks, hms,
    List.flatMap_append, List.flatMap_cons, Method.asks, hall, if_pos hres]
  simp only [List.map_cons, List.cons_append, List.append_assoc, List.nil_append]

namespace SymbolTables

/-- The types of a program are its classes and what its declarations ask for. -/
theorem ofProgram_entries (p : Program ε) (name : String) :
    (ofProgram p name).1.types.entries =
      ((registered p name).1.types.askAll p.asks).entries := by
  have hasked := Draft.classScopes_asks _ (registered_knows p name) (registered p name).2
  rw [List.flatMap_def, registered_map_fst p name (ClassDecl.asks p.declared),
    ← List.flatMap_def] at hasked
  rw [ofProgram_types, (linked_linkedTo p name (Nat.le_refl _)).entries]
  exact congrArg TypeTable.entries hasked

variable {p : Program ε} {type : TypeRef}

/-- Whenever a known type was asked for, the answer was the id it has at the end. -/
theorem found_of_asked (name : String) {before after : List Ask}
    (hasks : p.asks = before ++ .type type :: after) (hk : type.isKnown p.declared = true) :
    (((registered p name).1.types.askAll before).look type).2 =
      some ((ofProgram p name).1.types.idOf type) := by
  rw [TypeTable.idOf_congr (ofProgram_entries p name)]
  exact (TypeTable.look_of_asks (registered_knows p name) hk hasks).1

/-- The known types that a program mentions are in its table. -/
theorem holds_idOf (name : String) (hmem : type ∈ p.types) (hk : type.isKnown p.declared = true) :
    (ofProgram p name).1.types.Holds ((ofProgram p name).1.types.idOf type) := by
  rw [TypeTable.idOf_congr (ofProgram_entries p name)]
  exact (TypeTable.holds_askAll (registered_knows p name) hk
    (Program.mem_asks.mpr hmem)).of_entries (ofProgram_entries p name)

/-- The type of a method whose signature is known is in the table, made of the ids of the
types in it. -/
theorem signature_entry? (name : String) {c : ClassDecl ε} {m : Method ε} (hc : c ∈ p.classes)
    (hm : m ∈ c.methods) (hres : m.declaration.resolvable p.declared = true) :
    (ofProgram p name).1.types.entry?
        (m.declaration.symbol (ofProgram p name).1.types).type =
      some (.method ((ofProgram p name).1.types.idOf m.type)
        (m.formals.map fun f => (ofProgram p name).1.types.idOf f.type)) := by
  have hknown : ∀ type ∈ m.type :: m.formals.map (·.type), type.isKnown p.declared = true :=
    List.all_eq_true.mp hres
  obtain ⟨earlier, later, hasks⟩ := Program.asks_method hc hm hres
  let t := (registered p name).1.types.askAll
    (earlier ++ (m.type :: m.formals.map (·.type)).map .type)
  let T := (registered p name).1.types.askAll p.asks
  have hfinal : t.Grows T := by
    show t.Grows ((registered p name).1.types.askAll p.asks)
    rw [hasks, TypeTable.askAll_append]
    exact TypeTable.grows_askAll t _
  have hid : ∀ type ∈ m.type :: m.formals.map (·.type), T.idOf type = t.idOf type := by
    intro type ht
    refine TypeTable.idOf_of_grows hfinal
      (TypeTable.holds_askAll (registered_knows p name) (hknown type ht) ?_)
    exact List.mem_append_right _ (List.mem_map_of_mem ht)
  have hfind : T.find? (.method (T.idOf m.type) ((m.formals.map (·.type)).map T.idOf)) =
      some (t.internMethod (t.idOf m.type) ((m.formals.map (·.type)).map t.idOf)).2 := by
    have hgrows : (t.ask (.method m.type (m.formals.map (·.type)))).Grows T := by
      show (t.ask (.method m.type (m.formals.map (·.type)))).Grows
        ((registered p name).1.types.askAll p.asks)
      rw [hasks, TypeTable.askAll_append, TypeTable.askAll_cons]
      exact TypeTable.grows_askAll _ later
    rw [hid _ List.mem_cons_self,
      List.map_congr_left fun type ht => hid type (List.mem_cons_of_mem _ ht)]
    exact TypeTable.find?_of_grows hgrows (TypeTable.find?_intern t _)
  have hentries := ofProgram_entries p name
  have hsymbol := Declaration.symbol_congr hentries m.declaration
  rw [TypeTable.idOf_congr hentries, funext fun f : Formal => TypeTable.idOf_congr hentries f.type,
    hsymbol, TypeTable.entry?, hentries]
  show T.entry? ((T.find? (.method (T.idOf m.type) ((m.formals.map (·.type)).map T.idOf))).getD 0) =
    _
  rw [hfind, Option.getD_some, TypeTable.entry?_of_find? hfind, List.map_map]
  rfl

/-- The array types of a program are those it mentions, with some of their brackets. -/
theorem arraysFrom_ofProgram (p : Program ε) (name : String) :
    (ofProgram p name).1.types.ArraysFrom p.types := by
  have hnone : (registered p name).1.types.ArraysFrom p.types := by
    intro element hmem
    rw [registered_types] at hmem
    simp [PrimitiveKind.all] at hmem
  have h : ((registered p name).1.types.askAll p.asks).ArraysFrom p.types :=
    hnone.askAll fun type => Program.mem_asks.mp
  intro element hmem
  have hentries := ofProgram_entries p name
  obtain ⟨type, htype, base, n, hbase, hlt, helement⟩ := h element (hentries ▸ hmem)
  exact ⟨type, htype, base, n, (TypeTable.base?_congr hentries _).trans hbase, hlt,
    (TypeTable.bracketed?_congr hentries _ _).trans helement⟩

end SymbolTables

end IcFront
