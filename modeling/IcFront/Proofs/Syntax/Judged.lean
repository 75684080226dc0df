import IcFront.Proofs.Steps
import IcFront.Proofs.Syntax.Places
import IcFront.Proofs.Syntax.ReadBack

/-!
# Reading judges a document

A reading of documents *judges* something that may be wrong with them (`Judges`) if it
fails just when that is so, and then for a document that does not fit its place. Readings
one after another judge what each of them judges (`Judges.bind`, `Judges.mapM`).

Each reading of a program judges whether what it reads is flawed, from the types
(`TypeRef.ofDocument_judges`) up to the program (`Program.ofDocument_judges`). The parameters
of a method are gone through twice: the check judges those before the first of an undeclared
class (`Formal.check_judges`), and then all are read, which judges no more than their types
(`Formal.ofStandIns_judges`).
-/

namespace IcFront

open Document

/-! ## Readings that judge -/

/-- A reading fails just if something is wrong, and then for a document that does not fit. -/
def Judges {α : Type} (x : Except Malformed α) (wrong : Prop) : Prop :=
  match x with
  | .ok _ => ¬wrong
  | .error m => m.IsMisplacement ∧ wrong

namespace Judges

variable {α β : Type} {x : Except Malformed α} {f : α → Except Malformed β} {P Q : Prop}

theorem congr (h : Judges x P) (hiff : P ↔ Q) : Judges x Q := propext hiff ▸ h

/-- A reading in two steps finds what is wrong in either. -/
theorem bind (hx : Judges x P) (hf : ∀ a, x = .ok a → Judges (f a) Q) :
    Judges (x >>= f) (P ∨ Q) := by
  cases x with
  | error m => exact ⟨hx.1, .inl hx.2⟩
  | ok a => exact (hf a rfl).congr (or_iff_right hx).symm

/-- A step after which nothing can fail. -/
theorem bind_ok (hx : Judges x P) (hf : ∀ a, x = .ok a → ∃ b, f a = .ok b) :
    Judges (x >>= f) P := by
  refine (hx.bind (Q := False) fun a ha => ?_).congr (or_iff_left id)
  obtain ⟨b, hb⟩ := hf a ha
  rw [hb]
  exact id

/-- A reading that asks first whether something is wrong. -/
theorem guarded {m : Malformed} {c : Bool} (hm : m.IsMisplacement) (hc : c = true ↔ P)
    (hx : Judges x Q) : Judges (if c = true then .error m else x) (P ∨ Q) := by
  by_cases h : c = true
  · rw [if_pos h]
    exact ⟨hm, .inl (hc.mp h)⟩
  · rw [if_neg h]
    exact hx.congr (or_iff_right (mt hc.mpr h)).symm

/-- Readings one after another find what is wrong in any. -/
theorem mapM {g : α → Except Malformed β} {R : α → Prop} {as : List α}
    (h : ∀ a ∈ as, Judges (g a) (R a)) : Judges (as.mapM g) (∃ a ∈ as, R a) := by
  induction as with
  | nil => exact fun hex => by simp at hex
  | cons a as ih =>
    rw [List.mapM_cons]
    refine ((h a List.mem_cons_self).bind fun b _ =>
      (ih fun c hc => h c (List.mem_cons_of_mem _ hc)).bind_ok fun bs _ => ⟨b :: bs, rfl⟩).congr ?_
    simp

end Judges

/-! ## Parts that are there -/

namespace Document

variable {d : Document} {name : String}

theorem getText_eq {s : String} (h : d.part? name = some (.text s)) : d.getText name = .ok s := by
  rw [getText, h]

theorem getInt_eq {n : Int} (h : d.part? name = some (.int n)) : d.getInt name = .ok n := by
  rw [getInt, h]

theorem getList_eq {ds : List Document} (h : d.part? name = some (.list ds)) :
    ∃ hlt, d.getList name = .ok ⟨ds, hlt⟩ := by
  have hlt := sizeOf_part?_lt h
  rw [list.sizeOf_spec] at hlt
  exact ⟨by omega, by rw [getList, get_eq h]⟩

theorem items_eq {ds : List Document} (h : d.part? name = some (.list ds)) :
    d.items name = ds := by
  rw [items, h]

theorem unlessNull_eq {e : Document} (h : d.part? name = some e) (hne : e ≠ .null) :
    d.unlessNull name = [e] := by
  rw [unlessNull, h]
  cases e <;> first | rfl | exact absurd rfl hne

theorem single_eq {e : Document} (h : d.part? name = some e) : d.single name = [e] := by
  rw [single, h]
  rfl

end Document

/-! ## Types -/

variable {declared : List String}

theorem Primitive.ofName?_eq_none_iff {name : String} :
    Primitive.ofName? name = none ↔ name ∉ ["int", "boolean", "string", "void"] := by
  unfold ofName?
  split <;> simp_all

theorem flawed_type_iff {d : Document} : Flawed declared .type d ↔ Misplaced .type d := by
  rw [flawed_iff]
  simp [Place.held]

theorem misplaced_primitive_iff {d : Document} {name : String} (hk : d.kind = "PrimitiveType")
    (hname : d.part? "name" = some (.text name)) :
    Misplaced .type d ↔ Primitive.ofName? name = none := by
  rw [Primitive.ofName?_eq_none_iff]
  constructor
  · rintro (h | ⟨-, hname', h⟩)
    · simp [hk, Place.kinds] at h
    · rw [hname] at hname'
      cases hname'
      exact h
  · exact .primitive hk hname

theorem not_misplaced_user {d : Document} (hk : d.kind = "UserType") : ¬Misplaced .type d := by
  rintro (h | ⟨hk', -, -⟩)
  · simp [hk, Place.kinds] at h
  · simp [hk] at hk'

namespace TypeRef

/-- Reading a type judges it. -/
theorem ofDocument_judges {d : Document} (h : Furnished declared .type d) :
    Judges (ofDocument d) (Flawed declared .type d) := by
  rw [flawed_type_iff]
  unfold ofDocument
  split
  next hk =>
    obtain ⟨name, hname⟩ := exists_text (h.part "name" hk)
    obtain ⟨n, hn⟩ := exists_int (h.part "dimension" hk)
    obtain ⟨line, hline⟩ := exists_int (h.part "line" hk)
    rw [getText_eq hname, misplaced_primitive_iff hk hname, getInt_eq hn, Document.line,
      getInt_eq hline]
    dsimp only [bind, Except.bind]
    cases Primitive.ofName? name with
    | none => exact ⟨trivial, rfl⟩
    | some p => exact Option.some_ne_none p
  next hk =>
    obtain ⟨name, hname⟩ := exists_text (h.part "name" hk)
    obtain ⟨n, hn⟩ := exists_int (h.part "dimension" hk)
    obtain ⟨line, hline⟩ := exists_int (h.part "line" hk)
    rw [getText_eq hname, getInt_eq hn, Document.line, getInt_eq hline]
    exact not_misplaced_user hk
  next hprim huser =>
    refine ⟨trivial, .kind ?_⟩
    simpa [Place.kinds] using ⟨hprim, huser⟩

/-- Whether what is read is of an undeclared class. -/
theorem isUndefined_ofDocument {d : Document} {t : TypeRef} (h : ofDocument d = .ok t) :
    t.isUndefined declared =
      (d.kind == "UserType" &&
        (d.getText "name").toOption.any fun n => !declared.contains n) := by
  unfold ofDocument at h
  split at h
  next hk =>
    obtain ⟨name, -, h⟩ := Except.bind_eq_ok h
    cases hp : Primitive.ofName? name with
    | none =>
      rw [hp] at h
      cases h
    | some p =>
      rw [hp] at h
      obtain ⟨base, hbase, h⟩ := Except.bind_eq_ok h
      obtain ⟨n, -, h⟩ := Except.bind_eq_ok h
      obtain ⟨line, -, h⟩ := Except.bind_eq_ok h
      cases hbase
      cases h
      simp [isUndefined, hk]
  next hk =>
    obtain ⟨name, hname, h⟩ := Except.bind_eq_ok h
    obtain ⟨base, hbase, h⟩ := Except.bind_eq_ok h
    obtain ⟨n, -, h⟩ := Except.bind_eq_ok h
    obtain ⟨line, -, h⟩ := Except.bind_eq_ok h
    cases hbase
    cases h
    simp [isUndefined, hk, hname, Except.toOption]
  next => cases h

end TypeRef

/-! ## Statements -/

namespace Stmt

variable {d : Document} {name : String}

theorem exprPart_ok {e : Document} (h : d.part? name = some e) :
    exprPart Except.ok d name = .ok e := by
  rw [exprPart, get_eq h]
  rfl

theorem exprPart?_ok {e : Document} (h : d.part? name = some e) :
    ∃ e?, exprPart? Except.ok d name = .ok e? := by
  rw [exprPart?]
  by_cases hnull : e = .null
  · subst hnull
    rw [get?_eq_none h]
    exact ⟨none, rfl⟩
  · rw [get?_eq_some h hnull]
    exact ⟨some e, rfl⟩

/-- A statement that holds nothing is not flawed. -/
theorem not_flawed {kind : String} (hk : d.kind = kind)
    (hmem : kind ∈ ["Assignment", "CallStatement", "Return", "Break", "Continue"] := by decide) :
    ¬Flawed declared .statement d := by
  have hd : d.kind ∈ Place.statement.kinds := by
    rw [hk]
    exact List.mem_append_right ["LocalVariable", "StatementsBlock", "If", "While"] hmem
  have hheld : Place.statement.held declared d = [] := by
    subst hk
    simp only [Place.held]
    split <;> simp_all
  rw [flawed_iff_held hd, hheld]
  simp

mutual

/-- Reading a statement judges it. -/
theorem ofDocument_judges {d : Document} (h : Furnished declared .statement d) :
    Judges (ofDocument Except.ok d) (Flawed declared .statement d) := by
  rw [ofDocument]
  split
  next hk =>
    -- a local variable holds its type, and an initial value that is not judged
    obtain ⟨t, ht⟩ := exists_part (h.part "type" hk)
    obtain ⟨name, hname⟩ := exists_text (h.part "name" hk)
    obtain ⟨e, he⟩ := exists_part (h.part "init_value" hk)
    obtain ⟨line, hline⟩ := exists_int (h.part "line" hk)
    obtain ⟨e?, he?⟩ := exprPart?_ok he
    have hd : d.kind ∈ Place.statement.kinds := by rw [hk]; decide
    have hheld : Place.statement.held declared d = [t].map (.type, ·) := by
      simp only [Place.held, hk, single_eq ht]
    have ht' := h.placed hheld (.inl hd) t (List.mem_singleton_self t)
    rw [get_eq ht, getText_eq hname, he?, Document.line, getInt_eq hline,
      flawed_iff_placed hheld hd]
    exact ((TypeRef.ofDocument_judges ht').bind_ok fun type _ => ⟨_, rfl⟩).congr (by simp)
  next hk =>
    -- a block holds its statements
    obtain ⟨body, hbody⟩ := exists_list (h.part "statements" hk)
    obtain ⟨line, hline⟩ := exists_int (h.part "line" hk)
    have hd : d.kind ∈ Place.statement.kinds := by rw [hk]; decide
    have hheld : Place.statement.held declared d = body.map (.statement, ·) := by
      simp only [Place.held, hk, items_eq hbody]
    obtain ⟨hlt, hget⟩ := getList_eq hbody
    rw [hget, Document.line, getInt_eq hline, flawed_iff_placed hheld hd]
    exact (ofDocuments_judges (h.placed hheld (.inl hd))).bind_ok fun ss _ => ⟨_, rfl⟩
  next hk =>
    obtain ⟨e, he⟩ := exists_part (h.part "condition" hk)
    obtain ⟨body, hbody⟩ := exists_part (h.part "operation" hk)
    obtain ⟨line, hline⟩ := exists_int (h.part "line" hk)
    obtain ⟨otherwise, hother⟩ := exists_part (h.part "else_operation" hk)
    have hd : d.kind ∈ Place.statement.kinds := by rw [hk]; decide
    have hlt := sizeOf_part?_lt hbody
    have hlt' := sizeOf_part?_lt hother
    rw [get_eq hbody, exprPart_ok he, Document.line, getInt_eq hline]
    -- where there is no `else` null stands for it, and only the body is held
    by_cases hnull : otherwise = .null
    · subst hnull
      have hheld : Place.statement.held declared d = [body].map (.statement, ·) := by
        simp only [Place.held, hk, single_eq hbody, unlessNull, hother, List.append_nil]
      have hbody' := h.placed hheld (.inl hd) body (List.mem_singleton_self body)
      rw [get?_eq_none hother, flawed_iff_placed hheld hd]
      exact ((ofDocument_judges hbody').bind_ok fun b _ => ⟨_, rfl⟩).congr (by simp)
    · have hheld : Place.statement.held declared d = [body, otherwise].map (.statement, ·) := by
        simp only [Place.held, hk, single_eq hbody, unlessNull_eq hother hnull,
          List.cons_append, List.nil_append]
      have hbody' := h.placed hheld (.inl hd) body List.mem_cons_self
      have hother' := h.placed hheld (.inl hd) otherwise (by simp)
      rw [get?_eq_some hother hnull, flawed_iff_placed hheld hd]
      exact ((ofDocument_judges hbody').bind fun b _ =>
        (ofDocument_judges hother').bind_ok fun o _ => ⟨_, rfl⟩).congr (by simp)
  next hk =>
    obtain ⟨e, he⟩ := exists_part (h.part "condition" hk)
    obtain ⟨body, hbody⟩ := exists_part (h.part "operation" hk)
    obtain ⟨line, hline⟩ := exists_int (h.part "line" hk)
    have hd : d.kind ∈ Place.statement.kinds := by rw [hk]; decide
    have hheld : Place.statement.held declared d = [body].map (.statement, ·) := by
      simp only [Place.held, hk, single_eq hbody]
    have hlt := sizeOf_part?_lt hbody
    have hbody' := h.placed hheld (.inl hd) body (List.mem_singleton_self body)
    rw [get_eq hbody, exprPart_ok he, Document.line, getInt_eq hline, flawed_iff_placed hheld hd]
    exact ((ofDocument_judges hbody').bind_ok fun b _ => ⟨_, rfl⟩).congr (by simp)
  next hk =>
    -- from here on nothing is held: expressions are not judged
    obtain ⟨target, htarget⟩ := exists_part (h.part "variable" hk)
    obtain ⟨value, hvalue⟩ := exists_part (h.part "assignment" hk)
    obtain ⟨line, hline⟩ := exists_int (h.part "line" hk)
    rw [exprPart_ok htarget, exprPart_ok hvalue, Document.line, getInt_eq hline]
    exact not_flawed hk
  next hk =>
    obtain ⟨call, hcall⟩ := exists_part (h.part "call" hk)
    obtain ⟨line, hline⟩ := exists_int (h.part "line" hk)
    rw [exprPart_ok hcall, Document.line, getInt_eq hline]
    exact not_flawed hk
  next hk =>
    obtain ⟨value, hvalue⟩ := exists_part (h.part "value" hk)
    obtain ⟨line, hline⟩ := exists_int (h.part "line" hk)
    obtain ⟨value?, hvalue?⟩ := exprPart?_ok hvalue
    rw [hvalue?, Document.line, getInt_eq hline]
    exact not_flawed hk
  next hk =>
    obtain ⟨line, hline⟩ := exists_int (h.part "line" hk)
    rw [Document.line, getInt_eq hline]
    exact not_flawed hk
  next hk =>
    obtain ⟨line, hline⟩ := exists_int (h.part "line" hk)
    rw [Document.line, getInt_eq hline]
    exact not_flawed hk
  next =>
    refine ⟨trivial, flawed_of_kind (by decide) ?_⟩
    simp_all [Place.kinds]
termination_by sizeOf d

/-- Reading statements judges each of them. -/
theorem ofDocuments_judges {ds : List Document} (h : ∀ d ∈ ds, Furnished declared .statement d) :
    Judges (ofDocuments Except.ok ds) (∃ d ∈ ds, Flawed declared .statement d) := by
  cases ds with
  | nil =>
    rw [ofDocuments]
    exact fun hex => by simp at hex
  | cons d ds =>
    rw [ofDocuments]
    refine ((ofDocument_judges (h d List.mem_cons_self)).bind fun s _ =>
      (ofDocuments_judges fun e he => h e (List.mem_cons_of_mem _ he)).bind_ok fun ss _ =>
        ⟨s :: ss, rfl⟩).congr ?_
    simp
termination_by sizeOf ds

end

end Stmt

/-! ## Declarations -/

/-- Reading a field judges it. -/
theorem Field.ofDocument_judges {d : Document} (h : Furnished declared .field d)
    (className : String) :
    Judges (Field.ofDocument className d) (Flawed declared .field d) := by
  unfold Field.ofDocument
  split
  next hk =>
    obtain ⟨t, ht⟩ := exists_part (h.part "type" hk)
    obtain ⟨name, hname⟩ := exists_text (h.part "name" hk)
    obtain ⟨line, hline⟩ := exists_int (h.part "line" hk)
    have hd : d.kind ∈ Place.field.kinds := by rw [hk]; decide
    have hheld : Place.field.held declared d = [t].map (.type, ·) := by
      rw [Place.held, single_eq ht]
    have ht' := h.placed hheld (.inl hd) t (List.mem_singleton_self t)
    rw [get_eq ht, getText_eq hname, Document.line, getInt_eq hline, flawed_iff_placed hheld hd]
    exact ((TypeRef.ofDocument_judges ht').bind_ok fun type _ => ⟨_, rfl⟩).congr (by simp)
  next hk =>
    refine ⟨trivial, flawed_of_kind (by decide) ?_⟩
    simpa [Place.kinds] using hk

namespace Formal

/-- Whether a parameter is of an undeclared class, as its type says once it is read. -/
theorem isOfUndeclared_eq {d t : Document} {type : TypeRef} (hk : d.kind = "Formal")
    (ht : d.part? "type" = some t) (htype : TypeRef.ofDocument t = .ok type) :
    d.isOfUndeclared declared = type.isUndefined declared := by
  rw [TypeRef.isUndefined_ofDocument htype, isOfUndeclared, hk, single_eq ht]
  simp

/-- Checking parameters judges those up to the first of an undeclared class. -/
theorem check_judges {ds : List Document} (method : String)
    (h : ∀ x ∈ Place.ofFormals declared ds, Furnished declared x.1 x.2) :
    Judges (check declared method ds)
      (∃ x ∈ Place.ofFormals declared ds, x.1 = .formal ∧ Flawed declared x.1 x.2) := by
  induction ds with
  | nil => exact fun hex => by simp [Place.ofFormals] at hex
  | cons d ds ih =>
    have hd' : Furnished declared .formal d := h (.formal, d) List.mem_cons_self
    unfold check
    split
    next hk =>
      obtain ⟨t, ht⟩ := exists_part (hd'.part "type" hk)
      have hd : d.kind ∈ Place.formal.kinds := by rw [hk]; decide
      have hheld : Place.formal.held declared d = [t].map (.type, ·) := by
        rw [Place.held, single_eq ht]
      have ht' := hd'.placed hheld (.inl hd) t (List.mem_singleton_self t)
      have hflawed : Flawed declared .formal d ↔ Flawed declared .type t := by
        simp [flawed_iff_placed hheld hd]
      have hjudged := TypeRef.ofDocument_judges ht'
      rw [get_eq ht]
      show Judges (TypeRef.ofDocument t >>= fun type =>
        if type.isUndefined declared then .ok () else check declared method ds) _
      cases htype : TypeRef.ofDocument t with
      | error m =>
        rw [htype] at hjudged
        exact ⟨hjudged.1, (.formal, d), List.mem_cons_self, rfl, hflawed.mpr hjudged.2⟩
      | ok type =>
        rw [htype] at hjudged
        have hok : ¬Flawed declared .formal d := mt hflawed.mp hjudged
        show Judges (if type.isUndefined declared then .ok () else check declared method ds) _
        rw [Place.ofFormals, isOfUndeclared_eq hk ht htype] at h ⊢
        by_cases hundefined : type.isUndefined declared = true
        · -- The check ends here, and what follows has another place.
          rw [if_pos hundefined, if_pos hundefined]
          simp [Judges, hok]
        · rw [if_neg hundefined] at h
          rw [if_neg hundefined, if_neg hundefined]
          exact (ih fun x hx => h x (List.mem_cons_of_mem _ hx)).congr (by simp [hok])
    next hk =>
      have hflawed : Flawed declared .formal d :=
        flawed_of_kind (by decide) (by simpa [Place.kinds] using hk)
      exact ⟨trivial, (.formal, d), List.mem_cons_self, rfl, hflawed⟩

/-- Reading what is used as a parameter judges its type. -/
theorem ofStandIn_judges {d : Document} (h : Furnished declared .laterFormal d) :
    Judges (ofStandIn declared d) (Flawed declared .laterFormal d) := by
  obtain ⟨t, ht⟩ := exists_part (h.formalPart "type")
  obtain ⟨name, hname⟩ := exists_text (h.formalPart "name")
  obtain ⟨line, hline⟩ := exists_int (h.formalPart "line")
  have hheld : Place.laterFormal.held declared d = [t].map (.type, ·) := by
    rw [Place.held, single_eq ht]
  have ht' := h.placed hheld (.inr rfl) t (List.mem_singleton_self t)
  unfold ofStandIn
  rw [get_eq ht, getText_eq hname, Document.line, getInt_eq hline,
    flawed_laterFormal_iff (single_eq ht)]
  refine (TypeRef.ofDocument_judges ht').bind_ok fun type _ => ?_
  -- Neither an undefined type nor the kind of the document can make it fail now.
  dsimp only [bind, Except.bind, pure, Except.pure]
  split <;> split <;> exact ⟨_, rfl⟩

/-- Once parameters have passed the check, reading them judges their types. -/
theorem ofStandIns_judges {ds : List Document}
    (h : ∀ x ∈ Place.ofFormals declared ds, Furnished declared x.1 x.2)
    (hchecked : ∀ x ∈ Place.ofFormals declared ds, x.1 = .formal → ¬Flawed declared x.1 x.2) :
    Judges (ofStandIns declared ds) (∃ d ∈ ds, Flawed declared .laterFormal d) := by
  refine Judges.mapM fun d hd => ofStandIn_judges ?_
  rcases Place.mem_ofFormals declared hd with hmem | hmem
  · have hfits := hchecked _ hmem rfl
    have hk : d.kind = "Formal" := by
      by_contra hk
      have hd : d.kind ∉ Place.formal.kinds := by simpa [Place.kinds] using hk
      exact hfits (flawed_of_kind (by simp) hd)
    exact (h _ hmem).laterFormal hk
  · exact h _ hmem

/-- What checking and reading parameters find together is what is wrong with any. -/
theorem flawed_ofFormals_iff {ds : List Document} :
    (∃ x ∈ Place.ofFormals declared ds, x.1 = .formal ∧ Flawed declared x.1 x.2) ∨
        (∃ d ∈ ds, Flawed declared .laterFormal d) ↔
      ∃ x ∈ Place.ofFormals declared ds, Flawed declared x.1 x.2 := by
  constructor
  · rintro (⟨x, hx, -, hflawed⟩ | ⟨d, hd, hflawed⟩)
    · exact ⟨x, hx, hflawed⟩
    · rcases Place.mem_ofFormals declared hd with hmem | hmem
      · exact ⟨_, hmem, hflawed.formal⟩
      · exact ⟨_, hmem, hflawed⟩
  · rintro ⟨⟨p, d⟩, hx, hflawed⟩
    obtain ⟨hd, hp | hp⟩ := Place.ofFormals_place hx
    · exact .inl ⟨_, hx, hp, hflawed⟩
    · obtain rfl : p = .laterFormal := hp
      exact .inr ⟨d, hd, hflawed⟩

end Formal

theorem MethodForm.ofKind?_eq_none_iff {ε : Type} {kind : String} :
    MethodForm.ofKind? (ε := ε) kind = none ↔ kind ∉ Place.method.kinds := by
  unfold ofKind?
  split <;> simp_all [Place.kinds]

/-- A method is flawed in its type, its parameters or its statements, or because it has
statements. -/
theorem flawed_method_iff {d t : Document} {formals statements : List Document}
    (hd : d.kind ∈ Place.method.kinds)
    (hheld : Place.method.held declared d = (.type, t) ::
      (Place.ofFormals declared formals ++ statements.map (.statement, ·)))
    (hstatements : d.items "statements" = statements) :
    Flawed declared .method d ↔ Flawed declared .type t ∨
      (∃ x ∈ Place.ofFormals declared formals, Flawed declared x.1 x.2) ∨
      (d.kind = "LibraryMethod" ∧ statements ≠ []) ∨
      ∃ s ∈ statements, Flawed declared .statement s := by
  have hmisplaced : Misplaced .method d ↔ d.kind = "LibraryMethod" ∧ statements ≠ [] := by
    constructor
    · rintro (h | h | ⟨hk, hs⟩)
      · exact absurd hd h
      · exact ⟨hk, hstatements ▸ hs⟩
    · exact fun h => .libraryBody h.1 (hstatements.symm ▸ h.2)
  have hbelow : (∃ x ∈ Place.method.held declared d, Flawed declared x.1 x.2) ↔
      Flawed declared .type t ∨
        (∃ x ∈ Place.ofFormals declared formals, Flawed declared x.1 x.2) ∨
        ∃ s ∈ statements, Flawed declared .statement s := by
    rw [hheld, ← exists_placed_iff (F := fun x => Flawed declared x.1 x.2)]
    simp only [List.exists_mem_cons_iff, List.mem_append, or_and_right, exists_or]
  rw [flawed_iff, hmisplaced, hbelow]
  simp only [Place.Opens, hd, true_or, true_and, ne_eq, reduceCtorEq, not_false_eq_true, and_true]
  exact or_left_comm.trans (or_congr_right or_left_comm)

/-- Reading a method judges it. -/
theorem Method.ofDocument_judges {d : Document} (h : Furnished declared .method d)
    (className : String) :
    Judges (Method.ofDocument Except.ok declared className d) (Flawed declared .method d) := by
  unfold Method.ofDocument
  split
  next hk => exact ⟨trivial, flawed_of_kind (by decide) (MethodForm.ofKind?_eq_none_iff.mp hk)⟩
  next form hk =>
    have hd : d.kind ∈ Place.method.kinds := by
      by_contra hd
      rw [MethodForm.ofKind?_eq_none_iff.mpr hd] at hk
      cases hk
    have hparts : partsOf d.kind = partsOf "Method" := by
      simp [Place.kinds] at hd
      rcases hd with hd | hd | hd | hd <;> rw [hd] <;> rfl
    have hpart (name : String) (hname : name ∈ (partsOf "Method").map Part.name) :
        partFits name (d.part? name) = true :=
      h.part name rfl (by decide) hd (hparts ▸ hname)
    obtain ⟨t, ht⟩ := exists_part (hpart "type" (by decide))
    obtain ⟨name, hname⟩ := exists_text (hpart "name" (by decide))
    obtain ⟨formals, hformals⟩ := exists_list (hpart "formals" (by decide))
    obtain ⟨statements, hstatements⟩ := exists_list (hpart "statements" (by decide))
    obtain ⟨line, hline⟩ := exists_int (hpart "line" (by decide))
    obtain ⟨hlt, hget⟩ := getList_eq hformals
    obtain ⟨hlt', hget'⟩ := getList_eq hstatements
    have hheld : Place.method.held declared d = (.type, t) ::
        (Place.ofFormals declared formals ++ statements.map (.statement, ·)) := by
      rw [Place.held, single_eq ht, items_eq hformals, items_eq hstatements]
      rfl
    have htype : Furnished declared .type t :=
      h.inside (x := (.type, t)) (.inl hd) (hheld ▸ List.mem_cons_self)
    have hfs : ∀ x ∈ Place.ofFormals declared formals, Furnished declared x.1 x.2 := fun x hx =>
      h.inside (.inl hd) (hheld ▸ List.mem_cons_of_mem _ (List.mem_append_left _ hx))
    have hss : ∀ s ∈ statements, Furnished declared .statement s := fun s hs =>
      h.inside (x := (.statement, s)) (.inl hd)
        (hheld ▸ List.mem_cons_of_mem _ (List.mem_append_right _ (List.mem_map_of_mem hs)))
    rw [get_eq ht, getText_eq hname, hget, hget', Document.line, getInt_eq hline,
      flawed_method_iff hd hheld (items_eq hstatements)]
    show Judges (TypeRef.ofDocument t >>= fun type =>
      Formal.check declared name formals >>= fun _ =>
        if (decide (d.kind = "LibraryMethod") && !statements.isEmpty) = true then
          .error (.libraryBody name)
        else Formal.ofStandIns declared formals >>= fun fs =>
          Stmt.ofDocuments Except.ok statements >>= fun body =>
            .ok ({ form := form body, type, name, formals := fs, line, scope := d.scopeKey } :
              Method Document)) _
    have hlibrary : (decide (d.kind = "LibraryMethod") && !statements.isEmpty) = true ↔
        d.kind = "LibraryMethod" ∧ statements ≠ [] := by simp
    refine ((TypeRef.ofDocument_judges htype).bind fun type _ =>
      (Formal.check_judges name hfs).bind fun _ hchecked =>
        Judges.guarded (m := .libraryBody name) trivial hlibrary
          ((Formal.ofStandIns_judges hfs ?_).bind fun fs _ =>
            (Stmt.ofDocuments_judges hss).bind_ok fun body _ => ⟨_, rfl⟩)).congr ?_
    · -- The parameters are read only after they have passed the check.
      have hpassed := Formal.check_judges name hfs
      rw [hchecked] at hpassed
      exact fun x hx hformal hflawed => hpassed ⟨x, hx, hformal, hflawed⟩
    · rw [← Formal.flawed_ofFormals_iff]
      exact or_congr_right ((or_congr_right or_left_comm).trans or_assoc.symm)

/-- Reading a class judges it, once it is known to be one. -/
theorem ClassDecl.ofDocument_judges {d : Document} (h : Furnished declared .classDecl d)
    (hk : d.kind = "ICClass") :
    Judges (ClassDecl.ofDocument Except.ok declared d) (Flawed declared .classDecl d) := by
  obtain ⟨name, hname⟩ := exists_text (h.part "name" hk)
  have hsuper := null_or_text (h.part "super_class_name" hk)
  obtain ⟨fields, hfields⟩ := exists_list (h.part "fields" hk)
  obtain ⟨methods, hmethods⟩ := exists_list (h.part "methods" hk)
  obtain ⟨line, hline⟩ := exists_int (h.part "line" hk)
  obtain ⟨hlt, hget⟩ := getList_eq hfields
  obtain ⟨hlt', hget'⟩ := getList_eq hmethods
  have hd : d.kind ∈ Place.classDecl.kinds := by rw [hk]; decide
  have hheld : Place.classDecl.held declared d =
      fields.map (.field, ·) ++ methods.map (.method, ·) := by
    rw [Place.held, items_eq hfields, items_eq hmethods]
  have hfs : ∀ f ∈ fields, Furnished declared .field f := fun f hf =>
    h.inside (x := (.field, f)) (.inl hd)
      (hheld ▸ List.mem_append_left _ (List.mem_map_of_mem hf))
  have hms : ∀ m ∈ methods, Furnished declared .method m := fun m hm =>
    h.inside (x := (.method, m)) (.inl hd)
      (hheld ▸ List.mem_append_right _ (List.mem_map_of_mem hm))
  have hflawed : Flawed declared .classDecl d ↔
      (∃ f ∈ fields, Flawed declared .field f) ∨ ∃ m ∈ methods, Flawed declared .method m := by
    rw [flawed_iff_held hd, hheld, ← exists_placed_iff (F := fun x => Flawed declared x.1 x.2),
      ← exists_placed_iff (F := fun x => Flawed declared x.1 x.2)]
    simp only [List.mem_append, or_and_right, exists_or]
  have hread (superclass : Option String) : Judges
      (fields.mapM (Field.ofDocument name) >>= fun fields =>
        methods.mapM (Method.ofDocument Except.ok declared name) >>= fun methods =>
          .ok ({ name, superclass, fields, methods, line, scope := d.scopeKey } :
            ClassDecl Document)) (Flawed declared .classDecl d) := by
    refine ((Judges.mapM fun f hf => Field.ofDocument_judges (hfs f hf) name).bind fun _ _ =>
      (Judges.mapM fun m hm => Method.ofDocument_judges (hms m hm) name).bind_ok
        fun _ _ => ⟨_, rfl⟩).congr hflawed.symm
  unfold ClassDecl.ofDocument
  rw [getText_eq hname, hget, hget', Document.line, getInt_eq hline]
  rcases hsuper with hnull | ⟨superclass, htext⟩
  · rw [hnull]
    exact hread none
  · rw [htext, getText_eq htext]
    exact hread (some superclass)

/-- Asking a document for the name of its class judges its kind. -/
theorem classNameOf_judges {d : Document} (h : Furnished declared .classDecl d) :
    Judges (classNameOf d) (d.kind ≠ "ICClass") := by
  unfold classNameOf
  split
  next hk =>
    obtain ⟨name, hname⟩ := exists_text (h.part "name" hk)
    rw [getText_eq hname]
    exact fun hne => hne hk
  next hk => exact ⟨trivial, hk⟩

/-- The names that the classes of a program give are those that it declares. -/
theorem filterMap_of_classNameOf {classes : List Document} {names : List String}
    (h : classes.mapM classNameOf = .ok names) :
    classes.filterMap (fun c => (c.getText "name").toOption) = names := by
  induction classes generalizing names with
  | nil =>
    cases h
    rfl
  | cons c cs ih =>
    rw [List.mapM_cons] at h
    obtain ⟨name, hname, h⟩ := Except.bind_eq_ok h
    obtain ⟨rest, hrest, h⟩ := Except.bind_eq_ok h
    cases h
    have htext : c.getText "name" = .ok name := by
      unfold classNameOf at hname
      split at hname
      · exact hname
      · cases hname
    rw [List.filterMap_cons, htext, ih hrest]
    rfl

/-- Reading a program judges it. -/
theorem Program.ofDocument_judges {d : Document} (hk : d.kind = "Program")
    (h : Furnished d.classNames .program d) :
    Judges (Program.ofDocument Except.ok d) (Flawed d.classNames .program d) := by
  obtain ⟨classes, hclasses⟩ := exists_list (h.part "classes" hk)
  obtain ⟨line, hline⟩ := exists_int (h.part "line" hk)
  obtain ⟨hlt, hget⟩ := getList_eq hclasses
  have hd : d.kind ∈ Place.program.kinds := by rw [hk]; decide
  have hheld : Place.program.held d.classNames d = classes.map (.classDecl, ·) := by
    rw [Place.held, items_eq hclasses]
  have hcs := h.placed hheld (.inl hd)
  have hnamed : Judges (classes.mapM classNameOf) (∃ c ∈ classes, c.kind ≠ "ICClass") :=
    Judges.mapM fun c hc => classNameOf_judges (hcs c hc)
  have hread : ∀ names, classes.mapM classNameOf = .ok names →
      Judges (classes.mapM (ClassDecl.ofDocument Except.ok names) >>= fun classes =>
        .ok ({ classes, line, scope := d.scopeKey } : Program Document))
        (∃ c ∈ classes, Flawed d.classNames .classDecl c) := by
    intro names hnames
    have hdeclared : names = d.classNames := by
      rw [classNames, items_eq hclasses, filterMap_of_classNameOf hnames]
    subst hdeclared
    rw [hnames] at hnamed
    have hkinds : ∀ c ∈ classes, c.kind = "ICClass" := fun c hc =>
      by_contra fun hne => hnamed ⟨c, hc, hne⟩
    exact (Judges.mapM fun c hc => ClassDecl.ofDocument_judges (hcs c hc) (hkinds c hc)).bind_ok
      fun _ _ => ⟨_, rfl⟩
  unfold ofDocument
  rw [hk, hget, Document.line, getInt_eq hline, flawed_iff_placed hheld hd]
  refine (hnamed.bind hread).congr (or_iff_right_of_imp ?_)
  -- A class of another kind is a flaw, so the names tell nothing more.
  rintro ⟨c, hc, hne⟩
  exact ⟨c, hc, flawed_of_kind (by decide) (by simpa [Place.kinds] using hne)⟩

end IcFront
