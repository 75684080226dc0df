import IcFront.Proofs.Compilation
import IcFront.Proofs.Scopes.Linking
import IcFront.Proofs.Sessions.InPlace
import IcFront.Proofs.Types.Interning

/-!
# Failed requests leave no trace

A request on a workspace that fails has changed nothing by then, and one that is answered
leaves the workspace in order (`Workspace.Sane`): children are scopes that there are, and
the indexes have what the table of types has. That is one step (`Workspace.Sane.perform`),
which also says that the workspace goes on to show what the session would be. Many steps
are the run (`Workspace.Sane.run`): without the requests that failed, all others are
answered as before, and the same is left (`failures_leave_no_trace`).

The order of a request matters throughout. A symbol is looked for under its name before it
is declared, and the element of an array before there is a type of arrays. What is looked
up only after a change must be known to be there: a new scope, a scope that was looked up
before, and the children that are to be linked.
-/

namespace IcFront

/-! ## Tables with all their indexes -/

theorem TypeTable.name_of_call {t t' : TypeTable} {c : Call} {id : TypeId}
    (h : t.call c = .ok (t', id)) : t'.name = t.name := by
  have hafter : t.after c = t' := by rw [after, h]
  rcases t.after_cases c with heq | ⟨_, heq, _⟩ | ⟨_, _, _, _, heq, _⟩
  · rw [← hafter, heq]
  · rw [← hafter, heq]
    rfl
  · rw [← hafter, heq]

/-- A key goes into an index with its type. -/
theorem Indexes.withKey {κ : Type} [BEq κ] [LawfulBEq κ] {entry : κ → TypeEntry}
    {index : List (κ × TypeId)} {t : TypeTable} (h : Indexes entry index t)
    (hinj : Function.Injective entry) (k : κ) {id : TypeId} (hid : id = (t.add (entry k)).2) :
    Indexes entry (IndexedTable.withKey index k id) (t.add (entry k)).1 := by
  subst hid
  unfold IndexedTable.withKey
  cases hk : index.lookup k with
  | some id => exact h.add_known hinj hk
  | none => exact h.add_new hinj hk

namespace Mirrors

variable {x : IndexedTable} {t : TypeTable}

/-- Without its indexes a table is the plain one. -/
theorem plain_eq (h : Mirrors x t) : x.plain t.name = t := by
  have hentries : x.entries.map (·.2) = t.entries := by
    rw [h.entries, List.map_map]
    exact List.zipIdx_map_fst 0 t.entries
  rw [IndexedTable.plain, hentries, h.superclasses]

theorem file (h : Mirrors x t) (e : TypeEntry) : Mirrors (x.file e) (t.add e).1 := by
  have hid := h.add_snd e
  have hentries := h.add_entries e
  cases e with
  | primitive kind =>
    have hinj : Function.Injective TypeEntry.primitive := fun _ _ => TypeEntry.primitive.inj
    exact ⟨hentries, h.primitives.withKey hinj kind hid, h.arrays.add_other (by simp),
      h.methods.add_other (by simp), h.classes.add_other (by simp), h.superclasses⟩
  | class_ className =>
    have hinj : Function.Injective TypeEntry.class_ := fun _ _ => TypeEntry.class_.inj
    exact ⟨hentries, h.primitives.add_other (by simp), h.arrays.add_other (by simp),
      h.methods.add_other (by simp), h.classes.withKey hinj className hid, h.superclasses⟩
  | array element =>
    have hinj : Function.Injective TypeEntry.array := fun _ _ => TypeEntry.array.inj
    exact ⟨hentries, h.primitives.add_other (by simp), h.arrays.withKey hinj element hid,
      h.methods.add_other (by simp), h.classes.add_other (by simp), h.superclasses⟩
  | method result parameters =>
    have hinj : Function.Injective fun m : TypeId × List TypeId => TypeEntry.method m.1 m.2 := by
      intro m m' heq
      exact Prod.ext (TypeEntry.method.inj heq).1 (TypeEntry.method.inj heq).2
    exact ⟨hentries, h.primitives.add_other (by simp), h.arrays.add_other (by simp),
      h.methods.withKey hinj (result, parameters) hid, h.classes.add_other (by simp),
      h.superclasses⟩

end Mirrors

theorem mirrors_index (t : TypeTable) : Mirrors (.index t) t := by
  have hall : ∀ (more : List TypeEntry) (x : IndexedTable) (t : TypeTable), Mirrors x t →
      Mirrors (more.foldl IndexedTable.file x) { t with entries := t.entries ++ more } := by
    intro more
    induction more with
    | nil =>
      intro x t h
      rwa [List.append_nil]
    | cons e more ih =>
      intro x t h
      have hnext := ih _ _ (h.file e)
      rw [TypeTable.add] at hnext
      rwa [List.append_assoc] at hnext
  have hempty : Mirrors { superclasses := t.superclasses } { t with entries := [] } :=
    ⟨rfl, fun _ => rfl, fun _ => rfl, fun _ => rfl, fun _ => rfl, rfl⟩
  exact hall t.entries _ _ hempty

/-- With the indexes of the primitive types a table is new. -/
example (name : String) : IndexedTable.index (.new name) = .new := rfl

/-! ## Workspaces in order -/

namespace Workspace

/-- Whether a workspace is in order. -/
structure Sane (w : Workspace) : Prop where
  types : Mirrors w.types (w.types.plain w.name)
  scopes : w.scopes.ChildrenIn

@[simp] theorem session_of (s : Session) : (Workspace.of s).session = s := by
  show Session.mk s.scopes ((IndexedTable.index s.types).plain s.types.name) s.classScopes = s
  rw [(mirrors_index s.types).plain_eq]

/-- What requests start with is in order. -/
theorem sane_of {s : Session} (h : s.Start) : (Workspace.of s).Sane := by
  have htypes : Mirrors (IndexedTable.index s.types)
      ((IndexedTable.index s.types).plain s.types.name) := by
    rw [(mirrors_index s.types).plain_eq]
    exact mirrors_index s.types
  refine ⟨htypes, ?_⟩
  cases h with
  | empty name =>
    intro key child hchild
    cases hchild
  | @compiled source name choice c h =>
    have htree : c.tables.scopes.IsTree 0 := by
      unfold compile at h
      split at h
      next => cases h
      next p _ =>
        split at h
        next => cases h
        next library _ =>
          cases h
          exact SymbolTables.isTree_ofProgram (p.withLibrary library) name
    exact fun key child hchild => htree.lt_size_of_mem_childrenOf hchild

namespace Sane

variable {w : Workspace}

/-- A table of types that mirrors that of a session keeps a workspace in order. -/
theorem withTypes (h : w.Sane) {x : IndexedTable} {t : TypeTable} (hmirrors : Mirrors x t)
    (hname : t.name = w.name) :
    { w with types := x }.Sane ∧
      { w with types := x }.session = { w.session with types := t } := by
  have hplain : x.plain w.name = t := by rw [← hname, hmirrors.plain_eq]
  refine ⟨⟨?_, h.scopes⟩, ?_⟩
  · show Mirrors x (x.plain w.name)
    rwa [hplain]
  · show Session.mk w.scopes (x.plain w.name) w.classScopes = _
    rw [hplain]
    rfl

end Sane

end Workspace

/-! ## Linking in place -/

namespace InPlace

/-- Linking links as deep as it may go and everything below, unless it is not over then. -/
theorem run_link (depth : Nat) {w : Workspace} (hin : w.scopes.ChildrenIn) {root : Nat}
    (hroot : root < w.scopes.size) :
    (link depth root).run.run w = (.ok (), { w with scopes := .linkWithin depth w.scopes root }) ∧
        Shallow w.scopes.childrenOf depth root ∨
      ∃ w', (link depth root).run.run w = (.error .tooDeep, w') := by
  induction depth generalizing w root with
  | zero => exact .inr ⟨w, rfl⟩
  | succ depth ih =>
    obtain ⟨scope, hscope⟩ := Arena.get?_eq_some hroot
    have hchildren : w.scopes.childrenOf root = scope.children := by rw [Arena.childrenOf, hscope]
    rw [link, run_scopeAt, hscope, Arena.linkWithin, Shallow, hchildren]
    have hall : ∀ child ∈ scope.children, child < w.scopes.size := by
      intro child hchild
      exact hin root child (hchildren ▸ hchild)
    clear hscope hchildren hroot
    dsimp only
    -- One child after another, in scopes whose children stay the same.
    generalize scope.children = children at hall ⊢
    induction children generalizing w with
    | nil => exact .inl ⟨rfl, fun child hchild => absurd hchild List.not_mem_nil⟩
    | cons child children ihs =>
      obtain ⟨s, hs⟩ := Arena.get?_eq_some (hall child List.mem_cons_self)
      let u : Workspace := { w with scopes := w.scopes.setParent child root }
      have hu : u.scopes.childrenOf = w.scopes.childrenOf := Arena.childrenOf_setParent _ _ _
      have husize : u.scopes.size = w.scopes.size := Arena.size_setParent _ _ _
      have huin : u.scopes.ChildrenIn := hin.congr hu husize.ge
      have hchild : child < u.scopes.size := husize ▸ hall child List.mem_cons_self
      have hfirst : ∀ rest : Unit → InPlace Unit,
          ((scopeAt child >>= fun _ => setParent child root >>= fun _ => link depth child) >>=
            rest).run.run w = (link depth child >>= rest).run.run u := by
        intro rest
        rw [bind_assoc, run_scopeAt, hs]
        rfl
      rw [List.forM_eq_forM, List.forM_cons, hfirst]
      rcases ih huin hchild with ⟨hrun, hshallow⟩ | ⟨w', hdeep⟩
      · let v : Workspace := { u with scopes := .linkWithin depth u.scopes child }
        obtain ⟨hv, hvsize⟩ := Arena.linkWithin_keeps depth u.scopes child
        have hvchildren : v.scopes.childrenOf = w.scopes.childrenOf := hv.trans hu
        have hnext : ∀ c ∈ children, c < v.scopes.size := by
          intro c hc
          rw [hvsize, husize]
          exact hall c (List.mem_cons_of_mem child hc)
        have hrest : ∀ rest : Unit → InPlace Unit,
            (link depth child >>= rest).run.run u = (rest ()).run.run v := by
          intro rest
          rw [ExceptT.run_bind, StateT.run_bind, hrun]
          rfl
        rw [hrest]
        rcases ihs (huin.linkWithin depth child) hnext with ⟨hrun', hshallow'⟩ | hdeep
        · refine .inl ⟨hrun', fun c hc => ?_⟩
          rcases List.mem_cons.mp hc with rfl | hc
          · exact hu ▸ hshallow
          · exact hvchildren ▸ hshallow' c hc
        · exact .inr hdeep
      · exact .inr ⟨w', by rw [ExceptT.run_bind, StateT.run_bind, hdeep]; rfl⟩

end InPlace

/-! ## One request -/

/-- Whether a request asks for a change. -/
def Request.changes : Request → Bool
  | .newScope .. | .insert .. | .addChild .. | .setParent .. | .linkBelow _ => true
  | .internPrimitive _ | .internClass _ | .internArray _ | .internMethod .. => true
  | .setSuperclass .. => true
  | _ => false

namespace Session

variable {s : Session}

theorem key_lt {reference : Int} {key : Nat} (h : s.key reference = .ok key) :
    key < s.scopes.size := by
  unfold Session.key at h
  dsimp only at h
  split at h
  next hin =>
    cases h
    omega
  next =>
    split at h
    next hin =>
      cases h
      omega
    next => cases h

/-- Whether an outcome leaves a session as it was. -/
def Leaves (s : Session) (x : Except RequestFault (Session × Answer)) : Prop :=
  ∀ o, x = .ok o → o.1 = s

theorem leaves_pure (a : Answer) : s.Leaves (pure (s, a)) := by
  intro o ho
  cases ho
  rfl

theorem leaves_bind {α : Type} {x : Except RequestFault α}
    {f : α → Except RequestFault (Session × Answer)} (h : ∀ a, s.Leaves (f a)) :
    s.Leaves (x >>= f) := by
  intro o ho
  obtain ⟨a, -, ho⟩ := Except.bind_eq_ok ho
  exact h a o ho

/-- A request that asks for no change makes none. -/
theorem leaves_perform {r : Request} (h : r.changes = false) : s.Leaves (s.perform r) := by
  cases r with
  | newScope _ _ | insert _ _ | addChild _ _ | setParent _ _ | linkBelow _ | internPrimitive _
  | internClass _ | internArray _ | internMethod _ _ | setSuperclass _ _ => cases h
  | scopes | lookupClass _ | superclassOf _ | classScope _ => exact leaves_pure _
  | parentOf _ | enclosingMethod _ | childrenOf _ | ancestors _ | walk _ | lookup _ _
  | lookupLocal _ _ | contains _ _ | resolve _ _ | label _ | describeScope _ | isMethod _
  | describe _ | idsOf _ | typeListing => exact leaves_bind fun _ => leaves_pure _
  | scope _ | sameSymbol _ _ | scopeListing _ =>
    exact leaves_bind fun _ => leaves_bind fun _ => leaves_pure _
  | entry id =>
    rw [perform]
    cases s.types.entry? id with
    | none =>
      intro o ho
      cases ho
    | some e => exact leaves_pure _

end Session

namespace Workspace

variable {w : Workspace}

/-- How a request ends in a workspace, and what is left, against how it ends in the
session that the workspace shows: it goes too deep, or it fails and has changed nothing, or
it is answered and the workspace, in order, shows the next session. -/
inductive Agrees (w : Workspace) :
    Except Halt Answer × Workspace → Except RequestFault (Session × Answer) → Prop
  | tooDeep (w' : Workspace) (x : Except RequestFault (Session × Answer)) :
    Agrees w (.error .tooDeep, w') x
  | failed (fault : RequestFault) : Agrees w (.error (.failed fault), w) (.error fault)
  | answered {w' : Workspace} (h : w'.Sane) (a : Answer) : Agrees w (.ok a, w') (.ok (w'.session, a))

namespace Agrees

open InPlace

/-- A check fails for both or for neither. -/
theorem check {α : Type} {x : Except RequestFault α} {f : α → InPlace Answer}
    {g : α → Except RequestFault (Session × Answer)}
    (h : ∀ a, x = .ok a → Agrees w ((f a).run.run w) (g a)) :
    Agrees w ((InPlace.check x >>= f).run.run w) (x >>= g) := by
  rw [run_check]
  cases x with
  | error fault => exact .failed fault
  | ok a => exact h a rfl

/-- A reference has a key for both or for neither. -/
theorem keyOf {reference : Int} {f : Nat → InPlace Answer}
    {g : Nat → Except RequestFault (Session × Answer)}
    (h : ∀ key, key < w.scopes.size → Agrees w ((f key).run.run w) (g key)) :
    Agrees w ((InPlace.keyOf reference >>= f).run.run w) (w.session.key reference >>= g) := by
  rw [InPlace.keyOf, bind_assoc, run_get]
  exact check fun key hkey => h key (Session.key_lt hkey)

/-- A scope that is there is the answer after any change of the scopes. -/
theorem showScope (h : w.Sane) {scopes : Arena} (hin : scopes.ChildrenIn) {key : Nat}
    (hkey : key < scopes.size) :
    Agrees w ((InPlace.showScope key).run.run { w with scopes })
      (w.session.withScopes scopes key) := by
  obtain ⟨scope, hscope⟩ := Arena.get?_eq_some hkey
  have hanswer : w.session.withScopes scopes key =
      .ok ({ w.session with scopes }, .scope key scope) := by
    rw [Session.withScopes]
    dsimp only
    rw [Session.scopeAnswer, hscope]
    rfl
  rw [InPlace.showScope, run_scopeAt, hanswer, hscope]
  have hsane : { w with scopes }.Sane := ⟨h.types, hin⟩
  exact .answered hsane _

/-- A symbol goes into a scope for both, or its name is taken for both. -/
theorem insert (h : w.Sane) {key : Nat} (hkey : key < w.scopes.size) (s : Symbol) :
    Agrees w ((InPlace.insert key s >>= fun _ => InPlace.showScope key).run.run w)
      (match w.session.scopes.insert? key s with
        | some scopes => w.session.withScopes scopes key
        | none => .error (.duplicate s.name (w.session.scopes.describe key))) := by
  obtain ⟨scope, hscope⟩ := Arena.get?_eq_some hkey
  have hdescribe : w.session.scopes.describe key = scope.describe := by
    show w.scopes.describe key = _
    rw [Arena.describe, hscope]
  rw [InPlace.insert, bind_assoc, InPlace.run_scopeAt, hscope]
  cases hlookup : scope.lookup s.name with
  | some old =>
    have hinsert : w.session.scopes.insert? key s = none := by
      show w.scopes.insert? key s = none
      simp only [Arena.insert?, hscope, hlookup]
    simp only [hlookup, hinsert, hdescribe]
    exact .failed _
  | none =>
    have hinsert : w.session.scopes.insert? key s = some (w.scopes.modify key fun scope =>
        { scope with symbols := scope.symbols ++ [s] }) := by
      show w.scopes.insert? key s = _
      simp only [Arena.insert?, hscope, hlookup]
    have hin : (w.scopes.modify key fun scope =>
        { scope with symbols := scope.symbols ++ [s] }).ChildrenIn := h.scopes.modify fun _ => rfl
    simp only [hlookup, hinsert]
    refine .showScope h hin ?_
    rw [Arena.size_modify]
    exact hkey

/-- The same parents are linked for both, unless the workspace goes too deep. -/
theorem linkBelow (h : w.Sane) {key : Nat} (hkey : key < w.scopes.size) (depth : Nat) :
    Agrees w ((InPlace.link depth key >>= fun _ =>
        return .parents ((← get).scopes.scopes.map (·.parent))).run.run w)
      (.ok ({ w.session with scopes := w.session.scopes.linkBelow key },
        .parents ((w.session.scopes.linkBelow key).scopes.map (·.parent)))) := by
  rw [ExceptT.run_bind, StateT.run_bind]
  rcases InPlace.run_link depth h.scopes hkey with ⟨hrun, hshallow⟩ | ⟨w', hdeep⟩
  · have hlinked : w.session.scopes.linkBelow key = .linkWithin depth w.scopes key :=
      h.scopes.linkBelow_eq hkey hshallow
    rw [hrun, hlinked]
    have hsane : { w with scopes := .linkWithin depth w.scopes key }.Sane :=
      ⟨h.types, h.scopes.linkWithin depth key⟩
    exact .answered hsane _
  · rw [hdeep]
    exact .tooDeep w' _

/-- A call has the same outcome for both. -/
theorem call (h : w.Sane) (c : Call) :
    Agrees w ((InPlace.call c >>= fun id => pure (Answer.id id)).run.run w)
      (Session.ofTypes (w.session.types.call c) >>= fun o =>
        pure ({ w.session with types := o.1 }, Answer.id o.2)) := by
  have hrun : (InPlace.call c >>= fun id => pure (Answer.id id)).run.run w =
      match InPlace.ended w (w.types.call c) with
      | (.ok id, w') => (.ok (.id id), w')
      | (.error halt, w') => (.error halt, w') := by
    rw [ExceptT.run_bind, StateT.run_bind, run_call]
    cases w.types.call c <;> rfl
  have hsame := h.types.call c
  rw [hrun]
  generalize hx : w.types.call c = x at hsame
  generalize ht : (w.types.plain w.name).call c = t at hsame
  have ht' : w.session.types.call c = t := ht
  rw [ht']
  cases hsame with
  | error fault => exact .failed _
  | @ok x t hmirrors id =>
    obtain ⟨hsane, hshows⟩ := h.withTypes hmirrors (TypeTable.name_of_call ht)
    have hanswered := Agrees.answered (w := w) hsane (.id (some id))
    rw [hshows] at hanswered
    exact hanswered

/-- What only reads is answered from the session. -/
theorem query (h : w.Sane) (r : Request) (hr : r.changes = false) :
    Agrees w ((InPlace.check (w.session.perform r) >>= fun o => pure o.2).run.run w)
      (w.session.perform r) := by
  have hleaves := w.session.leaves_perform hr
  rw [run_check]
  cases hp : w.session.perform r with
  | error fault => exact .failed fault
  | ok o =>
    obtain ⟨s, a⟩ := o
    obtain rfl : s = w.session := hleaves (s, a) hp
    exact .answered h a

end Agrees

/-- A request on a workspace in order ends as it does in the session that the workspace
shows. -/
theorem Sane.perform (h : w.Sane) (depth : Nat) (r : Request) :
    Agrees w (w.step depth r) (w.session.perform r) := by
  cases r with
  | newScope kind name =>
    refine .check fun kind _ => ?_
    have hsize : w.scopes.size < (w.scopes.newScope kind name).1.size := by
      show w.scopes.scopes.length < (w.scopes.scopes ++ [_]).length
      rw [List.length_append]
      exact Nat.lt_succ_self _
    exact .showScope h (h.scopes.newScope kind name) hsize
  | insert scope spec =>
    exact .keyOf fun key hkey => .check fun s _ => .insert h hkey s
  | addChild scope child =>
    refine .keyOf fun key hkey => .keyOf fun child hchild => ?_
    refine .showScope h (h.scopes.addChild hchild key) ?_
    rw [Arena.addChild_eq, Arena.size_modify]
    exact hkey
  | setParent scope parent =>
    refine .keyOf fun key hkey => .keyOf fun parent _ => ?_
    have hin : (w.scopes.setParent key parent).ChildrenIn := h.scopes.modify fun _ => rfl
    refine .showScope h hin ?_
    rw [Arena.size_setParent]
    exact hkey
  | linkBelow scope =>
    exact .keyOf fun key hkey => .linkBelow h hkey depth
  | internPrimitive kind => exact .check fun kind _ => .call h (.internPrimitive kind)
  | internClass name => exact .call h (.internClass name)
  | internArray element => exact .call h (.internArray element)
  | internMethod result parameters => exact .call h (.internMethod result parameters)
  | setSuperclass id name => exact .call h (.setSuperclass id name)
  | scopes => exact .query h .scopes rfl
  | lookupClass name => exact .query h (.lookupClass name) rfl
  | superclassOf id => exact .query h (.superclassOf id) rfl
  | classScope name => exact .query h (.classScope name) rfl
  | scope _ | parentOf _ | enclosingMethod _ | childrenOf _ | ancestors _ | walk _ | lookup _ _
  | lookupLocal _ _ | contains _ _ | resolve _ _ | label _ | describeScope _ | sameSymbol _ _
  | isMethod _ | entry _ | describe _ | idsOf _ | typeListing | scopeListing _ =>
    exact .query h _ rfl

/-! ## Many requests -/

/-- The requests that are answered, with their answers. -/
def answered (rs : List Request) (outcomes : List (Except Halt Answer)) :
    List (Request × Answer) :=
  (rs.zip outcomes).filterMap fun o => o.2.toOption.map fun a => (o.1, a)

theorem run_cons (depth : Nat) (w : Workspace) (r : Request) (rs : List Request) :
    w.run depth (r :: rs) =
      ((w.step depth r).1 :: ((w.step depth r).2.run depth rs).1,
        ((w.step depth r).2.run depth rs).2) := rfl

/-- Requests of which none goes too deep end as they do in the session. Those that are
answered get the same answers without the others, and the same workspace is left. -/
theorem Sane.run (h : w.Sane) (depth : Nat) (rs : List Request)
    (hends : .error .tooDeep ∉ (w.run depth rs).1) :
    let all := w.run depth rs
    let kept := answered rs all.1
    w.run depth (kept.map (·.1)) = (kept.map fun k => .ok k.2, all.2) ∧
      all.1 = (w.session.run rs).1.map (Except.mapError .failed) ∧
      all.2.session = (w.session.run rs).2 := by
  induction rs generalizing w with
  | nil => exact ⟨rfl, rfl, rfl⟩
  | cons r rs ih =>
    have hstep := h.perform depth r
    rw [run_cons] at hends ⊢
    rw [Session.run, Session.step]
    generalize ho : w.step depth r = o at hstep hends ⊢
    generalize hx : w.session.perform r = x at hstep ⊢
    cases hstep with
    | tooDeep => exact absurd List.mem_cons_self hends
    | failed fault =>
      obtain ⟨hkept, houtcomes, hleft⟩ := ih h fun hmem => hends (List.mem_cons_of_mem _ hmem)
      exact ⟨hkept, congrArg (.error (.failed fault) :: ·) houtcomes, hleft⟩
    | @answered w' h' a =>
      obtain ⟨hkept, houtcomes, hleft⟩ := ih h' fun hmem => hends (List.mem_cons_of_mem _ hmem)
      refine ⟨?_, congrArg (.ok a :: ·) houtcomes, hleft⟩
      show w.run depth (r :: (answered rs (w'.run depth rs).1).map (·.1)) = _
      rw [run_cons, ho, hkept]
      rfl

end Workspace

open Workspace in
/-- Whatever is asked of an empty arena and a new type table, or of those of a compiled
program: without the requests that failed, every other request is answered as before, and
the arena and the type table, with its indexes, are the same in the end. Throughout,
requests end as they do in the session. Only a linking that has an end counts, and it has
one within some depth. -/
theorem Session.Start.failures_leave_no_trace {start : Session} (hstart : start.Start)
    (depth : Nat) (rs : List Request)
    (hends : .error .tooDeep ∉ ((Workspace.of start).run depth rs).1) :
    let all := (Workspace.of start).run depth rs
    let kept := answered rs all.1
    (Workspace.of start).run depth (kept.map (·.1)) = (kept.map fun k => .ok k.2, all.2) ∧
      all.1 = (start.run rs).1.map (Except.mapError .failed) ∧
      all.2.session = (start.run rs).2 := by
  have hrun := (sane_of hstart).run depth rs hends
  rwa [session_of] at hrun

open Workspace in
/-- Requests of which many fail, for each of the reasons there are, and leave two scopes,
one below the other, and a class. -/
theorem Session.Start.failures_leave_no_trace_mixed :
    let start : Session := { types := .new "a.ic" }
    let x : SymbolSpec := ⟨"x", "Field", 1, 3⟩
    let rs : List Request :=
      [.newScope "Global" "a.ic", .newScope "Package" "b", .newScope "Class" "A",
        .insert 1 x, .insert 1 x, .insert 1 ⟨"y", "Function", 1, 4⟩, .insert 2 x, .addChild 0 1,
        .addChild 0 2, .setParent (-3) 0, .linkBelow 0, .internArray 9, .internArray 1,
        .internPrimitive "float", .internClass "A", .setSuperclass 1 "A", .setSuperclass 8 "A",
        .setSuperclass 7 "B", .setSuperclass 7 "A", .internMethod 99 [], .describe 8,
        .scopeListing 0, .typeListing]
    let all := (Workspace.of start).run 5 rs
    let kept := answered rs all.1
    start.Start ∧ .error .tooDeep ∉ all.1 ∧
      (Workspace.of start).run 5 (kept.map (·.1)) = (kept.map fun k => .ok k.2, all.2) ∧
      all.1 = (start.run rs).1.map (Except.mapError .failed) ∧
      all.2.session = (start.run rs).2 := by
  intro start x rs all kept
  have hends : .error .tooDeep ∉ all.1 := by
    have hall : (all.1.all fun o => match o with
      | .error .tooDeep => false
      | _ => true) = true := by decide +kernel
    intro hmem
    exact absurd (List.all_eq_true.mp hall _ hmem) (by simp)
  exact ⟨.empty "a.ic", hends, Session.Start.failures_leave_no_trace (.empty "a.ic") 5 rs hends⟩

end IcFront
