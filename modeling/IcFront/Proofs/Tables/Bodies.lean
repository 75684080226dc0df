import IcFront.Proofs.Scopes.Layout
import IcFront.Tables.Body

/-!
# Scopes of bodies, by their outlines

What working through statements makes of the tables. A statement adds the scopes
of the blocks in it, not linked to anything yet, and exports the local variables
that it declares for its surroundings and the keys of its outermost blocks
(`statement_eq`). A list of statements, worked through for a scope, also hands
that scope all that its statements export (`statements_scopes`).

The types only grow, and the ids of the exported symbols are given in any table
`T` that the types have grown into.
-/

namespace IcFront

variable {ε : Type} {T : TypeTable} {declared : List String}

/-- The symbols of those declarations whose types are known. -/
def resolved (T : TypeTable) (declared : List String) (xs : List Declaration) : List Symbol :=
  (xs.filter (·.resolvable declared)).map (·.symbol T)

@[simp] theorem resolved_nil : resolved T declared [] = [] := rfl

@[simp] theorem resolved_append (xs ys : List Declaration) :
    resolved T declared (xs ++ ys) = resolved T declared xs ++ resolved T declared ys := by
  simp [resolved]

theorem resolved_cons (x : Declaration) (xs : List Declaration) :
    resolved T declared (x :: xs) = resolved T declared [x] ++ resolved T declared xs :=
  resolved_append [x] xs

/-- A scope that is handed all symbols of a region keeps those that the region
keeps. -/
theorem foldl_keepFirst_resolved (T : TypeTable) (declared : List String)
    (xs : List Declaration) :
    (resolved T declared xs).foldl (keepFirst (·.name)) [] =
      (kept declared xs).map (·.symbol T) :=
  foldl_keepFirst_map (·.name) (·.name) (Declaration.symbol T) (fun _ => rfl) [] _

/-- A new scope, once it was handed all that its region declares and holds. -/
theorem Scope.receive_region (kind : ScopeKind) (name : String) (xs : List Declaration)
    (inner : List Nat) :
    ({ kind, name } : Scope).receive (resolved T declared xs) inner =
      Region.scope T declared ⟨kind, name, xs, none, inner⟩ := by
  rw [receive, foldl_keepFirst_resolved]
  rfl

namespace Draft

open TypeTable Outline

/-! ## Declaring -/

@[simp] theorem declare_types (d : Draft) (key : Nat) (s : Symbol) :
    (d.declare key s).types = d.types := by
  unfold declare
  split <;> rfl

/-- Declaring a symbol hands it to its scope, whether its name is taken or not. -/
theorem declare_scopes (d : Draft) {key : Nat} (s : Symbol) (hkey : key < d.scopes.size) :
    (d.declare key s).scopes = d.scopes.modify key (·.receive [s] []) := by
  obtain ⟨scope, hscope⟩ := Arena.get?_eq_some hkey
  unfold declare
  cases htaken : scope.symbols.any (·.name == s.name) with
  | true =>
    rw [Arena.insert?_eq_none hscope htaken]
    have hsame : scope = scope.receive [s] [] := by simp [Scope.receive, keepFirst, htaken]
    exact (Arena.modify_id d.scopes key).symm.trans (Arena.modify_congr hscope hsame)
  | false => rw [Arena.insert?_eq_some hscope htaken]

@[simp] theorem foldl_declare_types (d : Draft) (key : Nat) (xs : List Symbol) :
    (xs.foldl (fun d s => d.declare key s) d).types = d.types := by
  induction xs generalizing d with
  | nil => rfl
  | cons x xs ih => rw [List.foldl_cons, ih, declare_types]

theorem foldl_declare_scopes (d : Draft) {key : Nat} (xs : List Symbol)
    (hkey : key < d.scopes.size) :
    (xs.foldl (fun d s => d.declare key s) d).scopes =
      d.scopes.modify key (·.receive xs []) := by
  induction xs generalizing d with
  | nil => simp
  | cons x xs ih =>
    have hstep := declare_scopes d x hkey
    rw [List.foldl_cons, ih _ (by rw [hstep, Arena.size_modify]; exact hkey), hstep]
    simp

theorem foldl_addChild (a : Arena) (key : Nat) (ks : List Nat) :
    ks.foldl (fun a child => a.addChild key child) a = a.modify key (·.receive [] ks) := by
  induction ks generalizing a with
  | nil => simp
  | cons k ks ih => rw [List.foldl_cons, ih, Arena.addChild_eq]; simp

@[simp] theorem receive_types (d : Draft) (key : Nat) (e : Exports) :
    (d.receive key e).types = d.types := foldl_declare_types d key e.symbols

theorem receive_scopes (d : Draft) {key : Nat} (e : Exports) (hkey : key < d.scopes.size) :
    (d.receive key e).scopes = d.scopes.modify key (·.receive e.symbols e.scopes) := by
  show e.scopes.foldl (fun a child => a.addChild key child)
    (e.symbols.foldl (fun d s => d.declare key s) d).scopes = _
  rw [foldl_declare_scopes d e.symbols hkey, foldl_addChild]
  simp

/-! ## Statements -/

mutual

theorem grows_statement (d : Draft) : ∀ s : Stmt ε, d.types.Grows (d.statement s).1.types
  | .localVar type name initial line => by
    rw [statement]
    exact grows_typeOf d type line
  | .block body line _ => by
    rw [statement]
    exact grows_statements (d.newScope .block "").1 (d.newScope .block "").2 body
  | .ifThen _ body _ => by
    rw [statement]
    exact grows_statement d body
  | .ifElse _ body otherwise _ => by
    rw [statement]
    exact (grows_statement d body).trans (grows_statement _ otherwise)
  | .while_ _ body _ => by
    rw [statement]
    exact grows_statement d body
  | .assign .. | .call .. | .return_ .. | .break_ _ | .continue_ _ => .refl _

theorem grows_statements (d : Draft) (key : Nat) :
    ∀ ss : List (Stmt ε), d.types.Grows (d.statements key ss).1.types
  | [] => .refl _
  | s :: ss => by
    rw [statements]
    have hrest := grows_statements ((d.statement s).1.receive key (d.statement s).2.2) key ss
    rw [receive_types] at hrest
    exact (grows_statement d s).trans hrest

end

mutual

/-- A statement adds the scopes of its blocks, and exports its local variables and
the keys of its outermost blocks. -/
theorem statement_eq (d : Draft) (hK : d.types.Knows declared) :
    ∀ s : Stmt ε, (d.statement s).1.types.Grows T →
      (d.statement s).1.scopes = d.scopes.extend (orphans T declared d.scopes.size s.blocks) ∧
        (d.statement s).2.2 = ⟨resolved T declared s.locals, keys d.scopes.size s.blocks⟩
  | .localVar type name initial line, hT => by
    rw [statement] at hT ⊢
    have htype := (typeOf_eq d type line hK hT).1
    refine ⟨by simp [Stmt.blocks], ?_⟩
    have hres : Declaration.resolvable declared ⟨name, .localVariable, line, .value type⟩ =
        type.isKnown declared := by simp [Declaration.resolvable, DeclaredType.types]
    show Exports.mk _ [] = Exports.mk (resolved T declared [_]) []
    rw [htype, resolved, List.filter_singleton, hres]
    cases type.isKnown declared <;> rfl
  | .block body line scope, hT => by
    rw [statement] at hT ⊢
    have hsize : (d.newScope .block "").1.scopes.size = d.scopes.size + 1 :=
      Arena.size_extend d.scopes [_]
    -- The scope of the block is new and last, and its body hands it all it exports.
    have hbody := statements_scopes (d.newScope .block "").1
      (by rw [hsize]; exact Nat.lt_succ_self d.scopes.size) hK body hT
    refine ⟨hbody.trans ?_, rfl⟩
    rw [hsize]
    show ((d.scopes.extend [_]).modify d.scopes.size _).extend _ = _
    rw [Arena.modify_extend_size, Scope.receive_region, Arena.extend_extend, Stmt.blocks,
      orphans_region_cons]
    simp
  | .ifThen _ body _, hT => by
    rw [statement] at hT ⊢
    rw [Stmt.blocks, Stmt.locals]
    exact statement_eq d hK body hT
  | .ifElse _ body otherwise _, hT => by
    rw [statement] at hT ⊢
    have hgrows := grows_statement d body
    obtain ⟨hscopes, hexports⟩ :=
      statement_eq d hK body ((grows_statement (d.statement body).1 otherwise).trans hT)
    obtain ⟨hscopes', hexports'⟩ :=
      statement_eq (d.statement body).1 (hK.of_grows hgrows) otherwise hT
    rw [hscopes] at hscopes' hexports'
    rw [Stmt.blocks, Stmt.locals]
    refine ⟨hscopes'.trans ?_, ?_⟩
    · rw [Arena.size_extend, length_orphans, Arena.extend_extend, orphans_append]
    · show (d.statement body).2.2.append ((d.statement body).1.statement otherwise).2.2 = _
      rw [hexports, hexports', Arena.size_extend, length_orphans, resolved_append, keys_append]
      rfl
  | .while_ _ body _, hT => by
    rw [statement] at hT ⊢
    rw [Stmt.blocks, Stmt.locals]
    exact statement_eq d hK body hT
  | .assign .., _ | .call .., _ | .return_ .., _ | .break_ _, _ | .continue_ _, _ =>
    ⟨by simp [statement, Stmt.blocks], rfl⟩

/-- Statements hand the scope they are worked through for all that they export. -/
theorem statements_scopes (d : Draft) {key : Nat} (hkey : key < d.scopes.size)
    (hK : d.types.Knows declared) :
    ∀ ss : List (Stmt ε), (d.statements key ss).1.types.Grows T →
      (d.statements key ss).1.scopes =
        (d.scopes.modify key (·.receive (resolved T declared (ss.flatMap Stmt.locals))
            (keys d.scopes.size (Stmt.blocksOf ss)))).extend
          (orphans T declared d.scopes.size (Stmt.blocksOf ss))
  | [], _ => by simp [statements, Stmt.blocksOf, keys]
  | s :: ss, hT => by
    rw [statements] at hT ⊢
    have hgrows := grows_statement d s
    have hrest := grows_statements ((d.statement s).1.receive key (d.statement s).2.2) key ss
    rw [receive_types] at hrest
    obtain ⟨hscopes, hexports⟩ := statement_eq d hK s (hrest.trans hT)
    -- Scopes added by the first statement and what it hands on do not get in each other's way.
    have hreceived :
        ((d.statement s).1.receive key (d.statement s).2.2).scopes =
          (d.scopes.modify key (·.receive (resolved T declared s.locals)
              (keys d.scopes.size s.blocks))).extend
            (orphans T declared d.scopes.size s.blocks) := by
      rw [receive_scopes _ _ (by rw [hscopes, Arena.size_extend]; omega), hscopes, hexports,
        Arena.modify_extend_of_lt hkey]
    have hsize : ((d.statement s).1.receive key (d.statement s).2.2).scopes.size =
        d.scopes.size + sizes s.blocks := by
      rw [hreceived, Arena.size_extend, Arena.size_modify, length_orphans]
    have hih := statements_scopes ((d.statement s).1.receive key (d.statement s).2.2)
      (by rw [hsize]; omega) (by rw [receive_types]; exact hK.of_grows hgrows) ss hT
    refine hih.trans ?_
    rw [hsize, hreceived, Arena.modify_extend_of_lt (by rw [Arena.size_modify]; exact hkey),
      Arena.modify_modify, Arena.extend_extend, List.flatMap_cons, resolved_append,
      Stmt.blocksOf, keys_append, orphans_append]
    simp

end

end Draft

end IcFront
