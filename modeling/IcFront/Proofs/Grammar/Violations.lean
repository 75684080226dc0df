import IcFront.Proofs.Grammar.Misfits
import IcFront.Proofs.Grammar.RelinedMeaning
import IcFront.Proofs.Grammar.Trees

/-!
# Rules beyond the grammar

Each rule that the grammar leaves open is about one node of a parse tree, and what a node
does against them can be said without its surroundings (`Node.violation?`). A parse tree
has a meaning if no node of it breaks a rule; otherwise the first node that does is
reported, from the bottom up and from left to right (`ProgramTree.meaning_eq`).

`Program.parse_violations` says so of texts.
-/

namespace IcFront

/-! ## Checks -/

section Check

variable {ε α β : Type}

/-- Something, unless there is an error. -/
def check (error : Option ε) (a : α) : Except ε α :=
  match error with
  | none => .ok a
  | some e => .error e

theorem check_none (a : α) : check (none : Option ε) a = .ok a := rfl

theorem check_bind {error error' : Option ε} {a : α} {b : β} {f : α → Except ε β}
    (hf : f a = check error' b) : check error a >>= f = check (error.or error') b := by
  cases error with
  | none => exact hf
  | some e => rfl

theorem check_map (error : Option ε) (a : α) (f : α → β) :
    (do let a ← check error a; return f a) = check error (f a) := by
  cases error <;> rfl

theorem mapM_check {f : α → Except ε β} {error : α → Option ε} {g : α → β}
    (hf : ∀ a, f a = check (error a) (g a)) (as : List α) :
    as.mapM f = check (as.findSome? error) (as.map g) := by
  induction as with
  | nil => rfl
  | cons a as ih =>
    rw [List.mapM_cons, hf a, ih, List.findSome?_cons]
    cases error a with
    | none => exact check_map _ _ (g a :: ·)
    | some e => rfl

end Check

/-! ## Nodes -/

/-- A part of a parse tree that is checked. -/
inductive Node
  | expr (e : ExprTree)
  | stmt (s : StmtTree)
  | formal (f : FormalTree)
  | member (m : MemberTree)

namespace ExprTree

mutual

/-- The nodes of a parse tree, from the bottom up and from left to right. -/
def nodes : ExprTree → List Node
  | field object w => object.nodes ++ [.expr (field object w)]
  | element array index => array.nodes ++ (index.nodes ++ [.expr (element array index)])
  | staticCall c w arguments => nodesOf arguments ++ [.expr (staticCall c w arguments)]
  | virtualCall receiver w arguments =>
    receiver.nodes ++ (nodesOf arguments ++ [.expr (virtualCall receiver w arguments)])
  | localCall w arguments => nodesOf arguments ++ [.expr (localCall w arguments)]
  | newArray line type size => size.nodes ++ [.expr (newArray line type size)]
  | length array => array.nodes ++ [.expr (length array)]
  | binary left op line right =>
    left.nodes ++ (right.nodes ++ [.expr (binary left op line right)])
  | unary op line operand => operand.nodes ++ [.expr (unary op line operand)]
  | paren inner => inner.nodes ++ [.expr (paren inner)]
  | var w => [.expr (var w)]
  | this line => [.expr (this line)]
  | newObject line c => [.expr (newObject line c)]
  | integer w => [.expr (integer w)]
  | string w => [.expr (string w)]
  | bool value line => [.expr (bool value line)]
  | null line => [.expr (null line)]

/-- The nodes of a list of parse trees. -/
def nodesOf : List ExprTree → List Node
  | [] => []
  | e :: es => e.nodes ++ nodesOf es

end

end ExprTree

namespace StmtTree

mutual

/-- The nodes of a parse tree, from the bottom up and from left to right. -/
def nodes : StmtTree → List Node
  | localVar type w initial =>
    initial.toList.flatMap ExprTree.nodes ++ [.stmt (localVar type w initial)]
  | assign target value => target.nodes ++ (value.nodes ++ [.stmt (assign target value)])
  | expression e => e.nodes ++ [.stmt (expression e)]
  | return_ line value =>
    value.toList.flatMap ExprTree.nodes ++ [.stmt (return_ line value)]
  | ifThen line condition body =>
    condition.nodes ++ (body.nodes ++ [.stmt (ifThen line condition body)])
  | ifElse line condition body otherwise =>
    condition.nodes ++ (body.nodes ++ (otherwise.nodes ++
      [.stmt (ifElse line condition body otherwise)]))
  | while_ line condition body =>
    condition.nodes ++ (body.nodes ++ [.stmt (while_ line condition body)])
  | break_ line => [.stmt (break_ line)]
  | continue_ line => [.stmt (continue_ line)]
  | block line body => nodesOf body ++ [.stmt (block line body)]

/-- The nodes of a list of parse trees. -/
def nodesOf : List StmtTree → List Node
  | [] => []
  | s :: ss => s.nodes ++ nodesOf ss

end

end StmtTree

/-- The nodes of a member, from the bottom up and from left to right. -/
def MemberTree.nodes : MemberTree → List Node
  | fields type first further => [.member (fields type first further)]
  | method s body =>
    s.formals.map Node.formal ++ (StmtTree.nodesOf (body.getD []) ++ [.member (method s body)])

/-- The nodes of a class, from the bottom up and from left to right. -/
def ClassTree.nodes (c : ClassTree) : List Node := c.members.flatMap MemberTree.nodes

/-- The nodes of a program, from the bottom up and from left to right. -/
def ProgramTree.nodes (p : ProgramTree) : List Node := p.flatMap ClassTree.nodes

/-- A declaration of base type void, reported at the line of the type. -/
def voidDeclaration? (what : Declared) (type : TypeRef) (name : Word) : Option ParseError :=
  if type.isVoid then some (.syntax_ type.line (.voidDeclaration what name.text)) else none

/-- What a node does against the rules beyond the grammar. -/
def Node.violation? : Node → Option ParseError
  | expr (.newArray line type _) =>
    if type.isVoid then some (.syntax_ line .voidArray) else none
  | expr (.integer w) =>
    if maxDigits < w.text.length then some (.longInteger w.text.length) else none
  | stmt (.localVar type w _) => voidDeclaration? .localVariable type w
  | stmt (.assign (.var _) _) | stmt (.assign (.field ..) _) | stmt (.assign (.element ..) _) =>
    none
  | stmt (.assign target _) => some (.syntax_ target.expr.line .invalidTarget)
  | stmt (.expression (.staticCall ..)) | stmt (.expression (.virtualCall ..))
  | stmt (.expression (.localCall ..)) => none
  | stmt (.expression e) => some (.syntax_ e.expr.line .notAStatement)
  | formal f => voidDeclaration? .parameter f.type f.name
  | member (.fields type first _) => voidDeclaration? .field type first
  | member (.method s none) =>
    if s.static then none else some (.syntax_ s.name.line (.bodyMissing s.name.text))
  | _ => none

/-- What is first done against the rules beyond the grammar. -/
def firstViolation? (nodes : List Node) : Option ParseError := nodes.findSome? Node.violation?

theorem firstViolation?_append (ns ns' : List Node) :
    firstViolation? (ns ++ ns') = (firstViolation? ns).or (firstViolation? ns') :=
  List.findSome?_append

theorem firstViolation?_singleton (n : Node) : firstViolation? [n] = n.violation? := by
  cases h : n.violation? <;> simp [firstViolation?, h]

/-! ## Meanings -/

namespace ExprTree

mutual

theorem meaning_eq (e : ExprTree) : e.meaning = check (firstViolation? e.nodes) e.expr := by
  cases e with
  | var w | this line | newObject line c | string w | bool value line | null line => rfl
  | integer w =>
    rw [nodes, firstViolation?_singleton, meaning, Node.violation?]
    split <;> rfl
  | field object w =>
    rw [nodes, firstViolation?_append, meaning, meaning_eq object]
    exact check_bind rfl
  | element array index =>
    rw [nodes, firstViolation?_append, firstViolation?_append, meaning, meaning_eq array]
    refine check_bind ?_
    rw [meaning_eq index]
    exact check_bind rfl
  | staticCall c w arguments =>
    rw [nodes, firstViolation?_append, meaning, meanings_eq arguments]
    exact check_bind rfl
  | virtualCall receiver w arguments =>
    rw [nodes, firstViolation?_append, firstViolation?_append, meaning, meaning_eq receiver]
    refine check_bind ?_
    rw [meanings_eq arguments]
    exact check_bind rfl
  | localCall w arguments =>
    rw [nodes, firstViolation?_append, meaning, meanings_eq arguments]
    exact check_bind rfl
  | newArray line type size =>
    rw [nodes, firstViolation?_append, firstViolation?_singleton, meaning, meaning_eq size]
    refine check_bind ?_
    rw [Node.violation?]
    cases type.isVoid <;> rfl
  | length array =>
    rw [nodes, firstViolation?_append, meaning, meaning_eq array]
    exact check_bind rfl
  | binary left op line right =>
    rw [nodes, firstViolation?_append, firstViolation?_append, meaning, meaning_eq left]
    refine check_bind ?_
    rw [meaning_eq right]
    exact check_bind rfl
  | unary op line operand =>
    rw [nodes, firstViolation?_append, meaning, meaning_eq operand]
    exact check_bind rfl
  | paren inner =>
    rw [nodes, firstViolation?_append, meaning, meaning_eq inner]
    exact check_bind rfl

theorem meanings_eq (es : List ExprTree) :
    meanings es = check (firstViolation? (nodesOf es)) (exprs es) := by
  cases es with
  | nil => rfl
  | cons e es =>
    rw [nodesOf, firstViolation?_append, meanings, meaning_eq e]
    refine check_bind ?_
    rw [meanings_eq es]
    exact check_map _ _ (e.expr :: ·)

end

theorem meaning?_eq (e : Option ExprTree) : meaning? e =
    check (firstViolation? (e.toList.flatMap nodes)) (e.map expr) := by
  cases e with
  | none => rfl
  | some e =>
    rw [meaning?, meaning_eq]
    cases h : firstViolation? e.nodes <;> simp [h] <;> rfl

end ExprTree

theorem refuseVoid_eq (what : Declared) (type : TypeRef) (name : Word) :
    refuseVoid what type name = check (voidDeclaration? what type name) () := by
  rw [refuseVoid, voidDeclaration?]
  split <;> rfl

namespace StmtTree

mutual

theorem meaning_eq (s : StmtTree) : s.meaning = check (firstViolation? s.nodes) s.stmt := by
  cases s with
  | localVar type w initial =>
    rw [nodes, firstViolation?_append, firstViolation?_singleton, meaning, ExprTree.meaning?_eq]
    refine check_bind ?_
    rw [refuseVoid_eq]
    exact check_map _ () _
  | assign target value =>
    rw [nodes, firstViolation?_append, firstViolation?_append, firstViolation?_singleton, meaning,
      ExprTree.meaning_eq target]
    refine check_bind ?_
    rw [ExprTree.meaning_eq value]
    refine check_bind ?_
    cases target <;> rfl
  | expression e =>
    rw [nodes, firstViolation?_append, firstViolation?_singleton, meaning, ExprTree.meaning_eq e]
    refine check_bind ?_
    cases e <;> rfl
  | return_ line value =>
    rw [nodes, firstViolation?_append, meaning, ExprTree.meaning?_eq]
    exact check_bind rfl
  | ifThen line condition body =>
    rw [nodes, firstViolation?_append, firstViolation?_append, meaning,
      ExprTree.meaning_eq condition]
    refine check_bind ?_
    rw [meaning_eq body]
    exact check_bind rfl
  | ifElse line condition body otherwise =>
    rw [nodes, firstViolation?_append, firstViolation?_append, firstViolation?_append, meaning,
      ExprTree.meaning_eq condition]
    refine check_bind ?_
    rw [meaning_eq body]
    refine check_bind ?_
    rw [meaning_eq otherwise]
    exact check_bind rfl
  | while_ line condition body =>
    rw [nodes, firstViolation?_append, firstViolation?_append, meaning,
      ExprTree.meaning_eq condition]
    refine check_bind ?_
    rw [meaning_eq body]
    exact check_bind rfl
  | break_ line | continue_ line => rfl
  | block line body =>
    rw [nodes, firstViolation?_append, meaning, meanings_eq body]
    exact check_bind rfl

theorem meanings_eq (ss : List StmtTree) :
    meanings ss = check (firstViolation? (nodesOf ss)) (stmts ss) := by
  cases ss with
  | nil => rfl
  | cons s ss =>
    rw [nodesOf, firstViolation?_append, meanings, meaning_eq s]
    refine check_bind ?_
    rw [meanings_eq ss]
    exact check_map _ _ (s.stmt :: ·)

end

end StmtTree

theorem FormalTree.meaning_eq (f : FormalTree) :
    f.meaning = check (Node.formal f).violation? f.formal := by
  rw [meaning, refuseVoid_eq]
  exact check_map _ () _

theorem fieldMeaning_eq (type : TypeRef) (w : Word) :
    fieldMeaning type w = check (voidDeclaration? .field type w) (fieldOf type w) := by
  rw [fieldMeaning, refuseVoid_eq]
  exact check_map _ () _

/-- Of the names of a type that is void the first is reported. -/
theorem findSome?_voidDeclaration? (what : Declared) (type : TypeRef) (first : Word)
    (further : List Word) : (first :: further).findSome? (voidDeclaration? what type) =
      voidDeclaration? what type first := by
  cases hvoid : type.isVoid <;> simp [voidDeclaration?, hvoid]

theorem methodMeaning_eq (s : Signature) (body : Option (List StmtTree)) : methodMeaning s body =
    check (firstViolation? (MemberTree.method s body).nodes) (methodOf s body) := by
  rw [MemberTree.nodes, firstViolation?_append, firstViolation?_append, firstViolation?_singleton,
    methodMeaning, mapM_check FormalTree.meaning_eq,
    show firstViolation? (s.formals.map Node.formal) =
      s.formals.findSome? (fun f => (Node.formal f).violation?) from List.findSome?_map ..]
  refine check_bind ?_
  cases body with
  | none =>
    rw [Node.violation?]
    cases hs : s.static <;> rfl
  | some body =>
    simp only [StmtTree.meanings_eq, Option.getD_some]
    cases firstViolation? (StmtTree.nodesOf body) <;> rfl

theorem MemberTree.meaning_eq (sofar : List Field × List (Method Expr)) (m : MemberTree) :
    m.meaning sofar =
      check (firstViolation? m.nodes) (sofar.1 ++ m.fieldsOf, sofar.2 ++ m.methodsOf) := by
  cases m with
  | fields type first further =>
    rw [nodes, firstViolation?_singleton, meaning, mapM_check (fieldMeaning_eq type),
      findSome?_voidDeclaration?, methodsOf, List.append_nil]
    exact check_map _ _ fun fields => (sofar.1 ++ fields, sofar.2)
  | method s body =>
    rw [meaning, methodMeaning_eq, fieldsOf, List.append_nil]
    exact check_map _ _ fun m => (sofar.1, sofar.2 ++ [m])

theorem MemberTree.foldlM_meaning (ms : List MemberTree) (sofar : List Field × List (Method Expr)) :
    ms.foldlM (fun sofar m => MemberTree.meaning sofar m) sofar =
      check (firstViolation? (ms.flatMap nodes))
        (sofar.1 ++ ms.flatMap fieldsOf, sofar.2 ++ ms.flatMap methodsOf) := by
  induction ms generalizing sofar with
  | nil => simp [firstViolation?, check_none]; rfl
  | cons m ms ih =>
    rw [List.foldlM_cons, meaning_eq, List.flatMap_cons, firstViolation?_append]
    refine check_bind ?_
    rw [ih]
    simp

theorem ClassTree.meaning_eq (c : ClassTree) :
    c.meaning = check (firstViolation? c.nodes) c.decl := by
  rw [meaning, MemberTree.foldlM_meaning, nodes]
  cases firstViolation? (c.members.flatMap MemberTree.nodes) <;> rfl

/-- A parse tree means what it is, unless a node breaks a rule. -/
theorem ProgramTree.meaning_eq (p : ProgramTree) :
    p.meaning = check (firstViolation? p.nodes) { classes := p.map ClassTree.decl } := by
  have hfirst : p.findSome? (fun c => firstViolation? c.nodes) = firstViolation? p.nodes := by
    unfold nodes
    induction p with
    | nil => rfl
    | cons c p ih =>
      rw [List.flatMap_cons, firstViolation?_append, ← ih, List.findSome?_cons]
      cases firstViolation? c.nodes <;> rfl
  rw [meaning, mapM_check ClassTree.meaning_eq, hfirst]
  exact check_map _ _ fun classes => ({ classes } : Program Expr)

/-! ## Lines -/

section Lines

variable (f : Nat → Nat)

/-- A node with other lines. -/
def Node.reline : Node → Node
  | expr e => .expr (e.reline f)
  | stmt s => .stmt (s.reline f)
  | formal x => .formal (x.reline f)
  | member m => .member (m.reline f)

namespace ExprTree

mutual

theorem nodes_reline (e : ExprTree) : (e.reline f).nodes = e.nodes.map (Node.reline f) := by
  cases e with
  | var w | this line | newObject line c | integer w | string w | bool value line | null line => rfl
  | field object w | length object | paren object | unary op line object | newArray line t object =>
    simp [reline, nodes, Node.reline, nodes_reline object]
  | element left right | binary left op line right =>
    simp [reline, nodes, Node.reline, nodes_reline left, nodes_reline right]
  | staticCall c w arguments | localCall w arguments =>
    simp [reline, nodes, Node.reline, nodesOf_reline arguments]
  | virtualCall receiver w arguments =>
    simp [reline, nodes, Node.reline, nodes_reline receiver, nodesOf_reline arguments]

theorem nodesOf_reline (es : List ExprTree) :
    nodesOf (relineAll f es) = (nodesOf es).map (Node.reline f) := by
  cases es with
  | nil => rfl
  | cons e es => simp [relineAll, nodesOf, nodes_reline e, nodesOf_reline es]

end

theorem flatMap_nodes_reline (e : Option ExprTree) :
    (e.map (·.reline f)).toList.flatMap nodes =
      (e.toList.flatMap nodes).map (Node.reline f) := by
  cases e with
  | none => rfl
  | some e => simp [nodes_reline]

/-- The line of an expression is one that was put in. -/
theorem exists_line (e : ExprTree) : ∃ k, (e.reline f).expr.line = f k := by
  cases e with
  | element array index => exact exists_line array
  | length array => exact exists_line array
  | paren inner => exact exists_line inner
  | _ => exact ⟨_, rfl⟩

end ExprTree

namespace StmtTree

mutual

theorem nodes_reline (s : StmtTree) : (s.reline f).nodes = s.nodes.map (Node.reline f) := by
  cases s with
  | localVar type w initial =>
    simp only [reline, nodes, ExprTree.flatMap_nodes_reline, List.map_append]
    rfl
  | return_ line value =>
    simp only [reline, nodes, ExprTree.flatMap_nodes_reline, List.map_append]
    rfl
  | assign target value => simp [reline, nodes, Node.reline, ExprTree.nodes_reline]
  | expression e => simp [reline, nodes, Node.reline, ExprTree.nodes_reline]
  | ifThen line condition body | while_ line condition body =>
    simp [reline, nodes, Node.reline, ExprTree.nodes_reline, nodes_reline body]
  | ifElse line condition body otherwise =>
    simp [reline, nodes, Node.reline, ExprTree.nodes_reline, nodes_reline body,
      nodes_reline otherwise]
  | break_ line | continue_ line => rfl
  | block line body => simp [reline, nodes, Node.reline, nodesOf_reline body]

theorem nodesOf_reline (ss : List StmtTree) :
    nodesOf (relineAll f ss) = (nodesOf ss).map (Node.reline f) := by
  cases ss with
  | nil => rfl
  | cons s ss => simp [relineAll, nodesOf, nodes_reline s, nodesOf_reline ss]

end

end StmtTree

theorem MemberTree.nodes_reline (m : MemberTree) :
    (m.reline f).nodes = m.nodes.map (Node.reline f) := by
  cases m with
  | fields type first further => rfl
  | method s body =>
    have hbody : StmtTree.nodesOf ((body.map (StmtTree.relineAll f)).getD []) =
        (StmtTree.nodesOf (body.getD [])).map (Node.reline f) := by
      cases body with
      | none => rfl
      | some body => exact StmtTree.nodesOf_reline f body
    simp only [reline, nodes, hbody, List.map_append, Signature.reline, List.map_map]
    rfl

/-- The nodes of a program with other lines. -/
theorem ProgramTree.nodes_reline (p : ProgramTree) :
    (ProgramTree.reline f p).nodes = p.nodes.map (Node.reline f) := by
  simp only [nodes, reline, ClassTree.nodes, ClassTree.reline, List.flatMap_map, List.map_flatMap,
    MemberTree.nodes_reline]

variable {f}

theorem exists_line_of_voidDeclaration? {what : Declared} {type : TypeRef} {w : Word} {line : Int}
    {fault : SyntaxFault}
    (h : voidDeclaration? what (type.reline f) w = some (.syntax_ line fault)) :
    ∃ k, line = f k := by
  unfold voidDeclaration? at h
  split at h <;> cases h
  exact ⟨_, rfl⟩

/-- The line of what a node does against a rule is one that was put in. -/
theorem Node.exists_line {n : Node} {line : Int} {fault : SyntaxFault}
    (h : (n.reline f).violation? = some (.syntax_ line fault)) : ∃ k, line = f k := by
  have hexpr (e : ExprTree) (heq : (e.reline f).expr.line = line) : ∃ k, line = f k := by
    obtain ⟨k, hk⟩ := e.exists_line f
    exact ⟨k, heq ▸ hk⟩
  cases n with
  | expr e =>
    cases e with
    | newArray line' type size =>
      simp only [reline, ExprTree.reline, violation?] at h
      split at h <;> cases h
      exact ⟨line', rfl⟩
    | integer w =>
      simp only [reline, ExprTree.reline, violation?] at h
      split at h <;> cases h
    | _ => cases h
  | stmt s =>
    cases s with
    | localVar type w initial => exact exists_line_of_voidDeclaration? h
    | assign target value =>
      cases target with
      | var w | field object w | element array index => cases h
      | _ => exact hexpr _ (ParseError.syntax_.inj (Option.some.inj h)).1
    | expression e =>
      cases e with
      | staticCall c w arguments | virtualCall receiver w arguments | localCall w arguments =>
        cases h
      | _ => exact hexpr _ (ParseError.syntax_.inj (Option.some.inj h)).1
    | _ => cases h
  | formal x => exact exists_line_of_voidDeclaration? h
  | member m =>
    cases m with
    | fields type first further => exact exists_line_of_voidDeclaration? h
    | method s body =>
      cases body with
      | none =>
        simp only [reline, MemberTree.reline, Signature.reline, violation?, Option.map_none] at h
        split at h <;> cases h
        exact ⟨s.name.line, rfl⟩
      | some body => cases h

end Lines

/-! ## Texts -/

/-- Beyond the grammar a text is refused for what a node of its parse tree does against the
rules, and for the first such node, from the bottom up and from left to right.

The lines in the parse tree are those that its tokens stand on: it is a tree with places for
lines, each of them the place of a token, with the lines of these places put in. -/
theorem Program.parse_violations {source : String} {tree : ProgramTree}
    (h : (Reading.of source).result = .ok tree) :
    (Program.parse source =
      match tree.nodes.findSome? Node.violation? with
      | none => .ok { classes := tree.map ClassTree.decl }
      | some e => .error e) ∧
    (∃ places, tree = ProgramTree.reline (lineAt source.toList) places ∧
      List.Forall₂ Leaf.At (places.flatMap ClassTree.leaves) (Reading.of source).tokens) ∧
    ∀ line fault, Program.parse source = .error (.syntax_ line fault) →
      1 ≤ line ∧ line ≤ 1 + Reading.lineEnds source.toList := by
  obtain ⟨ts, places, hreads, htokens, rfl⟩ := Reading.exists_reads h
  have hparse : Program.parse source =
      check (firstViolation? (ProgramTree.reline (lineAt source.toList) places).nodes)
        { classes := (ProgramTree.reline (lineAt source.toList) places).map ClassTree.decl } := by
    rw [Program.parse, h]
    exact ProgramTree.meaning_eq _
  refine ⟨?_, ⟨places, rfl, ?_⟩, fun line fault herror => ?_⟩
  · rw [hparse, firstViolation?]
    cases List.findSome? _ _ <;> rfl
  · obtain ⟨hmarks, hanchors⟩ := hreads.account (by simp [Position.start, Position.Faithful])
    rw [htokens, List.forall₂_map_right_iff]
    refine forall₂_at (hmarks.trans ?_) ?_ fun t ht => (hreads.found t ht).1
    · simp [List.map_flatMap, ClassTree.leaves_mark]
    · rw [anchorLines, List.map_flatMap]
      exact hanchors
  · -- with places for lines a node shows which line it reports
    rw [hparse, ProgramTree.nodes_reline] at herror
    cases hfirst : firstViolation? (places.nodes.map (Node.reline (lineAt source.toList))) with
    | none =>
      rw [hfirst] at herror
      cases herror
    | some e =>
      rw [hfirst] at herror
      obtain rfl := Except.error.inj herror
      obtain ⟨n, hn, hviolation⟩ := List.exists_of_findSome?_eq_some hfirst
      obtain ⟨n, -, rfl⟩ := List.mem_map.1 hn
      obtain ⟨k, rfl⟩ := Node.exists_line hviolation
      have hbounds := lineAt_bounds source.toList k
      omega

/-- An assignment to a call, on the first line, of a new array of void, on the second. -/
def assigningToCall : String :=
  "class A \x7b void m() \x7b f() =\n new void[2]; \x7d \x7d"

/-- The array is reported, although the assignment comes before it. -/
theorem Program.parse_violations_nested : ∃ tree : ProgramTree,
    (Reading.of assigningToCall).result = .ok tree ∧
    tree.nodes.findSome? Node.violation? = some (.syntax_ 2 .voidArray) ∧
    Program.parse assigningToCall = .error (.syntax_ 2 .voidArray) := by
  have hfirst : (match (Reading.of assigningToCall).result with
      | .ok tree => (ProgramTree.nodes tree).findSome? Node.violation?
      | .error _ => none) = some (.syntax_ 2 .voidArray) := by
    decide +kernel
  split at hfirst
  · next tree htree =>
    obtain ⟨hparse, -⟩ := parse_violations htree
    rw [hfirst] at hparse
    exact ⟨tree, htree, hfirst, hparse⟩
  · cases hfirst

end IcFront
