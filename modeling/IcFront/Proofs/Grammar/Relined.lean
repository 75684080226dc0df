import IcFront.Grammar.Position
import IcFront.Proofs.Syntax.Relined
import Mathlib.Data.List.Basic

/-!
# Positions with other lines

The grammar carries lines along and never looks at them: where a token with another line
leads is the place that the token itself leads to, with that line in it
(`Position.feed_reline`). So whatever is taken for the lines of tokens, their numbers or
the places that they stand at, the same trees are read, with the one or the other in them.

For each way of going on from a position there is one law that `reline` goes through it.
-/

namespace IcFront

/-! ## Steps that may lead nowhere -/

section Steps

variable {α β γ δ : Type} {g : α → β}

/-- What is made of a step goes the way of the step. -/
theorem map_map_eq {x : Option α} {y : Option β} {k : α → γ} {k' : β → δ} {h : γ → δ}
    (hxy : y = x.map g) (hk : ∀ a, k' (g a) = h (k a)) : y.map k' = (x.map k).map h := by
  subst hxy
  cases x with
  | none => rfl
  | some a => exact congrArg some (hk a)

/-- Two steps of which one is taken go the way of each. -/
theorem ite_eq_map {c : Prop} [Decidable c] {x x' : Option α} {y y' : Option β}
    (h : y = x.map g) (h' : y' = x'.map g) :
    (if c then y else y') = (if c then x else x').map g := by
  split <;> assumption

end Steps

variable (f : Nat → Nat)

/-! ## Trees -/

/-- A word with another line. -/
def Word.reline (w : Word) : Word := { w with line := f w.line }

/-- A token with another line. -/
def Token.reline (t : Token) : Token := { t with line := f t.line }

namespace ExprTree

mutual

/-- A parse tree with other lines. -/
def reline : ExprTree → ExprTree
  | var w => .var (w.reline f)
  | field object w => .field object.reline (w.reline f)
  | element array index => .element array.reline index.reline
  | staticCall c w arguments => .staticCall (c.reline f) (w.reline f) (relineAll arguments)
  | virtualCall receiver w arguments =>
    .virtualCall receiver.reline (w.reline f) (relineAll arguments)
  | localCall w arguments => .localCall (w.reline f) (relineAll arguments)
  | this line => .this (f line)
  | newObject line c => .newObject (f line) (c.reline f)
  | newArray line type size => .newArray (f line) (type.reline f) size.reline
  | length array => .length array.reline
  | binary left op line right => .binary left.reline op (f line) right.reline
  | unary op line operand => .unary op (f line) operand.reline
  | integer w => .integer (w.reline f)
  | string w => .string (w.reline f)
  | bool value line => .bool value (f line)
  | null line => .null (f line)
  | paren inner => .paren inner.reline

/-- The parse trees of a list with other lines. -/
def relineAll : List ExprTree → List ExprTree
  | [] => []
  | e :: es => e.reline :: relineAll es

end

theorem relineAll_eq_map (es : List ExprTree) : relineAll f es = es.map (reline f) := by
  induction es with
  | nil => rfl
  | cons e es ih => rw [relineAll, ih, List.map_cons]

end ExprTree

namespace StmtTree

mutual

/-- A parse tree with other lines. -/
def reline : StmtTree → StmtTree
  | localVar type w initial => .localVar (type.reline f) (w.reline f) (initial.map (·.reline f))
  | assign target value => .assign (target.reline f) (value.reline f)
  | expression e => .expression (e.reline f)
  | return_ line value => .return_ (f line) (value.map (·.reline f))
  | ifThen line condition body => .ifThen (f line) (condition.reline f) body.reline
  | ifElse line condition body otherwise =>
    .ifElse (f line) (condition.reline f) body.reline otherwise.reline
  | while_ line condition body => .while_ (f line) (condition.reline f) body.reline
  | break_ line => .break_ (f line)
  | continue_ line => .continue_ (f line)
  | block line body => .block (f line) (relineAll body)

/-- The parse trees of a list with other lines. -/
def relineAll : List StmtTree → List StmtTree
  | [] => []
  | s :: ss => s.reline :: relineAll ss

end

theorem relineAll_eq_map (ss : List StmtTree) : relineAll f ss = ss.map (reline f) := by
  induction ss with
  | nil => rfl
  | cons s ss ih => rw [relineAll, ih, List.map_cons]

end StmtTree

/-- A formal parameter with other lines. -/
def FormalTree.reline (x : FormalTree) : FormalTree := ⟨x.type.reline f, x.name.reline f⟩

/-- A signature with other lines. -/
def Signature.reline (s : Signature) : Signature :=
  { s with
    type := s.type.reline f
    name := s.name.reline f
    formals := s.formals.map (·.reline f) }

/-- A member with other lines. -/
def MemberTree.reline : MemberTree → MemberTree
  | fields type first further =>
    .fields (type.reline f) (first.reline f) (further.map (·.reline f))
  | method s body => .method (s.reline f) (body.map (StmtTree.relineAll f))

/-- A class with other lines. -/
def ClassTree.reline (c : ClassTree) : ClassTree :=
  ⟨c.name.reline f, c.superclass.map (·.reline f), c.members.map (·.reline f)⟩

/-- A whole parse tree with other lines. -/
def ProgramTree.reline (p : ProgramTree) : ProgramTree := p.map (ClassTree.reline f)

/-! ## Places in an expression -/

/-- What an expression is wanted for, with other lines. -/
def Purpose.reline : Purpose → Purpose
  | statement => .statement
  | assigned target => .assigned (target.reline f)
  | initial type w => .initial (type.reline f) (w.reline f)
  | returned line => .returned (f line)
  | ifCondition line => .ifCondition (f line)
  | whileCondition line => .whileCondition (f line)

/-- A callee with other lines. -/
def Callee.reline : Callee → Callee
  | .static c w => .static (c.reline f) (w.reline f)
  | .virtual receiver w => .virtual (receiver.reline f) (w.reline f)
  | .local w => .local (w.reline f)

/-- Open constructs with other lines. -/
def Pending.reline : Pending → Pending
  | bottom purpose => .bottom (purpose.reline f)
  | unary op line outer => .unary op (f line) outer.reline
  | binary left op line outer => .binary (left.reline f) op (f line) outer.reline
  | paren outer => .paren outer.reline
  | index array outer => .index (array.reline f) outer.reline
  | argument callee earlier outer =>
    .argument (callee.reline f) (earlier.map (·.reline f)) outer.reline
  | size line element outer => .size (f line) (element.reline f) outer.reline

/-- A place in an expression with other lines. -/
def ExprSpot.reline : ExprSpot → ExprSpot
  | operand p => .operand (p.reline f)
  | firstArgument callee p => .firstArgument (callee.reline f) (p.reline f)
  | name w p => .name (w.reline f) (p.reline f)
  | member object w p => .member (object.reline f) (w.reline f) (p.reline f)
  | operator e p => .operator (e.reline f) (p.reline f)
  | dot e p => .dot (e.reline f) (p.reline f)
  | className c p => .className (c.reline f) (p.reline f)
  | classDot c p => .classDot (c.reline f) (p.reline f)
  | classMember c w p => .classMember (c.reline f) (w.reline f) (p.reline f)
  | newWord line p => .newWord (f line) (p.reline f)
  | newClass line c p => .newClass (f line) (c.reline f) (p.reline f)
  | newParen line c p => .newParen (f line) (c.reline f) (p.reline f)
  | newType line element p => .newType (f line) (element.reline f) (p.reline f)

/-- Where a token leads from a place in an expression, with other lines. -/
def ExprStep.reline : ExprStep → ExprStep
  | inside spot => .inside (spot.reline f)
  | statement s => .statement (s.reline f)
  | ifBranch line condition => .ifBranch (f line) (condition.reline f)
  | whileBranch line condition => .whileBranch (f line) (condition.reline f)

theorem Token.type?_reline (t : Token) : (t.reline f).type? = t.type?.map (·.reline f) := by
  obtain ⟨terminal, text, line, offset⟩ := t
  cases terminal with
  | keyword k => cases k <;> rfl
  | _ => rfl

theorem Callee.call_reline (c : Callee) (arguments : List ExprTree) :
    (c.reline f).call (arguments.map (·.reline f)) = (c.call arguments).reline f := by
  cases c <;> simp only [call, reline, ExprTree.reline, ExprTree.relineAll_eq_map]

theorem Pending.apply_reline (level : Nat) (e : ExprTree) (p : Pending) :
    (p.reline f).apply level (e.reline f) =
      ((p.apply level e).1.reline f, (p.apply level e).2.reline f) := by
  induction p generalizing e with
  | unary op line outer ih => exact ih (.unary op line e)
  | binary left op line outer ih =>
    rw [reline, apply, apply]
    by_cases hle : level ≤ op.level
    · rw [if_pos hle, if_pos hle]
      exact ih (.binary left op line e)
    · rw [if_neg hle, if_neg hle]
      rfl
  | _ => rfl

namespace ExprSpot

theorem expects_reline (s : ExprSpot) : (s.reline f).expects = s.expects := by cases s <;> rfl

variable (t : Token) (e : ExprTree) (p : Pending)

theorem start_reline : start (t.reline f) (p.reline f) = (start t p).map (·.reline f) := by
  obtain ⟨terminal, text, line, offset⟩ := t
  cases terminal with
  | keyword k => cases k <;> rfl
  | sign s => cases s <;> rfl
  | _ => rfl

theorem binary_reline (op : BinaryOp) (line : Nat) :
    binary op (f line) (e.reline f) (p.reline f) = (binary op line e p).map (·.reline f) := by
  rw [binary, Pending.apply_reline, binary]
  obtain ⟨left, outer⟩ := p.apply op.level e
  cases outer with
  | bottom purpose => cases purpose <;> rfl
  | _ => rfl

theorem closeParen_reline :
    closeParen (e.reline f) (p.reline f) = (closeParen e p).map (·.reline f) := by
  rw [closeParen, Pending.apply_reline, closeParen]
  obtain ⟨e, outer⟩ := p.apply 0 e
  cases outer with
  | bottom purpose => cases purpose <;> rfl
  | argument callee earlier outer =>
    have hcall := callee.call_reline f (earlier.reverse ++ [e])
    rw [List.map_append, List.map_reverse, List.map_singleton] at hcall
    simp only [Pending.reline, hcall]
    rfl
  | _ => rfl

theorem closeBracket_reline :
    closeBracket (e.reline f) (p.reline f) = (closeBracket e p).map (·.reline f) := by
  rw [closeBracket, Pending.apply_reline, closeBracket]
  obtain ⟨e, outer⟩ := p.apply 0 e
  cases outer <;> rfl

theorem nextArgument_reline :
    nextArgument (e.reline f) (p.reline f) = (nextArgument e p).map (·.reline f) := by
  rw [nextArgument, Pending.apply_reline, nextArgument]
  obtain ⟨e, outer⟩ := p.apply 0 e
  cases outer <;> rfl

theorem endStatement_reline :
    endStatement (e.reline f) (p.reline f) = (endStatement e p).map (·.reline f) := by
  rw [endStatement, Pending.apply_reline, endStatement]
  obtain ⟨e, outer⟩ := p.apply 0 e
  cases outer with
  | bottom purpose => cases purpose <;> rfl
  | _ => rfl

theorem feedOperator_reline :
    feedOperator (t.reline f) (e.reline f) (p.reline f) =
      (feedOperator t e p).map (·.reline f) := by
  obtain ⟨terminal, text, line, offset⟩ := t
  cases terminal with
  | sign s =>
    cases s with
    | dot | lbracket | lbrace | rbrace | lparen | not => rfl
    | rparen => exact closeParen_reline f e p
    | rbracket => exact map_map_eq (closeBracket_reline f e p) fun _ => rfl
    | comma => exact map_map_eq (nextArgument_reline f e p) fun _ => rfl
    | semicolon => exact map_map_eq (endStatement_reline f e p) fun _ => rfl
    | assign =>
      cases p with
      | bottom purpose => cases purpose <;> rfl
      | _ => rfl
    | _ => exact map_map_eq (binary_reline f e p _ line) fun _ => rfl
  | _ => rfl

/-- Where a token leads in an expression does not depend on lines. -/
theorem feed_reline (s : ExprSpot) :
    (s.reline f).feed (t.reline f) = (s.feed t).map (·.reline f) := by
  cases s with
  | operand p => exact map_map_eq (start_reline f t p) fun _ => rfl
  | firstArgument callee p =>
    refine ite_eq_map ?_ (map_map_eq (start_reline f t (.argument callee [] p)) fun _ => rfl)
    exact congrArg (fun e => some (ExprStep.inside (operator e (p.reline f))))
      (callee.call_reline f [])
  | name w p => exact ite_eq_map rfl (feedOperator_reline f t (.var w) p)
  | member object w p => exact ite_eq_map rfl (feedOperator_reline f t (.field object w) p)
  | operator e p => exact feedOperator_reline f t e p
  | className c p | classDot c p | classMember c w p | newParen line c p =>
    exact ite_eq_map rfl rfl
  | dot e p =>
    obtain ⟨terminal, text, line, offset⟩ := t
    cases terminal with
    | keyword k => cases k <;> rfl
    | _ => rfl
  | newWord line p =>
    obtain ⟨terminal, text, line', offset⟩ := t
    cases terminal with
    | keyword k => cases k <;> rfl
    | _ => rfl
  | newClass line c p | newType line element p =>
    obtain ⟨terminal, text, line, offset⟩ := t
    cases terminal with
    | sign s => cases s <;> rfl
    | _ => rfl

end ExprSpot

/-! ## Places in a body -/

/-- Open statements with other lines. -/
def Enclosing.reline : Enclosing → Enclosing
  | body earlier => .body (earlier.map (·.reline f))
  | block line earlier outer => .block (f line) (earlier.map (·.reline f)) outer.reline
  | thenBranch line condition outer => .thenBranch (f line) (condition.reline f) outer.reline
  | elseBranch line condition b outer =>
    .elseBranch (f line) (condition.reline f) (b.reline f) outer.reline
  | loop line condition outer => .loop (f line) (condition.reline f) outer.reline

/-- A place in a body, with other lines. -/
def Spot.reline : Spot → Spot
  | opened => .opened
  | branch => .branch
  | after s => .after (s.reline f)
  | breakWord line => .breakWord (f line)
  | continueWord line => .continueWord (f line)
  | returnWord line => .returnWord (f line)
  | ifWord line => .ifWord (f line)
  | whileWord line => .whileWord (f line)
  | className c => .className (c.reline f)
  | declared type => .declared (type.reline f)
  | declaredName type w => .declaredName (type.reline f) (w.reline f)
  | expr s => .expr (s.reline f)

/-- A place in a body and the statements around it, with other lines. -/
def Body.reline (b : Body) : Body := ⟨b.enclosing.reline f, b.spot.reline f⟩

/-- Where a token leads from a place in a body, with other lines. -/
def BodyStep.reline : BodyStep → BodyStep
  | inside b => .inside (b.reline f)
  | closed statements => .closed (StmtTree.relineAll f statements)

namespace Enclosing

theorem settle_reline (s : StmtTree) (e : Enclosing) :
    (e.reline f).settle (s.reline f) = (e.settle s).reline f := by
  induction e generalizing s with
  | body earlier => rfl
  | block line earlier outer _ => rfl
  | thenBranch line condition outer ih => exact ih (.ifThen line condition s)
  | elseBranch line condition b outer ih => exact ih (.ifElse line condition b s)
  | loop line condition outer ih => exact ih (.while_ line condition s)

theorem attachElse?_reline (s : StmtTree) (e : Enclosing) :
    (e.reline f).attachElse? (s.reline f) = (e.attachElse? s).map (·.reline f) := by
  induction e generalizing s with
  | body earlier => rfl
  | block line earlier outer _ => rfl
  | thenBranch line condition outer _ => rfl
  | elseBranch line condition b outer ih => exact ih (.ifElse line condition b s)
  | loop line condition outer ih => exact ih (.while_ line condition s)

end Enclosing

namespace Body

theorem expects_reline (b : Body) : (b.reline f).expects = b.expects := by
  obtain ⟨e, spot⟩ := b
  cases spot with
  | expr s => exact s.expects_reline f
  | _ => rfl

variable (t : Token) (e : Enclosing)

theorem start_reline : start (t.reline f) (e.reline f) = (start t e).map (·.reline f) := by
  obtain ⟨terminal, text, line, offset⟩ := t
  cases terminal with
  | keyword k => cases k <;> rfl
  | sign s => cases s <;> rfl
  | _ => rfl

theorem close_reline : close (e.reline f) = (close e).map (·.reline f) := by
  cases e with
  | body earlier => simp [close, Enclosing.reline, BodyStep.reline, StmtTree.relineAll_eq_map]
  | block line earlier outer =>
    simp [close, Enclosing.reline, BodyStep.reline, Body.reline, Spot.reline, StmtTree.reline,
      StmtTree.relineAll_eq_map]
  | _ => rfl

theorem next_reline : next (t.reline f) (e.reline f) = (next t e).map (·.reline f) :=
  ite_eq_map (close_reline f e) (map_map_eq (start_reline f t e) fun _ => rfl)

theorem ofExprStep_reline (step : ExprStep) :
    ofExprStep (e.reline f) (step.reline f) = (ofExprStep e step).reline f := by
  cases step <;> rfl

/-- Where a token leads in a body does not depend on lines. -/
theorem feed_reline (b : Body) :
    (b.reline f).feed (t.reline f) = (b.feed t).map (·.reline f) := by
  obtain ⟨e, spot⟩ := b
  cases spot with
  | opened => exact next_reline f t e
  | branch => exact map_map_eq (start_reline f t e) fun _ => rfl
  | after s =>
    refine ite_eq_map (map_map_eq (Enclosing.attachElse?_reline f s e) fun _ => rfl) ?_
    rw [← next_reline, ← Enclosing.settle_reline]
    rfl
  | breakWord line | continueWord line | ifWord line | whileWord line =>
    exact ite_eq_map rfl rfl
  | returnWord line =>
    exact ite_eq_map rfl
      (map_map_eq (ExprSpot.start_reline f t (.bottom (.returned line))) fun _ => rfl)
  | className c | declared type | declaredName type w =>
    obtain ⟨terminal, text, line, offset⟩ := t
    cases terminal with
    | sign s => cases s <;> rfl
    | _ => rfl
  | expr s =>
    exact map_map_eq (s.feed_reline f t) fun step => congrArg _ (ofExprStep_reline f e step)

end Body

/-! ## Places in a program -/

/-- The class that is being read, and those before it, with other lines. -/
def OpenClass.reline (c : OpenClass) : OpenClass :=
  ⟨c.earlier.map (·.reline f), c.name.reline f, c.superclass.map (·.reline f),
    c.members.map (·.reline f)⟩

namespace OpenClass

theorem close_reline (c : OpenClass) :
    (c.reline f).close = c.close.map (·.reline f) := by
  simp [close, reline, ClassTree.reline]

end OpenClass

namespace Position

/-- A place in a program with other lines. -/
def reline : Position → Position
  | classes earlier => .classes (earlier.map (·.reline f))
  | classWord earlier => .classWord (earlier.map (·.reline f))
  | className earlier w => .className (earlier.map (·.reline f)) (w.reline f)
  | extendsWord earlier w => .extendsWord (earlier.map (·.reline f)) (w.reline f)
  | superclass earlier w parent =>
    .superclass (earlier.map (·.reline f)) (w.reline f) (parent.reline f)
  | members c => .members (c.reline f)
  | staticWord c => .staticWord (c.reline f)
  | memberType c static type => .memberType (c.reline f) static (type.reline f)
  | memberName c type w => .memberName (c.reline f) (type.reline f) (w.reline f)
  | staticName c type w => .staticName (c.reline f) (type.reline f) (w.reline f)
  | fieldComma c type first further =>
    .fieldComma (c.reline f) (type.reline f) (first.reline f) (further.map (·.reline f))
  | fieldName c type first further =>
    .fieldName (c.reline f) (type.reline f) (first.reline f) (further.map (·.reline f))
  | formals c s => .formals (c.reline f) (s.reline f)
  | formalComma c s => .formalComma (c.reline f) (s.reline f)
  | formalType c s type => .formalType (c.reline f) (s.reline f) (type.reline f)
  | formalName c s => .formalName (c.reline f) (s.reline f)
  | signature c s => .signature (c.reline f) (s.reline f)
  | body c s b => .body (c.reline f) (s.reline f) (b.reline f)

theorem expects_reline (p : Position) : (p.reline f).expects = p.expects := by
  cases p with
  | body c s b => exact b.expects_reline f
  | _ => rfl

theorem close_reline (s : Signature) : close (s.reline f) = (close s).reline f := by
  simp [close, Signature.reline]

theorem ofBodyStep_reline (c : OpenClass) (s : Signature) (step : BodyStep) :
    ofBodyStep (c.reline f) (s.reline f) (step.reline f) = (ofBodyStep c s step).reline f := by
  cases step with
  | inside b => rfl
  | closed statements =>
    rw [BodyStep.reline, ofBodyStep, close_reline]
    rfl

/-- Where a token leads does not depend on lines. -/
theorem feed_reline (t : Token) (p : Position) :
    (p.reline f).feed (t.reline f) = (p.feed t).map (·.reline f) := by
  cases p with
  | classes earlier | classWord earlier | extendsWord earlier w | superclass earlier w parent
  | staticName c type w | fieldComma c type first further =>
    exact ite_eq_map rfl rfl
  | body c s b => exact map_map_eq (b.feed_reline f t) fun step => ofBodyStep_reline f c s step
  | staticWord c | formalComma c s => exact map_map_eq (t.type?_reline f) fun _ => rfl
  | formals c s => exact ite_eq_map rfl (map_map_eq (t.type?_reline f) fun _ => rfl)
  | members c =>
    obtain ⟨terminal, text, line, offset⟩ := t
    cases terminal with
    | keyword k => cases k <;> rfl
    | sign s =>
      cases s with
      | rbrace => exact congrArg (fun cs => some (classes cs)) (c.close_reline f)
      | _ => rfl
    | _ => rfl
  | memberType c static type =>
    obtain ⟨terminal, text, line, offset⟩ := t
    cases static <;> cases terminal <;> rfl
  | fieldName c type first further =>
    obtain ⟨terminal, text, line, offset⟩ := t
    cases terminal with
    | sign s =>
      cases s with
      | semicolon =>
        exact congrArg (fun ws => some (members ((c.reline f).add (.fields (type.reline f)
          (first.reline f) ws)))) List.map_reverse.symm
      | _ => rfl
    | _ => rfl
  | signature c s =>
    obtain ⟨terminal, text, line, offset⟩ := t
    cases terminal with
    | sign x =>
      cases x with
      | semicolon =>
        exact congrArg (fun s => some (members ((c.reline f).add (.method s none))))
          (close_reline f s)
      | _ => rfl
    | _ => rfl
  | className earlier w | memberName c type w | formalType c s type | formalName c s =>
    obtain ⟨terminal, text, line, offset⟩ := t
    cases terminal with
    | keyword k => cases k <;> rfl
    | sign s => cases s <;> rfl
    | _ => rfl

theorem finish?_reline (p : Position) :
    (p.reline f).finish? = p.finish?.map (ProgramTree.reline f) := by
  cases p with
  | classes earlier => exact congrArg some (List.map_reverse ..).symm
  | _ => rfl

end Position

end IcFront
