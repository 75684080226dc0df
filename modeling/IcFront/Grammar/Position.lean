import IcFront.Grammar.ParseTree
import IcFront.Grammar.Expectation

/-!
# Positions in a source text

A *position* is what has been read of a program so far: the trees that are
complete and, from inside out, the constructs that are still open. It answers
three questions: which terminals are looked for next (`expects`), where the
next token leads (`feed`, none if it does not fit), and whether the program is
complete (`finish?`).

Positions come in three layers. `ExprSpot` is a place in an expression, over
the `Pending` constructs around it; operators wait there until one that binds
no tighter, or a closing token, comes (`Pending.apply`). `Spot` is a place in
the body of a method, under the `Enclosing` statements; an `else` goes to the
innermost `if` that still waits for one (`Enclosing.attachElse?`). `Position`
is a place in the program.
-/

namespace IcFront

/-! ## Expressions -/

/-- What an expression is wanted for by the statement it stands in. -/
inductive Purpose
  /-- It starts a statement: a call, or the target of an assignment. -/
  | statement
  | assigned (target : ExprTree)
  | initial (type : TypeRef) (name : Word)
  | returned (line : Nat)
  | ifCondition (line : Nat)
  | whileCondition (line : Nat)
  deriving Repr

/-- What a list of arguments is passed to. -/
inductive Callee
  | static (className : Word) (name : Word)
  | virtual (receiver : ExprTree) (name : Word)
  | local (name : Word)
  deriving Repr

/-- The call of a callee with arguments. -/
def Callee.call (arguments : List ExprTree) : Callee → ExprTree
  | .static c n => .staticCall c n arguments
  | .virtual r n => .virtualCall r n arguments
  | .local n => .localCall n arguments

/-- The open constructs around an operand, innermost first. Arguments already
read are kept newest first. -/
inductive Pending
  | bottom (purpose : Purpose)
  | unary (op : UnaryOp) (line : Nat) (outer : Pending)
  | binary (left : ExprTree) (op : BinaryOp) (line : Nat) (outer : Pending)
  | paren (outer : Pending)
  | index (array : ExprTree) (outer : Pending)
  | argument (callee : Callee) (earlier : List ExprTree) (outer : Pending)
  | size (line : Nat) (element : TypeRef) (outer : Pending)
  deriving Repr

/-- Applies to an operand the waiting operators that bind at least as tightly
as a level, innermost first. Unary operators always do. -/
def Pending.apply (level : Nat) (e : ExprTree) : Pending → ExprTree × Pending
  | .unary op line outer => outer.apply level (.unary op line e)
  | .binary left op line outer =>
    if level ≤ op.level then outer.apply level (.binary left op line e)
    else (e, .binary left op line outer)
  | p => (e, p)

/-- A place in an expression. -/
inductive ExprSpot
  /-- An operand must follow. -/
  | operand (p : Pending)
  /-- After the opening parenthesis of a call. -/
  | firstArgument (callee : Callee) (p : Pending)
  /-- After a name that is a variable, or the name of a call. -/
  | name (w : Word) (p : Pending)
  /-- After a dot and a name: a field, or the name of a call. -/
  | member (object : ExprTree) (w : Word) (p : Pending)
  /-- After a complete operand. -/
  | operator (e : ExprTree) (p : Pending)
  | dot (e : ExprTree) (p : Pending)
  /-- After a class name, which must be that of a static call. -/
  | className (c : Word) (p : Pending)
  | classDot (c : Word) (p : Pending)
  | classMember (c : Word) (w : Word) (p : Pending)
  | newWord (line : Nat) (p : Pending)
  | newClass (line : Nat) (c : Word) (p : Pending)
  | newParen (line : Nat) (c : Word) (p : Pending)
  | newType (line : Nat) (element : TypeRef) (p : Pending)
  deriving Repr

/-- Where a token leads from a place in an expression: to another place in it,
to the end of its statement, or to the branch that follows a condition. -/
inductive ExprStep
  | inside (spot : ExprSpot)
  | statement (s : StmtTree)
  | ifBranch (line : Nat) (condition : ExprTree)
  | whileBranch (line : Nat) (condition : ExprTree)
  deriving Repr

namespace ExprSpot

/-- The terminals looked for at a place in an expression. -/
def expects : ExprSpot → Expectation
  | operand _ => .operand
  | firstArgument .. => fun t => t == .sign .rparen || Expectation.operand t
  | name .. | member .. => fun t => t == .sign .lparen || Expectation.operator t
  | operator .. => .operator
  | dot .. => fun t => t == .name || t == .keyword .length
  | className .. => .only (.sign .dot)
  | classDot .. => .only .name
  | classMember .. => .only (.sign .lparen)
  | newWord .. => .type
  | newClass .. => fun t => t == .brackets || t == .sign .lparen || t == .sign .lbracket
  | newParen .. => .only (.sign .rparen)
  | newType .. => .declared true

/-- Where the first token of an operand leads. -/
def start (t : Token) (p : Pending) : Option ExprSpot :=
  match t.terminal with
  | .className => some (className t.word p)
  | .name => some (name t.word p)
  | .integer => some (operator (.integer t.word) p)
  | .text => some (operator (.string t.word) p)
  | .keyword .this => some (operator (.this t.line) p)
  | .keyword .new => some (newWord t.line p)
  | .keyword .true_ => some (operator (.bool true t.line) p)
  | .keyword .false_ => some (operator (.bool false t.line) p)
  | .keyword .null => some (operator (.null t.line) p)
  | .sign .lparen => some (operand (.paren p))
  | .sign .minus => some (operand (.unary .minus t.line p))
  | .sign .not => some (operand (.unary .not t.line p))
  | _ => none

/-- Where a binary operator leads after an operand. An expression that starts a
statement has none. -/
def binary (op : BinaryOp) (line : Nat) (e : ExprTree) (p : Pending) : Option ExprSpot :=
  match p.apply op.level e with
  | (_, .bottom .statement) => none
  | (left, outer) => some (operand (.binary left op line outer))

/-- Where a closing parenthesis leads after an operand. -/
def closeParen (e : ExprTree) (p : Pending) : Option ExprStep :=
  match p.apply 0 e with
  | (e, .paren outer) => some (.inside (operator (.paren e) outer))
  | (e, .argument callee earlier outer) =>
    some (.inside (operator (callee.call (earlier.reverse ++ [e])) outer))
  | (e, .bottom (.ifCondition line)) => some (.ifBranch line e)
  | (e, .bottom (.whileCondition line)) => some (.whileBranch line e)
  | _ => none

/-- Where a closing bracket leads after an operand. -/
def closeBracket (e : ExprTree) (p : Pending) : Option ExprSpot :=
  match p.apply 0 e with
  | (e, .index array outer) => some (operator (.element array e) outer)
  | (e, .size line element outer) => some (operator (.newArray line element e) outer)
  | _ => none

/-- Where a comma leads after an operand. -/
def nextArgument (e : ExprTree) (p : Pending) : Option ExprSpot :=
  match p.apply 0 e with
  | (e, .argument callee earlier outer) => some (operand (.argument callee (e :: earlier) outer))
  | _ => none

/-- Where a semicolon leads after an operand. -/
def endStatement (e : ExprTree) (p : Pending) : Option StmtTree :=
  match p.apply 0 e with
  | (e, .bottom .statement) => some (.expression e)
  | (e, .bottom (.assigned target)) => some (.assign target e)
  | (e, .bottom (.initial type w)) => some (.localVar type w (some e))
  | (e, .bottom (.returned line)) => some (.return_ line (some e))
  | _ => none

/-- Where a token leads after a complete operand. -/
def feedOperator (t : Token) (e : ExprTree) (p : Pending) : Option ExprStep :=
  match t.terminal with
  | .sign .dot => some (.inside (dot e p))
  | .sign .lbracket => some (.inside (operand (.index e p)))
  | .sign .rparen => closeParen e p
  | .sign .rbracket => (closeBracket e p).map .inside
  | .sign .comma => (nextArgument e p).map .inside
  | .sign .semicolon => (endStatement e p).map .statement
  | .sign .assign =>
    match p with
    | .bottom .statement => some (.inside (operand (.bottom (.assigned e))))
    | _ => none
  | .sign s => s.binaryOp?.bind fun op => (binary op t.line e p).map .inside
  | _ => none

/-- Where a token leads from a place in an expression. -/
def feed (t : Token) : ExprSpot → Option ExprStep
  | operand p => (start t p).map .inside
  | firstArgument callee p =>
    if t.terminal = .sign .rparen then some (.inside (operator (callee.call []) p))
    else (start t (.argument callee [] p)).map .inside
  | name w p =>
    if t.terminal = .sign .lparen then some (.inside (firstArgument (.local w) p))
    else feedOperator t (.var w) p
  | member object w p =>
    if t.terminal = .sign .lparen then some (.inside (firstArgument (.virtual object w) p))
    else feedOperator t (.field object w) p
  | operator e p => feedOperator t e p
  | dot e p =>
    match t.terminal with
    | .name => some (.inside (member e t.word p))
    | .keyword .length => some (.inside (operator (.length e) p))
    | _ => none
  | className c p => if t.terminal = .sign .dot then some (.inside (classDot c p)) else none
  | classDot c p => if t.terminal = .name then some (.inside (classMember c t.word p)) else none
  | classMember c w p =>
    if t.terminal = .sign .lparen then some (.inside (firstArgument (.static c w) p)) else none
  | newWord line p =>
    match t.terminal with
    | .className => some (.inside (newClass line t.word p))
    | _ => t.type?.map fun element => .inside (newType line element p)
  | newClass line c p =>
    match t.terminal with
    | .sign .lparen => some (.inside (newParen line c p))
    | .sign .lbracket =>
      some (.inside (operand (.size line ⟨.user c.text, 0, c.line⟩ p)))
    | .brackets => some (.inside (newType line ⟨.user c.text, 1, c.line⟩ p))
    | _ => none
  | newParen line c p =>
    if t.terminal = .sign .rparen then some (.inside (operator (.newObject line c) p))
    else none
  | newType line element p =>
    match t.terminal with
    | .sign .lbracket => some (.inside (operand (.size line element p)))
    | .brackets => some (.inside (newType line element.array p))
    | _ => none

end ExprSpot

/-! ## Bodies of methods -/

/-- The open statements around a place in a body, innermost first. Statements
already read are kept newest first. -/
inductive Enclosing
  | body (earlier : List StmtTree)
  | block (line : Nat) (earlier : List StmtTree) (outer : Enclosing)
  | thenBranch (line : Nat) (condition : ExprTree) (outer : Enclosing)
  | elseBranch (line : Nat) (condition : ExprTree) (body : StmtTree) (outer : Enclosing)
  | loop (line : Nat) (condition : ExprTree) (outer : Enclosing)
  deriving Repr

namespace Enclosing

/-- Puts a complete statement, which no `else` follows, into the nearest braces
around it. -/
def settle (s : StmtTree) : Enclosing → Enclosing
  | body earlier => body (s :: earlier)
  | block line earlier outer => block line (s :: earlier) outer
  | thenBranch line condition outer => outer.settle (.ifThen line condition s)
  | elseBranch line condition b outer => outer.settle (.ifElse line condition b s)
  | loop line condition outer => outer.settle (.while_ line condition s)

/-- The else branch of the innermost `if` that a complete statement is the last
part of and that still waits for one. -/
def attachElse? (s : StmtTree) : Enclosing → Option Enclosing
  | thenBranch line condition outer => some (elseBranch line condition s outer)
  | elseBranch line condition b outer => outer.attachElse? (.ifElse line condition b s)
  | loop line condition outer => outer.attachElse? (.while_ line condition s)
  | body _ | block .. => none

end Enclosing

/-- A place in the body of a method. -/
inductive Spot
  /-- After an opening brace: a statement or the closing brace must follow. -/
  | opened
  /-- At a branch or a loop's body: a statement must follow. -/
  | branch
  /-- After a complete statement. -/
  | after (s : StmtTree)
  | breakWord (line : Nat)
  | continueWord (line : Nat)
  | returnWord (line : Nat)
  | ifWord (line : Nat)
  | whileWord (line : Nat)
  /-- After a class name that starts a statement. -/
  | className (c : Word)
  /-- After the type of a local variable. -/
  | declared (type : TypeRef)
  | declaredName (type : TypeRef) (name : Word)
  | expr (spot : ExprSpot)
  deriving Repr

/-- A place in a body together with the open statements around it. -/
structure Body where
  enclosing : Enclosing
  spot : Spot
  deriving Repr

/-- Where a token leads from a place in a body: to another, or out of it. -/
inductive BodyStep
  | inside (b : Body)
  | closed (statements : List StmtTree)
  deriving Repr

namespace Body

/-- The terminals looked for at a place in a body. After a complete statement
`else` is always looked for, whether or not an `if` waits for one. -/
def expects (b : Body) : Expectation :=
  match b.spot with
  | .opened => fun t => t == .sign .rbrace || Expectation.statement t
  | .branch => .statement
  | .after _ =>
    fun t => t == .sign .rbrace || t == .keyword .else_ || Expectation.statement t
  | .breakWord _ | .continueWord _ => .only (.sign .semicolon)
  | .returnWord _ => fun t => t == .sign .semicolon || Expectation.operand t
  | .ifWord _ | .whileWord _ => .only (.sign .lparen)
  | .className _ => fun t => t == .name || t == .brackets || t == .sign .dot
  | .declared _ => .declared true
  | .declaredName .. => fun t => t == .sign .assign || t == .sign .semicolon
  | .expr s => s.expects

/-- Where the first token of a statement leads. -/
def start (t : Token) (e : Enclosing) : Option Body :=
  match t.terminal with
  | .className => some ⟨e, .className t.word⟩
  | .keyword .return_ => some ⟨e, .returnWord t.line⟩
  | .keyword .if_ => some ⟨e, .ifWord t.line⟩
  | .keyword .while_ => some ⟨e, .whileWord t.line⟩
  | .keyword .break_ => some ⟨e, .breakWord t.line⟩
  | .keyword .continue_ => some ⟨e, .continueWord t.line⟩
  | .sign .lbrace => some ⟨.block t.line [] e, .opened⟩
  | .sign .minus | .sign .not => none
  | _ =>
    match t.type? with
    | some type => some ⟨e, .declared type⟩
    | none => (ExprSpot.start t (.bottom .statement)).map fun s => ⟨e, .expr s⟩

/-- Where a closing brace leads when no statement is open inside the braces. -/
def close : Enclosing → Option BodyStep
  | .body earlier => some (.closed earlier.reverse)
  | .block line earlier outer => some (.inside ⟨outer, .after (.block line earlier.reverse)⟩)
  | _ => none

/-- Where a token leads between two statements, or before the first one. -/
def next (t : Token) (e : Enclosing) : Option BodyStep :=
  if t.terminal = .sign .rbrace then close e else (start t e).map .inside

/-- Where a step in an expression leads in the body. -/
def ofExprStep (e : Enclosing) : ExprStep → Body
  | .inside s => ⟨e, .expr s⟩
  | .statement s => ⟨e, .after s⟩
  | .ifBranch line condition => ⟨.thenBranch line condition e, .branch⟩
  | .whileBranch line condition => ⟨.loop line condition e, .branch⟩

/-- Where a token leads from a place in a body. -/
def feed (t : Token) (b : Body) : Option BodyStep :=
  match b.spot with
  | .opened => next t b.enclosing
  | .branch => (start t b.enclosing).map .inside
  | .after s =>
    if t.terminal = .keyword .else_ then
      (b.enclosing.attachElse? s).map fun e => .inside ⟨e, .branch⟩
    else next t (b.enclosing.settle s)
  | .breakWord line =>
    if t.terminal = .sign .semicolon then some (.inside ⟨b.enclosing, .after (.break_ line)⟩)
    else none
  | .continueWord line =>
    if t.terminal = .sign .semicolon then some (.inside ⟨b.enclosing, .after (.continue_ line)⟩)
    else none
  | .returnWord line =>
    if t.terminal = .sign .semicolon then
      some (.inside ⟨b.enclosing, .after (.return_ line none)⟩)
    else (ExprSpot.start t (.bottom (.returned line))).map fun s => .inside ⟨b.enclosing, .expr s⟩
  | .ifWord line =>
    if t.terminal = .sign .lparen then
      some (.inside ⟨b.enclosing, .expr (.operand (.bottom (.ifCondition line)))⟩)
    else none
  | .whileWord line =>
    if t.terminal = .sign .lparen then
      some (.inside ⟨b.enclosing, .expr (.operand (.bottom (.whileCondition line)))⟩)
    else none
  | .className c =>
    match t.terminal with
    | .name => some (.inside ⟨b.enclosing, .declaredName ⟨.user c.text, 0, c.line⟩ t.word⟩)
    | .brackets => some (.inside ⟨b.enclosing, .declared ⟨.user c.text, 1, c.line⟩⟩)
    | .sign .dot => some (.inside ⟨b.enclosing, .expr (.classDot c (.bottom .statement))⟩)
    | _ => none
  | .declared type =>
    match t.terminal with
    | .name => some (.inside ⟨b.enclosing, .declaredName type t.word⟩)
    | .brackets => some (.inside ⟨b.enclosing, .declared type.array⟩)
    | _ => none
  | .declaredName type name =>
    match t.terminal with
    | .sign .assign =>
      some (.inside ⟨b.enclosing, .expr (.operand (.bottom (.initial type name)))⟩)
    | .sign .semicolon => some (.inside ⟨b.enclosing, .after (.localVar type name none)⟩)
    | _ => none
  | .expr s => (s.feed t).map fun step => .inside (ofExprStep b.enclosing step)

end Body

/-! ## Programs -/

/-- The class that is being read, and those before it. Classes and members
already read are kept newest first. -/
structure OpenClass where
  earlier : List ClassTree
  name : Word
  superclass : Option Word
  members : List MemberTree
  deriving Repr

namespace OpenClass

/-- The open class with one more member. -/
def add (c : OpenClass) (m : MemberTree) : OpenClass := { c with members := m :: c.members }

/-- The classes read when the open one ends. -/
def close (c : OpenClass) : List ClassTree :=
  ⟨c.name, c.superclass, c.members.reverse⟩ :: c.earlier

end OpenClass

/-- A place in a program. Formals and field names already read are kept newest
first. -/
inductive Position
  /-- Before, between or after classes. -/
  | classes (earlier : List ClassTree)
  | classWord (earlier : List ClassTree)
  | className (earlier : List ClassTree) (name : Word)
  | extendsWord (earlier : List ClassTree) (name : Word)
  | superclass (earlier : List ClassTree) (name : Word) (superclass : Word)
  /-- Between the members of a class. -/
  | members (c : OpenClass)
  | staticWord (c : OpenClass)
  | memberType (c : OpenClass) (static : Bool) (type : TypeRef)
  /-- After a type and a name: a field, or the name of a virtual method. -/
  | memberName (c : OpenClass) (type : TypeRef) (name : Word)
  | staticName (c : OpenClass) (type : TypeRef) (name : Word)
  | fieldComma (c : OpenClass) (type : TypeRef) (first : Word) (further : List Word)
  | fieldName (c : OpenClass) (type : TypeRef) (first : Word) (further : List Word)
  /-- After the opening parenthesis of a signature. -/
  | formals (c : OpenClass) (s : Signature)
  | formalComma (c : OpenClass) (s : Signature)
  | formalType (c : OpenClass) (s : Signature) (type : TypeRef)
  | formalName (c : OpenClass) (s : Signature)
  /-- After the closing parenthesis of a signature. -/
  | signature (c : OpenClass) (s : Signature)
  | body (c : OpenClass) (s : Signature) (b : Body)
  deriving Repr

namespace Position

/-- Before the first class. -/
def start : Position := classes []

/-- Whether an array size is looked for after a type in a declaration: not
directly after the name of a class. -/
def sized (type : TypeRef) : Bool :=
  match type.base with
  | .primitive _ => true
  | .user _ => type.dimension ≠ 0

/-- The terminals looked for at a position. -/
def expects : Position → Expectation
  | classes _ => .only (.keyword .class_)
  | classWord _ | extendsWord .. => .only .className
  | className .. => fun t => t == .keyword .extends_ || t == .sign .lbrace
  | superclass .. => .only (.sign .lbrace)
  | members _ => .member
  | staticWord _ | formalComma .. => .type
  | memberType _ _ type | formalType _ _ type => .declared (sized type)
  | memberName .. => fun t => t == .sign .lparen || t == .sign .comma || t == .sign .semicolon
  | staticName .. => .only (.sign .lparen)
  | fieldComma .. => .only .name
  | fieldName .. => fun t => t == .sign .comma || t == .sign .semicolon
  | formals .. => fun t => t == .sign .rparen || Expectation.type t
  | formalName .. => fun t => t == .sign .comma || t == .sign .rparen
  | signature .. => fun t => t == .sign .lbrace || t == .sign .semicolon
  | body _ _ b => b.expects

/-- Where a token leads after the type of a member. -/
def feedMemberType (t : Token) (c : OpenClass) (static : Bool) (type : TypeRef) :
    Option Position :=
  match t.terminal with
  | .name => some (if static then staticName c type t.word else memberName c type t.word)
  | .brackets => some (memberType c static type.array)
  | _ => none

/-- Where a token leads after the type of a formal parameter. -/
def feedFormalType (t : Token) (c : OpenClass) (s : Signature) (type : TypeRef) :
    Option Position :=
  match t.terminal with
  | .name => some (formalName c { s with formals := ⟨type, t.word⟩ :: s.formals })
  | .brackets => some (formalType c s type.array)
  | _ => none

/-- The signature with its formals in their order. -/
def close (s : Signature) : Signature := { s with formals := s.formals.reverse }

/-- Where a step in a body leads. -/
def ofBodyStep (c : OpenClass) (s : Signature) : BodyStep → Position
  | .inside b => body c s b
  | .closed statements => members (c.add (.method (close s) (some statements)))

/-- Where a token leads from a position; none if it does not fit there. -/
def feed (t : Token) : Position → Option Position
  | classes earlier =>
    if t.terminal = .keyword .class_ then some (classWord earlier) else none
  | classWord earlier =>
    if t.terminal = .className then some (className earlier t.word) else none
  | className earlier name =>
    match t.terminal with
    | .keyword .extends_ => some (extendsWord earlier name)
    | .sign .lbrace => some (members ⟨earlier, name, none, []⟩)
    | _ => none
  | extendsWord earlier name =>
    if t.terminal = .className then some (superclass earlier name t.word) else none
  | superclass earlier name parent =>
    if t.terminal = .sign .lbrace then some (members ⟨earlier, name, some parent, []⟩) else none
  | members c =>
    match t.terminal with
    | .sign .rbrace => some (classes c.close)
    | .keyword .static => some (staticWord c)
    | _ => t.type?.map (memberType c false)
  | staticWord c => t.type?.map (memberType c true)
  | memberType c static type => feedMemberType t c static type
  | memberName c type name =>
    match t.terminal with
    | .sign .lparen => some (formals c ⟨false, type, name, []⟩)
    | .sign .comma => some (fieldComma c type name [])
    | .sign .semicolon => some (members (c.add (.fields type name [])))
    | _ => none
  | staticName c type name =>
    if t.terminal = .sign .lparen then some (formals c ⟨true, type, name, []⟩) else none
  | fieldComma c type first further =>
    if t.terminal = .name then some (fieldName c type first (t.word :: further)) else none
  | fieldName c type first further =>
    match t.terminal with
    | .sign .comma => some (fieldComma c type first further)
    | .sign .semicolon => some (members (c.add (.fields type first further.reverse)))
    | _ => none
  | formals c s =>
    if t.terminal = .sign .rparen then some (signature c s) else t.type?.map (formalType c s)
  | formalComma c s => t.type?.map (formalType c s)
  | formalType c s type => feedFormalType t c s type
  | formalName c s =>
    match t.terminal with
    | .sign .comma => some (formalComma c s)
    | .sign .rparen => some (signature c s)
    | _ => none
  | signature c s =>
    match t.terminal with
    | .sign .semicolon => some (members (c.add (.method (close s) none)))
    | .sign .lbrace => some (body c s ⟨.body [], .opened⟩)
    | _ => none
  | body c s b => (b.feed t).map (ofBodyStep c s)

/-- The program, if it is complete at a position. -/
def finish? : Position → Option ProgramTree
  | classes earlier => some earlier.reverse
  | _ => none

end Position

end IcFront
