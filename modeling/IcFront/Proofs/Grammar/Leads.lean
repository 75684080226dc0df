import IcFront.Grammar.Position
import IcFront.Proofs.Syntax.Marks

/-!
# Where tokens lead

Where a token leads from a place, case by case: one relation for each layer of positions
(`ExprSpot.Leads`, `Body.Leads`, `Position.Leads`), with one constructor for each way on.
These are all the ways there are, and each can be gone: a token leads somewhere exactly
where a case says so (`ExprSpot.feed_eq_some_iff`, `Body.feed_eq_some_iff`,
`Position.feed_eq_some_iff`). So what a token keeps is shown by cases on these relations,
and where it leads by naming the case.

A closing token, a comma between arguments or a semicolon first applies all operators that
wait: `ExprSpot.CloseLeads` is about the expression that they make and the construct
around it.
-/

namespace IcFront

theorem Sign.binaryOp?_eq_some_iff {s : Sign} {op : BinaryOp} :
    s.binaryOp? = some op ↔ s = op.sign := by
  cases s <;> cases op <;> simp [binaryOp?, BinaryOp.sign]

/-! ## Expressions -/

namespace ExprSpot

/-- Where a closing token, a comma or a semicolon leads after an expression in which no
operator waits, by the construct around it. -/
inductive CloseLeads (t : Token) (e : ExprTree) : Pending → ExprStep → Prop
  | paren {outer} (ht : t.terminal = .sign .rparen) :
      CloseLeads t e (.paren outer) (.inside (operator (.paren e) outer))
  | call {callee earlier outer} (ht : t.terminal = .sign .rparen) :
      CloseLeads t e (.argument callee earlier outer)
        (.inside (operator (callee.call (earlier.reverse ++ [e])) outer))
  | ifCondition {line} (ht : t.terminal = .sign .rparen) :
      CloseLeads t e (.bottom (.ifCondition line)) (.ifBranch line e)
  | whileCondition {line} (ht : t.terminal = .sign .rparen) :
      CloseLeads t e (.bottom (.whileCondition line)) (.whileBranch line e)
  | element {array outer} (ht : t.terminal = .sign .rbracket) :
      CloseLeads t e (.index array outer) (.inside (operator (.element array e) outer))
  | newArray {line element outer} (ht : t.terminal = .sign .rbracket) :
      CloseLeads t e (.size line element outer)
        (.inside (operator (.newArray line element e) outer))
  | nextArgument {callee earlier outer} (ht : t.terminal = .sign .comma) :
      CloseLeads t e (.argument callee earlier outer)
        (.inside (operand (.argument callee (e :: earlier) outer)))
  | expression (ht : t.terminal = .sign .semicolon) :
      CloseLeads t e (.bottom .statement) (.statement (.expression e))
  | assigned {target} (ht : t.terminal = .sign .semicolon) :
      CloseLeads t e (.bottom (.assigned target)) (.statement (.assign target e))
  | initial {type w} (ht : t.terminal = .sign .semicolon) :
      CloseLeads t e (.bottom (.initial type w)) (.statement (.localVar type w (some e)))
  | returned {line} (ht : t.terminal = .sign .semicolon) :
      CloseLeads t e (.bottom (.returned line)) (.statement (.return_ line (some e)))

/-- Where a token leads after a complete operand. -/
inductive OperatorLeads (t : Token) (e : ExprTree) : Pending → ExprStep → Prop
  | dot {p} (ht : t.terminal = .sign .dot) : OperatorLeads t e p (.inside (dot e p))
  | index {p} (ht : t.terminal = .sign .lbracket) :
      OperatorLeads t e p (.inside (operand (.index e p)))
  | target (ht : t.terminal = .sign .assign) :
      OperatorLeads t e (.bottom .statement) (.inside (operand (.bottom (.assigned e))))
  | binary {p op left outer} (ht : t.terminal = .sign op.sign)
      (ha : p.apply op.level e = (left, outer)) (hp : outer ≠ .bottom .statement) :
      OperatorLeads t e p (.inside (operand (.binary left op t.line outer)))
  | close {p x outer step} (ha : p.apply 0 e = (x, outer)) (h : CloseLeads t x outer step) :
      OperatorLeads t e p step

/-- Where a token leads from a place in an expression. -/
inductive Leads (t : Token) : ExprSpot → ExprStep → Prop
  | start {p s} (h : start t p = some s) : Leads t (operand p) (.inside s)
  | noArguments {callee p} (ht : t.terminal = .sign .rparen) :
      Leads t (firstArgument callee p) (.inside (operator (callee.call []) p))
  | firstArgument {callee p s} (h : ExprSpot.start t (.argument callee [] p) = some s) :
      Leads t (firstArgument callee p) (.inside s)
  | localCall {w p} (ht : t.terminal = .sign .lparen) :
      Leads t (name w p) (.inside (ExprSpot.firstArgument (.local w) p))
  | var {w p step} (h : OperatorLeads t (.var w) p step) : Leads t (name w p) step
  | virtualCall {object w p} (ht : t.terminal = .sign .lparen) :
      Leads t (member object w p) (.inside (ExprSpot.firstArgument (.virtual object w) p))
  | field {object w p step} (h : OperatorLeads t (.field object w) p step) :
      Leads t (member object w p) step
  | operator {e p step} (h : OperatorLeads t e p step) : Leads t (operator e p) step
  | member {e p} (ht : t.terminal = .name) :
      Leads t (dot e p) (.inside (ExprSpot.member e t.word p))
  | length {e p} (ht : t.terminal = .keyword .length) :
      Leads t (dot e p) (.inside (ExprSpot.operator (.length e) p))
  | classDot {c p} (ht : t.terminal = .sign .dot) :
      Leads t (className c p) (.inside (classDot c p))
  | classMember {c p} (ht : t.terminal = .name) :
      Leads t (ExprSpot.classDot c p) (.inside (classMember c t.word p))
  | staticCall {c w p} (ht : t.terminal = .sign .lparen) :
      Leads t (ExprSpot.classMember c w p) (.inside (ExprSpot.firstArgument (.static c w) p))
  | newClass {line p} (ht : t.terminal = .className) :
      Leads t (newWord line p) (.inside (newClass line t.word p))
  | newType {line p element} (ht : t.terminal ≠ .className) (h : t.type? = some element) :
      Leads t (newWord line p) (.inside (newType line element p))
  | newParen {line c p} (ht : t.terminal = .sign .lparen) :
      Leads t (ExprSpot.newClass line c p) (.inside (newParen line c p))
  | classSize {line c p} (ht : t.terminal = .sign .lbracket) :
      Leads t (ExprSpot.newClass line c p)
        (.inside (operand (.size line ⟨.user c.text, 0, c.line⟩ p)))
  | classBrackets {line c p} (ht : t.terminal = .brackets) :
      Leads t (ExprSpot.newClass line c p)
        (.inside (ExprSpot.newType line ⟨.user c.text, 1, c.line⟩ p))
  | newObject {line c p} (ht : t.terminal = .sign .rparen) :
      Leads t (ExprSpot.newParen line c p) (.inside (ExprSpot.operator (.newObject line c) p))
  | size {line element p} (ht : t.terminal = .sign .lbracket) :
      Leads t (ExprSpot.newType line element p) (.inside (operand (.size line element p)))
  | brackets {line element p} (ht : t.terminal = .brackets) :
      Leads t (ExprSpot.newType line element p)
        (.inside (ExprSpot.newType line element.array p))

variable {t : Token} {e : ExprTree} {p : Pending} {step : ExprStep}

/-- Only these tokens apply all operators that wait. -/
theorem CloseLeads.terminal_eq (h : CloseLeads t e p step) :
    t.terminal = .sign .rparen ∨ t.terminal = .sign .rbracket ∨ t.terminal = .sign .comma ∨
      t.terminal = .sign .semicolon := by
  cases h <;> simp [*]

/-- A token that leads on from a complete operand is looked for there. -/
theorem OperatorLeads.expected (h : OperatorLeads t e p step) :
    Expectation.operator t.terminal = true := by
  cases h with
  | dot ht | index ht | target ht => rw [ht]; rfl
  | @binary _ op _ _ ht => rw [ht]; cases op <;> rfl
  | close _ h => rcases h.terminal_eq with ht | ht | ht | ht <;> rw [ht] <;> rfl

theorem closeParen_eq_some_iff (ht : t.terminal = .sign .rparen) :
    closeParen e p = some step ↔ CloseLeads t (p.apply 0 e).1 (p.apply 0 e).2 step := by
  unfold closeParen
  generalize p.apply 0 e = applied
  constructor
  · intro h
    split at h <;> cases h
    all_goals
      constructor
      exact ht
  · obtain ⟨x, outer⟩ := applied
    intro h
    cases h <;> simp_all

theorem closeBracket_eq_some_iff (ht : t.terminal = .sign .rbracket) :
    (closeBracket e p).map .inside = some step ↔
      CloseLeads t (p.apply 0 e).1 (p.apply 0 e).2 step := by
  unfold closeBracket
  generalize p.apply 0 e = applied
  constructor
  · intro h
    split at h <;> cases h
    all_goals
      constructor
      exact ht
  · obtain ⟨x, outer⟩ := applied
    intro h
    cases h <;> simp_all

theorem nextArgument_eq_some_iff (ht : t.terminal = .sign .comma) :
    (nextArgument e p).map .inside = some step ↔
      CloseLeads t (p.apply 0 e).1 (p.apply 0 e).2 step := by
  unfold nextArgument
  generalize p.apply 0 e = applied
  constructor
  · intro h
    split at h <;> cases h
    exact .nextArgument ht
  · obtain ⟨x, outer⟩ := applied
    intro h
    cases h <;> simp_all

theorem endStatement_eq_some_iff (ht : t.terminal = .sign .semicolon) :
    (endStatement e p).map .statement = some step ↔
      CloseLeads t (p.apply 0 e).1 (p.apply 0 e).2 step := by
  unfold endStatement
  generalize p.apply 0 e = applied
  constructor
  · intro h
    split at h <;> cases h
    all_goals
      constructor
      exact ht
  · obtain ⟨x, outer⟩ := applied
    intro h
    cases h <;> simp_all

theorem binary_eq_some_iff {op : BinaryOp} {line : Nat} {s : ExprSpot} :
    binary op line e p = some s ↔ ∃ left outer, p.apply op.level e = (left, outer) ∧
      outer ≠ .bottom .statement ∧ operand (.binary left op line outer) = s := by
  unfold binary
  split
  · next heq => simp [heq]
  · next left outer hne heq =>
    constructor
    · rintro ⟨⟩
      exact ⟨left, outer, heq, hne, rfl⟩
    · rintro ⟨left', outer', ha, -, rfl⟩
      rw [heq] at ha
      cases ha
      rfl

theorem feedOperator_eq_some_iff :
    feedOperator t e p = some step ↔ OperatorLeads t e p step := by
  constructor
  · intro h
    unfold feedOperator at h
    split at h
    · next ht => cases h; exact .dot ht
    · next ht => cases h; exact .index ht
    · next ht => exact .close rfl ((closeParen_eq_some_iff ht).1 h)
    · next ht => exact .close rfl ((closeBracket_eq_some_iff ht).1 h)
    · next ht => exact .close rfl ((nextArgument_eq_some_iff ht).1 h)
    · next ht => exact .close rfl ((endStatement_eq_some_iff ht).1 h)
    · next ht =>
      split at h <;> cases h
      exact .target ht
    · next ht =>
      obtain ⟨op, hop, h⟩ := Option.bind_eq_some_iff.1 h
      obtain ⟨s, hs, rfl⟩ := Option.map_eq_some_iff.1 h
      obtain ⟨left, outer, ha, hbottom, rfl⟩ := binary_eq_some_iff.1 hs
      obtain rfl := Sign.binaryOp?_eq_some_iff.1 hop
      exact .binary ht ha hbottom
    · cases h
  · intro h
    unfold feedOperator
    cases h with
    | dot ht | index ht | target ht => rw [ht]
    | @binary _ op _ _ ht ha hp =>
      have hbinary : binary op t.line e p = _ := binary_eq_some_iff.2 ⟨_, _, ha, hp, rfl⟩
      rw [ht]
      cases op <;> exact congrArg (Option.map _) hbinary
    | close ha h =>
      have h : CloseLeads t (p.apply 0 e).1 (p.apply 0 e).2 step := by rwa [ha]
      rcases h.terminal_eq with ht | ht | ht | ht <;> rw [ht]
      · exact (closeParen_eq_some_iff ht).2 h
      · exact (closeBracket_eq_some_iff ht).2 h
      · exact (nextArgument_eq_some_iff ht).2 h
      · exact (endStatement_eq_some_iff ht).2 h

/-- A token leads from a place in an expression exactly where a case says so. -/
theorem feed_eq_some_iff {s : ExprSpot} : feed t s = some step ↔ Leads t s step := by
  constructor
  · intro h
    cases s with
    | operand p =>
      obtain ⟨s, hs, rfl⟩ := Option.map_eq_some_iff.1 h
      exact .start hs
    | firstArgument callee p =>
      simp only [feed] at h
      split at h
      · next ht => cases h; exact .noArguments ht
      · obtain ⟨s, hs, rfl⟩ := Option.map_eq_some_iff.1 h
        exact .firstArgument hs
    | name w p =>
      simp only [feed] at h
      split at h
      · next ht => cases h; exact .localCall ht
      · exact .var (feedOperator_eq_some_iff.1 h)
    | member object w p =>
      simp only [feed] at h
      split at h
      · next ht => cases h; exact .virtualCall ht
      · exact .field (feedOperator_eq_some_iff.1 h)
    | operator e p => exact .operator (feedOperator_eq_some_iff.1 h)
    | newWord line p =>
      simp only [feed] at h
      split at h
      · next ht => cases h; exact .newClass ht
      · next ht =>
        obtain ⟨type, htype, rfl⟩ := Option.map_eq_some_iff.1 h
        exact .newType ht htype
    | dot e p | className c p | classDot c p | classMember c w p | newClass line c p
    | newParen line c p | newType line element p =>
      simp only [feed] at h
      split at h <;> cases h
      all_goals
        constructor
        assumption
  · intro h
    cases h with
    | firstArgument h =>
      have hne : t.terminal ≠ .sign .rparen := by
        intro ht
        rw [ExprSpot.start, ht] at h
        cases h
      rw [feed, if_neg hne, h]
      rfl
    | var h | field h =>
      have hne : t.terminal ≠ .sign .lparen := by
        intro ht
        have hexpected := h.expected
        rw [ht] at hexpected
        cases hexpected
      rw [feed, if_neg hne, feedOperator_eq_some_iff.2 h]
    | operator h => exact feedOperator_eq_some_iff.2 h
    | _ => simp_all [feed]

end ExprSpot

/-! ## Bodies of methods -/

namespace Body

/-- Where the first token of a statement leads. -/
inductive StartLeads (t : Token) (e : Enclosing) : Body → Prop
  | className (ht : t.terminal = .className) : StartLeads t e ⟨e, .className t.word⟩
  | returnWord (ht : t.terminal = .keyword .return_) : StartLeads t e ⟨e, .returnWord t.line⟩
  | ifWord (ht : t.terminal = .keyword .if_) : StartLeads t e ⟨e, .ifWord t.line⟩
  | whileWord (ht : t.terminal = .keyword .while_) : StartLeads t e ⟨e, .whileWord t.line⟩
  | breakWord (ht : t.terminal = .keyword .break_) : StartLeads t e ⟨e, .breakWord t.line⟩
  | continueWord (ht : t.terminal = .keyword .continue_) :
      StartLeads t e ⟨e, .continueWord t.line⟩
  | block (ht : t.terminal = .sign .lbrace) : StartLeads t e ⟨.block t.line [] e, .opened⟩
  | declared {type} (ht : t.terminal ≠ .className) (h : t.type? = some type) :
      StartLeads t e ⟨e, .declared type⟩
  | expression {s} (ht : t.terminal ∉ [.className, .sign .minus, .sign .not])
      (h : ExprSpot.start t (.bottom .statement) = some s) : StartLeads t e ⟨e, .expr s⟩

/-- Where a token leads between two statements, or before the first one. -/
inductive NextLeads (t : Token) : Enclosing → BodyStep → Prop
  | closeBody {earlier} (ht : t.terminal = .sign .rbrace) :
      NextLeads t (.body earlier) (.closed earlier.reverse)
  | closeBlock {line earlier outer} (ht : t.terminal = .sign .rbrace) :
      NextLeads t (.block line earlier outer)
        (.inside ⟨outer, .after (.block line earlier.reverse)⟩)
  | start {e b} (h : StartLeads t e b) : NextLeads t e (.inside b)

/-- Where a token leads from a place in a body. -/
inductive Leads (t : Token) : Body → BodyStep → Prop
  | opened {e step} (h : NextLeads t e step) : Leads t ⟨e, .opened⟩ step
  | branch {e b} (h : StartLeads t e b) : Leads t ⟨e, .branch⟩ (.inside b)
  | else_ {e s e'} (ht : t.terminal = .keyword .else_) (h : e.attachElse? s = some e') :
      Leads t ⟨e, .after s⟩ (.inside ⟨e', .branch⟩)
  | after {e s step} (h : NextLeads t (e.settle s) step) : Leads t ⟨e, .after s⟩ step
  | break_ {e line} (ht : t.terminal = .sign .semicolon) :
      Leads t ⟨e, .breakWord line⟩ (.inside ⟨e, .after (.break_ line)⟩)
  | continue_ {e line} (ht : t.terminal = .sign .semicolon) :
      Leads t ⟨e, .continueWord line⟩ (.inside ⟨e, .after (.continue_ line)⟩)
  | return_ {e line} (ht : t.terminal = .sign .semicolon) :
      Leads t ⟨e, .returnWord line⟩ (.inside ⟨e, .after (.return_ line none)⟩)
  | returned {e line s} (h : ExprSpot.start t (.bottom (.returned line)) = some s) :
      Leads t ⟨e, .returnWord line⟩ (.inside ⟨e, .expr s⟩)
  | ifCondition {e line} (ht : t.terminal = .sign .lparen) :
      Leads t ⟨e, .ifWord line⟩ (.inside ⟨e, .expr (.operand (.bottom (.ifCondition line)))⟩)
  | whileCondition {e line} (ht : t.terminal = .sign .lparen) :
      Leads t ⟨e, .whileWord line⟩
        (.inside ⟨e, .expr (.operand (.bottom (.whileCondition line)))⟩)
  | classLocalName {e c} (ht : t.terminal = .name) :
      Leads t ⟨e, .className c⟩ (.inside ⟨e, .declaredName ⟨.user c.text, 0, c.line⟩ t.word⟩)
  | classBrackets {e c} (ht : t.terminal = .brackets) :
      Leads t ⟨e, .className c⟩ (.inside ⟨e, .declared ⟨.user c.text, 1, c.line⟩⟩)
  | classDot {e c} (ht : t.terminal = .sign .dot) :
      Leads t ⟨e, .className c⟩ (.inside ⟨e, .expr (.classDot c (.bottom .statement))⟩)
  | localName {e type} (ht : t.terminal = .name) :
      Leads t ⟨e, .declared type⟩ (.inside ⟨e, .declaredName type t.word⟩)
  | brackets {e type} (ht : t.terminal = .brackets) :
      Leads t ⟨e, .declared type⟩ (.inside ⟨e, .declared type.array⟩)
  | initial {e type w} (ht : t.terminal = .sign .assign) :
      Leads t ⟨e, .declaredName type w⟩
        (.inside ⟨e, .expr (.operand (.bottom (.initial type w)))⟩)
  | localVar {e type w} (ht : t.terminal = .sign .semicolon) :
      Leads t ⟨e, .declaredName type w⟩ (.inside ⟨e, .after (.localVar type w none)⟩)
  | expr {e s step} (h : ExprSpot.Leads t s step) :
      Leads t ⟨e, .expr s⟩ (.inside (ofExprStep e step))

variable {t : Token} {e : Enclosing} {step : BodyStep}

theorem start_eq_some_iff {b : Body} : start t e = some b ↔ StartLeads t e b := by
  constructor
  · intro h
    unfold start at h
    split at h
    case h_10 =>
      split at h
      · next type htype =>
        cases h
        exact .declared ‹_› htype
      · obtain ⟨s, hs, rfl⟩ := Option.map_eq_some_iff.1 h
        exact .expression (by simp_all) hs
    all_goals cases h
    all_goals
      constructor
      assumption
  · intro h
    cases h with
    | declared ht h =>
      unfold Token.type? at h
      split at h <;> cases h
      all_goals simp_all [start, Token.type?]
    | expression ht h =>
      have hstart := h
      unfold ExprSpot.start at h
      split at h <;> cases h
      all_goals simp_all [start, Token.type?]
    | _ => simp_all [start]

theorem next_eq_some_iff : next t e = some step ↔ NextLeads t e step := by
  constructor
  · intro h
    unfold next at h
    split at h
    · next ht =>
      unfold close at h
      split at h <;> cases h
      · exact .closeBody ht
      · exact .closeBlock ht
    · obtain ⟨b, hb, rfl⟩ := Option.map_eq_some_iff.1 h
      exact .start (start_eq_some_iff.1 hb)
  · intro h
    cases h with
    | start h =>
      have hb := start_eq_some_iff.2 h
      have hne : t.terminal ≠ .sign .rbrace := by
        intro ht
        simp [start, ht, Token.type?, ExprSpot.start] at hb
      simp [next, hne, hb]
    | _ => simp_all [next, close]

/-- A token leads from a place in a body exactly where a case says so. -/
theorem feed_eq_some_iff {b : Body} : feed t b = some step ↔ Leads t b step := by
  constructor
  · obtain ⟨e, spot⟩ := b
    intro h
    cases spot with
    | opened => exact .opened (next_eq_some_iff.1 h)
    | branch =>
      obtain ⟨b, hb, rfl⟩ := Option.map_eq_some_iff.1 h
      exact .branch (start_eq_some_iff.1 hb)
    | after s =>
      simp only [feed] at h
      split at h
      · next ht =>
        obtain ⟨e', he', rfl⟩ := Option.map_eq_some_iff.1 h
        exact .else_ ht he'
      · exact .after (next_eq_some_iff.1 h)
    | returnWord line =>
      simp only [feed] at h
      split at h
      · next ht => cases h; exact .return_ ht
      · obtain ⟨s, hs, rfl⟩ := Option.map_eq_some_iff.1 h
        exact .returned hs
    | expr s =>
      obtain ⟨step, hstep, rfl⟩ := Option.map_eq_some_iff.1 h
      exact .expr (ExprSpot.feed_eq_some_iff.1 hstep)
    | breakWord line | continueWord line | ifWord line | whileWord line | className c
    | declared type | declaredName type w =>
      simp only [feed] at h
      split at h <;> cases h
      all_goals
        constructor
        assumption
  · intro h
    cases h with
    | opened h => exact next_eq_some_iff.2 h
    | branch h => simp [feed, start_eq_some_iff.2 h]
    | after h =>
      have hnext := next_eq_some_iff.2 h
      have hne : t.terminal ≠ .keyword .else_ := by
        intro ht
        simp [next, start, ht, Token.type?, ExprSpot.start] at hnext
      simp [feed, hne, hnext]
    | returned h =>
      have hne : t.terminal ≠ .sign .semicolon := by
        intro ht
        simp [ExprSpot.start, ht] at h
      simp [feed, hne, h]
    | expr h => simp [feed, ExprSpot.feed_eq_some_iff.2 h]
    | _ => simp_all [feed]

end Body

/-! ## Programs -/

namespace Position

/-- Where a token leads from a position. -/
inductive Leads (t : Token) : Position → Position → Prop
  | class_ {earlier} (ht : t.terminal = .keyword .class_) :
      Leads t (classes earlier) (classWord earlier)
  | className {earlier} (ht : t.terminal = .className) :
      Leads t (classWord earlier) (className earlier t.word)
  | extends_ {earlier w} (ht : t.terminal = .keyword .extends_) :
      Leads t (Position.className earlier w) (extendsWord earlier w)
  | openClass {earlier w} (ht : t.terminal = .sign .lbrace) :
      Leads t (Position.className earlier w) (members ⟨earlier, w, none, []⟩)
  | superclass {earlier w} (ht : t.terminal = .className) :
      Leads t (extendsWord earlier w) (superclass earlier w t.word)
  | openSubclass {earlier w parent} (ht : t.terminal = .sign .lbrace) :
      Leads t (Position.superclass earlier w parent) (members ⟨earlier, w, some parent, []⟩)
  | closeClass {c} (ht : t.terminal = .sign .rbrace) : Leads t (members c) (classes c.close)
  | static {c} (ht : t.terminal = .keyword .static) : Leads t (members c) (staticWord c)
  | memberType {c type} (h : t.type? = some type) :
      Leads t (members c) (memberType c false type)
  | staticType {c type} (h : t.type? = some type) :
      Leads t (staticWord c) (Position.memberType c true type)
  | memberName {c type} (ht : t.terminal = .name) :
      Leads t (Position.memberType c false type) (memberName c type t.word)
  | staticName {c type} (ht : t.terminal = .name) :
      Leads t (Position.memberType c true type) (staticName c type t.word)
  | memberBrackets {c static type} (ht : t.terminal = .brackets) :
      Leads t (Position.memberType c static type) (Position.memberType c static type.array)
  | virtualFormals {c type w} (ht : t.terminal = .sign .lparen) :
      Leads t (Position.memberName c type w) (formals c ⟨false, type, w, []⟩)
  | staticFormals {c type w} (ht : t.terminal = .sign .lparen) :
      Leads t (Position.staticName c type w) (formals c ⟨true, type, w, []⟩)
  | field {c type w} (ht : t.terminal = .sign .semicolon) :
      Leads t (Position.memberName c type w) (members (c.add (.fields type w [])))
  | firstComma {c type w} (ht : t.terminal = .sign .comma) :
      Leads t (Position.memberName c type w) (fieldComma c type w [])
  | fieldName {c type first further} (ht : t.terminal = .name) :
      Leads t (fieldComma c type first further) (fieldName c type first (t.word :: further))
  | furtherComma {c type first further} (ht : t.terminal = .sign .comma) :
      Leads t (Position.fieldName c type first further) (fieldComma c type first further)
  | fields {c type first further} (ht : t.terminal = .sign .semicolon) :
      Leads t (Position.fieldName c type first further)
        (members (c.add (.fields type first further.reverse)))
  | noFormals {c s} (ht : t.terminal = .sign .rparen) :
      Leads t (formals c s) (signature c s)
  | firstFormal {c s type} (h : t.type? = some type) :
      Leads t (formals c s) (formalType c s type)
  | furtherFormal {c s type} (h : t.type? = some type) :
      Leads t (formalComma c s) (formalType c s type)
  | formalName {c s type} (ht : t.terminal = .name) :
      Leads t (formalType c s type)
        (formalName c { s with formals := ⟨type, t.word⟩ :: s.formals })
  | formalBrackets {c s type} (ht : t.terminal = .brackets) :
      Leads t (formalType c s type) (formalType c s type.array)
  | formalComma {c s} (ht : t.terminal = .sign .comma) :
      Leads t (Position.formalName c s) (formalComma c s)
  | signature {c s} (ht : t.terminal = .sign .rparen) :
      Leads t (Position.formalName c s) (signature c s)
  | bodiless {c s} (ht : t.terminal = .sign .semicolon) :
      Leads t (Position.signature c s) (members (c.add (.method (close s) none)))
  | openBody {c s} (ht : t.terminal = .sign .lbrace) :
      Leads t (Position.signature c s) (body c s ⟨.body [], .opened⟩)
  | body {c s b step} (h : Body.Leads t b step) :
      Leads t (body c s b) (ofBodyStep c s step)

variable {t : Token}

/-- A token leads from one position to another exactly where a case says so. -/
theorem feed_eq_some_iff {p q : Position} : feed t p = some q ↔ Leads t p q := by
  constructor
  · intro h
    cases p with
    | members c =>
      simp only [feed] at h
      split at h
      · next ht => cases h; exact .closeClass ht
      · next ht => cases h; exact .static ht
      · obtain ⟨type, htype, rfl⟩ := Option.map_eq_some_iff.1 h
        exact .memberType htype
    | staticWord c =>
      obtain ⟨type, htype, rfl⟩ := Option.map_eq_some_iff.1 h
      exact .staticType htype
    | memberType c static type =>
      simp only [feed, feedMemberType] at h
      split at h
      · next ht =>
        cases static <;> cases h
        · exact .memberName ht
        · exact .staticName ht
      · next ht => cases h; exact .memberBrackets ht
      · cases h
    | formals c s =>
      simp only [feed] at h
      split at h
      · next ht => cases h; exact .noFormals ht
      · obtain ⟨type, htype, rfl⟩ := Option.map_eq_some_iff.1 h
        exact .firstFormal htype
    | formalComma c s =>
      obtain ⟨type, htype, rfl⟩ := Option.map_eq_some_iff.1 h
      exact .furtherFormal htype
    | body c s b =>
      obtain ⟨step, hstep, rfl⟩ := Option.map_eq_some_iff.1 h
      exact .body (Body.feed_eq_some_iff.1 hstep)
    | _ =>
      simp only [feed, feedFormalType] at h
      split at h <;> cases h
      all_goals
        constructor
        assumption
  · intro h
    cases h with
    | memberType h | firstFormal h =>
      have htype := h
      unfold Token.type? at h
      split at h <;> cases h
      all_goals simp_all [feed]
    | body h => simp [feed, Body.feed_eq_some_iff.2 h]
    | _ => simp_all [feed, feedMemberType, feedFormalType]

end Position

end IcFront
