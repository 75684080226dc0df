import IcFront.Proofs.Grammar.Words

/-!
# Syntax trees say what their texts say

A text that has a syntax tree is its tokens, with fillers between them and nothing left over
(`Accepted.lexed`). The tree has the marks of these tokens (`Program.exists_tree`). So no
token of the text is lost on the way, none is made up, and none is moved inside a member:
all that the tree changes is that in each class the fields stand one by one before the
methods (`Program.parse_account`).

The tokens show all of the tree. An operator has its operands by level, an `else` belongs to
the innermost `if` that could have it, and what has no body was declared static.
-/

namespace IcFront

/-- The syntax tree of a text says what the text says.

The text is its tokens, with a filler before each. The syntax tree says what these tokens
say, in their order, but that in each class the fields stand one by one before the methods.
The tokens show all of the tree, which keeps the rules of the language; and what has no body
in it was declared static. -/
theorem Program.parse_account {source : String} {p : Program Expr}
    (h : Program.parse source = .ok p) :
    Lexed Cut [] source.toList (Reading.of source).forms ∧
    ∃ tree : ProgramTree, (Reading.of source).result = .ok tree ∧
      (Reading.of source).tokens.map Token.mark = tree.flatMap ClassTree.marks ∧
      p.marks = tree.flatMap (·.arranged.marks) ∧ p.Faithful ∧ p.Lawful ∧
      ∀ c ∈ tree, ∀ s, .method s none ∈ c.members → s.static = true := by
  obtain ⟨tree, htree, haccount⟩ := exists_tree h
  exact ⟨Accepted.lexed ⟨tree, htree⟩, tree, htree, haccount⟩

/-- A class whose fields are declared together and on both sides of a method. -/
def mixedMembers : String :=
  "class A \x7b int x , y ; void m ( ) \x7b x = 1 + y ; \x7d boolean z ; \x7d"

/-- The class with its fields first, each by itself. -/
def fieldsFirst : Program Expr where
  classes := [{
    name := "A"
    superclass := none
    fields := [⟨⟨.primitive .int, 0, 1⟩, "x", 1⟩, ⟨⟨.primitive .int, 0, 1⟩, "y", 1⟩,
      ⟨⟨.primitive .boolean, 0, 1⟩, "z", 1⟩]
    methods := [{
      form := .virtual
        [.assign (.var "x" 1) (.binary .add (.literal (.integer 1) 1) (.var "y" 1) 1) 1]
      type := ⟨.primitive .void, 0, 1⟩
      name := "m"
      formals := []
      line := 1 }]
    line := 1 }]

/-- The fields of the class come before its method, although one was declared after it. -/
theorem Program.parse_account_mixed_members :
    Program.parse mixedMembers = .ok fieldsFirst ∧
    Lexed Cut [] mixedMembers.toList (Reading.of mixedMembers).forms ∧
    (∃ tree : ProgramTree, (Reading.of mixedMembers).result = .ok tree ∧
      (Reading.of mixedMembers).tokens.map Token.mark = tree.flatMap ClassTree.marks ∧
      fieldsFirst.marks = tree.flatMap (·.arranged.marks)) ∧
    fieldsFirst.Faithful ∧ fieldsFirst.Lawful := by
  have hparse : Program.parse mixedMembers = .ok fieldsFirst := by
    with_unfolding_all rfl
  obtain ⟨hlexed, tree, htree, htokens, hmarks, hfaithful, hlawful, -⟩ := parse_account hparse
  exact ⟨hparse, hlexed, ⟨tree, htree, htokens, hmarks⟩, hfaithful, hlawful⟩

end IcFront
