import Bistro.Language.Rules
import Bistro.Proofs.Grammar.Coherence
import Bistro.Proofs.ParseTree.Conforms

/-!
# The layout of nodes

What the children of a node may be is described by a row of slots, one for each child, which lists
the tags that the child may have.  So one description fits all nonterminals that are read alike.

## Main definitions

* `ParseTree.Slot` — the tags that a child may have.
* `ParseTree.layout` — the rows of slots for the children of each nonterminal.

## Main results

* `ParseTree.exists_slots` — every alternative of the grammar fits the layout.
-/

namespace Bistro.ParseTree

/-! ### Slots -/

/-- The tags that a child may have. -/
abbrev Slot := List Tag

namespace Slot

/-- Tokens of the given kinds. -/
def tokens (kinds : List Token.Kind) : Slot := kinds.map .token

/-- A token of the given kind. -/
abbrev token (kind : Token.Kind) : Slot := tokens [kind]

/-- Expansions of the given nonterminals. -/
def nodes (ns : List Nonterminal) : Slot := ns.map .nonterminal

/-- An expansion of the given nonterminal. -/
abbrev node (n : Nonterminal) : Slot := nodes [n]

/-- The mark of a nonterminal that vanished. -/
def lambda : Slot := [.empty]

theorem mem_token_iff {kind : Token.Kind} {tag : Tag} : tag ∈ token kind ↔ tag = .token kind :=
  List.mem_singleton

theorem eq_of_mem_node {n : Nonterminal} {tag : Tag} (h : tag ∈ node n) : tag = .nonterminal n :=
  List.mem_singleton.1 h

theorem nodes_subset {ns ns' : List Nonterminal} {tag : Tag} (h : tag ∈ nodes ns)
    (hsub : ns ⊆ ns') : tag ∈ nodes ns' :=
  List.map_subset _ hsub h

end Slot

/-! ### What the grammar puts under a node -/

/-- The nonterminals over literals. -/
def literalNodes : List Nonterminal := [.literals, .literals2, .literals3, .literals4, .yumOrBleh]

/-- Literals with or without a nonterminal over them. -/
def literalSlot : Slot :=
  .nodes literalNodes ++ .tokens [.pinchLiteral, .skimLiteral, .pastaLiteral, .yum, .bleh]

/-- The nonterminals over types. -/
def typeNodes : List Nonterminal := [.dataType, .dataType2]

/-- The nonterminals over expressions. -/
def expressionNodes : List Nonterminal := [.expression, .arithmeticExp, .condition]

/-- The nonterminals over what follows the first operand of an expression. -/
def chainNodes : List Nonterminal := [.expressionTail, .arithmeticTail, .conditionTail]

/-- The nonterminals over operands. -/
def operandNodes : List Nonterminal := [.expressionOperand, .arithmeticOperand, .conditionOperand]

/-- The nonterminals over operators with two operands. -/
def operatorNodes : List Nonterminal :=
  [.expressionOperator, .arithmeticOperator, .conditionOperator]

/-- The nonterminals over values. -/
def valueNodes : List Nonterminal := [.value, .value2, .value3, .forInit]

/-- The nonterminals over declarations. -/
def declarationNodes : List Nonterminal := [.declarations, .localDeclarations]

/-- A parameter and those behind it. -/
def parameterSlots : List Slot := [.node .dataType, .token .ident, .node .paramTail]

/-- What gives the result of a function, if it has one. -/
def resultSlots (returns : Bool) : List Slot :=
  if returns then [.token .spit, .node .expression, .token .semicolon] else []

/-- A function from its name on, and the functions behind it. -/
def functionSlots (returns : Bool) : List Slot :=
  [.token .ident, .token .leftParen, .node .parameters, .token .rightParen, .token .leftBrace,
    .node .localDec, .node .statementBlock] ++
    (resultSlots returns ++ [.token .rightBrace, .node .function])

/-- The condition and the block of a branch. -/
def branchSlots : List Slot :=
  [.token .leftParen, .node .condition, .token .rightParen, .token .leftBrace,
    .node .statementBlock, .token .rightBrace]

/-- An arm of a choice by value. -/
def caseSlots : List Slot :=
  [.token .caseArm, .node .literals4, .token .colon, .node .statementBlock, .token .chop,
    .token .semicolon]

/-- The rows of slots that the children of a nonterminal may fill. -/
def layout : Nonterminal → List (List Slot)
  | .program =>
    [[.token .dinein, .node .globalDec, .node .function, .token .chef, .token .pinch, .token .dish,
      .token .leftParen, .token .rightParen, .token .leftBrace, .node .localDec,
      .node .statementBlock, .token .spit, .token .pinchLiteral, .token .semicolon,
      .token .rightBrace, .token .takeout]]
  | .globalDec => [[.lambda], [.nodes declarationNodes, .node .globalDec]]
  | .localDec => [[.lambda], [.nodes declarationNodes, .node .localDec]]
  | .declarations | .localDeclarations =>
    [[.node .dataType, .token .ident, .node .decOrInit, .token .semicolon],
      [.token .recipe, .node .dataType2, .token .ident, .token .leftBracket, .token .pinchLiteral,
        .token .rightBracket, .node .elements, .token .semicolon]]
  | .dataType | .dataType2 => [[.tokens [.pinch, .skim, .pasta, .bool]]]
  | .decOrInit => [[.token .assign, .node .literals, .node .nextDecOrInit], [.node .nextDecOrInit]]
  | .nextDecOrInit => [[.lambda], [.token .comma, .token .ident, .node .decOrInit]]
  | .literals | .literals2 | .literals3 | .literals4 | .yumOrBleh => [[literalSlot]]
  | .elements =>
    [[.lambda], [.token .assign, .token .leftBrace, .node .literals, .node .elementTail,
      .token .rightBrace]]
  | .elementTail => [[.lambda], [.token .comma, .node .literals, .node .elementTail]]
  | .function =>
    [[.lambda], .token .full :: .node .dataType :: functionSlots true,
      .token .hungry :: functionSlots false]
  | .parameters => [[.lambda], parameterSlots]
  | .paramTail => [[.lambda], .token .comma :: parameterSlots]
  | .statementBlock => [[.lambda], [.node .statement, .node .statementBlock]]
  | .statement =>
    [[.token .ident, .node .statementIdTail],
      [.node .unaryOp, .token .ident, .token .semicolon],
      [.node .conditionalStatement],
      [.node .loopingStatement],
      [.token .serve, .token .leftParen, .node .value3, .node .serveTail, .token .rightParen,
        .token .semicolon],
      [.token .make, .token .leftParen, .token .ident, .token .rightParen, .token .semicolon]]
  | .statementIdTail =>
    [[.token .leftParen, .node .argumentList, .token .rightParen, .token .semicolon],
      [.node .assignmentOperator, .node .expression, .token .semicolon],
      [.token .leftBracket, .token .pinchLiteral, .token .rightBracket, .node .assignmentOperator,
        .node .arithmeticExp, .token .semicolon],
      [.node .unaryOp, .token .semicolon]]
  | .argumentList => [[.lambda], [.node .arithmeticExp, .node .argumentTail]]
  | .argumentTail => [[.lambda], [.token .comma, .node .arithmeticExp, .node .argumentTail]]
  | .expression | .arithmeticExp | .condition => [[.nodes operandNodes, .nodes chainNodes]]
  | .expressionTail | .arithmeticTail | .conditionTail =>
    [[.lambda], [.nodes operatorNodes, .nodes operandNodes, .nodes chainNodes]]
  | .expressionOperand | .arithmeticOperand | .conditionOperand =>
    [[.nodes valueNodes],
      [.token .leftParen, .nodes expressionNodes, .token .rightParen],
      [.token .bang, .token .leftParen, .nodes expressionNodes, .token .rightParen],
      [.token .bangBang, .token .leftParen, .nodes expressionNodes, .token .rightParen]]
  | .expressionOperator | .arithmeticOperator | .conditionOperator =>
    [[.tokens [.plus, .minus, .star, .slash, .percent, .equal, .notEqual, .less, .greater,
      .lessEqual, .greaterEqual, .both, .either]]]
  | .value | .value2 | .value3 | .forInit => [[literalSlot], [.token .ident, .node .valueIdTail]]
  | .valueIdTail =>
    [[.lambda],
      [.token .leftParen, .node .argumentList, .token .rightParen],
      [.token .leftBracket, .token .pinchLiteral, .token .rightBracket]]
  | .assignmentOperator =>
    [[.tokens [.assign, .addAssign, .subAssign, .mulAssign, .divAssign, .modAssign]]]
  | .unaryOp => [[.tokens [.increment, .decrement]]]
  | .conditionalStatement =>
    [.token .taste :: (branchSlots ++ [.node .conditionalTail]),
      [.token .flip, .token .leftParen, .token .ident, .token .rightParen, .token .leftBrace] ++
        (caseSlots ++ [.node .caseTail, .node .defaultBlock, .token .rightBrace])]
  | .conditionalTail =>
    [[.lambda],
      .token .elif :: (branchSlots ++ [.node .conditionalTail]),
      [.token .mix, .token .leftBrace, .node .statementBlock, .token .rightBrace]]
  | .caseTail => [[.lambda], caseSlots ++ [.node .caseTail]]
  | .defaultBlock =>
    [[.lambda], [.token .defaultArm, .token .colon, .node .statementBlock, .token .chop,
      .token .semicolon]]
  | .loopingStatement =>
    [[.token .forLoop, .token .leftParen, .node .pinchOpt, .token .ident, .token .assign,
        .node .forInit, .token .semicolon, .node .condition, .token .semicolon, .node .incDec,
        .token .rightParen, .token .leftBrace, .node .statementBlock, .token .rightBrace],
      [.token .simmer, .token .leftParen, .node .condition, .token .rightParen, .token .leftBrace,
        .node .statementBlock, .token .rightBrace],
      [.token .keepmix, .token .leftBrace, .node .statementBlock, .token .rightBrace,
        .token .simmer, .token .leftParen, .node .condition, .token .rightParen]]
  | .pinchOpt => [[.lambda], [.token .pinch]]
  | .incDec => [[.token .ident, .node .unaryOp], [.node .unaryOp, .token .ident]]
  | .serveTail => [[.lambda], [.token .plus, .node .value3, .node .serveTail]]

theorem layout_node (n : Nonterminal) : ∀ m ∈ [n], layout m = layout n := by
  intro m hm
  rw [List.mem_singleton.1 hm]

/-- The layout fits the grammar. -/
theorem layout_entries : ∀ e ∈ Language.grammar.rules.entries, ∀ α ∈ e.2,
    ∃ slots ∈ layout e.1, List.Forall₂ (· ∈ ·) (spelling α) slots := by decide +kernel

theorem exists_slots {n : Nonterminal} {α : Grammar.Production Nonterminal Token.Kind}
    (hα : α ∈ Language.grammar.alternatives n) :
    ∃ slots ∈ layout n, List.Forall₂ (· ∈ ·) (spelling α) slots := by
  obtain ⟨alternatives, hmem, hα⟩ := Grammar.mem_entries_of_mem_alternatives hα
  exact layout_entries _ hmem α hα

end Bistro.ParseTree
