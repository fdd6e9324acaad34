import Bistro.Language.Nonterminal

/-!
# The grammar of the language

A program is a row of global declarations and functions followed by the entry point.  Operators
have no precedence here: an expression is a flat chain of operands and operators.

## Main definitions

* `Language.grammar` — the rules.
* `Language.tables` — the sets and the parse table derived from them.
-/

namespace Bistro.Language

private abbrev t (kind : Token.Kind) : Grammar.Symbol Nonterminal Token.Kind := .terminal kind

private abbrev n (n : Nonterminal) : Grammar.Symbol Nonterminal Token.Kind := .nonterminal n

/-- One alternative for each of a row of terminals. -/
private abbrev oneOf (kinds : List Token.Kind) : List (Grammar.Production Nonterminal Token.Kind) :=
  kinds.map fun kind => [t kind]

/-- The grammar of the language. -/
def grammar : Grammar Nonterminal Token.Kind :=
  Grammar.ofStart Nonterminal.program
    |>.rule .program
      [ [t .dinein, n .globalDec, n .function, t .chef, t .pinch, t .dish, t .leftParen,
          t .rightParen, t .leftBrace, n .localDec, n .statementBlock, t .spit, t .pinchLiteral,
          t .semicolon, t .rightBrace, t .takeout] ]
    |>.rule .globalDec [[n .declarations, n .globalDec], []]
    |>.rule .declarations
      [ [n .dataType, t .ident, n .decOrInit, t .semicolon],
        [t .recipe, n .dataType2, t .ident, t .leftBracket, t .pinchLiteral, t .rightBracket,
          n .elements, t .semicolon] ]
    |>.rule .dataType (oneOf [.pinch, .skim, .pasta, .bool])
    |>.rule .dataType2 (oneOf [.pinch, .skim, .pasta])
    |>.rule .decOrInit [[t .assign, n .literals, n .nextDecOrInit], [n .nextDecOrInit]]
    |>.rule .nextDecOrInit [[t .comma, t .ident, n .decOrInit], []]
    |>.rule .literals [[t .pinchLiteral], [t .skimLiteral], [t .pastaLiteral], [n .yumOrBleh]]
    |>.rule .literals2 (oneOf [.pinchLiteral, .skimLiteral, .pastaLiteral])
    |>.rule .literals3 [[t .pastaLiteral], [n .yumOrBleh]]
    |>.rule .yumOrBleh (oneOf [.yum, .bleh])
    |>.rule .elements [[t .assign, t .leftBrace, n .literals, n .elementTail, t .rightBrace], []]
    |>.rule .elementTail [[t .comma, n .literals, n .elementTail], []]
    |>.rule .function
      [ [t .full, n .dataType, t .ident, t .leftParen, n .parameters, t .rightParen, t .leftBrace,
          n .localDec, n .statementBlock, t .spit, n .expression, t .semicolon, t .rightBrace,
          n .function],
        [t .hungry, t .ident, t .leftParen, n .parameters, t .rightParen, t .leftBrace, n .localDec,
          n .statementBlock, t .rightBrace, n .function],
        [] ]
    |>.rule .parameters [[n .dataType, t .ident, n .paramTail], []]
    |>.rule .paramTail [[t .comma, n .dataType, t .ident, n .paramTail], []]
    |>.rule .localDec [[n .localDeclarations, n .localDec], []]
    |>.rule .localDeclarations
      [ [n .dataType, t .ident, n .decOrInit, t .semicolon],
        [t .recipe, n .dataType2, t .ident, t .leftBracket, t .pinchLiteral, t .rightBracket,
          n .elements, t .semicolon] ]
    |>.rule .statementBlock [[n .statement, n .statementBlock], []]
    |>.rule .statement
      [ [t .ident, n .statementIdTail],
        [n .unaryOp, t .ident, t .semicolon],
        [n .conditionalStatement],
        [n .loopingStatement],
        [t .serve, t .leftParen, n .value3, n .serveTail, t .rightParen, t .semicolon],
        [t .make, t .leftParen, t .ident, t .rightParen, t .semicolon] ]
    |>.rule .statementIdTail
      [ [t .leftParen, n .argumentList, t .rightParen, t .semicolon],
        [n .assignmentOperator, n .expression, t .semicolon],
        [t .leftBracket, t .pinchLiteral, t .rightBracket, n .assignmentOperator, n .arithmeticExp,
          t .semicolon],
        [n .unaryOp, t .semicolon] ]
    |>.rule .argumentList [[n .arithmeticExp, n .argumentTail], []]
    |>.rule .argumentTail [[t .comma, n .arithmeticExp, n .argumentTail], []]
    |>.rule .expression [[n .expressionOperand, n .expressionTail]]
    |>.rule .expressionTail [[n .expressionOperator, n .expressionOperand, n .expressionTail], []]
    |>.rule .expressionOperand
      [ [n .value],
        [t .leftParen, n .expression, t .rightParen],
        [t .bang, t .leftParen, n .expression, t .rightParen],
        [t .bangBang, t .leftParen, n .expression, t .rightParen] ]
    |>.rule .expressionOperator (oneOf
      [.plus, .minus, .star, .slash, .percent, .equal, .notEqual, .less, .greater, .lessEqual,
        .greaterEqual, .both, .either])
    |>.rule .arithmeticExp [[n .arithmeticOperand, n .arithmeticTail]]
    |>.rule .arithmeticTail [[n .arithmeticOperator, n .arithmeticOperand, n .arithmeticTail], []]
    |>.rule .arithmeticOperand [[n .value2], [t .leftParen, n .arithmeticExp, t .rightParen]]
    |>.rule .arithmeticOperator (oneOf [.plus, .minus, .star, .slash, .percent])
    |>.rule .value [[n .literals], [t .ident, n .valueIdTail]]
    |>.rule .valueIdTail
      [ [t .leftParen, n .argumentList, t .rightParen],
        [t .leftBracket, t .pinchLiteral, t .rightBracket],
        [] ]
    |>.rule .value2 [[n .literals2], [t .ident, n .valueIdTail]]
    |>.rule .value3 [[n .literals3], [t .ident, n .valueIdTail]]
    |>.rule .assignmentOperator (oneOf
      [.assign, .addAssign, .subAssign, .mulAssign, .divAssign, .modAssign])
    |>.rule .unaryOp (oneOf [.increment, .decrement])
    |>.rule .conditionalStatement
      [ [t .taste, t .leftParen, n .condition, t .rightParen, t .leftBrace, n .statementBlock,
          t .rightBrace, n .conditionalTail],
        [t .flip, t .leftParen, t .ident, t .rightParen, t .leftBrace, t .caseArm, n .literals4,
          t .colon, n .statementBlock, t .chop, t .semicolon, n .caseTail, n .defaultBlock,
          t .rightBrace] ]
    |>.rule .conditionalTail
      [ [t .elif, t .leftParen, n .condition, t .rightParen, t .leftBrace, n .statementBlock,
          t .rightBrace, n .conditionalTail],
        [t .mix, t .leftBrace, n .statementBlock, t .rightBrace],
        [] ]
    |>.rule .condition [[n .conditionOperand, n .conditionTail]]
    |>.rule .conditionTail [[n .conditionOperator, n .conditionOperand, n .conditionTail], []]
    |>.rule .conditionOperand
      [ [n .value],
        [t .leftParen, n .condition, t .rightParen],
        [t .bang, t .leftParen, n .condition, t .rightParen],
        [t .bangBang, t .leftParen, n .condition, t .rightParen] ]
    |>.rule .conditionOperator (oneOf
      [.equal, .notEqual, .less, .greater, .lessEqual, .greaterEqual, .both, .either])
    |>.rule .caseTail
      [ [t .caseArm, n .literals4, t .colon, n .statementBlock, t .chop, t .semicolon, n .caseTail],
        [] ]
    |>.rule .literals4 (oneOf [.pinchLiteral, .pastaLiteral])
    |>.rule .defaultBlock [[t .defaultArm, t .colon, n .statementBlock, t .chop, t .semicolon], []]
    |>.rule .loopingStatement
      [ [t .forLoop, t .leftParen, n .pinchOpt, t .ident, t .assign, n .forInit, t .semicolon,
          n .condition, t .semicolon, n .incDec, t .rightParen, t .leftBrace, n .statementBlock,
          t .rightBrace],
        [t .simmer, t .leftParen, n .condition, t .rightParen, t .leftBrace, n .statementBlock,
          t .rightBrace],
        [t .keepmix, t .leftBrace, n .statementBlock, t .rightBrace, t .simmer, t .leftParen,
          n .condition, t .rightParen] ]
    |>.rule .pinchOpt [[t .pinch], []]
    |>.rule .forInit [[t .pinchLiteral], [t .ident, n .valueIdTail]]
    |>.rule .incDec [[t .ident, n .unaryOp], [n .unaryOp, t .ident]]
    |>.rule .serveTail [[t .plus, n .value3, n .serveTail], []]

/-- The sets and the parse table of the grammar, or the conflict that keeps it from having one. -/
def tables :
    Except (Grammar.Conflict Nonterminal Token.Kind) (Grammar.Tables Nonterminal Token.Kind) :=
  Grammar.Tables.ofGrammar grammar

end Bistro.Language
