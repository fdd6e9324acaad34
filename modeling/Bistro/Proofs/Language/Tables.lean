import Bistro.Proofs.Grammar.Rounds
import Bistro.Proofs.Parse.Descent
import Mathlib.Tactic.MkIffOfInductiveProp

/-!
# The tables of the language

The FIRST and FOLLOW sets of the language are written down here as they come out.  One round leads
to the FIRST sets and two lead to the FOLLOW sets, and one round more changes neither, so they are
the sets that are computed.  With the sets at hand it is checked, production by production, that
they fit together and that no production begins with what it is a production of.

## Main definitions

* `Language.firsts`, `Language.follows` — the sets.
* `Language.effort` — how many moves a nonterminal costs at one lookahead.
* `Language.writtenTables` — the tables with these sets.

## Main results

* `Language.firstSets_eq`, `Language.followSets_eq` — the sets are those that are computed.
* `Language.exists_tables` — **the grammar has no conflict**, and its tables are coherent and paced.
-/

namespace Bistro

namespace Language

/-! ### The sets -/

/-- The FIRST sets of the language. -/
def firsts : Grammar.FirstSets Nonterminal Token.Kind := ⟨
  [ (.program, ⟨[.dinein], false⟩),
    (.globalDec, ⟨[.bool, .pasta, .pinch, .recipe, .skim], true⟩),
    (.declarations, ⟨[.bool, .pasta, .pinch, .recipe, .skim], false⟩),
    (.dataType, ⟨[.bool, .pasta, .pinch, .skim], false⟩),
    (.dataType2, ⟨[.pasta, .pinch, .skim], false⟩),
    (.decOrInit, ⟨[.assign, .comma], true⟩),
    (.nextDecOrInit, ⟨[.comma], true⟩),
    (.literals, ⟨[.bleh, .yum, .pinchLiteral, .skimLiteral, .pastaLiteral], false⟩),
    (.literals2, ⟨[.pinchLiteral, .skimLiteral, .pastaLiteral], false⟩),
    (.literals3, ⟨[.bleh, .yum, .pastaLiteral], false⟩),
    (.yumOrBleh, ⟨[.bleh, .yum], false⟩),
    (.elements, ⟨[.assign], true⟩),
    (.elementTail, ⟨[.comma], true⟩),
    (.function, ⟨[.full, .hungry], true⟩),
    (.parameters, ⟨[.bool, .pasta, .pinch, .skim], true⟩),
    (.paramTail, ⟨[.comma], true⟩),
    (.localDec, ⟨[.bool, .pasta, .pinch, .recipe, .skim], true⟩),
    (.localDeclarations, ⟨[.bool, .pasta, .pinch, .recipe, .skim], false⟩),
    (.statementBlock, ⟨[.flip, .forLoop, .keepmix, .make, .serve, .simmer, .taste, .ident,
        .increment, .decrement], true⟩),
    (.statement, ⟨[.flip, .forLoop, .keepmix, .make, .serve, .simmer, .taste, .ident, .increment,
        .decrement], false⟩),
    (.statementIdTail, ⟨[.assign, .addAssign, .subAssign, .mulAssign, .divAssign, .modAssign,
        .increment, .decrement, .leftParen, .leftBracket], false⟩),
    (.argumentList, ⟨[.pinchLiteral, .skimLiteral, .pastaLiteral, .ident, .leftParen], true⟩),
    (.argumentTail, ⟨[.comma], true⟩),
    (.expression, ⟨[.bleh, .yum, .pinchLiteral, .skimLiteral, .pastaLiteral, .ident, .bang,
        .bangBang, .leftParen], false⟩),
    (.expressionTail, ⟨[.plus, .minus, .star, .slash, .percent, .equal, .notEqual, .less,
        .lessEqual, .greater, .greaterEqual, .both, .either], true⟩),
    (.expressionOperand, ⟨[.bleh, .yum, .pinchLiteral, .skimLiteral, .pastaLiteral, .ident, .bang,
        .bangBang, .leftParen], false⟩),
    (.expressionOperator, ⟨[.plus, .minus, .star, .slash, .percent, .equal, .notEqual, .less,
        .lessEqual, .greater, .greaterEqual, .both, .either], false⟩),
    (.arithmeticExp, ⟨[.pinchLiteral, .skimLiteral, .pastaLiteral, .ident, .leftParen], false⟩),
    (.arithmeticTail, ⟨[.plus, .minus, .star, .slash, .percent], true⟩),
    (.arithmeticOperand, ⟨[.pinchLiteral, .skimLiteral, .pastaLiteral, .ident, .leftParen
        ], false⟩),
    (.arithmeticOperator, ⟨[.plus, .minus, .star, .slash, .percent], false⟩),
    (.value, ⟨[.bleh, .yum, .pinchLiteral, .skimLiteral, .pastaLiteral, .ident], false⟩),
    (.valueIdTail, ⟨[.leftParen, .leftBracket], true⟩),
    (.value2, ⟨[.pinchLiteral, .skimLiteral, .pastaLiteral, .ident], false⟩),
    (.value3, ⟨[.bleh, .yum, .pastaLiteral, .ident], false⟩),
    (.assignmentOperator, ⟨[.assign, .addAssign, .subAssign, .mulAssign, .divAssign, .modAssign
        ], false⟩),
    (.unaryOp, ⟨[.increment, .decrement], false⟩),
    (.conditionalStatement, ⟨[.flip, .taste], false⟩),
    (.conditionalTail, ⟨[.elif, .mix], true⟩),
    (.condition, ⟨[.bleh, .yum, .pinchLiteral, .skimLiteral, .pastaLiteral, .ident, .bang,
        .bangBang, .leftParen], false⟩),
    (.conditionTail, ⟨[.equal, .notEqual, .less, .lessEqual, .greater, .greaterEqual, .both,
        .either], true⟩),
    (.conditionOperand, ⟨[.bleh, .yum, .pinchLiteral, .skimLiteral, .pastaLiteral, .ident, .bang,
        .bangBang, .leftParen], false⟩),
    (.conditionOperator, ⟨[.equal, .notEqual, .less, .lessEqual, .greater, .greaterEqual, .both,
        .either], false⟩),
    (.caseTail, ⟨[.caseArm], true⟩),
    (.literals4, ⟨[.pinchLiteral, .pastaLiteral], false⟩),
    (.defaultBlock, ⟨[.defaultArm], true⟩),
    (.loopingStatement, ⟨[.forLoop, .keepmix, .simmer], false⟩),
    (.pinchOpt, ⟨[.pinch], true⟩),
    (.forInit, ⟨[.pinchLiteral, .ident], false⟩),
    (.incDec, ⟨[.ident, .increment, .decrement], false⟩),
    (.serveTail, ⟨[.plus], true⟩) ]⟩

/-- Some terminals as lookaheads. -/
private abbrev tokens (kinds : List Token.Kind) : List (Grammar.Lookahead Token.Kind) :=
  kinds.map .token

/-- The FOLLOW sets of the language. -/
def follows : Grammar.FollowSets Nonterminal Token.Kind := ⟨
  [ (.program, [.atEnd]),
    (.globalDec, tokens [.chef, .full, .hungry]),
    (.declarations, tokens [.bool, .chef, .full, .hungry, .pasta, .pinch, .recipe, .skim]),
    (.dataType, tokens [.ident]),
    (.dataType2, tokens [.ident]),
    (.decOrInit, tokens [.semicolon]),
    (.nextDecOrInit, tokens [.semicolon]),
    (.literals, tokens [.plus, .minus, .star, .slash, .percent, .equal, .notEqual, .less,
        .lessEqual, .greater, .greaterEqual, .both, .either, .rightParen, .rightBrace, .comma,
        .semicolon]),
    (.literals2, tokens [.plus, .minus, .star, .slash, .percent, .rightParen, .comma, .semicolon]),
    (.literals3, tokens [.plus, .rightParen]),
    (.yumOrBleh, tokens [.plus, .minus, .star, .slash, .percent, .equal, .notEqual, .less,
        .lessEqual, .greater, .greaterEqual, .both, .either, .rightParen, .rightBrace, .comma,
        .semicolon]),
    (.elements, tokens [.semicolon]),
    (.elementTail, tokens [.rightBrace]),
    (.function, tokens [.chef]),
    (.parameters, tokens [.rightParen]),
    (.paramTail, tokens [.rightParen]),
    (.localDec, tokens [.flip, .forLoop, .keepmix, .make, .serve, .simmer, .spit, .taste, .ident,
        .increment, .decrement, .rightBrace]),
    (.localDeclarations, tokens [.bool, .flip, .forLoop, .keepmix, .make, .pasta, .pinch, .recipe,
        .serve, .simmer, .skim, .spit, .taste, .ident, .increment, .decrement, .rightBrace]),
    (.statementBlock, tokens [.chop, .spit, .rightBrace]),
    (.statement, tokens [.chop, .flip, .forLoop, .keepmix, .make, .serve, .simmer, .spit, .taste,
        .ident, .increment, .decrement, .rightBrace]),
    (.statementIdTail, tokens [.chop, .flip, .forLoop, .keepmix, .make, .serve, .simmer, .spit,
        .taste, .ident, .increment, .decrement, .rightBrace]),
    (.argumentList, tokens [.rightParen]),
    (.argumentTail, tokens [.rightParen]),
    (.expression, tokens [.rightParen, .semicolon]),
    (.expressionTail, tokens [.rightParen, .semicolon]),
    (.expressionOperand, tokens [.plus, .minus, .star, .slash, .percent, .equal, .notEqual, .less,
        .lessEqual, .greater, .greaterEqual, .both, .either, .rightParen, .semicolon]),
    (.expressionOperator, tokens [.bleh, .yum, .pinchLiteral, .skimLiteral, .pastaLiteral, .ident,
        .bang, .bangBang, .leftParen]),
    (.arithmeticExp, tokens [.rightParen, .comma, .semicolon]),
    (.arithmeticTail, tokens [.rightParen, .comma, .semicolon]),
    (.arithmeticOperand, tokens [.plus, .minus, .star, .slash, .percent, .rightParen, .comma,
        .semicolon]),
    (.arithmeticOperator, tokens [.pinchLiteral, .skimLiteral, .pastaLiteral, .ident, .leftParen]),
    (.value, tokens [.plus, .minus, .star, .slash, .percent, .equal, .notEqual, .less, .lessEqual,
        .greater, .greaterEqual, .both, .either, .rightParen, .semicolon]),
    (.valueIdTail, tokens [.plus, .minus, .star, .slash, .percent, .equal, .notEqual, .less,
        .lessEqual, .greater, .greaterEqual, .both, .either, .rightParen, .comma, .semicolon]),
    (.value2, tokens [.plus, .minus, .star, .slash, .percent, .rightParen, .comma, .semicolon]),
    (.value3, tokens [.plus, .rightParen]),
    (.assignmentOperator, tokens [.bleh, .yum, .pinchLiteral, .skimLiteral, .pastaLiteral, .ident,
        .bang, .bangBang, .leftParen]),
    (.unaryOp, tokens [.ident, .rightParen, .semicolon]),
    (.conditionalStatement, tokens [.chop, .flip, .forLoop, .keepmix, .make, .serve, .simmer,
        .spit, .taste, .ident, .increment, .decrement, .rightBrace]),
    (.conditionalTail, tokens [.chop, .flip, .forLoop, .keepmix, .make, .serve, .simmer, .spit,
        .taste, .ident, .increment, .decrement, .rightBrace]),
    (.condition, tokens [.rightParen, .semicolon]),
    (.conditionTail, tokens [.rightParen, .semicolon]),
    (.conditionOperand, tokens [.equal, .notEqual, .less, .lessEqual, .greater, .greaterEqual,
        .both, .either, .rightParen, .semicolon]),
    (.conditionOperator, tokens [.bleh, .yum, .pinchLiteral, .skimLiteral, .pastaLiteral, .ident,
        .bang, .bangBang, .leftParen]),
    (.caseTail, tokens [.defaultArm, .rightBrace]),
    (.literals4, tokens [.colon]),
    (.defaultBlock, tokens [.rightBrace]),
    (.loopingStatement, tokens [.chop, .flip, .forLoop, .keepmix, .make, .serve, .simmer, .spit,
        .taste, .ident, .increment, .decrement, .rightBrace]),
    (.pinchOpt, tokens [.ident]),
    (.forInit, tokens [.semicolon]),
    (.incDec, tokens [.rightParen]),
    (.serveTail, tokens [.rightParen]) ]⟩

/-- The FOLLOW sets before the first round: the end of the input stands behind a program. -/
def followSeeds : Grammar.FollowSets Nonterminal Token.Kind :=
  let seeds : Grammar.FollowSets Nonterminal Token.Kind := ⟨grammar.heads.map (·, [])⟩
  seeds.set grammar.start (SortedList.insert .atEnd (seeds.getD grammar.start []))

/-! ### Efforts -/

/-- How many moves a nonterminal costs at one lookahead, until it vanishes or until a terminal is on
top.  Every nonterminal that it can begin with costs two moves less. -/
def effort : Nonterminal → Nat
  | .expression | .argumentList | .condition => 9
  | .expressionOperand | .arithmeticExp | .conditionOperand => 7
  | .globalDec | .localDec | .statementBlock | .value | .arithmeticOperand | .value3 => 5
  | .literals | .literals3 | .decOrInit | .declarations | .localDeclarations | .parameters
  | .statement | .statementIdTail | .expressionTail | .value2 | .arithmeticTail | .conditionTail
  | .incDec => 3
  | _ => 1

theorem effort_pos (n : Nonterminal) : 1 ≤ effort n := by cases n <;> decide

theorem effort_le (n : Nonterminal) : effort n ≤ 9 := by cases n <;> decide

/-! ### Checks -/

/-- What is checked of the grammar and its sets: what rounds lead to, that the table has no
conflict, that the sets fit together, and that no production begins with what it is a production
of. -/
@[mk_iff]
structure Checked : Prop where
  /-- One round more does not change the FIRST sets. -/
  firstRound_firsts : grammar.firstRound firsts = firsts
  /-- One round leads to the FIRST sets. -/
  firstRound_seeds : grammar.firstRound ⟨grammar.heads.map (·, Grammar.First.none)⟩ = firsts
  /-- One round more does not change the FOLLOW sets. -/
  followRound_follows : grammar.followRound firsts follows = follows
  /-- Two rounds lead to the FOLLOW sets. -/
  followRound_seeds : (grammar.followRound firsts)^[2] followSeeds = follows
  /-- The table has no conflict. -/
  isOk_table : (Grammar.Table.ofPredictions (grammar.predictions firsts follows)).isOk = true
  /-- Every nonterminal has one entry. -/
  nodup_keys : grammar.rules.keys.Nodup
  /-- The sets fit together. -/
  coherentSets : Grammar.coherentSets grammar firsts follows = true
  /-- What a production begins with costs less than what it is a production of. -/
  paces : ∀ e ∈ grammar.rules.entries, ∀ α ∈ e.2,
    Grammar.paces firsts effort (effort e.1) 0 α = true ∧ α.length ≤ 16
  /-- No alternative stands twice. -/
  nodup_entries : ∀ e ∈ grammar.rules.entries, e.2.Nodup

-- the kernel runs all checks at once, the elaborator only has to write them down
set_option maxRecDepth 10000 in
theorem checked : Checked := checked_iff.2 (by decide +kernel)

theorem firstSets_eq : grammar.firstSets = firsts := by
  have hrounds : 1 ≤ grammar.firstRounds := by
    unfold Grammar.firstRounds
    omega
  exact Grammar.stabilize_eq checked.firstRound_firsts hrounds checked.firstRound_seeds

theorem followSets_eq : grammar.followSets grammar.start firsts = follows := by
  have hrounds : 2 ≤ grammar.followRounds := by
    unfold Grammar.followRounds
    omega
  have h := Grammar.stabilize_eq checked.followRound_follows hrounds checked.followRound_seeds
  unfold followSeeds at h
  unfold Grammar.followSets
  exact h

/-- No alternative of a nonterminal stands twice. -/
theorem nodup_alternatives (n : Nonterminal) : (grammar.alternatives n).Nodup := by
  unfold Grammar.alternatives Dictionary.getD
  cases hn : grammar.rules.get? n with
  | none => exact List.nodup_nil
  | some alternatives => exact checked.nodup_entries _ (Dictionary.mem_of_find hn)

/-- **The grammar has no conflict, and its tables are coherent and paced.** -/
theorem exists_tables : ∃ t, tables = .ok t ∧ t.grammar = grammar ∧ t.Paced effort 9 16 := by
  obtain ⟨t, ht⟩ := Grammar.Tables.exists_ofGrammar firstSets_eq followSets_eq checked.isOk_table
  obtain ⟨hgrammar, hfirst, hfollow, -⟩ := Grammar.Tables.ofGrammar_ok ht
  rw [firstSets_eq] at hfirst hfollow
  rw [followSets_eq] at hfollow
  have hcoherent : t.Coherent := by
    refine Grammar.Tables.Coherent.of_check ht checked.nodup_keys ?_
    rw [hfirst, hfollow]
    exact checked.coherentSets
  have hpaces : ∀ n, ∀ α ∈ t.grammar.alternatives n,
      Grammar.paces t.first effort (effort n) 0 α = true ∧ α.length ≤ 16 := by
    intro n α hα
    rw [hgrammar] at hα
    obtain ⟨alternatives, hn, hα⟩ := Grammar.mem_entries_of_mem_alternatives hα
    rw [hfirst]
    exact checked.paces _ hn α hα
  exact ⟨t, ht, hgrammar, hcoherent, effort_pos, effort_le, fun n α hα => (hpaces n α hα).1,
    fun n α hα => (hpaces n α hα).2⟩

/-- The tables with the sets above, which are evaluated without deriving the sets again. -/
def writtenTables :
    Except (Grammar.Conflict Nonterminal Token.Kind) (Grammar.Tables Nonterminal Token.Kind) := do
  let predictions := grammar.predictions firsts follows
  return ⟨grammar, firsts, follows, predictions, ← Grammar.Table.ofPredictions predictions⟩

theorem mem_writtenTables {t : Grammar.Tables Nonterminal Token.Kind} (h : tables = .ok t) :
    t ∈ writtenTables.toOption := by
  have heq : writtenTables = tables := by
    unfold tables Grammar.Tables.ofGrammar writtenTables
    dsimp only
    rw [firstSets_eq, followSets_eq]
  rw [heq, h]
  rfl

end Language

end Bistro
