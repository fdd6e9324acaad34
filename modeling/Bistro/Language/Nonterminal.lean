import Bistro.Grammar.Table
import Bistro.Token

/-!
# The nonterminals of the language

One constructor for each syntactic class, and the names under which the grammar and the messages
show them.
-/

namespace Bistro

/-- The nonterminals of the grammar of the language.  A `Tail` is what may stand behind the first
part of a construct: the further members of a row, or the operators and operands of an
expression. -/
inductive Nonterminal
  | program
  | globalDec
  | declarations
  | dataType
  /-- The type of the elements of an array. -/
  | dataType2
  /-- The optional initial value of a variable, and the variables behind it. -/
  | decOrInit
  /-- The further variables of a declaration. -/
  | nextDecOrInit
  /-- Any literal. -/
  | literals
  /-- A literal without truth values. -/
  | literals2
  /-- A text or a truth value. -/
  | literals3
  /-- A truth value. -/
  | yumOrBleh
  /-- The optional elements of an array. -/
  | elements
  | elementTail
  | function
  | parameters
  | paramTail
  | localDec
  | localDeclarations
  | statementBlock
  | statement
  /-- A statement behind the name it begins with. -/
  | statementIdTail
  | argumentList
  | argumentTail
  | expression
  | expressionTail
  | expressionOperand
  | expressionOperator
  | arithmeticExp
  | arithmeticTail
  | arithmeticOperand
  | arithmeticOperator
  /-- A literal or a named value. -/
  | value
  /-- A call, an index or nothing behind a name. -/
  | valueIdTail
  /-- A literal without truth values, or a named value. -/
  | value2
  /-- A text, a truth value or a named value. -/
  | value3
  | assignmentOperator
  /-- A step operator. -/
  | unaryOp
  /-- A choice. -/
  | conditionalStatement
  /-- The further branches of a choice by condition. -/
  | conditionalTail
  | condition
  | conditionTail
  | conditionOperand
  | conditionOperator
  | caseTail
  /-- The literal of an arm. -/
  | literals4
  | defaultBlock
  | loopingStatement
  /-- Whether a counting loop declares its variable. -/
  | pinchOpt
  /-- The first value of a counting loop. -/
  | forInit
  /-- The step of a counting loop. -/
  | incDec
  | serveTail
  deriving DecidableEq, Repr, Inhabited

namespace Nonterminal

/-- The name of a nonterminal. -/
def name : Nonterminal → String
  | program => "program"
  | globalDec => "global_dec"
  | declarations => "declarations"
  | dataType => "data_type"
  | dataType2 => "data_type2"
  | decOrInit => "dec_or_init"
  | nextDecOrInit => "next_dec_or_init"
  | literals => "literals"
  | literals2 => "literals2"
  | literals3 => "literals3"
  | yumOrBleh => "yum_or_bleh"
  | elements => "elements"
  | elementTail => "elementtail"
  | function => "function"
  | parameters => "parameters"
  | paramTail => "param_tail"
  | localDec => "local_dec"
  | localDeclarations => "local_declarations"
  | statementBlock => "statement_block"
  | statement => "statement"
  | statementIdTail => "statement_id_tail"
  | argumentList => "argument_list"
  | argumentTail => "argument_tail"
  | expression => "expression"
  | expressionTail => "expression_tail"
  | expressionOperand => "expression_operand"
  | expressionOperator => "expression_operator"
  | arithmeticExp => "arithmetic_exp"
  | arithmeticTail => "arithmetic_tail"
  | arithmeticOperand => "arithmetic_operand"
  | arithmeticOperator => "arithmetic_operator"
  | value => "value"
  | valueIdTail => "value_id_tail"
  | value2 => "value2"
  | value3 => "value3"
  | assignmentOperator => "assignment_operator"
  | unaryOp => "unary_op"
  | conditionalStatement => "conditional_statement"
  | conditionalTail => "conditional_tail"
  | condition => "condition"
  | conditionTail => "condition_tail"
  | conditionOperand => "condition_operand"
  | conditionOperator => "condition_operator"
  | caseTail => "case_tail"
  | literals4 => "literals4"
  | defaultBlock => "default_block"
  | loopingStatement => "looping_statement"
  | pinchOpt => "pinch_opt"
  | forInit => "for_init"
  | incDec => "inc_dec"
  | serveTail => "serve_tail"

/-- How a nonterminal is written in rules and messages. -/
def render (n : Nonterminal) : String := "<" ++ n.name ++ ">"

instance : ToString Nonterminal := ⟨render⟩

end Nonterminal

end Bistro
