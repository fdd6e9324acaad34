import Bistro.ParseTree.Cursor
import Bistro.Program.Precedence

/-!
# Programs from parse trees

A parse tree of the grammar is turned into a program.  Every function reads the children of a node
from left to right and stops at the first that does not fit; the rows that the grammar spells with
tails become lists.

## Main definitions

* `ParseTree.literal`, `ParseTree.expression` — literals and expressions.
* `ParseTree.statements` — rows of statements.
* `ParseTree.declarationList`, `ParseTree.functions` — declarations and functions.
* `Program.ofTree` — the program of a tree.
-/

namespace Bistro.ParseTree

/-! ### Literals and operators -/

/-- The integer that a token spells. -/
def integer (t : ParseTree) : Except ShapeError Int :=
  match Number.readInteger? t.lexeme with
  | some n => .ok n
  | none => .error (.invalidLiteral t.lexeme t.line)

/-- A text without the quotes around it. -/
def unquote (text : String) : String :=
  match text.toList with
  | '"' :: rest => if rest.getLast? = some '"' then String.ofList rest.dropLast else text
  | _ => text

/-- A literal: one of its tokens, or a nonterminal over one. -/
def literal (t : ParseTree) : Except ShapeError Literal :=
  match t.tag with
  | .token .pinchLiteral => do return .pinch (← t.integer)
  | .token .skimLiteral =>
    match Decimal.read? t.lexeme with
    | some x => .ok (.skim x)
    | none => .error (.invalidLiteral t.lexeme t.line)
  | .token .pastaLiteral => .ok (.pasta (unquote t.lexeme))
  | .token .yum => .ok (.bool true)
  | .token .bleh => .ok (.bool false)
  | .nonterminal _ => do
    let child ← t.firstChild
    literal child.1
  | _ => .error (t.mismatch (.phrase "a literal"))
termination_by t.size
decreasing_by exact size_lt_of_mem child.2

/-- A declared type. -/
def dataType (t : ParseTree) : Except ShapeError DataType := do
  let leaf ← t.firstChild
  match leaf.1.token? with
  | some .pinch => return .pinch
  | some .skim => return .skim
  | some .pasta => return .pasta
  | some .bool => return .bool
  | _ => throw (leaf.1.mismatch (.phrase "a data type"))

/-- An assignment operator. -/
def assignOp (t : ParseTree) : Except ShapeError AssignOp := do
  let leaf ← t.firstChild
  match leaf.1.token? with
  | some .assign => return .assign
  | some .addAssign => return .add
  | some .subAssign => return .sub
  | some .mulAssign => return .mul
  | some .divAssign => return .div
  | some .modAssign => return .mod
  | _ => throw (leaf.1.mismatch (.node .assignmentOperator))

/-- A step operator. -/
def stepOp (t : ParseTree) : Except ShapeError StepOp := do
  let leaf ← t.firstChild
  match leaf.1.token? with
  | some .increment => return .increment
  | some .decrement => return .decrement
  | _ => throw (leaf.1.mismatch (.node .unaryOp))

/-- An operator with two operands. -/
def binaryOp (t : ParseTree) : Except ShapeError BinaryOp := do
  let leaf ← t.firstChild
  match leaf.1.token? with
  | some .plus => return .add
  | some .minus => return .sub
  | some .star => return .mul
  | some .slash => return .div
  | some .percent => return .mod
  | some .equal => return .equal
  | some .notEqual => return .notEqual
  | some .less => return .less
  | some .greater => return .greater
  | some .lessEqual => return .lessEqual
  | some .greaterEqual => return .greaterEqual
  | some .both => return .both
  | some .either => return .either
  | _ => throw (leaf.1.mismatch (.phrase "an operator"))

/-! ### Expressions -/

mutual
/-- An expression: an operand and a tail of operators and operands. -/
def expression (t : ParseTree) : Except ShapeError Expr := do
  let (head, c) ← t.cursor.skip
  let first ← operand head.1
  let (tail, _) ← c.skip
  let rest ← chain tail.1
  return .ofChain first rest
termination_by t.size
decreasing_by all_goals exact size_lt_of_mem (Subtype.property _)

/-- The operators and operands behind the first operand. -/
def chain (t : ParseTree) : Except ShapeError (List (BinaryOp × Expr)) :=
  if t.vanishes then return []
  else do
    let (head, c) ← t.cursor.skip
    let op ← binaryOp head.1
    let (right, c) ← c.skip
    let right ← operand right.1
    let (tail, _) ← c.skip
    let rest ← chain tail.1
    return (op, right) :: rest
termination_by t.size
decreasing_by all_goals exact size_lt_of_mem (Subtype.property _)

/-- An operand: a value, or an expression in parentheses with or without a negation before it. -/
def operand (t : ParseTree) : Except ShapeError Expr := do
  let (head, c) ← t.cursor.skip
  match head.1.tag with
  | .token .leftParen =>
    let (inner, _) ← c.skip
    expression inner.1
  | .token .bang =>
    let (_, c) ← c.token .leftParen
    let (inner, _) ← c.skip
    return .not (← expression inner.1) head.1.line
  | .token .bangBang =>
    let (_, c) ← c.token .leftParen
    let (inner, _) ← c.skip
    return .doubleNot (← expression inner.1) head.1.line
  | .nonterminal _ => atom head.1
  | _ => throw (head.1.mismatch (.phrase "an operand"))
termination_by t.size
decreasing_by all_goals exact size_lt_of_mem (Subtype.property _)

/-- A value: a literal, or a name with what follows it. -/
def atom (t : ParseTree) : Except ShapeError Expr := do
  let (head, c) ← t.cursor.skip
  if head.1.tag = .token .ident then
    let (tail, _) ← c.node .valueIdTail
    namedValue head.1.lexeme head.1.line tail.1
  else return .literal (← head.1.literal) head.1.line
termination_by t.size
decreasing_by all_goals exact size_lt_of_mem (Subtype.property _)

/-- What a name with the given tail stands for: a variable, a call or an element. -/
def namedValue (name : String) (line : Nat) (t : ParseTree) : Except ShapeError Expr :=
  if t.vanishes then return .var name line
  else if t.cursor.peek? = some (.token .leftParen) then do
    let (_, c) ← t.cursor.token .leftParen
    let (args, _) ← c.node .argumentList
    return .call name (← arguments args.1) line
  else do
    let (_, c) ← t.cursor.token .leftBracket
    let (index, _) ← c.token .pinchLiteral
    return .element name (← index.1.integer) line
termination_by t.size
decreasing_by all_goals exact size_lt_of_mem (Subtype.property _)

/-- The arguments of a call. -/
def arguments (t : ParseTree) : Except ShapeError (List Expr) :=
  if t.vanishes then return []
  else do
    let (first, c) ← t.cursor.node .arithmeticExp
    let first ← expression first.1
    let (tail, _) ← c.node .argumentTail
    let rest ← furtherArguments tail.1
    return first :: rest
termination_by t.size
decreasing_by all_goals exact size_lt_of_mem (Subtype.property _)

/-- The arguments behind the first. -/
def furtherArguments (t : ParseTree) : Except ShapeError (List Expr) :=
  if t.vanishes then return []
  else do
    let (_, c) ← t.cursor.token .comma
    let (first, c) ← c.node .arithmeticExp
    let first ← expression first.1
    let (tail, _) ← c.node .argumentTail
    let rest ← furtherArguments tail.1
    return first :: rest
termination_by t.size
decreasing_by all_goals exact size_lt_of_mem (Subtype.property _)
end

/-! ### Declarations -/

/-- The elements of an array behind the first. -/
def furtherElements (t : ParseTree) : Except ShapeError (List Literal) :=
  if t.vanishes then return []
  else do
    let (_, c) ← t.cursor.token .comma
    let (first, c) ← c.node .literals
    let first ← first.1.literal
    let (tail, _) ← c.node .elementTail
    let rest ← furtherElements tail.1
    return first :: rest
termination_by t.size
decreasing_by all_goals exact size_lt_of_mem (Subtype.property _)

/-- The elements of an array, if they are given. -/
def elements (t : ParseTree) : Except ShapeError (Option (List Literal)) :=
  if t.vanishes then return none
  else do
    let c ← t.cursor.tokens [.assign, .leftBrace]
    let (first, c) ← c.node .literals
    let first ← first.1.literal
    let (tail, _) ← c.node .elementTail
    let rest ← furtherElements tail.1
    return some (first :: rest)

/-- The first value of a variable, if it has one. -/
def initialValue {parent : ParseTree} (c : Cursor parent) :
    Except ShapeError (Option Literal × Cursor parent) :=
  if c.peek? = some (.token .assign) then do
    let (_, c) ← c.token .assign
    let (init, c) ← c.node .literals
    return (some (← init.1.literal), c)
  else return (none, c)

mutual
/-- The variables of a declaration from the given one on: its value, if it has one, and the rest. -/
def declarators (name : String) (line : Nat) (t : ParseTree) :
    Except ShapeError (List Declarator) := do
  let (init, c) ← initialValue t.cursor
  let (next, _) ← c.node .nextDecOrInit
  let rest ← furtherDeclarators next.1
  return ⟨name, init, line⟩ :: rest
termination_by t.size
decreasing_by all_goals exact size_lt_of_mem (Subtype.property _)

/-- The variables of a declaration behind a comma. -/
def furtherDeclarators (t : ParseTree) : Except ShapeError (List Declarator) :=
  if t.vanishes then return []
  else do
    let (_, c) ← t.cursor.token .comma
    let (name, c) ← c.token .ident
    let (next, _) ← c.node .decOrInit
    declarators name.1.lexeme name.1.line next.1
termination_by t.size
decreasing_by all_goals exact size_lt_of_mem (Subtype.property _)
end

/-- One declaration. -/
def declaration (t : ParseTree) : Except ShapeError Declaration :=
  if t.cursor.peek? = some (.token .recipe) then do
    let (_, c) ← t.cursor.token .recipe
    let (element, c) ← c.node .dataType2
    let element ← element.1.dataType
    let (name, c) ← c.token .ident
    let (_, c) ← c.token .leftBracket
    let (dimension, c) ← c.token .pinchLiteral
    let (_, c) ← c.token .rightBracket
    let (elements, _) ← c.node .elements
    let elements ← elements.1.elements
    return .array ⟨element, name.1.lexeme, dimension.1.lexeme, elements, name.1.line⟩
  else do
    let (type, c) ← t.cursor.node .dataType
    let type ← type.1.dataType
    let (name, c) ← c.token .ident
    let (next, _) ← c.node .decOrInit
    return .variables type (← declarators name.1.lexeme name.1.line next.1)

/-- A row of declarations, which is spelled with the nonterminal `row`. -/
def declarationList (row : Nonterminal) (t : ParseTree) : Except ShapeError (List Declaration) :=
  if t.vanishes then return []
  else do
    let (first, c) ← t.cursor.skip
    let first ← first.1.declaration
    let (tail, _) ← c.node row
    let rest ← declarationList row tail.1
    return first :: rest
termination_by t.size
decreasing_by all_goals exact size_lt_of_mem (Subtype.property _)

/-! ### Simple statements -/

/-- A statement that begins with a name, from its tail. -/
def nameStatement (name : String) (line : Nat) (t : ParseTree) : Except ShapeError Statement := do
  let (head, c) ← t.cursor.skip
  match head.1.tag with
  | .token .leftParen =>
    let (args, _) ← c.node .argumentList
    return .call name (← args.1.arguments) line
  | .nonterminal .assignmentOperator =>
    let op ← head.1.assignOp
    let (value, _) ← c.node .expression
    return .assign (.var name) op (← value.1.expression) line
  | .token .leftBracket =>
    let (index, c) ← c.token .pinchLiteral
    let index ← index.1.integer
    let (_, c) ← c.token .rightBracket
    let (op, c) ← c.node .assignmentOperator
    let op ← op.1.assignOp
    let (value, _) ← c.node .arithmeticExp
    return .assign (.element name index) op (← value.1.expression) line
  | .nonterminal .unaryOp => return .step name (← head.1.stepOp) line
  | _ => throw (head.1.mismatch (.node .statementIdTail))

/-- The parts of an output behind the first. -/
def furtherParts (t : ParseTree) : Except ShapeError (List Expr) :=
  if t.vanishes then return []
  else do
    let (_, c) ← t.cursor.token .plus
    let (first, c) ← c.node .value3
    let first ← first.1.atom
    let (tail, _) ← c.node .serveTail
    let rest ← furtherParts tail.1
    return first :: rest
termination_by t.size
decreasing_by all_goals exact size_lt_of_mem (Subtype.property _)

/-- The step of a counting loop: its variable and its direction. -/
def loopStep (t : ParseTree) : Except ShapeError (String × StepOp) :=
  if t.cursor.peek? = some (.token .ident) then do
    let (name, c) ← t.cursor.token .ident
    let (op, _) ← c.node .unaryOp
    return (name.1.lexeme, ← op.1.stepOp)
  else do
    let (op, c) ← t.cursor.node .unaryOp
    let op ← op.1.stepOp
    let (name, _) ← c.token .ident
    return (name.1.lexeme, op)

/-! ### Statements with blocks -/

section
variable {parent : ParseTree} (block : Child parent → Except ShapeError (List Statement))

/-- A condition in parentheses and a block in braces. -/
def branch (line : Nat) (c : Cursor parent) : Except ShapeError (Branch × Cursor parent) := do
  let (_, c) ← c.token .leftParen
  let (condition, c) ← c.node .condition
  let condition ← condition.1.expression
  let c ← c.tokens [.rightParen, .leftBrace]
  let (body, c) ← c.node .statementBlock
  let body ← block body
  let (_, c) ← c.token .rightBrace
  return (⟨condition, body, line⟩, c)

/-- An arm of a choice by value. -/
def caseArm (c : Cursor parent) : Except ShapeError (Case × Cursor parent) := do
  let (head, c) ← c.token .caseArm
  let (value, c) ← c.node .literals4
  let value ← value.1.literal
  let (_, c) ← c.token .colon
  let (body, c) ← c.node .statementBlock
  let body ← block body
  let c ← c.tokens [.chop, .semicolon]
  return (⟨value, body, head.1.line⟩, c)

end

mutual
/-- A row of statements. -/
def statements (t : ParseTree) : Except ShapeError (List Statement) :=
  if t.vanishes then return []
  else do
    let (first, c) ← t.cursor.node .statement
    let first ← statement first.1
    let (tail, _) ← c.node .statementBlock
    let rest ← statements tail.1
    return first :: rest
termination_by t.size
decreasing_by all_goals exact size_lt_of_mem (Subtype.property _)

/-- One statement. -/
def statement (t : ParseTree) : Except ShapeError Statement := do
  let (head, c) ← t.cursor.skip
  match head.1.tag with
  | .token .ident =>
    let (tail, _) ← c.node .statementIdTail
    nameStatement head.1.lexeme head.1.line tail.1
  | .nonterminal .unaryOp =>
    let op ← head.1.stepOp
    let (name, _) ← c.token .ident
    return .step name.1.lexeme op head.1.line
  | .nonterminal .conditionalStatement => choice head.1
  | .nonterminal .loopingStatement => loop head.1
  | .token .serve =>
    let (_, c) ← c.token .leftParen
    let (first, c) ← c.node .value3
    let first ← first.1.atom
    let (tail, _) ← c.node .serveTail
    let rest ← furtherParts tail.1
    return .serve (first :: rest) head.1.line
  | .token .make =>
    let (_, c) ← c.token .leftParen
    let (target, _) ← c.token .ident
    return .make target.1.lexeme head.1.line
  | _ => throw (head.1.mismatch (.phrase "a statement"))
termination_by t.size
decreasing_by all_goals exact size_lt_of_mem (Subtype.property _)

/-- A choice. -/
def choice (t : ParseTree) : Except ShapeError Statement := do
  let (head, c) ← t.cursor.skip
  match head.1.token? with
  | some .taste =>
    let (first, c) ← branch (fun body => statements body.1) head.1.line c
    let (tail, _) ← c.node .conditionalTail
    let (rest, otherwise) ← furtherBranches tail.1
    return .taste (first :: rest) otherwise head.1.line
  | some .flip =>
    let (_, c) ← c.token .leftParen
    let (subject, c) ← c.token .ident
    let c ← c.tokens [.rightParen, .leftBrace]
    let (first, c) ← caseArm (fun body => statements body.1) c
    let (tail, c) ← c.node .caseTail
    let rest ← furtherCases tail.1
    let (last, _) ← c.node .defaultBlock
    let otherwise ← defaultArm last.1
    return .flip subject.1.lexeme (first :: rest) otherwise head.1.line
  | _ => throw (head.1.mismatch (.phrase "taste or flip"))
termination_by t.size
decreasing_by all_goals exact size_lt_of_mem (Subtype.property _)

/-- The branches behind the first, and what is done if no condition holds. -/
def furtherBranches (t : ParseTree) :
    Except ShapeError (List Branch × Option (List Statement)) :=
  if t.vanishes then return ([], none)
  else do
    let (head, c) ← t.cursor.skip
    match head.1.token? with
    | some .elif =>
      let (first, c) ← branch (fun body => statements body.1) head.1.line c
      let (tail, _) ← c.node .conditionalTail
      let (rest, otherwise) ← furtherBranches tail.1
      return (first :: rest, otherwise)
    | some .mix =>
      let (_, c) ← c.token .leftBrace
      let (body, _) ← c.node .statementBlock
      return ([], some (← statements body.1))
    | _ => throw (head.1.mismatch (.phrase "elif or mix"))
termination_by t.size
decreasing_by all_goals exact size_lt_of_mem (Subtype.property _)

/-- The arms behind the first. -/
def furtherCases (t : ParseTree) : Except ShapeError (List Case) :=
  if t.vanishes then return []
  else do
    let (first, c) ← caseArm (fun body => statements body.1) t.cursor
    let (tail, _) ← c.node .caseTail
    let rest ← furtherCases tail.1
    return first :: rest
termination_by t.size
decreasing_by all_goals exact size_lt_of_mem (Subtype.property _)

/-- What is done if no arm has the value. -/
def defaultArm (t : ParseTree) : Except ShapeError (Option (List Statement)) :=
  if t.vanishes then return none
  else do
    let c ← t.cursor.tokens [.defaultArm, .colon]
    let (body, _) ← c.node .statementBlock
    return some (← statements body.1)
termination_by t.size
decreasing_by all_goals exact size_lt_of_mem (Subtype.property _)

/-- A loop. -/
def loop (t : ParseTree) : Except ShapeError Statement := do
  let (head, c) ← t.cursor.skip
  match head.1.token? with
  | some .forLoop =>
    let (_, c) ← c.token .leftParen
    let (declares, c) ← c.node .pinchOpt
    let (var, c) ← c.token .ident
    let (_, c) ← c.token .assign
    let (init, c) ← c.node .forInit
    let init ← init.1.atom
    let (_, c) ← c.token .semicolon
    let (condition, c) ← c.node .condition
    let condition ← condition.1.expression
    let (_, c) ← c.token .semicolon
    let (step, c) ← c.node .incDec
    let (stepVar, step) ← step.1.loopStep
    let c ← c.tokens [.rightParen, .leftBrace]
    let (body, _) ← c.node .statementBlock
    let body ← statements body.1
    return .forLoop (!declares.1.vanishes) var.1.lexeme init condition stepVar step body head.1.line
  | some .simmer =>
    let (_, c) ← c.token .leftParen
    let (condition, c) ← c.node .condition
    let condition ← condition.1.expression
    let c ← c.tokens [.rightParen, .leftBrace]
    let (body, _) ← c.node .statementBlock
    return .simmer condition (← statements body.1) head.1.line
  | some .keepmix =>
    let (_, c) ← c.token .leftBrace
    let (body, c) ← c.node .statementBlock
    let body ← statements body.1
    let c ← c.tokens [.rightBrace, .simmer, .leftParen]
    let (condition, _) ← c.node .condition
    return .keepmix body (← condition.1.expression) head.1.line
  | _ => throw (head.1.mismatch (.phrase "for, simmer or keepmix"))
termination_by t.size
decreasing_by all_goals exact size_lt_of_mem (Subtype.property _)
end

/-! ### Functions -/

/-- Passes over a comma, if there is one. -/
def skipComma {parent : ParseTree} (c : Cursor parent) : Except ShapeError (Cursor parent) :=
  if c.peek? = some (.token .comma) then c.tokens [.comma] else return c

/-- The parameters of a function from the first on, with or without a comma before them. -/
def parametersFrom (t : ParseTree) : Except ShapeError (List Parameter) := do
  let c ← skipComma t.cursor
  let (type, c) ← c.node .dataType
  let type ← type.1.dataType
  let (name, c) ← c.token .ident
  let (tail, _) ← c.node .paramTail
  if tail.1.vanishes then return [⟨type, name.1.lexeme, name.1.line⟩]
  else
    let rest ← parametersFrom tail.1
    return ⟨type, name.1.lexeme, name.1.line⟩ :: rest
termination_by t.size
decreasing_by all_goals exact size_lt_of_mem (Subtype.property _)

/-- The parameters of a function. -/
def parameters (t : ParseTree) : Except ShapeError (List Parameter) :=
  if t.vanishes then return [] else t.parametersFrom

/-- The type of the result of a function, if the word that opens the function says it has one. -/
def resultType {parent : ParseTree} (head : Child parent) (c : Cursor parent) :
    Except ShapeError (Option DataType × Cursor parent) :=
  match head.1.token? with
  | some .full => do
    let (type, c) ← c.node .dataType
    return (some (← type.1.dataType), c)
  | some .hungry => return (none, c)
  | _ => throw (head.1.mismatch (.phrase "full or hungry"))

/-- The expression that gives the result of a function, behind its statements, if it has one. -/
def resultExpr {parent : ParseTree} (returns : Option DataType) (c : Cursor parent) :
    Except ShapeError (Option Expr × Cursor parent) :=
  if returns.isSome then do
    let (_, c) ← c.token .spit
    let (result, c) ← c.node .expression
    let result ← result.1.expression
    let (_, c) ← c.token .semicolon
    return (some result, c)
  else return (none, c)

/-- The functions of a program. -/
def functions (t : ParseTree) : Except ShapeError (List Function) :=
  if t.vanishes then return []
  else do
    let (head, c) ← t.cursor.skip
    let (returns, c) ← resultType head c
    let (name, c) ← c.token .ident
    let (_, c) ← c.token .leftParen
    let (parameters, c) ← c.node .parameters
    let parameters ← parameters.1.parameters
    let c ← c.tokens [.rightParen, .leftBrace]
    let (locals, c) ← c.node .localDec
    let locals ← locals.1.declarationList .localDec
    let (body, c) ← c.node .statementBlock
    let body ← body.1.statements
    let (result, c) ← resultExpr returns c
    let (_, c) ← c.token .rightBrace
    let (tail, _) ← c.node .function
    let rest ← functions tail.1
    return ⟨name.1.lexeme, returns, parameters, locals, body, result, head.1.line⟩ :: rest
termination_by t.size
decreasing_by all_goals exact size_lt_of_mem (Subtype.property _)

end Bistro.ParseTree

namespace Bistro.Program

/-- The program of a parse tree. -/
def ofTree (t : ParseTree) : Except ShapeError Program := do
  if t.tag ≠ .nonterminal .program then throw (t.mismatch (.node .program))
  let (_, c) ← t.cursor.token .dinein
  let (globals, c) ← c.node .globalDec
  let globals ← globals.1.declarationList .globalDec
  let (functions, c) ← c.node .function
  let functions ← functions.1.functions
  let c ← c.tokens [.chef, .pinch, .dish, .leftParen, .rightParen, .leftBrace]
  let (locals, c) ← c.node .localDec
  let locals ← locals.1.declarationList .localDec
  let (body, c) ← c.node .statementBlock
  let body ← body.1.statements
  let (_, c) ← c.token .spit
  let (code, _) ← c.token .pinchLiteral
  let exitCode ← code.1.integer
  return ⟨globals, functions, locals, body, exitCode, code.1.line⟩

end Bistro.Program
