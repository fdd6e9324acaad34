/-!
# Tokens

The words of the language.  A token has a kind, which is a terminal symbol of the grammar, the
text it was written with, and the line it stands on.

## Main definitions

* `Token.Kind` — the terminal symbols.  Their order of declaration is the order in which sets of
  terminals are listed.
* `Token.Kind.spelling` — the name of a terminal, which for keywords, operators and punctuation is
  also how it is written.
* `Token.Kind.keyword?` — the keyword that a word is, if it is one.
* `Token` — a word of a program.
-/

namespace Bistro

/-- The terminal symbols of the grammar. -/
inductive Token.Kind
  /-- The truth value "no". -/
  | bleh
  /-- The type of truth values. -/
  | bool
  /-- Opens an arm of a `flip`. -/
  | caseArm
  /-- Opens the entry point. -/
  | chef
  /-- Closes an arm of a `flip`. -/
  | chop
  /-- Opens the last arm of a `flip`. -/
  | defaultArm
  /-- Opens a program. -/
  | dinein
  /-- Names the entry point. -/
  | dish
  /-- Opens a further branch of a `taste`. -/
  | elif
  /-- Opens a choice by value. -/
  | flip
  /-- Opens a counting loop. -/
  | forLoop
  /-- Opens a function with a result. -/
  | full
  /-- Opens a function without a result. -/
  | hungry
  /-- Opens a loop that tests after its body. -/
  | keepmix
  /-- Reads input. -/
  | make
  /-- Opens the last branch of a `taste`. -/
  | mix
  /-- The type of texts. -/
  | pasta
  /-- The type of integers. -/
  | pinch
  /-- Opens the declaration of an array. -/
  | recipe
  /-- Writes output. -/
  | serve
  /-- Opens a loop that tests before its body. -/
  | simmer
  /-- The type of fractional numbers. -/
  | skim
  /-- Gives a result. -/
  | spit
  /-- Closes a program. -/
  | takeout
  /-- Opens a choice by condition. -/
  | taste
  /-- The truth value "yes". -/
  | yum
  -- the kinds whose tokens are written in more than one way
  | pinchLiteral
  | skimLiteral
  | pastaLiteral
  | ident
  -- the operators, and the punctuation behind them; `spelling` tells how they are written
  | plus
  | minus
  | star
  | slash
  | percent
  | equal
  | notEqual
  | less
  | lessEqual
  | greater
  | greaterEqual
  | both
  | either
  | bang
  | bangBang
  | assign
  | addAssign
  | subAssign
  | mulAssign
  | divAssign
  | modAssign
  | increment
  | decrement
  | leftParen
  | rightParen
  | leftBracket
  | rightBracket
  | leftBrace
  | rightBrace
  | comma
  | semicolon
  | colon
  deriving DecidableEq, Ord, Repr, Inhabited

namespace Token.Kind

/-- The name of a terminal, as grammar rules and messages show it. -/
def spelling : Kind → String
  | bleh => "bleh"
  | bool => "bool"
  | caseArm => "case"
  | chef => "chef"
  | chop => "chop"
  | defaultArm => "default"
  | dinein => "dinein"
  | dish => "dish"
  | elif => "elif"
  | flip => "flip"
  | forLoop => "for"
  | full => "full"
  | hungry => "hungry"
  | keepmix => "keepmix"
  | make => "make"
  | mix => "mix"
  | pasta => "pasta"
  | pinch => "pinch"
  | recipe => "recipe"
  | serve => "serve"
  | simmer => "simmer"
  | skim => "skim"
  | spit => "spit"
  | takeout => "takeout"
  | taste => "taste"
  | yum => "yum"
  | pinchLiteral => "pinchliterals"
  | skimLiteral => "skimliterals"
  | pastaLiteral => "pastaliterals"
  | ident => "id"
  | plus => "+"
  | minus => "-"
  | star => "*"
  | slash => "/"
  | percent => "%"
  | equal => "=="
  | notEqual => "!="
  | less => "<"
  | lessEqual => "<="
  | greater => ">"
  | greaterEqual => ">="
  | both => "&&"
  | either => "??"
  | bang => "!"
  | bangBang => "!!"
  | assign => "="
  | addAssign => "+="
  | subAssign => "-="
  | mulAssign => "*="
  | divAssign => "/="
  | modAssign => "%="
  | increment => "++"
  | decrement => "--"
  | leftParen => "("
  | rightParen => ")"
  | leftBracket => "["
  | rightBracket => "]"
  | leftBrace => "\x7b"
  | rightBrace => "\x7d"
  | comma => ","
  | semicolon => ";"
  | colon => ":"

instance : ToString Kind := ⟨spelling⟩

/-- The keywords, in order of declaration. -/
def keywords : List Kind :=
  [bleh, bool, caseArm, chef, chop, defaultArm, dinein, dish, elif, flip, forLoop, full, hungry,
    keepmix, make, mix, pasta, pinch, recipe, serve, simmer, skim, spit, takeout, taste, yum]

/-- The kinds whose tokens are written in more than one way. -/
def varied : List Kind := [pinchLiteral, skimLiteral, pastaLiteral, ident]

/-- The operators and the punctuation, in order of declaration. -/
def marks : List Kind :=
  [plus, minus, star, slash, percent, equal, notEqual, less, lessEqual, greater, greaterEqual,
    both, either, bang, bangBang, assign, addAssign, subAssign, mulAssign, divAssign, modAssign,
    increment, decrement, leftParen, rightParen, leftBracket, rightBracket, leftBrace, rightBrace,
    comma, semicolon, colon]

/-- All kinds, in order of declaration. -/
def all : List Kind := keywords ++ varied ++ marks

theorem mem_all (k : Kind) : k ∈ all := by cases k <;> decide

/-- The keyword that is written `word`. -/
def keyword? (word : String) : Option Kind := keywords.find? (·.spelling = word)

/-- The kind whose name is `name`. -/
def ofSpelling? (name : String) : Option Kind := all.find? (·.spelling = name)

end Token.Kind

/-- A word of a program. -/
structure Token where
  /-- How the word is written.  A text literal keeps its quotes, and its escapes are resolved; the
  sign of a number is a minus. -/
  lexeme : String
  /-- The terminal symbol that the word is. -/
  kind : Token.Kind
  /-- The line it begins on, counted from one. -/
  line : Nat
  deriving DecidableEq, Repr, Inhabited

end Bistro
