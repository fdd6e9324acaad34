import Bistro.Program.OfTree

/-!
# How programs are written

A row of tokens is a way to write a program: each construct is written with tokens of its own, in
the order of its parts, and it has the line of one of them.  Only two things can be written in more
than one way: an expression may be put in parentheses, and a step may stand before its variable or
behind it.

The marks of a construct are its keywords, its operators and its punctuation.  Only their kinds
matter; names, literals and the words that give a construct its line are told apart from them.

## Main definitions

* `Marks` — tokens of given kinds.
* `Rowed`, `Trailed`, `Listed`, `Optionally` — how lists and optional parts are written.
* `Expr.Written`, `Statement.Written`, `Declaration.Written`, `Function.Written` — how these are
  written.
* `Program.Written` — how programs are written.

## Main results

* `Expr.written_ofChain` — the tree of a chain is written as the chain is.
-/

namespace Bistro

/-! ### Tokens -/

/-- The literal that a token spells. -/
def Token.literal? (t : Token) : Option Literal :=
  match t.kind with
  | .pinchLiteral => (Number.readInteger? t.lexeme).map .pinch
  | .skimLiteral => (Decimal.read? t.lexeme).map .skim
  | .pastaLiteral => some (.pasta (ParseTree.unquote t.lexeme))
  | .yum => some (.bool true)
  | .bleh => some (.bool false)
  | _ => none

/-- The keyword for a type. -/
def DataType.kind : DataType → Token.Kind
  | pinch => .pinch
  | skim => .skim
  | pasta => .pasta
  | bool => .bool

/-- The mark for an operator. -/
def BinaryOp.kind : BinaryOp → Token.Kind
  | add => .plus
  | sub => .minus
  | mul => .star
  | div => .slash
  | mod => .percent
  | equal => .equal
  | notEqual => .notEqual
  | less => .less
  | greater => .greater
  | lessEqual => .lessEqual
  | greaterEqual => .greaterEqual
  | both => .both
  | either => .either

/-- The mark for an assignment operator. -/
def AssignOp.kind : AssignOp → Token.Kind
  | assign => .assign
  | add => .addAssign
  | sub => .subAssign
  | mul => .mulAssign
  | div => .divAssign
  | mod => .modAssign

/-- The mark for a step. -/
def StepOp.kind : StepOp → Token.Kind
  | increment => .increment
  | decrement => .decrement

/-- A row of tokens of the given kinds. -/
def Marks (kinds : List Token.Kind) (ts : List Token) : Prop := ts.map Token.kind = kinds

theorem Marks.exists_eq {kind : Token.Kind} {ts : List Token} (h : Marks [kind] ts) :
    ∃ t, ts = [t] ∧ t.kind = kind :=
  List.map_eq_singleton_iff.1 h

theorem Marks.singleton {kind : Token.Kind} {t : Token} (h : t.kind = kind) : Marks [kind] [t] :=
  List.map_eq_singleton_iff.2 ⟨t, rfl, h⟩

/-! ### Lists and optional parts -/

section
variable {α : Type} (item : α → List Token → Prop) (separator : Token.Kind)
  (opening closing : List Token.Kind)

/-- Items are written one after the other. -/
inductive Rowed : List α → List Token → Prop
  | nil : Rowed [] []
  | cons {a : α} {as : List α} {ts us : List Token} (first : item a ts) (rest : Rowed as us) :
      Rowed (a :: as) (ts ++ us)

/-- Items are written one after the other, each with a separator before it. -/
inductive Trailed : List α → List Token → Prop
  | nil : Trailed [] []
  | cons {a : α} {as : List α} {mark ts us : List Token} (separates : Marks [separator] mark)
      (first : item a ts) (rest : Trailed as us) : Trailed (a :: as) (mark ++ (ts ++ us))

/-- Items are written with separators between them. -/
inductive Listed : List α → List Token → Prop
  | nil : Listed [] []
  | cons {a : α} {as : List α} {ts us : List Token} (first : item a ts)
      (rest : Trailed item separator as us) : Listed (a :: as) (ts ++ us)

/-- What may be missing is written between marks. -/
inductive Optionally : Option α → List Token → Prop
  | none : Optionally none []
  | some {a : α} {left ts right : List Token} (opens : Marks opening left) (inner : item a ts)
      (closes : Marks closing right) : Optionally (some a) (left ++ (ts ++ right))

variable {item separator}

/-- A list with a separator before it. -/
theorem Listed.trailed {as : List α} {mark ts : List Token} (h : Listed item separator as ts)
    (hne : as ≠ []) (hmark : Marks [separator] mark) :
    Trailed item separator as (mark ++ ts) := by
  cases h with
  | nil => exact absurd rfl hne
  | cons first rest => exact .cons hmark first rest

end

/-! ### Expressions -/

/-- A literal is written as one token. -/
inductive Literal.Written (v : Literal) : List Token → Prop
  | token {t : Token} (spells : t.literal? = some v) : Written v [t]

/-- How an expression is written.  The line of an operation is that of its left operand. -/
inductive Expr.Written : Expr → List Token → Prop
  | literal {t : Token} {v : Literal} (spells : t.literal? = some v) :
      Written (.literal v t.line) [t]
  | var {name : Token} (named : name.kind = .ident) : Written (.var name.lexeme name.line) [name]
  | element {name : Token} {index : Int} {left ts right : List Token} (named : name.kind = .ident)
      (opens : Marks [.leftBracket] left) (indexed : Literal.Written (.pinch index) ts)
      (closes : Marks [.rightBracket] right) :
      Written (.element name.lexeme index name.line) (name :: (left ++ (ts ++ right)))
  | call {name : Token} {args : List Expr} {left ts right : List Token}
      (named : name.kind = .ident) (opens : Marks [.leftParen] left)
      (args_written : Listed Written .comma args ts) (closes : Marks [.rightParen] right) :
      Written (.call name.lexeme args name.line) (name :: (left ++ (ts ++ right)))
  | binary {op : BinaryOp} {left right : Expr} {ts mark us : List Token}
      (left_written : Written left ts) (operates : Marks [op.kind] mark)
      (right_written : Written right us) :
      Written (.binary op left right left.line) (ts ++ (mark ++ us))
  | not {head : Token} {operand : Expr} {left ts right : List Token} (opens : head.kind = .bang)
      (opens' : Marks [.leftParen] left) (operand_written : Written operand ts)
      (closes : Marks [.rightParen] right) :
      Written (.not operand head.line) (head :: (left ++ (ts ++ right)))
  | doubleNot {head : Token} {operand : Expr} {left ts right : List Token}
      (opens : head.kind = .bangBang) (opens' : Marks [.leftParen] left)
      (operand_written : Written operand ts) (closes : Marks [.rightParen] right) :
      Written (.doubleNot operand head.line) (head :: (left ++ (ts ++ right)))
  /-- Parentheses are not part of the expression. -/
  | group {e : Expr} {left ts right : List Token} (opens : Marks [.leftParen] left)
      (inner : Written e ts) (closes : Marks [.rightParen] right) :
      Written e (left ++ (ts ++ right))

namespace Expr

/-- An operator and its right operand. -/
inductive WrittenLink : BinaryOp × Expr → List Token → Prop
  | mk {op : BinaryOp} {e : Expr} {mark ts : List Token} (operates : Marks [op.kind] mark)
      (operand : e.Written ts) : WrittenLink (op, e) (mark ++ ts)

/-- Waiting operators with their left operands, the innermost first. -/
inductive WrittenWaiting : List Waiting → List Token → Prop
  | nil : WrittenWaiting [] []
  | cons {op : BinaryOp} {left : Expr} {waiting : List Waiting} {us ts mark : List Token}
      (outer : WrittenWaiting waiting us) (operand : left.Written ts)
      (operates : Marks [op.kind] mark) :
      WrittenWaiting ((left, op) :: waiting) (us ++ (ts ++ mark))

/-- Completing operators changes nothing in what is written. -/
theorem written_settle (precedence : Nat) {waiting : List Waiting} {last : Expr}
    {us ts : List Token} (hwaiting : WrittenWaiting waiting us) (hlast : last.Written ts) :
    ∃ us' ts', us ++ ts = us' ++ ts' ∧ WrittenWaiting (settle precedence waiting last).1 us' ∧
      (settle precedence waiting last).2.Written ts' := by
  induction hwaiting generalizing last ts with
  | nil => exact ⟨[], ts, rfl, .nil, hlast⟩
  | @cons op left waiting us ts₁ mark outer operand operates ih =>
    rw [settle]
    split
    · exact ⟨us ++ (ts₁ ++ mark), ts, rfl, .cons outer operand operates, hlast⟩
    · obtain ⟨us', ts', heq, hsettled⟩ := ih (.binary operand operates hlast)
      refine ⟨us', ts', ?_, hsettled⟩
      rw [← heq]
      simp

theorem settle_zero (waiting : List Waiting) (last : Expr) : (settle 0 waiting last).1 = [] := by
  induction waiting generalizing last with
  | nil => rfl
  | cons w waiting ih =>
    rw [settle, if_neg (Nat.not_lt_zero _)]
    exact ih _

theorem written_readChain {waiting : List Waiting} {last : Expr} {rest : List (BinaryOp × Expr)}
    {us ts vs : List Token} (hwaiting : WrittenWaiting waiting us) (hlast : last.Written ts)
    (hrest : Rowed WrittenLink rest vs) :
    (readChain waiting last rest).Written (us ++ (ts ++ vs)) := by
  induction hrest generalizing waiting last us ts with
  | nil =>
    obtain ⟨us', ts', heq, hnone, hall⟩ := written_settle 0 hwaiting hlast
    rw [settle_zero] at hnone
    cases hnone
    rw [List.append_nil, heq]
    exact hall
  | @cons link rest _ vs first _ ih =>
    obtain ⟨operates, operand⟩ := first
    obtain ⟨us', ts', heq, hsettled, hleft⟩ := written_settle _ hwaiting hlast
    rw [readChain]
    have hread := ih (.cons hsettled hleft operates) operand
    rw [← List.append_assoc, heq]
    simpa using hread

/-- The tree of a chain is written as the chain is. -/
theorem written_ofChain {first : Expr} {rest : List (BinaryOp × Expr)} {ts us : List Token}
    (hfirst : first.Written ts) (hrest : Rowed WrittenLink rest us) :
    (ofChain first rest).Written (ts ++ us) :=
  written_readChain .nil hfirst hrest

end Expr

/-! ### Statements -/

/-- A step of a counting loop: the operator before the variable or behind it. -/
inductive StepOp.Written (op : StepOp) (name : Token) : List Token → Prop
  | after {mark : List Token} (operates : Marks [op.kind] mark) : Written op name (name :: mark)
  | before {mark : List Token} (operates : Marks [op.kind] mark) : Written op name (mark ++ [name])

mutual
/-- How a statement is written. -/
inductive Statement.Written : Statement → List Token → Prop
  | call {name : Token} {args : List Expr} {left ts right : List Token}
      (named : name.kind = .ident) (opens : Marks [.leftParen] left)
      (args_written : Listed Expr.Written .comma args ts)
      (closes : Marks [.rightParen, .semicolon] right) :
      Statement.Written (.call name.lexeme args name.line) (name :: (left ++ (ts ++ right)))
  | assign {name : Token} {op : AssignOp} {value : Expr} {mark ts right : List Token}
      (named : name.kind = .ident) (operates : Marks [op.kind] mark)
      (value_written : value.Written ts) (closes : Marks [.semicolon] right) :
      Statement.Written (.assign (.var name.lexeme) op value name.line)
        (name :: (mark ++ (ts ++ right)))
  | assignElement {name : Token} {index : Int} {op : AssignOp} {value : Expr}
      {left us bracket mark ts right : List Token} (named : name.kind = .ident)
      (opens : Marks [.leftBracket] left) (indexed : Literal.Written (.pinch index) us)
      (closes : Marks [.rightBracket] bracket) (operates : Marks [op.kind] mark)
      (value_written : value.Written ts) (closes' : Marks [.semicolon] right) :
      Statement.Written (.assign (.element name.lexeme index) op value name.line)
        (name :: (left ++ (us ++ (bracket ++ (mark ++ (ts ++ right))))))
  | stepAfter {name : Token} {op : StepOp} {mark right : List Token} (named : name.kind = .ident)
      (operates : Marks [op.kind] mark) (closes : Marks [.semicolon] right) :
      Statement.Written (.step name.lexeme op name.line) (name :: (mark ++ right))
  | stepBefore {mark name : Token} {op : StepOp} {right : List Token}
      (operates : mark.kind = op.kind) (named : name.kind = .ident) (closes : Marks [.semicolon] right) :
      Statement.Written (.step name.lexeme op mark.line) (mark :: name :: right)
  | taste {first : Branch} {rest : List Branch} {otherwise : Option (List Statement)}
      {ts us vs : List Token} (first_written : Branch.Written .taste first ts)
      (rest_written : Rowed (Branch.Written .elif) rest us)
      (otherwise_written : Optionally (Rowed Statement.Written) [.mix, .leftBrace] [.rightBrace]
        otherwise vs) :
      Statement.Written (.taste (first :: rest) otherwise first.line) (ts ++ (us ++ vs))
  | flip {head subject : Token} {cases : List Case} {otherwise : Option (List Statement)}
      {left right ts us close : List Token} (opens : head.kind = .flip)
      (opens' : Marks [.leftParen] left) (named : subject.kind = .ident)
      (closes : Marks [.rightParen, .leftBrace] right) (cases_written : Rowed Case.Written cases ts)
      (otherwise_written : Optionally (Rowed Statement.Written) [.defaultArm, .colon]
        [.chop, .semicolon] otherwise us)
      (closes' : Marks [.rightBrace] close) :
      Statement.Written (.flip subject.lexeme cases otherwise head.line)
        (head :: (left ++ subject :: (right ++ (ts ++ (us ++ close)))))
  | forLoop {head var stepVar : Token} {declares : Bool} {init condition : Expr} {step : StepOp}
      {body : List Statement} {left pinch assign ts semi us semi' vs right ws close : List Token}
      (opens : head.kind = .forLoop) (opens' : Marks [.leftParen] left)
      (declared : Marks (if declares then [.pinch] else []) pinch) (named : var.kind = .ident)
      (assigned : Marks [.assign] assign) (init_written : init.Written ts)
      (ends : Marks [.semicolon] semi) (condition_written : condition.Written us)
      (ends' : Marks [.semicolon] semi') (named' : stepVar.kind = .ident)
      (step_written : step.Written stepVar vs) (closes : Marks [.rightParen, .leftBrace] right)
      (body_written : Rowed Statement.Written body ws) (closes' : Marks [.rightBrace] close) :
      Statement.Written
        (.forLoop declares var.lexeme init condition stepVar.lexeme step body head.line)
        (head :: (left ++ (pinch ++ var :: (assign ++ (ts ++ (semi ++ (us ++ (semi' ++ (vs ++
          (right ++ (ws ++ close)))))))))))
  | simmer {head : Token} {condition : Expr} {body : List Statement}
      {left ts right us close : List Token} (opens : head.kind = .simmer)
      (opens' : Marks [.leftParen] left) (condition_written : condition.Written ts)
      (closes : Marks [.rightParen, .leftBrace] right)
      (body_written : Rowed Statement.Written body us) (closes' : Marks [.rightBrace] close) :
      Statement.Written (.simmer condition body head.line)
        (head :: (left ++ (ts ++ (right ++ (us ++ close)))))
  | keepmix {head : Token} {body : List Statement} {condition : Expr}
      {left ts right us close : List Token} (opens : head.kind = .keepmix)
      (opens' : Marks [.leftBrace] left) (body_written : Rowed Statement.Written body ts)
      (closes : Marks [.rightBrace, .simmer, .leftParen] right)
      (condition_written : condition.Written us) (closes' : Marks [.rightParen] close) :
      Statement.Written (.keepmix body condition head.line)
        (head :: (left ++ (ts ++ (right ++ (us ++ close)))))
  | serve {head : Token} {parts : List Expr} {left ts right : List Token}
      (opens : head.kind = .serve) (opens' : Marks [.leftParen] left)
      (parts_written : Listed Expr.Written .plus parts ts)
      (closes : Marks [.rightParen, .semicolon] right) :
      Statement.Written (.serve parts head.line) (head :: (left ++ (ts ++ right)))
  | make {head target : Token} {left right : List Token} (opens : head.kind = .make)
      (opens' : Marks [.leftParen] left) (named : target.kind = .ident)
      (closes : Marks [.rightParen, .semicolon] right) :
      Statement.Written (.make target.lexeme head.line) (head :: (left ++ target :: right))

/-- How a branch is written that begins with a keyword. -/
inductive Branch.Written : Token.Kind → Branch → List Token → Prop
  | mk {kind : Token.Kind} {head : Token} {condition : Expr} {body : List Statement}
      {left ts right us close : List Token} (opens : head.kind = kind)
      (opens' : Marks [.leftParen] left) (condition_written : condition.Written ts)
      (closes : Marks [.rightParen, .leftBrace] right)
      (body_written : Rowed Statement.Written body us) (closes' : Marks [.rightBrace] close) :
      Branch.Written kind ⟨condition, body, head.line⟩
        (head :: (left ++ (ts ++ (right ++ (us ++ close)))))

/-- How an arm is written. -/
inductive Case.Written : Case → List Token → Prop
  | mk {head : Token} {value : Literal} {body : List Statement} {ts colon us close : List Token}
      (opens : head.kind = .caseArm) (value_written : value.Written ts)
      (divides : Marks [.colon] colon) (body_written : Rowed Statement.Written body us)
      (closes : Marks [.chop, .semicolon] close) :
      Case.Written ⟨value, body, head.line⟩ (head :: (ts ++ (colon ++ (us ++ close))))
end

/-! ### Declarations, functions, programs -/

/-- How a declared variable is written. -/
inductive Declarator.Written : Declarator → List Token → Prop
  | mk {name : Token} {init : Option Literal} {ts : List Token} (named : name.kind = .ident)
      (init_written : Optionally Literal.Written [.assign] [] init ts) :
      Written ⟨name.lexeme, init, name.line⟩ (name :: ts)

/-- How a declaration is written.  The length of an array is kept as it is written. -/
inductive Declaration.Written : Declaration → List Token → Prop
  | variables {type : DataType} {ds : List Declarator} {mark ts right : List Token}
      (typed : Marks [type.kind] mark) (written : Listed Declarator.Written .comma ds ts)
      (closes : Marks [.semicolon] right) :
      Written (.variables type ds) (mark ++ (ts ++ right))
  | array {type : DataType} {elements : Option (List Literal)} {name dimension : Token}
      {head mark left right ts close : List Token} (opens : Marks [.recipe] head)
      (typed : Marks [type.kind] mark) (named : name.kind = .ident)
      (opens' : Marks [.leftBracket] left) (measured : dimension.kind = .pinchLiteral)
      (closes : Marks [.rightBracket] right)
      (written : Optionally (Listed Literal.Written .comma) [.assign, .leftBrace] [.rightBrace]
        elements ts)
      (closes' : Marks [.semicolon] close) :
      Written (.array ⟨type, name.lexeme, dimension.lexeme, elements, name.line⟩)
        (head ++ (mark ++ name :: (left ++ dimension :: (right ++ (ts ++ close)))))

/-- How a parameter is written. -/
inductive Parameter.Written : Parameter → List Token → Prop
  | mk {type : DataType} {name : Token} {mark : List Token} (typed : Marks [type.kind] mark)
      (named : name.kind = .ident) : Written ⟨type, name.lexeme, name.line⟩ (mark ++ [name])

/-- How a function is written.  It has a type exactly if it has a result. -/
inductive Function.Written : Function → List Token → Prop
  | mk {head name : Token} {returns : Option DataType} {parameters : List Parameter}
      {locals : List Declaration} {body : List Statement} {result : Option Expr}
      {mark left ts right us vs ws close : List Token}
      (opens : head.kind = if returns.isSome then .full else .hungry)
      (typed : Optionally (fun type => Marks [type.kind]) [] [] returns mark)
      (named : name.kind = .ident) (opens' : Marks [.leftParen] left)
      (parameters_written : Listed Parameter.Written .comma parameters ts)
      (closes : Marks [.rightParen, .leftBrace] right)
      (locals_written : Rowed Declaration.Written locals us)
      (body_written : Rowed Statement.Written body vs)
      (results : returns.isSome = result.isSome)
      (result_written : Optionally Expr.Written [.spit] [.semicolon] result ws)
      (closes' : Marks [.rightBrace] close) :
      Written ⟨name.lexeme, returns, parameters, locals, body, result, head.line⟩
        (head :: (mark ++ name :: (left ++ (ts ++ (right ++ (us ++ (vs ++ (ws ++ close))))))))

/-- How a program is written. -/
inductive Program.Written : Program → List Token → Prop
  | mk {code : Token} {globals locals : List Declaration} {functions : List Function}
      {body : List Statement} {exitCode : Int} {head ts us entry vs ws spit close : List Token}
      (opens : Marks [.dinein] head) (globals_written : Rowed Declaration.Written globals ts)
      (functions_written : Rowed Function.Written functions us)
      (enters : Marks [.chef, .pinch, .dish, .leftParen, .rightParen, .leftBrace] entry)
      (locals_written : Rowed Declaration.Written locals vs)
      (body_written : Rowed Statement.Written body ws) (spits : Marks [.spit] spit)
      (exits : code.literal? = some (.pinch exitCode))
      (closes : Marks [.semicolon, .rightBrace, .takeout] close) :
      Written ⟨globals, functions, locals, body, exitCode, code.line⟩
        (head ++ (ts ++ (us ++ (entry ++ (vs ++ (ws ++ (spit ++ code :: close)))))))

end Bistro
