import Bistro.Proofs.Program.OfTokens

/-!
# The lines of programs

The constructs of a program that have a line are its functions, statements, expressions and what
else a finding may be about.  Each stands in a stretch of the tokens, with the constructs that are
parts of it inside, one behind the other.  One token of the stretch gives the construct its line:
the name of what is declared, the keyword of a function, a branch or an arm, the first token of a
statement, and the first token of an expression that is not an opening parenthesis.

## Main definitions

* `Construct` — what has a line; `Construct.pointsAt` tells which token gives it.
* `Construct.parts`, `Program.constructs` — the constructs inside a construct, and inside a program.
* `Construct.In` — a construct is in a row of constructs, however deep.
* `Scattered` — items stand one behind the other in a row of tokens.
* `Construct.Traced` — a construct and its parts stand in a row of tokens and have their lines.

## Main results

* `Expr.Written.traced`, `Statement.Written.traced`, `Function.Written.traced` — what is written
  with some tokens has its lines from them.
* `Program.lines_point_at_source` — **the lines of a program are those of its tokens.**
-/

namespace Bistro

/-! ### Constructs -/

/-- What has a line in a program. -/
inductive Construct
  | declarator (d : Declarator)
  | array (a : ArrayDeclaration)
  | parameter (p : Parameter)
  | function (f : Function)
  | statement (s : Statement)
  | branch (b : Branch)
  | arm (c : Case)
  | expr (e : Expr)
  /-- The result of the entry point. -/
  | exit (code : Int) (line : Nat)

namespace Construct

/-- The line of a construct. -/
def line : Construct → Nat
  | declarator d => d.line
  | array a => a.line
  | parameter p => p.line
  | function f => f.line
  | statement s => s.line
  | branch b => b.line
  | arm c => c.line
  | expr e => e.line
  | exit _ line => line

/-- Among the tokens of a construct, the first of these gives it its line. -/
def pointsAt : Construct → Token → Bool
  | declarator _, t | array _, t | parameter _, t => t.kind = .ident
  | function _, t => t.kind = .full || t.kind = .hungry
  | branch _, t => t.kind = .taste || t.kind = .elif
  | arm _, t => t.kind = .caseArm
  | expr _, t => t.kind ≠ .leftParen
  | statement _, _ | exit .., _ => true

/-- How a construct is written. -/
def Written : Construct → List Token → Prop
  | declarator d => d.Written
  | array a => (Declaration.array a).Written
  | parameter p => p.Written
  | function f => f.Written
  | statement s => s.Written
  | branch b => fun ts => ∃ kind ∈ [.taste, .elif], b.Written kind ts
  | arm c => c.Written
  | expr e => e.Written
  | exit code _ => (Literal.pinch code).Written

end Construct

/-- The constructs in a declaration. -/
def Declaration.constructs : Declaration → List Construct
  | .variables _ ds => ds.map .declarator
  | .array a => [.array a]

/-- The constructs right below an expression. -/
def Expr.parts : Expr → List Construct
  | literal .. | var .. | element .. => []
  | call _ args _ => args.map .expr
  | binary _ left right _ => [.expr left, .expr right]
  | not operand _ | doubleNot operand _ => [.expr operand]

/-- The constructs right below a statement. -/
def Statement.parts : Statement → List Construct
  | call _ args _ => args.map .expr
  | assign _ _ value _ => [.expr value]
  | taste branches otherwise _ => branches.map .branch ++ (otherwise.getD []).map .statement
  | flip _ cases otherwise _ => cases.map .arm ++ (otherwise.getD []).map .statement
  | forLoop _ _ init condition _ _ body _ =>
    .expr init :: .expr condition :: body.map .statement
  | simmer condition body _ => .expr condition :: body.map .statement
  | keepmix body condition _ => body.map .statement ++ [.expr condition]
  | serve parts _ => parts.map .expr
  | step .. | make .. => []

/-- The constructs right below a function. -/
def Function.parts (f : Function) : List Construct :=
  f.parameters.map .parameter ++ (f.locals.flatMap Declaration.constructs ++
    (f.body.map .statement ++ f.result.toList.map .expr))

/-- The constructs right below a construct, in the order in which they are written. -/
def Construct.parts : Construct → List Construct
  | declarator _ | array _ | parameter _ | exit .. => []
  | function f => f.parts
  | statement s => s.parts
  | branch b => .expr b.condition :: b.body.map .statement
  | arm c => c.body.map .statement
  | expr e => e.parts

/-- The outermost constructs of a program, in the order in which they are written. -/
def Program.constructs (p : Program) : List Construct :=
  p.globals.flatMap Declaration.constructs ++ (p.functions.map .function ++
    (p.locals.flatMap Declaration.constructs ++ (p.body.map .statement ++
      [.exit p.exitCode p.exitLine])))

/-- A construct is in a row of constructs, however deep. -/
inductive Construct.In (c : Construct) : List Construct → Prop
  | here {cs : List Construct} (h : c ∈ cs) : In c cs
  | inside {d : Construct} {cs : List Construct} (hd : d ∈ cs) (h : In c d.parts) : In c cs

/-! ### Places of constructs -/

/-- Items stand one behind the other in a row of tokens, with other tokens around them. -/
inductive Scattered {α : Type} (item : α → List Token → Prop) : List α → List Token → Prop
  | nil (gap : List Token) : Scattered item [] gap
  | cons {a : α} {as : List α} {ts us : List Token} (gap : List Token) (first : item a ts)
      (rest : Scattered item as us) : Scattered item (a :: as) (gap ++ (ts ++ us))

/-- A construct stands in a row of tokens: it is written with them, one of them gives it its line,
and so it is with its parts. -/
inductive Construct.Traced : Construct → List Token → Prop
  | mk {c : Construct} {ts : List Token} (written : c.Written ts)
      (points : (ts.find? c.pointsAt).map Token.line = some c.line)
      (parts : Scattered Construct.Traced c.parts ts) : Traced c ts

namespace Scattered

variable {α : Type} {item : α → List Token → Prop} {as bs : List α} {ts us : List Token}

theorem before (gap : List Token) (h : Scattered item as ts) : Scattered item as (gap ++ ts) := by
  cases h with
  | nil => exact .nil _
  | cons gap' first rest =>
    rw [← List.append_assoc]
    exact .cons (gap ++ gap') first rest

theorem behind (h : Scattered item as ts) (gap : List Token) : Scattered item as (ts ++ gap) := by
  induction h with
  | nil => exact .nil _
  | cons gap' first _ ih =>
    rw [List.append_assoc, List.append_assoc]
    exact .cons gap' first ih

theorem between (left right : List Token) (h : Scattered item as ts) :
    Scattered item as (left ++ (ts ++ right)) :=
  (h.behind right).before left

theorem append (has : Scattered item as ts) (hbs : Scattered item bs us) :
    Scattered item (as ++ bs) (ts ++ us) := by
  induction has with
  | nil gap => exact hbs.before gap
  | cons gap first _ ih =>
    rw [List.append_assoc, List.append_assoc]
    exact .cons gap first ih

theorem singleton {a : α} (h : item a ts) : Scattered item [a] ts := by
  simpa using cons [] h (nil [])

/-- Each item has a stretch of the tokens. -/
theorem exists_infix (h : Scattered item as ts) : ∀ a ∈ as, ∃ us, us <:+: ts ∧ item a us := by
  induction h with
  | nil => simp
  | @cons a as ts us gap first _ ih =>
    rw [List.forall_mem_cons]
    refine ⟨⟨ts, ⟨gap, us, by simp⟩, first⟩, fun b hb => ?_⟩
    obtain ⟨vs, ⟨front, back, rfl⟩, hb⟩ := ih b hb
    exact ⟨vs, ⟨gap ++ (ts ++ front), back, by simp⟩, hb⟩

end Scattered

section
variable {α β : Type} {item : α → List Token → Prop} {part : β → List Token → Prop}
  {separator : Token.Kind} {as : List α} {ts : List Token}

theorem Rowed.scattered_flatMap {f : α → List β}
    (hitem : ∀ a ts, item a ts → Scattered part (f a) ts) (h : Rowed item as ts) :
    Scattered part (as.flatMap f) ts := by
  induction h with
  | nil => exact .nil _
  | cons first _ ih => exact (hitem _ _ first).append ih

variable {f : α → β} (hitem : ∀ a ts, item a ts → part (f a) ts)
include hitem

theorem Rowed.scattered (h : Rowed item as ts) : Scattered part (as.map f) ts := by
  rw [List.map_eq_flatMap]
  exact h.scattered_flatMap fun a ts ha => .singleton (hitem a ts ha)

theorem Trailed.scattered (h : Trailed item separator as ts) : Scattered part (as.map f) ts := by
  induction h with
  | nil => exact .nil _
  | cons _ first _ ih =>
    exact ((Scattered.singleton (hitem _ _ first)).append ih).before _

theorem Listed.scattered (h : Listed item separator as ts) : Scattered part (as.map f) ts := by
  cases h with
  | nil => exact .nil _
  | cons first rest => exact (Scattered.singleton (hitem _ _ first)).append (rest.scattered hitem)

end

/-- A construct in a row, however deep, stands in a stretch of the tokens of the row. -/
theorem Construct.In.exists_traced {c : Construct} {cs : List Construct} (h : c.In cs)
    {ts : List Token} (hcs : Scattered Construct.Traced cs ts) :
    ∃ us, us <:+: ts ∧ c.Traced us := by
  induction h generalizing ts with
  | here hmem => exact hcs.exists_infix _ hmem
  | inside hd _ ih =>
    obtain ⟨us, hus, ⟨_, _, hparts⟩⟩ := hcs.exists_infix _ hd
    obtain ⟨vs, hvs, hc⟩ := ih hparts
    exact ⟨vs, hvs.trans hus, hc⟩

/-! ### What is written has the lines of its tokens -/

namespace Construct

/-- The token that gives a line is still the first of its kind when tokens follow. -/
theorem points_append {p : Token → Bool} {ts : List Token} {line : Nat}
    (h : (ts.find? p).map Token.line = some line) (us : List Token) :
    ((ts ++ us).find? p).map Token.line = some line := by
  obtain ⟨t, ht, rfl⟩ := Option.map_eq_some_iff.1 h
  rw [List.find?_append, ht]
  rfl

/-- Tokens that do not give a line may stand before the one that does. -/
theorem points_marks {p : Token → Bool} {kinds : List Token.Kind} {marks ts : List Token}
    {line : Nat} (hmarks : Marks kinds marks) (hkinds : ∀ t : Token, t.kind ∈ kinds → p t = false)
    (h : (ts.find? p).map Token.line = some line) :
    ((marks ++ ts).find? p).map Token.line = some line := by
  have hnone : marks.find? p = none := by
    refine List.find?_eq_none.2 fun t ht => ?_
    rw [hkinds t (hmarks ▸ List.mem_map_of_mem ht)]
    decide
  rw [List.find?_append, hnone]
  exact h

end Construct

open Construct (Traced points_append points_marks)

/-- A construct has the line of the token that it begins with. -/
theorem Construct.Traced.of_head {c : Construct} {head : Token} {ts : List Token}
    (written : c.Written (head :: ts)) (points : c.pointsAt head = true)
    (line : c.line = head.line) (parts : Scattered Traced c.parts ts) :
    Traced c (head :: ts) := by
  refine .mk written ?_ (parts.before [head])
  rw [List.find?_cons_of_pos points, Option.map_some, line]

theorem Token.kind_ne_of_literal? {t : Token} {v : Literal} (h : t.literal? = some v) :
    t.kind ≠ .leftParen := by
  intro hkind
  rw [Token.literal?, hkind] at h
  cases h

/-! #### Expressions -/

/-- An expression in parentheses has the same line and the same parts. -/
theorem Expr.traced_group {e : Expr} {left ts right : List Token} (opens : Marks [.leftParen] left)
    (closes : Marks [.rightParen] right) (h : Traced (.expr e) ts) :
    Traced (.expr e) (left ++ (ts ++ right)) := by
  obtain ⟨written, points, parts⟩ := h
  refine .mk (.group opens written closes) ?_ (parts.between left right)
  refine points_marks opens ?_ (points_append points right)
  intro t ht
  simp [Construct.pointsAt, List.mem_singleton.1 ht]

/-- An operation has the line of its left operand. -/
theorem Expr.traced_binary {op : BinaryOp} {left right : Expr} {ts mark us : List Token}
    (operates : Marks [op.kind] mark) (hleft : Traced (.expr left) ts)
    (hright : Traced (.expr right) us) :
    Traced (.expr (.binary op left right left.line)) (ts ++ (mark ++ us)) := by
  obtain ⟨written, points, -⟩ := id hleft
  obtain ⟨written', -, -⟩ := id hright
  refine .mk (.binary written operates written') (points_append points _) ?_
  exact (Scattered.singleton hleft).append ((Scattered.singleton hright).before mark)

theorem Expr.pointsAt_of_ne {e : Expr} {t : Token} (h : t.kind ≠ .leftParen) :
    (Construct.expr e).pointsAt t = true :=
  decide_eq_true h

mutual
/-- What is written as an expression has the lines of its tokens. -/
theorem Expr.Written.traced {e : Expr} {ts : List Token} (h : e.Written ts) :
    Traced (.expr e) ts := by
  match h with
  | .literal spells =>
    have hkind := Token.kind_ne_of_literal? spells
    exact .of_head (.literal spells) (Expr.pointsAt_of_ne hkind) rfl (.nil _)
  | .var named => exact .of_head (.var named) (Expr.pointsAt_of_ne (by simp [named])) rfl (.nil _)
  | .element named opens indexed closes =>
    have written := Expr.Written.element named opens indexed closes
    exact .of_head written (Expr.pointsAt_of_ne (by simp [named])) rfl (.nil _)
  | .call named opens args closes =>
    have written := Expr.Written.call named opens args closes
    refine .of_head written (Expr.pointsAt_of_ne (by simp [named])) rfl ?_
    exact (Expr.scattered_args args).between _ _
  | .binary left operates right => exact Expr.traced_binary operates left.traced right.traced
  | .not opens opens' operand closes =>
    have written := Expr.Written.not opens opens' operand closes
    refine .of_head written (Expr.pointsAt_of_ne (by simp [opens])) rfl ?_
    exact (Scattered.singleton operand.traced).between _ _
  | .doubleNot opens opens' operand closes =>
    have written := Expr.Written.doubleNot opens opens' operand closes
    refine .of_head written (Expr.pointsAt_of_ne (by simp [opens])) rfl ?_
    exact (Scattered.singleton operand.traced).between _ _
  | .group opens inner closes => exact Expr.traced_group opens closes inner.traced

theorem Expr.scattered_args {es : List Expr} {ts : List Token}
    (h : Listed Expr.Written .comma es ts) : Scattered Traced (es.map .expr) ts := by
  match h with
  | .nil => exact .nil _
  | .cons first rest =>
    exact (Scattered.singleton first.traced).append (Expr.scattered_furtherArgs rest)

theorem Expr.scattered_furtherArgs {es : List Expr} {ts : List Token}
    (h : Trailed Expr.Written .comma es ts) : Scattered Traced (es.map .expr) ts := by
  match h with
  | .nil => exact .nil _
  | .cons separates first rest =>
    refine Scattered.before _ ?_
    exact (Scattered.singleton first.traced).append (Expr.scattered_furtherArgs rest)
end

/-! #### Statements -/

/-- A branch has the line of the token that it begins with. -/
theorem Branch.Written.points {kind : Token.Kind} {b : Branch} {ts : List Token}
    (h : b.Written kind ts) : (ts.find? fun _ => true).map Token.line = some b.line := by
  cases h
  rfl

mutual
/-- What is written as a statement has the lines of its tokens. -/
theorem Statement.Written.traced {s : Statement} {ts : List Token} (h : s.Written ts) :
    Traced (.statement s) ts := by
  match h with
  | .call named opens args closes =>
    have written := Statement.Written.call named opens args closes
    exact .of_head written rfl rfl ((Expr.scattered_args args).between _ _)
  | .assign named operates value closes =>
    have written := Statement.Written.assign named operates value closes
    exact .of_head written rfl rfl ((Scattered.singleton value.traced).between _ _)
  | .assignElement named opens indexed closes operates value closes' =>
    have written :=
      Statement.Written.assignElement named opens indexed closes operates value closes'
    refine .of_head written rfl rfl (.before _ (.before _ (.before _ ?_)))
    exact (Scattered.singleton value.traced).between _ _
  | .stepAfter named operates closes =>
    exact .of_head (Statement.Written.stepAfter named operates closes) rfl rfl (.nil _)
  | .stepBefore operates named closes =>
    exact .of_head (Statement.Written.stepBefore operates named closes) rfl rfl (.nil _)
  | .taste first rest otherwise =>
    have written := Statement.Written.taste first rest otherwise
    have hrest := (Statement.scattered_branches rest).append
      (Statement.scattered_otherwise otherwise)
    refine .mk written (points_append first.points _) ?_
    exact (Scattered.singleton (first.traced (.inl rfl))).append hrest
  | .flip opens opens' named closes cases otherwise closes' =>
    have written := Statement.Written.flip opens opens' named closes cases otherwise closes'
    refine .of_head written rfl rfl (.before _ (.before [_] (.before _ ?_)))
    exact (Statement.scattered_cases cases).append
      ((Statement.scattered_default otherwise).behind _)
  | .forLoop opens opens' declared named assigned init ends condition ends' named' step closes body
      closes' =>
    have written := Statement.Written.forLoop opens opens' declared named assigned init ends
      condition ends' named' step closes body closes'
    refine .of_head written rfl rfl (.before _ (.before _ (.before [_] (.before _ ?_))))
    refine (Scattered.singleton init.traced).append (.before _ ?_)
    refine (Scattered.singleton condition.traced).append (.before _ (.before _ ?_))
    exact (Statement.scattered_body body).between _ _
  | .simmer opens opens' condition closes body closes' =>
    have written := Statement.Written.simmer opens opens' condition closes body closes'
    refine .of_head written rfl rfl (.before _ ?_)
    refine (Scattered.singleton condition.traced).append ?_
    exact (Statement.scattered_body body).between _ _
  | .keepmix opens opens' body closes condition closes' =>
    have written := Statement.Written.keepmix opens opens' body closes condition closes'
    refine .of_head written rfl rfl (.before _ ?_)
    refine (Statement.scattered_body body).append ?_
    exact (Scattered.singleton condition.traced).between _ _
  | .serve opens opens' parts closes =>
    have written := Statement.Written.serve opens opens' parts closes
    refine .of_head written rfl rfl (.between _ _ ?_)
    exact parts.scattered fun _ _ he => he.traced
  | .make opens opens' named closes =>
    exact .of_head (Statement.Written.make opens opens' named closes) rfl rfl (.nil _)

theorem Statement.scattered_body {body : List Statement} {ts : List Token}
    (h : Rowed Statement.Written body ts) : Scattered Traced (body.map .statement) ts := by
  match h with
  | .nil => exact .nil _
  | .cons first rest =>
    exact (Scattered.singleton first.traced).append (Statement.scattered_body rest)

theorem Statement.scattered_otherwise {body : Option (List Statement)} {ts : List Token}
    (h : Optionally (Rowed Statement.Written) [.mix, .leftBrace] [.rightBrace] body ts) :
    Scattered Traced ((body.getD []).map .statement) ts := by
  match h with
  | .none => exact .nil _
  | .some _ inner _ => exact (Statement.scattered_body inner).between _ _

theorem Statement.scattered_default {body : Option (List Statement)} {ts : List Token}
    (h : Optionally (Rowed Statement.Written) [.defaultArm, .colon] [.chop, .semicolon] body ts) :
    Scattered Traced ((body.getD []).map .statement) ts := by
  match h with
  | .none => exact .nil _
  | .some _ inner _ => exact (Statement.scattered_body inner).between _ _

theorem Branch.Written.traced {kind : Token.Kind} {b : Branch} {ts : List Token}
    (h : b.Written kind ts) (hkind : kind = .taste ∨ kind = .elif) : Traced (.branch b) ts := by
  match h with
  | .mk opens opens' condition closes body closes' =>
    have written := Branch.Written.mk opens opens' condition closes body closes'
    refine .of_head ⟨kind, by simpa using hkind, written⟩ ?_ rfl (.before _ ?_)
    · simpa [Construct.pointsAt, opens] using hkind
    · refine (Scattered.singleton condition.traced).append ?_
      exact (Statement.scattered_body body).between _ _

theorem Statement.scattered_branches {bs : List Branch} {ts : List Token}
    (h : Rowed (Branch.Written .elif) bs ts) : Scattered Traced (bs.map .branch) ts := by
  match h with
  | .nil => exact .nil _
  | .cons first rest =>
    exact (Scattered.singleton (first.traced (.inr rfl))).append (Statement.scattered_branches rest)

theorem Case.Written.traced {c : Case} {ts : List Token} (h : c.Written ts) :
    Traced (.arm c) ts := by
  match h with
  | .mk opens value divides body closes =>
    have written := Case.Written.mk opens value divides body closes
    refine .of_head written (decide_eq_true opens) rfl (.before _ ?_)
    exact (Statement.scattered_body body).between _ _

theorem Statement.scattered_cases {cs : List Case} {ts : List Token}
    (h : Rowed Case.Written cs ts) : Scattered Traced (cs.map .arm) ts := by
  match h with
  | .nil => exact .nil _
  | .cons first rest =>
    exact (Scattered.singleton first.traced).append (Statement.scattered_cases rest)
end

/-! #### Declarations, functions, programs -/

theorem DataType.kind_ne_ident (type : DataType) : type.kind ≠ .ident := by
  cases type <;> decide

/-- What is declared has the line of its name, which stands behind keywords. -/
theorem Construct.points_name {kinds : List Token.Kind} {marks ts : List Token} {name : Token}
    (hmarks : Marks kinds marks) (hkinds : .ident ∉ kinds) (named : name.kind = .ident) :
    ((marks ++ name :: ts).find? fun t => t.kind = .ident).map Token.line = some name.line := by
  refine points_marks hmarks (fun t ht => ?_) ?_
  · exact decide_eq_false fun hident => hkinds (hident ▸ ht)
  · rw [List.find?_cons_of_pos (by simpa using named), Option.map_some]

theorem Declarator.Written.traced {d : Declarator} {ts : List Token} (h : d.Written ts) :
    Traced (.declarator d) ts := by
  obtain ⟨named, init⟩ := h
  exact .of_head (.mk named init) (decide_eq_true named) rfl (.nil _)

theorem Parameter.Written.traced {p : Parameter} {ts : List Token} (h : p.Written ts) :
    Traced (.parameter p) ts := by
  obtain ⟨typed, named⟩ := h
  refine .mk (.mk typed named) (Construct.points_name typed ?_ named) (.nil _)
  simpa using (DataType.kind_ne_ident _).symm

/-- The variables of a declaration, or its array, have the lines of their names. -/
theorem Declaration.Written.scattered {d : Declaration} {ts : List Token} (h : d.Written ts) :
    Scattered Traced d.constructs ts := by
  match h with
  | .variables typed ds closes =>
    exact (ds.scattered fun _ _ hd => hd.traced).between _ _
  | .array opens typed named opens' measured closes elements closes' =>
    have written := Declaration.Written.array opens typed named opens' measured closes elements
      closes'
    refine .singleton (.mk written ?_ (.nil _))
    refine points_marks opens ?_ (Construct.points_name typed ?_ named)
    · intro t ht
      simp [Construct.pointsAt, List.mem_singleton.1 ht]
    · simpa using (DataType.kind_ne_ident _).symm

theorem Expr.scattered_result {result : Option Expr} {opening closing : List Token.Kind}
    {ts : List Token} (h : Optionally Expr.Written opening closing result ts) :
    Scattered Traced (result.toList.map .expr) ts := by
  cases h with
  | none => exact .nil _
  | some _ inner _ => exact (Scattered.singleton inner.traced).between _ _

/-- A function has the line of the keyword that it begins with. -/
theorem Function.Written.traced {f : Function} {ts : List Token} (h : f.Written ts) :
    Traced (.function f) ts := by
  cases h with
  | @mk _ _ returns _ _ _ _ _ _ _ _ _ _ _ _ opens typed named opens' parameters closes locals body
      results result closes' =>
    have written := Function.Written.mk opens typed named opens' parameters closes locals body
      results result closes'
    refine .of_head written ?_ rfl (.before _ (.before [_] (.before _ ?_)))
    · cases hreturns : returns.isSome <;> simp [Construct.pointsAt, opens, hreturns]
    refine (parameters.scattered fun _ _ hp => hp.traced).append (.before _ ?_)
    refine (locals.scattered_flatMap fun _ _ hd => hd.scattered).append ?_
    exact (Statement.scattered_body body).append (.behind (Expr.scattered_result result) _)

/-- What is written as a program has the lines of its tokens. -/
theorem Program.Written.scattered {p : Program} {ts : List Token} (h : p.Written ts) :
    Scattered Traced p.constructs ts := by
  cases h with
  | mk opens globals functions enters locals body spits exits closes =>
    refine .before _ ((globals.scattered_flatMap fun _ _ hd => hd.scattered).append ?_)
    refine (functions.scattered fun _ _ hf => hf.traced).append (.before _ ?_)
    refine (locals.scattered_flatMap fun _ _ hd => hd.scattered).append ?_
    have hexit : Traced (.exit _ _) [_] := .of_head (.token exits) rfl rfl (.nil _)
    exact (Statement.scattered_body body).append
      ((Scattered.singleton hexit).between _ _)

/-- **The lines of a program are those of its tokens.**  Its constructs stand in the tokens it was
made of, in their order and one inside the other as they are in the program.  Each has the line of
one token of the stretch in which it stands: a variable, an array or a parameter that of its name, a
function that of its keyword, a branch or an arm that of its keyword, a statement that of its first
token, the exit code that of its literal, and an expression that of its first token that is not an
opening parenthesis. -/
theorem Program.lines_point_at_source : ∃ tables, Language.tables = .ok tables ∧
    ∀ (limits : Limits) (tokens : List Token),
      (Parse.ofTokens tables limits tokens).success = true →
      ∃ tree, (Parse.ofTokens tables limits tokens).tree = some tree ∧
        ∀ p, ofTree tree = .ok p →
          Scattered Traced p.constructs tokens ∧
          ∀ c, Construct.In c p.constructs → ∃ ts, ts <:+: tokens ∧ c.Written ts ∧
            (ts.find? c.pointsAt).map Token.line = some c.line := by
  obtain ⟨tables, htables, haccepted⟩ := Parse.exists_accepted_tree
  refine ⟨tables, htables, fun limits tokens h => ?_⟩
  obtain ⟨tree, htree, htag, hsound, rfl⟩ := haccepted limits tokens h
  refine ⟨tree, htree, fun p hp => ?_⟩
  have hscattered := (written_of_ofTree hsound htag hp).scattered
  refine ⟨hscattered, fun c hc => ?_⟩
  obtain ⟨ts, hts, ⟨written, points, -⟩⟩ := hc.exists_traced hscattered
  exact ⟨ts, hts, written, points⟩

end Bistro
