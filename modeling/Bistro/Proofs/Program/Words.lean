import Bistro.Proofs.Program.Written

/-!
# The words of programs

The words of a program are its names and its literals, in the order in which they are written.  A
row of tokens has words as well, and a program has the words of the tokens it is written with: none
is lost, none is read twice, and their order is kept.

## Main definitions

* `Word` — a name or a literal.
* `Token.words` — the words of a row of tokens.
* `Program.words` — the words of a program.

## Main results

* `Program.Written.words_eq` — **a program has the words of its tokens.**
-/

namespace Bistro

/-- A name or a literal in a program. -/
inductive Word
  | name (name : String)
  | literal (value : Literal)
  /-- The length of an array, as it is written. -/
  | dimension (lexeme : String)
  deriving DecidableEq, Repr, Inhabited

/-! ### The words of tokens -/

namespace Token

/-- The word that a token is, if it is a name or a literal; there is none for a literal that spells
no value. -/
def word (t : Token) : List (Option Word) :=
  match t.kind with
  | .ident => [some (.name t.lexeme)]
  | .pinchLiteral | .skimLiteral | .pastaLiteral | .yum | .bleh => [t.literal?.map .literal]
  | _ => []

/-- The words of a row of tokens.  The length of an array is the fourth token behind the word that
opens the declaration. -/
def words : List Token → List (Option Word)
  | ⟨_, .recipe, _⟩ :: _ :: name :: _ :: dimension :: rest =>
    some (.name name.lexeme) :: some (.dimension dimension.lexeme) :: words rest
  | t :: rest => t.word ++ words rest
  | [] => []

/-- The kinds of tokens that are no words and do not open an array. -/
def Kind.isMark (kind : Kind) : Bool :=
  kind ∉ [.recipe, .ident, .pinchLiteral, .skimLiteral, .pastaLiteral, .yum, .bleh]

theorem words_cons {t : Token} (h : t.kind ≠ .recipe) (rest : List Token) :
    words (t :: rest) = t.word ++ words rest := by
  rw [words]
  intro lexeme line _ _ _ _ _ ht
  exact absurd (congrArg Token.kind ht) h

theorem words_array {t : Token} (h : t.kind = .recipe) (type name left dimension : Token)
    (rest : List Token) : words (t :: type :: name :: left :: dimension :: rest) =
      some (.name name.lexeme) :: some (.dimension dimension.lexeme) :: words rest := by
  obtain ⟨lexeme, kind, line⟩ := t
  obtain rfl : kind = .recipe := h
  rw [words]

theorem word_of_isMark {t : Token} (h : t.kind.isMark = true) :
    t.kind ≠ .recipe ∧ t.word = [] := by
  obtain ⟨lexeme, kind, line⟩ := t
  refine ⟨?_, ?_⟩
  · rintro rfl
    cases h
  · cases kind <;> first | rfl | cases h

theorem word_of_literal? {t : Token} {v : Literal} (h : t.literal? = some v) :
    t.kind ≠ .recipe ∧ t.word = [some (.literal v)] := by
  obtain ⟨lexeme, kind, line⟩ := t
  refine ⟨?_, ?_⟩
  · rintro rfl
    cases h
  · cases kind <;> first | (simp only [word, h]; rfl) | cases h

end Token

/-! ### The words of programs -/

mutual
/-- The words of an expression. -/
def Expr.words : Expr → List Word
  | .literal v _ => [.literal v]
  | .var name _ => [.name name]
  | .element name index _ => [.name name, .literal (.pinch index)]
  | .call name args _ => .name name :: Expr.wordsAll args
  | .binary _ left right _ => left.words ++ right.words
  | .not operand _ => operand.words
  | .doubleNot operand _ => operand.words

/-- The words of a row of expressions. -/
def Expr.wordsAll : List Expr → List Word
  | [] => []
  | e :: rest => e.words ++ Expr.wordsAll rest
end

/-- The words of a place. -/
def Place.words : Place → List Word
  | .var name => [.name name]
  | .element name index => [.name name, .literal (.pinch index)]

mutual
/-- The words of a statement. -/
def Statement.words : Statement → List Word
  | .call name args _ => .name name :: Expr.wordsAll args
  | .assign target _ value _ => target.words ++ value.words
  | .step name _ _ => [.name name]
  | .taste branches otherwise _ => Branch.wordsAll branches ++ Statement.optionalWords otherwise
  | .flip subject cases otherwise _ =>
    .name subject :: (Case.wordsAll cases ++ Statement.optionalWords otherwise)
  | .forLoop _ var init condition stepVar _ body _ =>
    .name var :: (init.words ++ (condition.words ++ .name stepVar :: Statement.wordsAll body))
  | .simmer condition body _ => condition.words ++ Statement.wordsAll body
  | .keepmix body condition _ => Statement.wordsAll body ++ condition.words
  | .serve parts _ => Expr.wordsAll parts
  | .make target _ => [.name target]

/-- The words of a row of statements. -/
def Statement.wordsAll : List Statement → List Word
  | [] => []
  | s :: rest => s.words ++ Statement.wordsAll rest

/-- The words of statements that may be missing. -/
def Statement.optionalWords : Option (List Statement) → List Word
  | none => []
  | some body => Statement.wordsAll body

/-- The words of a branch. -/
def Branch.words : Branch → List Word
  | ⟨condition, body, _⟩ => condition.words ++ Statement.wordsAll body

/-- The words of a row of branches. -/
def Branch.wordsAll : List Branch → List Word
  | [] => []
  | b :: rest => b.words ++ Branch.wordsAll rest

/-- The words of an arm. -/
def Case.words : Case → List Word
  | ⟨value, body, _⟩ => .literal value :: Statement.wordsAll body

/-- The words of a row of arms. -/
def Case.wordsAll : List Case → List Word
  | [] => []
  | c :: rest => c.words ++ Case.wordsAll rest
end

/-- The word that a literal is. -/
def Literal.words (v : Literal) : List Word := [.literal v]

/-- The words of a declared variable. -/
def Declarator.words (d : Declarator) : List Word := .name d.name :: d.init.elim [] Literal.words

/-- The words of a declaration. -/
def Declaration.words : Declaration → List Word
  | .variables _ ds => ds.flatMap Declarator.words
  | .array a =>
    .name a.name :: .dimension a.dimension :: a.elements.elim [] (·.flatMap Literal.words)

/-- The word that a parameter is. -/
def Parameter.words (p : Parameter) : List Word := [.name p.name]

/-- The words of a function. -/
def Function.words (f : Function) : List Word :=
  .name f.name :: (f.parameters.flatMap Parameter.words ++ (f.locals.flatMap Declaration.words ++
    (Statement.wordsAll f.body ++ f.result.elim [] Expr.words)))

/-- The words of a program. -/
def Program.words (p : Program) : List Word :=
  p.globals.flatMap Declaration.words ++ (p.functions.flatMap Function.words ++
    (p.locals.flatMap Declaration.words ++ (Statement.wordsAll p.body ++
      [.literal (.pinch p.exitCode)])))

/-! ### What is written has the words of its tokens -/

/-- A stretch of tokens has the given words, whatever follows it. -/
def Spells (ts : List Token) (ws : List Word) : Prop :=
  ∀ us, Token.words (ts ++ us) = ws.map some ++ Token.words us

namespace Spells

variable {ts us : List Token} {ws vs : List Word} {t : Token} {kinds : List Token.Kind}
  {ms : List Token}

theorem nil : Spells [] [] := fun _ => rfl

theorem append (hts : Spells ts ws) (hus : Spells us vs) : Spells (ts ++ us) (ws ++ vs) := by
  intro rest
  rw [List.append_assoc, hts, hus, List.map_append, List.append_assoc]

/-- A name before a stretch. -/
theorem name (ht : t.kind = .ident) (h : Spells ts ws) :
    Spells (t :: ts) (.name t.lexeme :: ws) := by
  intro us
  have hne : t.kind ≠ .recipe := by simp [ht]
  rw [List.cons_append, Token.words_cons hne, h, Token.word, ht]
  rfl

theorem literal {v : Literal} (ht : t.literal? = some v) : Spells [t] [.literal v] := by
  intro us
  obtain ⟨hne, hword⟩ := Token.word_of_literal? ht
  rw [List.singleton_append, Token.words_cons hne, hword]
  rfl

/-- A mark before a stretch. -/
theorem skip (ht : t.kind.isMark = true) (h : Spells ts ws) : Spells (t :: ts) ws := by
  intro us
  obtain ⟨hne, hword⟩ := Token.word_of_isMark ht
  rw [List.cons_append, Token.words_cons hne, hword, h]
  rfl

/-- Marks before a stretch. -/
theorem marks (hmarks : Marks kinds ms) (hkinds : kinds.all Token.Kind.isMark = true)
    (h : Spells ts ws) : Spells (ms ++ ts) ws := by
  subst hmarks
  induction ms with
  | nil => exact h
  | cons t ms ih =>
    rw [List.map_cons, List.all_cons, Bool.and_eq_true] at hkinds
    exact .skip hkinds.1 (ih hkinds.2)

/-- Marks behind a stretch. -/
theorem close (h : Spells ts ws) (hmarks : Marks kinds ms)
    (hkinds : kinds.all Token.Kind.isMark = true) : Spells (ts ++ ms) ws := by
  have hnone := Spells.marks hmarks hkinds .nil
  rw [List.append_nil] at hnone
  simpa using h.append hnone

end Spells

section
variable {α : Type} {item : α → List Token → Prop} {words : α → List Word}
  {separator : Token.Kind} {opening closing : List Token.Kind}

theorem Rowed.spells (hitem : ∀ a ts, item a ts → Spells ts (words a)) {as : List α}
    {ts : List Token} (h : Rowed item as ts) : Spells ts (as.flatMap words) := by
  induction h with
  | nil => exact .nil
  | cons first _ ih => exact (hitem _ _ first).append ih

theorem Trailed.spells (hitem : ∀ a ts, item a ts → Spells ts (words a))
    (hseparator : separator.isMark = true) {as : List α} {ts : List Token}
    (h : Trailed item separator as ts) : Spells ts (as.flatMap words) := by
  induction h with
  | nil => exact .nil
  | cons separates first _ ih =>
    exact .marks separates (by simp [hseparator]) ((hitem _ _ first).append ih)

theorem Listed.spells (hitem : ∀ a ts, item a ts → Spells ts (words a))
    (hseparator : separator.isMark = true) {as : List α} {ts : List Token}
    (h : Listed item separator as ts) : Spells ts (as.flatMap words) := by
  cases h with
  | nil => exact .nil
  | cons first rest => exact (hitem _ _ first).append (rest.spells hitem hseparator)

theorem Optionally.spells (hitem : ∀ a ts, item a ts → Spells ts (words a))
    (hopening : opening.all Token.Kind.isMark = true)
    (hclosing : closing.all Token.Kind.isMark = true) {a : Option α} {ts : List Token}
    (h : Optionally item opening closing a ts) : Spells ts (a.elim [] words) := by
  cases h with
  | none => exact .nil
  | some opens inner closes =>
    exact .marks opens hopening ((hitem _ _ inner).close closes hclosing)

end

theorem Literal.Written.spells {v : Literal} {ts : List Token} (h : v.Written ts) :
    Spells ts v.words := by
  obtain ⟨hspells⟩ := h
  exact .literal hspells

theorem BinaryOp.isMark_kind (op : BinaryOp) : [op.kind].all Token.Kind.isMark = true := by
  cases op <;> rfl

theorem AssignOp.isMark_kind (op : AssignOp) : [op.kind].all Token.Kind.isMark = true := by
  cases op <;> rfl

theorem StepOp.isMark_kind (op : StepOp) : [op.kind].all Token.Kind.isMark = true := by
  cases op <;> rfl

theorem DataType.isMark_kind (type : DataType) : [type.kind].all Token.Kind.isMark = true := by
  cases type <;> rfl

/-! #### Expressions -/

theorem Expr.wordsAll_eq (es : List Expr) : Expr.wordsAll es = es.flatMap Expr.words := by
  induction es with
  | nil => rfl
  | cons e es ih => rw [Expr.wordsAll, ih, List.flatMap_cons]

mutual
theorem Expr.Written.spells {e : Expr} {ts : List Token} (h : e.Written ts) :
    Spells ts e.words := by
  match h with
  | .literal spells => exact .literal spells
  | .var named => exact .name named .nil
  | .element named opens indexed closes =>
    exact .name named (.marks opens rfl (indexed.spells.close closes rfl))
  | .call named opens args closes =>
    exact .name named (.marks opens rfl ((Expr.spells_args args).close closes rfl))
  | .binary left operates right =>
    exact left.spells.append (.marks operates (BinaryOp.isMark_kind _) right.spells)
  | .not opens opens' operand closes =>
    exact .skip (opens ▸ rfl) (.marks opens' rfl (operand.spells.close closes rfl))
  | .doubleNot opens opens' operand closes =>
    exact .skip (opens ▸ rfl) (.marks opens' rfl (operand.spells.close closes rfl))
  | .group opens inner closes => exact .marks opens rfl (inner.spells.close closes rfl)

theorem Expr.spells_args {es : List Expr} {ts : List Token}
    (h : Listed Expr.Written .comma es ts) : Spells ts (Expr.wordsAll es) := by
  match h with
  | .nil => exact .nil
  | .cons first rest => exact first.spells.append (spells_furtherArgs rest)

theorem Expr.spells_furtherArgs {es : List Expr} {ts : List Token}
    (h : Trailed Expr.Written .comma es ts) : Spells ts (Expr.wordsAll es) := by
  match h with
  | .nil => exact .nil
  | .cons separates first rest =>
    exact .marks separates rfl (first.spells.append (spells_furtherArgs rest))
end

theorem Expr.spells_parts {es : List Expr} {ts : List Token}
    (h : Listed Expr.Written .plus es ts) : Spells ts (Expr.wordsAll es) := by
  rw [Expr.wordsAll_eq]
  exact h.spells (fun _ _ he => he.spells) rfl

/-! #### Statements -/

theorem StepOp.Written.spells {op : StepOp} {name : Token} {ts : List Token}
    (h : op.Written name ts) (hname : name.kind = .ident) : Spells ts [.name name.lexeme] := by
  cases h with
  | after operates => exact .name hname (Spells.close .nil operates op.isMark_kind)
  | before operates => exact .marks operates op.isMark_kind (.name hname .nil)

mutual
theorem Statement.Written.spells {s : Statement} {ts : List Token} (h : s.Written ts) :
    Spells ts s.words := by
  match h with
  | .call named opens args closes =>
    exact .name named (.marks opens rfl ((Expr.spells_args args).close closes rfl))
  | .assign named operates value closes =>
    exact .name named (.marks operates (AssignOp.isMark_kind _) (value.spells.close closes rfl))
  | .assignElement named opens indexed closes operates value closes' =>
    have hvalue := Spells.marks operates (AssignOp.isMark_kind _) (value.spells.close closes' rfl)
    exact .name named (.marks opens rfl (indexed.spells.append (.marks closes rfl hvalue)))
  | .stepAfter named operates closes =>
    exact .name named (.marks operates (StepOp.isMark_kind _) (Spells.close .nil closes rfl))
  | .stepBefore operates named closes =>
    have hname := Spells.name named (Spells.close .nil closes rfl)
    exact .marks (Marks.singleton operates) (StepOp.isMark_kind _) hname
  | .taste first rest otherwise =>
    have hbranches := (first.spells rfl).append (Statement.spells_branches rest)
    have htaste := hbranches.append (Statement.spells_otherwise otherwise)
    rwa [List.append_assoc] at htaste
  | .flip opens opens' named closes cases otherwise closes' =>
    have hotherwise := (Statement.spells_default otherwise).close closes' rfl
    have hcases := Spells.marks closes rfl ((Statement.spells_cases cases).append hotherwise)
    exact .skip (opens ▸ rfl) (.marks opens' rfl (.name named hcases))
  | .forLoop opens opens' declared named assigned init ends condition ends' named' step closes body
      closes' =>
    have hbody := Spells.marks closes rfl ((Statement.spells_body body).close closes' rfl)
    have hstep := Spells.marks ends' rfl ((step.spells named').append hbody)
    have htest := Spells.marks ends rfl (condition.spells.append hstep)
    have hinit := Spells.name named (.marks assigned rfl (init.spells.append htest))
    exact .skip (opens ▸ rfl) (.marks opens' rfl (.marks declared (by split <;> rfl) hinit))
  | .simmer opens opens' condition closes body closes' =>
    have hbody := Spells.marks closes rfl ((Statement.spells_body body).close closes' rfl)
    exact .skip (opens ▸ rfl) (.marks opens' rfl (condition.spells.append hbody))
  | .keepmix opens opens' body closes condition closes' =>
    have htest := Spells.marks closes rfl (condition.spells.close closes' rfl)
    exact .skip (opens ▸ rfl) (.marks opens' rfl ((Statement.spells_body body).append htest))
  | .serve opens opens' parts closes =>
    exact .skip (opens ▸ rfl) (.marks opens' rfl ((Expr.spells_parts parts).close closes rfl))
  | .make opens opens' named closes =>
    exact .skip (opens ▸ rfl) (.marks opens' rfl (.name named (Spells.close .nil closes rfl)))

theorem Statement.spells_body {body : List Statement} {ts : List Token}
    (h : Rowed Statement.Written body ts) : Spells ts (Statement.wordsAll body) := by
  match h with
  | .nil => exact .nil
  | .cons first rest => exact first.spells.append (Statement.spells_body rest)

theorem Statement.spells_otherwise {body : Option (List Statement)} {ts : List Token}
    (h : Optionally (Rowed Statement.Written) [.mix, .leftBrace] [.rightBrace] body ts) :
    Spells ts (Statement.optionalWords body) := by
  match h with
  | .none => exact .nil
  | .some opens inner closes =>
    exact .marks opens rfl ((Statement.spells_body inner).close closes rfl)

theorem Statement.spells_default {body : Option (List Statement)} {ts : List Token}
    (h : Optionally (Rowed Statement.Written) [.defaultArm, .colon] [.chop, .semicolon] body ts) :
    Spells ts (Statement.optionalWords body) := by
  match h with
  | .none => exact .nil
  | .some opens inner closes =>
    exact .marks opens rfl ((Statement.spells_body inner).close closes rfl)

theorem Branch.Written.spells {kind : Token.Kind} {b : Branch} {ts : List Token}
    (h : b.Written kind ts) (hkind : kind.isMark = true) : Spells ts b.words := by
  match h with
  | .mk opens opens' condition closes body closes' =>
    have hbody := Spells.marks closes rfl ((Statement.spells_body body).close closes' rfl)
    exact .skip (opens ▸ hkind) (.marks opens' rfl (condition.spells.append hbody))

theorem Statement.spells_branches {bs : List Branch} {ts : List Token}
    (h : Rowed (Branch.Written .elif) bs ts) : Spells ts (Branch.wordsAll bs) := by
  match h with
  | .nil => exact .nil
  | .cons first rest => exact (first.spells rfl).append (Statement.spells_branches rest)

theorem Case.Written.spells {c : Case} {ts : List Token} (h : c.Written ts) :
    Spells ts c.words := by
  match h with
  | .mk opens value divides body closes =>
    have hbody := Spells.marks divides rfl ((Statement.spells_body body).close closes rfl)
    exact .skip (opens ▸ rfl) (value.spells.append hbody)

theorem Statement.spells_cases {cs : List Case} {ts : List Token}
    (h : Rowed Case.Written cs ts) : Spells ts (Case.wordsAll cs) := by
  match h with
  | .nil => exact .nil
  | .cons first rest => exact first.spells.append (Statement.spells_cases rest)
end

/-! #### Declarations, functions, programs -/

theorem Declarator.Written.spells {d : Declarator} {ts : List Token} (h : d.Written ts) :
    Spells ts d.words := by
  obtain ⟨named, init⟩ := h
  exact .name named (init.spells (fun _ _ hv => hv.spells) rfl rfl)

/-- The length of an array is a word of its own. -/
theorem Spells.array {head type name left dimension : Token} {ts : List Token} {ws : List Word}
    (hhead : head.kind = .recipe) (h : Spells ts ws) :
    Spells (head :: type :: name :: left :: dimension :: ts)
      (.name name.lexeme :: .dimension dimension.lexeme :: ws) := by
  intro us
  have hwords := Token.words_array hhead type name left dimension (ts ++ us)
  rw [h us] at hwords
  exact hwords

theorem Declaration.Written.spells {d : Declaration} {ts : List Token} (h : d.Written ts) :
    Spells ts d.words := by
  match h with
  | .variables typed written closes =>
    have hwritten := written.spells (fun _ _ hd => hd.spells) rfl
    exact .marks typed (DataType.isMark_kind _) (hwritten.close closes rfl)
  | .array opens typed named opens' measured closes written closes' =>
    obtain ⟨head, rfl, hhead⟩ := opens.exists_eq
    obtain ⟨type, rfl, -⟩ := typed.exists_eq
    obtain ⟨left, rfl, -⟩ := opens'.exists_eq
    have helements := written.spells (fun _ _ hvs => hvs.spells (fun _ _ hv => hv.spells) rfl)
      rfl rfl
    exact .array hhead (.marks closes rfl (helements.close closes' rfl))

theorem Parameter.Written.spells {p : Parameter} {ts : List Token} (h : p.Written ts) :
    Spells ts p.words := by
  obtain ⟨typed, named⟩ := h
  exact .marks typed (DataType.isMark_kind _) (.name named .nil)

/-- The type of the result is no word. -/
theorem Function.spells_returns {returns : Option DataType} {ts : List Token}
    (h : Optionally (fun type => Marks [DataType.kind type]) [] [] returns ts) : Spells ts [] := by
  have htype := h.spells (fun type _ htype => Spells.close .nil htype type.isMark_kind) rfl rfl
  cases returns with
  | none => exact htype
  | some type => exact htype

theorem Function.Written.spells {f : Function} {ts : List Token} (h : f.Written ts) :
    Spells ts f.words := by
  cases h with
  | @mk _ _ returns _ _ _ _ _ _ _ _ _ _ _ _ opens typed named opens' parameters closes locals body
      _ result closes' =>
    have hresult := (result.spells (fun _ _ he => he.spells) rfl rfl).close closes' rfl
    have hbody := (Statement.spells_body body).append hresult
    have hlocals := (locals.spells fun _ _ hd => hd.spells).append hbody
    have hparameters := parameters.spells (fun _ _ hp => hp.spells) rfl
    have hrest := hparameters.append (.marks closes rfl hlocals)
    have hname := Spells.name named (.marks opens' rfl hrest)
    have hkind : (if returns.isSome then Token.Kind.full else .hungry).isMark = true := by
      split <;> rfl
    exact .skip (opens ▸ hkind) ((Function.spells_returns typed).append hname)

theorem Program.Written.spells {p : Program} {ts : List Token} (h : p.Written ts) :
    Spells ts p.words := by
  cases h with
  | mk opens globals functions enters locals body spits exits closes =>
    have hexit := Spells.marks spits rfl ((Spells.literal exits).close closes rfl)
    have hbody := (Statement.spells_body body).append hexit
    have hlocals := Spells.marks enters rfl ((locals.spells fun _ _ hd => hd.spells).append hbody)
    have hfunctions := (functions.spells fun _ _ hf => hf.spells).append hlocals
    exact .marks opens rfl ((globals.spells fun _ _ hd => hd.spells).append hfunctions)

/-- **A program has the words of its tokens**, in their order. -/
theorem Program.Written.words_eq {p : Program} {ts : List Token} (h : p.Written ts) :
    Token.words ts = p.words.map some := by
  have hwords := h.spells []
  rwa [List.append_nil, Token.words, List.append_nil] at hwords

end Bistro
