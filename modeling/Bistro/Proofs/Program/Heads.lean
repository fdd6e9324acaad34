import Bistro.Proofs.Program.Written

/-!
# What the parts of a program begin with

The kind of its first token tells apart most of what can stand at a place of a program.  So if the
words of a program are known, a construct that would begin with another word is not there, and a
list ends where the next word is no separator.

## Main definitions

* `Token.bare`, `Token.Kind.bare` — words: tokens without their lines.
* `Headed` — a row of tokens begins with a token of one of the given kinds.
* `Declaration.heads`, `Function.heads`, `Statement.heads`, `Expr.heads` — what these begin with.

## Main results

* `Marks.split` — marks are the first of the words.
* `Rowed.eq_nil`, `Trailed.eq_nil` — lists that do not begin with the next word are empty.
* `Expr.Written.eq_literal` — an expression that begins with a literal is this literal.
-/

namespace Bistro

/-! ### Words -/

/-- A token without its line. -/
def Token.bare (t : Token) : Token.Kind × String := (t.kind, t.lexeme)

/-- A keyword, an operator or a punctuation mark without a line. -/
def Token.Kind.bare (kind : Token.Kind) : Token.Kind × String := (kind, kind.spelling)

/-- Marks have the kinds of the first words, and the others are those of what is behind them. -/
theorem Marks.split {kinds : List Token.Kind} {ms us : List Token} (h : Marks kinds ms)
    {ws : List (Token.Kind × String)} (hws : (ms ++ us).map Token.bare = ws) :
    (ws.take kinds.length).map Prod.fst = kinds ∧ us.map Token.bare = ws.drop kinds.length := by
  have hlength : (ms.map Token.bare).length = kinds.length := by
    rw [List.length_map, ← List.length_map, h]
  have hkinds : (ms.map Token.bare).map Prod.fst = kinds := by
    rw [List.map_map]
    exact h
  rw [← hws, List.map_append, ← hlength, List.take_left, List.drop_left]
  exact ⟨hkinds, rfl⟩

/-- A row of tokens begins with a token of one of the given kinds. -/
def Headed (heads : List Token.Kind) (ts : List Token) : Prop :=
  ∃ t rest, ts = t :: rest ∧ t.kind ∈ heads

section
variable {heads : List Token.Kind} {ts us : List Token} {w : Token.Kind × String}
  {ws : List (Token.Kind × String)}

theorem Headed.mono {heads' : List Token.Kind} (h : Headed heads ts) (hsub : heads ⊆ heads') :
    Headed heads' ts := by
  obtain ⟨t, rest, heq, ht⟩ := h
  exact ⟨t, rest, heq, hsub ht⟩

/-- The first of the words has one of the kinds. -/
theorem Headed.kind_mem (h : Headed heads ts) (hws : (ts ++ us).map Token.bare = w :: ws) :
    w.1 ∈ heads := by
  obtain ⟨t, rest, rfl, ht⟩ := h
  obtain ⟨rfl, -⟩ := List.cons.inj hws
  exact ht

variable {α : Type} {item : α → List Token → Prop} {as : List α}

/-- There is no item where none can begin with the next word. -/
theorem Rowed.eq_nil (h : Rowed item as ts) (hitem : ∀ a ts, item a ts → Headed heads ts)
    (hws : (ts ++ us).map Token.bare = w :: ws) (hw : w.1 ∉ heads) : as = [] ∧ ts = [] := by
  cases h with
  | nil => exact ⟨rfl, rfl⟩
  | cons first _ =>
    rw [List.append_assoc] at hws
    exact absurd ((hitem _ _ first).kind_mem hws) hw

/-- There are no more items where the next word does not separate them. -/
theorem Trailed.eq_nil {separator : Token.Kind} (h : Trailed item separator as ts)
    (hws : (ts ++ us).map Token.bare = w :: ws) (hw : w.1 ≠ separator) : as = [] ∧ ts = [] := by
  cases h with
  | nil => exact ⟨rfl, rfl⟩
  | cons separates _ _ =>
    obtain ⟨mark, rfl, hmark⟩ := separates.exists_eq
    obtain ⟨rfl, -⟩ := List.cons.inj hws
    exact absurd hmark hw

end

/-! ### Declarations and functions -/

open Token.Kind in
/-- The kinds of tokens that a declaration can begin with. -/
def Declaration.heads : List Token.Kind := [pinch, skim, pasta, bool, recipe]

theorem DataType.kind_mem_heads (type : DataType) : type.kind ∈ Declaration.heads := by
  cases type <;> decide

theorem Declaration.Written.headed {d : Declaration} {ts : List Token} (h : d.Written ts) :
    Headed Declaration.heads ts := by
  rcases h with ⟨typed, -, -⟩ | ⟨opens, -, -, -, -, -, -, -⟩
  · obtain ⟨t, rfl, ht⟩ := typed.exists_eq
    refine ⟨t, _, rfl, ?_⟩
    rw [ht]
    exact DataType.kind_mem_heads _
  · obtain ⟨t, rfl, ht⟩ := opens.exists_eq
    refine ⟨t, _, rfl, ?_⟩
    rw [ht]
    decide

/-- The kinds of tokens that a function can begin with. -/
def Function.heads : List Token.Kind := [.full, .hungry]

theorem Function.Written.headed {f : Function} {ts : List Token} (h : f.Written ts) :
    Headed Function.heads ts := by
  cases h with
  | mk opens _ _ _ _ _ _ _ _ _ _ =>
    refine ⟨_, _, rfl, ?_⟩
    rw [opens]
    split <;> decide

/-! ### Statements -/

namespace Statement

/-- The kinds of tokens that a statement can begin with. -/
def heads : Statement → List Token.Kind
  | .call _ _ _ | .assign _ _ _ _ => [.ident]
  | .step _ _ _ => [.ident, .increment, .decrement]
  | .taste _ _ _ => [.taste]
  | .flip _ _ _ _ => [.flip]
  | .forLoop _ _ _ _ _ _ _ _ => [.forLoop]
  | .simmer _ _ _ => [.simmer]
  | .keepmix _ _ _ => [.keepmix]
  | .serve _ _ => [.serve]
  | .make _ _ => [.make]

theorem Written.headed {st : Statement} {ts : List Token} (h : st.Written ts) :
    Headed st.heads ts := by
  cases h with
  | call named | assign named | assignElement named | stepAfter named =>
    exact ⟨_, _, rfl, by simp [heads, named]⟩
  | @stepBefore _ _ op _ operates _ _ =>
    refine ⟨_, _, rfl, ?_⟩
    rw [operates]
    cases op <;> simp [heads, StepOp.kind]
  | taste first _ _ =>
    cases first with
    | mk opens => exact ⟨_, _, rfl, by simp [heads, opens]⟩
  | flip opens | forLoop opens | simmer opens | keepmix opens | serve opens | make opens =>
    exact ⟨_, _, rfl, by simp [heads, opens]⟩

/-- The kinds of tokens that some statement can begin with. -/
def allHeads : List Token.Kind :=
  [.ident, .increment, .decrement, .taste, .flip, .forLoop, .simmer, .keepmix, .serve, .make]

theorem heads_subset (st : Statement) : st.heads ⊆ allHeads := by
  cases st <;> simp [heads, allHeads]

theorem Written.headed_all (st : Statement) (ts : List Token) (h : st.Written ts) :
    Headed allHeads ts :=
  h.headed.mono st.heads_subset

end Statement

/-! ### Expressions -/

/-- The kinds of tokens that an expression can begin with, apart from literals. -/
def Expr.heads : List Token.Kind := [.ident, .bang, .bangBang, .leftParen]

theorem Token.kind_notMem_heads {t : Token} {v : Literal} (h : t.literal? = some v) :
    t.kind ∉ Expr.heads := by
  intro hmem
  simp only [Expr.heads, List.mem_cons, List.not_mem_nil, or_false] at hmem
  unfold Token.literal? at h
  rcases hmem with hkind | hkind | hkind | hkind <;> simp [hkind] at h

/-- An expression that begins with a literal is this literal, unless an operator is behind it. -/
theorem Expr.Written.eq_literal {e : Expr} {ts us rest : List Token} {t : Token} {v : Literal}
    (h : e.Written ts) (hts : ts ++ us = t :: rest) (ht : t.literal? = some v)
    (hrest : ∀ u ∈ rest.head?, ∀ op : BinaryOp, u.kind ≠ op.kind) :
    ts = [t] ∧ e = .literal v t.line := by
  have hclash {head : Token} {ks : List Token} (hks : head :: ks = t :: rest)
      (hhead : head.kind ∈ Expr.heads) : False := by
    obtain ⟨rfl, -⟩ := List.cons.inj hks
    exact Token.kind_notMem_heads ht hhead
  match h with
  | .literal spells =>
    obtain ⟨rfl, -⟩ := List.cons.inj hts
    rw [spells] at ht
    obtain rfl := Option.some.inj ht
    exact ⟨rfl, rfl⟩
  | .var named | .element named _ _ _ | .call named _ _ _ =>
    exact (hclash hts (by simp [Expr.heads, named])).elim
  | .not opens _ _ _ | .doubleNot opens _ _ _ =>
    exact (hclash hts (by simp [Expr.heads, opens])).elim
  | .group opens _ _ =>
    obtain ⟨head, rfl, hhead⟩ := opens.exists_eq
    exact (hclash hts (by simp [Expr.heads, hhead])).elim
  | .binary left operates _ =>
    -- the left operand is the literal, so the operator is behind it
    rw [List.append_assoc] at hts
    obtain ⟨rfl, -⟩ := left.eq_literal hts ht hrest
    obtain ⟨mark, rfl, hmark⟩ := operates.exists_eq
    obtain ⟨-, rfl⟩ := List.cons.inj hts
    exact absurd hmark (hrest mark rfl _)

end Bistro
