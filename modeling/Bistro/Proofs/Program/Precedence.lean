import Bistro.Program.Precedence

/-!
# Chains and their trees

The tree of a chain has the loosest operator at its root, the last one if several bind equally
loose.  What stands before this operator is its left operand, read as a chain by itself, and what
stands behind it is its right operand.  So operators of one level group to the left.

The reading from left to right keeps the operators that wait, and the waiting ones below an operator
that binds tighter are left alone.  This is why the two parts of a chain are read as if each were
there alone.

## Main definitions

* `Expr.Splits` — a chain that is divided at its last loosest operator.
* `Expr.Grouping` — a tree of operators over whole operands.
* `Expr.foldStacks?` — the reading with one stack for operands and one for operators.

## Main results

* `Expr.exists_splits` — every chain with an operator has a last loosest one.
* `Expr.ofChain_of_splits` — **a chain is divided at its last loosest operator.**
* `Expr.foldStacks?_eq` — two separate stacks never run out of operands.
* `Expr.chain_folds_by_precedence` — **the tree of a chain is the one that precedence demands.**
-/

namespace Bistro.Expr

variable {first next last : Expr} {op : BinaryOp} {waiting below : List Waiting}
  {before after rest : List (BinaryOp × Expr)}

/-! ### The last loosest operator -/

/-- A chain behind its first operand is divided at its loosest operator, the last one if several
bind equally loose. -/
structure Splits (rest before : List (BinaryOp × Expr)) (op : BinaryOp) (next : Expr)
    (after : List (BinaryOp × Expr)) : Prop where
  /-- The operator stands between the two parts, with its right operand. -/
  eq : rest = before ++ (op, next) :: after
  /-- No operator before it is looser. -/
  before : ∀ p ∈ before, op.precedence ≤ p.1.precedence
  /-- All operators behind it are tighter. -/
  after : ∀ p ∈ after, op.precedence < p.1.precedence

/-- **Every chain with an operator has a last loosest one.** -/
theorem exists_splits (h : rest ≠ []) :
    ∃ before op next after, Splits rest before op next after := by
  induction rest with
  | nil => exact absurd rfl h
  | cons p rest ih =>
    cases rest with
    | nil => exact ⟨[], p.1, p.2, [], rfl, nofun, nofun⟩
    | cons q rest =>
      obtain ⟨before, op, next, after, heq, hbefore, hafter⟩ := ih (List.cons_ne_nil _ _)
      -- the first operator is the loosest one only if all others are tighter
      by_cases hp : p.1.precedence < op.precedence
      · refine ⟨[], p.1, p.2, q :: rest, rfl, nofun, fun r hr => ?_⟩
        rw [heq] at hr
        rcases List.mem_append.1 hr with hr | hr
        · exact Nat.lt_of_lt_of_le hp (hbefore r hr)
        · rcases List.mem_cons.1 hr with rfl | hr
          · exact hp
          · exact Nat.lt_trans hp (hafter r hr)
      · refine ⟨p :: before, op, next, after, by rw [heq, List.cons_append], ?_, hafter⟩
        exact List.forall_mem_cons.2 ⟨Nat.not_lt.1 hp, hbefore⟩

/-! ### Reading a part of a chain -/

theorem settle_cons (precedence : Nat) (w : Waiting) (waiting : List Waiting) (last : Expr) :
    settle precedence (w :: waiting) last =
      if w.2.precedence < precedence then (w :: waiting, last)
      else settle precedence waiting (join w.2 w.1 last) := rfl

theorem readChain_cons (waiting : List Waiting) (last : Expr) (p : BinaryOp × Expr)
    (rest : List (BinaryOp × Expr)) :
    readChain waiting last (p :: rest) =
      readChain (((settle p.1.precedence waiting last).2, p.1) ::
        (settle p.1.precedence waiting last).1) p.2 rest := rfl

/-- Waiting operators below one that is loose enough stay as they are. -/
theorem settle_append {precedence : Nat}
    (h : ∀ w ∈ below.head?, w.2.precedence < precedence) (waiting : List Waiting) (last : Expr) :
    settle precedence (waiting ++ below) last =
      ((settle precedence waiting last).1 ++ below, (settle precedence waiting last).2) := by
  induction waiting generalizing last with
  | nil =>
    cases below with
    | nil => rfl
    | cons w below =>
      have hw : w.2.precedence < precedence := h w rfl
      rw [List.nil_append, settle_cons, if_pos hw]
      rfl
  | cons w waiting ih =>
    rw [List.cons_append, settle_cons, settle_cons]
    split
    · rfl
    · exact ih _

/-- An operator that all waiting ones are tighter than completes them all. -/
theorem settle_eq_of_le {precedence : Nat} (h : ∀ w ∈ waiting, precedence ≤ w.2.precedence)
    (last : Expr) : settle precedence waiting last = ([], (settle 0 waiting last).2) := by
  induction waiting generalizing last with
  | nil => rfl
  | cons w waiting ih =>
    obtain ⟨hw, hwaiting⟩ := List.forall_mem_cons.1 h
    rw [settle_cons, settle_cons, if_neg (Nat.not_lt.2 hw), if_neg (Nat.not_lt_zero _)]
    exact ih hwaiting _

theorem mem_settle {precedence : Nat} {w : Waiting} (h : w ∈ (settle precedence waiting last).1) :
    w ∈ waiting := by
  induction waiting generalizing last with
  | nil => exact h
  | cons v waiting ih =>
    rw [settle_cons] at h
    split at h
    · exact h
    · exact List.mem_cons_of_mem _ (ih h)

/-- Up to an operator that none before it is looser than, a chain is read by itself: then this
operator waits with what was read as its left operand. -/
theorem readChain_before (waiting below : List Waiting)
    (hbelow : ∀ w ∈ below.head?, w.2.precedence < op.precedence)
    (hwaiting : ∀ w ∈ waiting, op.precedence ≤ w.2.precedence)
    (hbefore : ∀ p ∈ before, op.precedence ≤ p.1.precedence) :
    readChain (waiting ++ below) last (before ++ (op, next) :: after) =
      readChain ((readChain waiting last before, op) :: below) next after := by
  induction before generalizing waiting last with
  | nil =>
    rw [List.nil_append, readChain_cons, settle_append hbelow, settle_eq_of_le hwaiting]
    rfl
  | cons p before ih =>
    obtain ⟨hp, hbefore⟩ := List.forall_mem_cons.1 hbefore
    rw [List.cons_append, readChain_cons, readChain_cons,
      settle_append fun w hw => Nat.lt_of_lt_of_le (hbelow w hw) hp]
    -- what waits above is `p` now and some of what waited before
    refine ih ((_, p.1) :: _) (List.forall_mem_cons.2 ⟨hp, fun w hw => ?_⟩) hbefore
    exact hwaiting w (mem_settle hw)

/-- A chain of tighter operators is read by itself, and becomes the right operand of the one that
waits below. -/
theorem readChain_after (waiting : List Waiting)
    (hafter : ∀ p ∈ after, op.precedence < p.1.precedence) (left : Expr) :
    readChain (waiting ++ [(left, op)]) last after =
      join op left (readChain waiting last after) := by
  induction after generalizing waiting last with
  | nil =>
    rw [readChain, readChain]
    induction waiting generalizing last with
    | nil => rfl
    | cons w waiting ih =>
      rw [List.cons_append, settle_cons, settle_cons, if_neg (Nat.not_lt_zero _),
        if_neg (Nat.not_lt_zero _)]
      exact ih
  | cons p after ih =>
    obtain ⟨hp, hafter⟩ := List.forall_mem_cons.1 hafter
    have hbelow : ∀ w ∈ [(left, op)].head?, w.2.precedence < p.1.precedence := by
      intro w hw
      obtain rfl := Option.some.inj hw
      exact hp
    rw [readChain_cons, readChain_cons, settle_append hbelow]
    exact ih ((_, p.1) :: _) hafter

/-! ### The tree of a chain -/

theorem ofChain_append (hbefore : ∀ p ∈ before, op.precedence ≤ p.1.precedence)
    (hafter : ∀ p ∈ after, op.precedence < p.1.precedence) :
    ofChain first (before ++ (op, next) :: after) =
      join op (ofChain first before) (ofChain next after) := by
  calc readChain [] first (before ++ (op, next) :: after)
      = readChain [(ofChain first before, op)] next after :=
        readChain_before [] [] (by simp) (by simp) hbefore
    _ = join op (ofChain first before) (ofChain next after) :=
        readChain_after [] hafter _

/-- A chain stands on the line of its first operand. -/
theorem line_ofChain (first : Expr) (rest : List (BinaryOp × Expr)) :
    (ofChain first rest).line = first.line := by
  induction hn : rest.length using Nat.strongRecOn generalizing rest with
  | _ n ih =>
    subst hn
    by_cases hrest : rest = []
    · rw [hrest]
      rfl
    · obtain ⟨before, op, next, after, rfl, hbefore, hafter⟩ := exists_splits hrest
      rw [ofChain_append hbefore hafter]
      exact ih before.length (by simp) before rfl

/-- **A chain is divided at its last loosest operator**, which is the root of its tree. -/
theorem ofChain_of_splits (h : Splits rest before op next after) (first : Expr) :
    ofChain first rest =
      .binary op (ofChain first before) (ofChain next after) first.line := by
  rw [h.eq, ofChain_append h.before h.after, join, line_ofChain]

example (a b c d : Expr) : ofChain a [(.sub, b), (.mul, c), (.sub, d)] =
    .binary .sub (.binary .sub a (.binary .mul b c b.line) a.line) d a.line := rfl

/-! ### Whole operands -/

/-- A tree of operators; the operands at its leaves are not looked into. -/
inductive Grouping
  /-- An operand of the chain. -/
  | operand (e : Expr)
  /-- Two parts of the chain under an operator. -/
  | node (op : BinaryOp) (left right : Grouping)

namespace Grouping

/-- The leftmost operand. -/
def leftmost : Grouping → Expr
  | operand e => e
  | node _ left _ => left.leftmost

/-- The operators, each with the operand behind it, from left to right. -/
def chain : Grouping → List (BinaryOp × Expr)
  | operand _ => []
  | node op left right => left.chain ++ (op, right.leftmost) :: right.chain

/-- The expression; each node is on the line of its leftmost operand. -/
def toExpr : Grouping → Expr
  | operand e => e
  | node op left right => .binary op left.toExpr right.toExpr left.leftmost.line

end Grouping

/-- The tree of a chain has the operands of the chain at its leaves, in their order. -/
theorem exists_grouping (first : Expr) (rest : List (BinaryOp × Expr)) :
    ∃ g : Grouping, g.leftmost = first ∧ g.chain = rest ∧ g.toExpr = ofChain first rest := by
  induction hn : rest.length using Nat.strongRecOn generalizing first rest with
  | _ n ih =>
    subst hn
    by_cases hrest : rest = []
    · rw [hrest]
      exact ⟨.operand first, rfl, rfl, rfl⟩
    · obtain ⟨before, op, next, after, hsplits⟩ := exists_splits hrest
      have hlength : rest.length = before.length + (after.length + 1) := by simp [hsplits.eq]
      obtain ⟨left, hleft, hbefore, hleftTree⟩ := ih before.length (by omega) first before rfl
      obtain ⟨right, hright, hafter, hrightTree⟩ := ih after.length (by omega) next after rfl
      refine ⟨.node op left right, hleft, ?_, ?_⟩
      · rw [Grouping.chain, hbefore, hright, hafter, hsplits.eq]
      · rw [Grouping.toExpr, hleftTree, hrightTree, hleft, ofChain_of_splits hsplits]

/-! ### Two separate stacks -/

/-- Puts the two operands on top of a stack under an operator, if there are two. -/
def reduce? (op : BinaryOp) : List Expr → Option (List Expr)
  | right :: left :: operands => some (join op left right :: operands)
  | _ => none

/-- Takes the operators that bind at least as tight as `precedence` off a stack, one after the
other, and reduces the operands by each. -/
def reduceWhile? (precedence : Nat) :
    List BinaryOp → List Expr → Option (List BinaryOp × List Expr)
  | [], operands => some ([], operands)
  | op :: operators, operands =>
    if op.precedence < precedence then some (op :: operators, operands)
    else (reduce? op operands).bind (reduceWhile? precedence operators)

/-- Reads the rest of a chain with a stack of operators and one of operands. -/
def foldRest? (operators : List BinaryOp) (operands : List Expr) :
    List (BinaryOp × Expr) → Option Expr
  | [] => (reduceWhile? 0 operators operands).bind fun reduced => reduced.2.head?
  | (op, next) :: rest =>
    (reduceWhile? op.precedence operators operands).bind fun reduced =>
      foldRest? (op :: reduced.1) (next :: reduced.2) rest

/-- Reads a chain with two stacks; this would fail if there were too few operands. -/
def foldStacks? (first : Expr) (rest : List (BinaryOp × Expr)) : Option Expr :=
  foldRest? [] [first] rest

/-- There is one operand more than there are operators: each that waits has a left operand. -/
theorem reduceWhile?_eq (precedence : Nat) (waiting : List Waiting) (last : Expr) :
    reduceWhile? precedence (waiting.map Prod.snd) (last :: waiting.map Prod.fst) =
      some ((settle precedence waiting last).1.map Prod.snd,
        (settle precedence waiting last).2 :: (settle precedence waiting last).1.map Prod.fst) := by
  induction waiting generalizing last with
  | nil => rfl
  | cons w waiting ih =>
    rw [List.map_cons, List.map_cons, reduceWhile?, settle_cons]
    split
    · rfl
    · rw [reduce?, Option.bind_some]
      exact ih _

theorem foldRest?_eq (waiting : List Waiting) (last : Expr) (rest : List (BinaryOp × Expr)) :
    foldRest? (waiting.map Prod.snd) (last :: waiting.map Prod.fst) rest =
      some (readChain waiting last rest) := by
  induction rest generalizing waiting last with
  | nil =>
    rw [foldRest?, reduceWhile?_eq, Option.bind_some]
    rfl
  | cons p rest ih =>
    rw [foldRest?, reduceWhile?_eq, Option.bind_some, readChain_cons]
    exact ih ((_, p.1) :: _) p.2

/-- Two separate stacks never run out of operands. -/
theorem foldStacks?_eq (first : Expr) (rest : List (BinaryOp × Expr)) :
    foldStacks? first rest = some (ofChain first rest) :=
  foldRest?_eq [] first rest

/-! ### Precedence -/

/-- **The tree of a chain is the one that precedence demands.**  The reading never fails.  A chain
without operators is its operand.  Any other has its last loosest operator at the root, over the
trees of the chains before and behind it, on the line of the first operand.  All operands are
leaves of the tree in their order, whatever they are themselves, and every node above them is on the
line of its leftmost operand. -/
theorem chain_folds_by_precedence (first : Expr) (rest : List (BinaryOp × Expr)) :
    foldStacks? first rest = some (ofChain first rest) ∧
      (rest = [] ∧ ofChain first rest = first ∨
        ∃ before op next after, Splits rest before op next after ∧
          ofChain first rest =
            .binary op (ofChain first before) (ofChain next after) first.line) ∧
      ∃ g : Grouping, g.leftmost = first ∧ g.chain = rest ∧ g.toExpr = ofChain first rest := by
  refine ⟨foldStacks?_eq first rest, ?_, exists_grouping first rest⟩
  by_cases hrest : rest = []
  · exact .inl ⟨hrest, by rw [hrest]; rfl⟩
  · obtain ⟨before, op, next, after, hsplits⟩ := exists_splits hrest
    exact .inr ⟨before, op, next, after, hsplits, ofChain_of_splits hsplits first⟩

end Bistro.Expr
