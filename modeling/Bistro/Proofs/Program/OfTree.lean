import Bistro.Program.OfTree
import Bistro.Proofs.ParseTree.Reading

/-!
# Sound trees are programs

Every function that reads a part of a program from a sound tree gives a part that is written with
the tokens of the tree, unless one of the literals there spells no value: then it fails at the first
such literal.

## Main results

* `ParseTree.gives_expression`, `ParseTree.gives_statements` — expressions and statements.
* `Program.gives_ofTree` — **every sound tree of a program is turned into one that is written with
  its tokens**, or into an error at the first literal that spells no value.
* `Program.ofTree_cases` — the two cases.
-/

namespace Bistro.ParseTree

/-! ### Literals and operators -/

/-- A node over one of a few tokens is read without fail. -/
theorem exists_leaf {α : Type} (post : α → List Token → Prop) {t : ParseTree}
    {kinds : List Token.Kind} {ns : List Nonterminal} {f : Child t → Except ShapeError α}
    (h : t.Sound) (ht : t.tag ∈ Slot.nodes ns) (hns : ∀ n ∈ ns, layout n = [[.tokens kinds]])
    (hf : ∀ child : Child t, ∀ kind ∈ kinds, child.1.token? = some kind →
      ∃ a, f child = .ok a ∧ ∀ mark, Marks [kind] mark → post a mark) :
    ∃ a, t.firstChild >>= f = .ok a ∧ post a t.tokens ∧ ∃ kind ∈ kinds, Marks [kind] t.tokens := by
  have hrow : Row [.tokens kinds] t.cursor.rest := h.row ht hns
  obtain ⟨child, c, hnext, -, htag, hrest, htokens⟩ := hrow.next (.phrase "a symbol")
  obtain ⟨kind, hkind, htag⟩ := List.mem_map.1 htag
  obtain ⟨a, ha, hpost⟩ := hf child kind hkind (by rw [ParseTree.token?, ← htag])
  rw [List.forall₂_nil_right_iff.1 hrest, tokensAll_nil, List.append_nil, ← tokens_of_node ht,
    tokens_of_token htag.symm] at htokens
  have hmark : Marks [kind] t.tokens := htokens ▸ marks_toToken htag.symm
  refine ⟨a, ?_, hpost _ hmark, kind, hkind, hmark⟩
  rw [firstChild, Cursor.skip, hnext]
  exact ha

/-- Reading a node over one of a few tokens. -/
theorem Gives.leaf {α : Type} {post : α → List Token → Prop} {t : ParseTree}
    {kinds : List Token.Kind} {ns : List Nonterminal} {f : Child t → Except ShapeError α}
    (h : t.Sound) (ht : t.tag ∈ Slot.nodes ns) (hns : ∀ n ∈ ns, layout n = [[.tokens kinds]])
    (hkinds : kinds.all Token.Kind.isPlain = true)
    (hf : ∀ child : Child t, ∀ kind ∈ kinds, child.1.token? = some kind →
      ∃ a, f child = .ok a ∧ ∀ mark, Marks [kind] mark → post a mark) :
    Gives (t.firstChild >>= f) t.tokens post := by
  obtain ⟨a, ha, hpost, kind, hkind, hmark⟩ := exists_leaf post h ht hns hf
  have hplain : [kind].all Token.Kind.isPlain = true := by
    simpa using List.all_eq_true.1 hkinds kind hkind
  exact .ok ha (.marks hmark hplain) hpost

/-- A type is read without fail. -/
theorem exists_dataType {t : ParseTree} (h : t.Sound) (ht : t.tag ∈ Slot.nodes typeNodes) :
    ∃ type, t.dataType = .ok type ∧ Marks [type.kind] t.tokens := by
  have htypes : ∀ n ∈ typeNodes, layout n = layout .dataType := by decide
  suffices hleaf : _ from
    let ⟨type, htype, hmark, _⟩ := exists_leaf (fun type mark => Marks [DataType.kind type] mark)
      h ht htypes hleaf
    ⟨type, htype, hmark⟩
  intro child kind hkind htoken
  simp only [List.mem_cons, List.not_mem_nil, or_false] at hkind
  rw [htoken]
  rcases hkind with rfl | rfl | rfl | rfl <;> exact ⟨_, rfl, fun _ hmark => hmark⟩

theorem gives_dataType {t : ParseTree} (h : t.Sound) (ht : t.tag ∈ Slot.nodes typeNodes) :
    Gives t.dataType t.tokens fun type mark => Marks [type.kind] mark := by
  obtain ⟨type, htype, hmark⟩ := exists_dataType h ht
  exact .ok htype (.marks hmark (by cases type <;> decide)) hmark

theorem gives_assignOp {t : ParseTree} (h : t.Sound)
    (ht : t.tag ∈ Slot.node .assignmentOperator) :
    Gives t.assignOp t.tokens fun op mark => Marks [op.kind] mark := by
  refine .leaf h ht (layout_node _) (by decide) fun child kind hkind htoken => ?_
  simp only [List.mem_cons, List.not_mem_nil, or_false] at hkind
  rw [htoken]
  rcases hkind with rfl | rfl | rfl | rfl | rfl | rfl <;> exact ⟨_, rfl, fun _ hmark => hmark⟩

theorem gives_stepOp {t : ParseTree} (h : t.Sound) (ht : t.tag ∈ Slot.node .unaryOp) :
    Gives t.stepOp t.tokens fun op mark => Marks [op.kind] mark := by
  refine .leaf h ht (layout_node _) (by decide) fun child kind hkind htoken => ?_
  simp only [List.mem_cons, List.not_mem_nil, or_false] at hkind
  rw [htoken]
  rcases hkind with rfl | rfl <;> exact ⟨_, rfl, fun _ hmark => hmark⟩

theorem gives_binaryOp {t : ParseTree} (h : t.Sound) (ht : t.tag ∈ Slot.nodes operatorNodes) :
    Gives t.binaryOp t.tokens fun op mark => Marks [op.kind] mark := by
  have hoperators : ∀ n ∈ operatorNodes, layout n = layout .expressionOperator := by decide
  refine .leaf h ht hoperators (by decide) fun child kind hkind htoken => ?_
  simp only [List.mem_cons, List.not_mem_nil, or_false] at hkind
  rw [htoken]
  rcases hkind with rfl | rfl | rfl | rfl | rfl | rfl | rfl | rfl | rfl | rfl | rfl | rfl | rfl <;>
    exact ⟨_, rfl, fun _ hmark => hmark⟩

/-- A literal is the only one among its tokens that can spell no value. -/
theorem gives_token {α : Type} {t : ParseTree} {kind : Token.Kind} {x : Except ShapeError α}
    {post : α → List Token → Prop} (ht : t.tag = .token kind) (hkind : kind ≠ .recipe)
    (hok : t.toToken.isInvalid = false → ∃ a, x = .ok a ∧ post a [t.toToken])
    (herror : t.toToken.isInvalid = true → x = .error (.invalidLiteral t.lexeme t.line)) :
    Gives x t.tokens post := by
  rw [tokens_of_token ht]
  have hrecipe : t.toToken.kind ≠ .recipe := by rwa [toToken_kind ht]
  cases hinvalid : t.toToken.isInvalid with
  | false =>
    obtain ⟨a, ha, hpost⟩ := hok hinvalid
    exact .ok ha (silent_token hrecipe hinvalid) hpost
  | true => exact .invalid (t := t.toToken) (herror hinvalid) (blames_token hrecipe hinvalid)

theorem gives_integer {t : ParseTree} (ht : t.tag = .token .pinchLiteral) :
    Gives t.integer t.tokens fun n ts => Literal.Written (.pinch n) ts := by
  have hkind := toToken_kind ht
  refine gives_token ht (by decide) (fun hvalid => ?_) fun hinvalid => ?_
  · simp only [Token.isInvalid, hkind, toToken_lexeme, Option.isNone_eq_false_iff] at hvalid
    obtain ⟨n, hn⟩ := Option.isSome_iff_exists.1 hvalid
    refine ⟨n, by rw [integer, hn], .token ?_⟩
    simp [Token.literal?, hkind, hn]
  · simp only [Token.isInvalid, hkind, toToken_lexeme, Option.isNone_iff_eq_none] at hinvalid
    rw [integer, hinvalid]

theorem mem_literalSlot {tag : Tag} {n : Nonterminal} (h : tag ∈ Slot.node n)
    (hn : [n] ⊆ literalNodes) : tag ∈ literalSlot :=
  List.mem_append_left _ (Slot.nodes_subset h hn)

theorem gives_skim {t : ParseTree} (ht : t.tag = .token .skimLiteral) :
    Gives (match Decimal.read? t.lexeme with
      | some x => .ok (.skim x)
      | none => .error (.invalidLiteral t.lexeme t.line)) t.tokens Literal.Written := by
  have hkind := toToken_kind ht
  refine gives_token ht (by decide) (fun hvalid => ?_) fun hinvalid => ?_
  · simp only [Token.isInvalid, hkind, toToken_lexeme, Option.isNone_eq_false_iff] at hvalid
    obtain ⟨x, hx⟩ := Option.isSome_iff_exists.1 hvalid
    refine ⟨.skim x, by rw [hx], .token ?_⟩
    simp [Token.literal?, hkind, hx]
  · simp only [Token.isInvalid, hkind, toToken_lexeme, Option.isNone_iff_eq_none] at hinvalid
    rw [hinvalid]

/-- A token that spells a literal whatever it looks like. -/
theorem gives_plainLiteral {t : ParseTree} {kind : Token.Kind} {v : Literal}
    (ht : t.tag = .token kind) (hkind : kind.isPlain = true) (hv : t.toToken.literal? = some v) :
    Gives (.ok v) t.tokens Literal.Written := by
  rw [tokens_of_token ht]
  exact .ok rfl (silent_plain (toToken_kind ht ▸ hkind)) (.token hv)

theorem gives_literal (t : ParseTree) (h : t.Sound) (ht : t.tag ∈ literalSlot) :
    Gives t.literal t.tokens Literal.Written := by
  rw [literal]
  rcases List.mem_append.1 ht with hnode | htoken
  · -- a nonterminal over a literal
    have hrow : Row [literalSlot] t.children := h.row hnode (by decide)
    rw [tokens_of_node hnode]
    obtain ⟨n, -, hn⟩ := List.mem_map.1 hnode
    rw [← hn]
    refine .firstChild hrow fun child hsound htag => ?_
    exact gives_literal child.1 hsound htag
  · -- the token itself
    obtain ⟨kind, hkind, htag⟩ := List.mem_map.1 htoken
    have htoken := toToken_kind htag.symm
    simp only [List.mem_cons, List.not_mem_nil, or_false] at hkind
    rcases hkind with rfl | rfl | rfl | rfl | rfl <;> rw [← htag]
    · exact (gives_integer htag.symm).map fun n hn => hn
    · exact gives_skim htag.symm
    · exact gives_plainLiteral htag.symm (by decide) (by simp [Token.literal?, htoken])
    · exact gives_plainLiteral htag.symm (by decide) (by simp [Token.literal?, htoken])
    · exact gives_plainLiteral htag.symm (by decide) (by simp [Token.literal?, htoken])
termination_by t.size
decreasing_by exact size_lt_of_mem child.2

/-! ### Expressions -/

mutual
theorem gives_expression (t : ParseTree) (h : t.Sound) (ht : t.tag ∈ Slot.nodes expressionNodes) :
    Gives t.expression t.tokens Expr.Written := by
  have hrow : Row [.nodes operandNodes, .nodes chainNodes] t.cursor.rest := h.row ht (by decide)
  rw [expression, tokens_of_node ht]
  refine .skip hrow fun head c hhead htag hc => ?_
  refine (gives_operand head.1 hhead htag).bind fun first hfirst => ?_
  refine .lastSkip hc fun tail _ htail htag => ?_
  exact (gives_chain tail.1 htail htag).map fun rest hrest => Expr.written_ofChain hfirst hrest
termination_by t.size
decreasing_by all_goals exact size_lt_of_mem (Subtype.property _)

theorem gives_chain (t : ParseTree) (h : t.Sound) (ht : t.tag ∈ Slot.nodes chainNodes) :
    Gives t.chain t.tokens (Rowed Expr.WrittenLink) := by
  rw [chain]
  have hchains : ∀ n ∈ chainNodes, layout n = layout .expressionTail := by decide
  refine h.optional ht hchains (by decide) .nil fun hrow => ?_
  refine .skip hrow fun head c hhead htag hc => ?_
  refine (gives_binaryOp hhead htag).bind fun op hop => ?_
  refine .skip hc fun right c hright htag hc => ?_
  refine (gives_operand right.1 hright htag).bind fun right hright => ?_
  refine .lastSkip hc fun tail _ htail htag => ?_
  refine (gives_chain tail.1 htail htag).map fun rest hrest => ?_
  rw [← List.append_assoc]
  exact .cons (.mk hop hright) hrest
termination_by t.size
decreasing_by all_goals exact size_lt_of_mem (Subtype.property _)

theorem gives_operand (t : ParseTree) (h : t.Sound) (ht : t.tag ∈ Slot.nodes operandNodes) :
    Gives t.operand t.tokens Expr.Written := by
  obtain ⟨slots, hslots, hrow⟩ := h.exists_row ht
    (show ∀ n ∈ operandNodes, layout n = layout .expressionOperand by decide)
  simp only [layout, List.mem_cons, List.not_mem_nil, or_false] at hslots
  rw [operand, tokens_of_node ht]
  rcases hslots with rfl | rfl | rfl | rfl
  · -- a value
    refine .lastSkip hrow fun head c hhead htag => ?_
    obtain ⟨n, -, hn⟩ := List.mem_map.1 htag
    dsimp only
    rw [← hn]
    exact gives_atom head.1 hhead htag
  · -- an expression in parentheses
    refine .keyword hrow (by decide) fun head c htag hc => ?_
    dsimp only
    rw [htag]
    refine .skip hc fun inner c hinner hinnerTag hc => ?_
    have hinner := gives_expression inner.1 hinner hinnerTag
    refine hinner.close [.rightParen] hc (by decide) fun e he right hright => ?_
    exact .group (marks_toToken htag) he hright
  · -- a negation
    refine .keyword hrow (by decide) fun head c htag hc => ?_
    dsimp only
    rw [htag]
    refine .mark hc (by decide) fun _ c left hc hleft => ?_
    refine .skip hc fun inner c hinner hinnerTag hc => ?_
    refine (gives_expression inner.1 hinner hinnerTag).bind fun e he => ?_
    exact .done [.rightParen] hc (by decide)
      fun right hright => .not (toToken_kind htag) hleft he hright
  · -- a double negation
    refine .keyword hrow (by decide) fun head c htag hc => ?_
    dsimp only
    rw [htag]
    refine .mark hc (by decide) fun _ c left hc hleft => ?_
    refine .skip hc fun inner c hinner hinnerTag hc => ?_
    refine (gives_expression inner.1 hinner hinnerTag).bind fun e he => ?_
    exact .done [.rightParen] hc (by decide) fun right hright =>
      .doubleNot (toToken_kind htag) hleft he hright
termination_by t.size
decreasing_by all_goals exact size_lt_of_mem (Subtype.property _)

theorem gives_atom (t : ParseTree) (h : t.Sound) (ht : t.tag ∈ Slot.nodes valueNodes) :
    Gives t.atom t.tokens Expr.Written := by
  obtain ⟨slots, hslots, hrow⟩ := h.exists_row ht
    (show ∀ n ∈ valueNodes, layout n = layout .value by decide)
  rw [atom, tokens_of_node ht]
  rcases List.mem_pair.1 hslots with rfl | rfl
  · -- a literal, which does not begin with a name
    refine .lastSkip hrow fun head c hhead htag => ?_
    have hident : head.1.tag ≠ .token .ident := by
      intro heq
      rw [heq] at htag
      exact absurd htag (by decide)
    dsimp only
    rw [if_neg hident]
    refine (gives_literal head.1 hhead htag).map fun v hv => ?_
    generalize htokens : head.1.tokens = ts at hv
    obtain ⟨hspells⟩ := hv
    rw [hhead.line_eq htokens]
    exact .literal hspells
  · -- a name
    refine .keyword hrow (by decide) fun head c htag hc => ?_
    dsimp only
    rw [if_pos htag]
    refine .last hc fun tail _ htail htailTag => ?_
    exact gives_namedValue (toToken_kind htag) tail.1 htail htailTag
termination_by t.size
decreasing_by all_goals exact size_lt_of_mem (Subtype.property _)

theorem gives_namedValue {name : Token} (hname : name.kind = .ident) (t : ParseTree) (h : t.Sound)
    (ht : t.tag ∈ Slot.node .valueIdTail) : Gives (t.namedValue name.lexeme name.line) t.tokens
      fun e ts => e.Written (name :: ts) := by
  obtain ⟨slots, hslots, hrow⟩ := h.exists_row ht (layout_node _)
  simp only [layout, List.mem_cons, List.not_mem_nil, or_false] at hslots
  rw [namedValue, tokens_of_node ht]
  rcases hslots with rfl | rfl | rfl
  · -- the name alone
    rw [if_pos hrow.vanishes, hrow.tokensAll_cursor]
    exact .pure .nil (.var hname)
  · -- a call
    rw [if_neg (hrow.not_vanishes (by decide)), if_pos hrow.peek?_eq]
    refine .mark hrow (by decide) fun _ c left hc hleft => ?_
    refine .node hc fun args c hargs htag hc => ?_
    refine (gives_arguments args.1 hargs htag).bind fun args hargs => ?_
    exact .done [.rightParen] hc (by decide) fun right hright => .call hname hleft hargs hright
  · -- an element
    rw [if_neg (hrow.not_vanishes (by decide)), if_neg (hrow.peek?_ne (by decide))]
    refine .mark hrow (by decide) fun _ c left hc hleft => ?_
    refine .token hc fun index c _ htag hc => ?_
    refine (gives_integer htag).bind fun index hindex => ?_
    exact .done [.rightBracket] hc (by decide)
      fun right hright => .element hname hleft hindex hright
termination_by t.size
decreasing_by all_goals exact size_lt_of_mem (Subtype.property _)

theorem gives_arguments (t : ParseTree) (h : t.Sound) (ht : t.tag ∈ Slot.node .argumentList) :
    Gives t.arguments t.tokens (Listed Expr.Written .comma) := by
  rw [arguments]
  refine h.optional ht (layout_node _) (by decide) .nil fun hrow => ?_
  refine .node hrow fun first c hfirst htag hc => ?_
  have hsub := Slot.nodes_subset htag (show _ ⊆ expressionNodes by decide)
  refine (gives_expression first.1 hfirst hsub).bind fun first hfirst => ?_
  refine .last hc fun tail _ htail htag => ?_
  exact (gives_furtherArguments tail.1 htail htag).map fun rest hrest => .cons hfirst hrest
termination_by t.size
decreasing_by all_goals exact size_lt_of_mem (Subtype.property _)

theorem gives_furtherArguments (t : ParseTree) (h : t.Sound)
    (ht : t.tag ∈ Slot.node .argumentTail) :
    Gives t.furtherArguments t.tokens (Trailed Expr.Written .comma) := by
  rw [furtherArguments]
  refine h.optional ht (layout_node _) (by decide) .nil fun hrow => ?_
  refine .mark hrow (by decide) fun _ c mark hc hmark => ?_
  refine .node hc fun first c hfirst htag hc => ?_
  have hsub := Slot.nodes_subset htag (show _ ⊆ expressionNodes by decide)
  refine (gives_expression first.1 hfirst hsub).bind fun first hfirst => ?_
  refine .last hc fun tail _ htail htag => ?_
  exact (gives_furtherArguments tail.1 htail htag).map fun rest hrest => .cons hmark hfirst hrest
termination_by t.size
decreasing_by all_goals exact size_lt_of_mem (Subtype.property _)
end

/-! ### Declarations -/

theorem gives_furtherElements (t : ParseTree) (h : t.Sound)
    (ht : t.tag ∈ Slot.node .elementTail) :
    Gives t.furtherElements t.tokens (Trailed Literal.Written .comma) := by
  rw [furtherElements]
  refine h.optional ht (layout_node _) (by decide) .nil fun hrow => ?_
  refine .mark hrow (by decide) fun _ c mark hc hmark => ?_
  refine .node hc fun first c hfirst htag hc => ?_
  have hslot := mem_literalSlot htag (by decide)
  refine (gives_literal first.1 hfirst hslot).bind fun first hfirst => ?_
  refine .last hc fun tail _ htail htag => ?_
  exact (gives_furtherElements tail.1 htail htag).map fun rest hrest => .cons hmark hfirst hrest
termination_by t.size
decreasing_by all_goals exact size_lt_of_mem (Subtype.property _)

theorem gives_elements {t : ParseTree} (h : t.Sound) (ht : t.tag ∈ Slot.node .elements) :
    Gives t.elements t.tokens
      (Optionally (Listed Literal.Written .comma) [.assign, .leftBrace] [.rightBrace]) := by
  refine h.optional ht (layout_node _) (by decide) .none fun hrow => ?_
  refine .marks hrow (by decide) fun c left hc hleft => ?_
  refine .node hc fun first c hfirst htag hc => ?_
  have hslot := mem_literalSlot htag (by decide)
  refine (gives_literal first.1 hfirst hslot).bind fun first hfirst => ?_
  refine .node hc fun tail c htail htag hc => ?_
  refine (gives_furtherElements tail.1 htail htag).bind fun rest hrest => ?_
  refine .done [.rightBrace] hc (by decide) fun right hright => ?_
  rw [← List.append_assoc _ _ right]
  exact .some hleft (.cons hfirst hrest) hright

mutual
theorem gives_declarators {name : Token} (hname : name.kind = .ident) (t : ParseTree) (h : t.Sound)
    (ht : t.tag ∈ Slot.node .decOrInit) : Gives (t.declarators name.lexeme name.line) t.tokens
      fun ds ts => ds ≠ [] ∧ Listed Declarator.Written .comma ds (name :: ts) := by
  obtain ⟨slots, hslots, hrow⟩ := h.exists_row ht (layout_node _)
  rw [declarators, tokens_of_node ht, initialValue]
  rcases List.mem_pair.1 hslots with rfl | rfl
  · -- with a value
    rw [if_pos hrow.peek?_eq]
    simp only [bind_assoc, pure_bind]
    refine .mark hrow (by decide) fun _ c mark hc hmark => ?_
    refine .node hc fun init c hinit htag hc => ?_
    have hslot := mem_literalSlot htag (by decide)
    refine (gives_literal init.1 hinit hslot).bind fun init hinit => ?_
    refine .last hc fun next _ hnext htag => ?_
    refine (gives_furtherDeclarators next.1 hnext htag).map fun rest hrest => ?_
    have hend : Marks [] [] := rfl
    have hdeclarator := Declarator.Written.mk hname (.some hmark hinit hend)
    refine ⟨List.cons_ne_nil _ _, ?_⟩
    simpa using Listed.cons hdeclarator hrest
  · -- without one
    rw [if_neg (hrow.peek?_ne (by decide))]
    refine .last hrow fun next _ hnext htag => ?_
    refine (gives_furtherDeclarators next.1 hnext htag).map fun rest hrest => ?_
    have hdeclarator := Declarator.Written.mk hname .none
    exact ⟨List.cons_ne_nil _ _, .cons hdeclarator hrest⟩
termination_by t.size
decreasing_by all_goals exact size_lt_of_mem (Subtype.property _)

theorem gives_furtherDeclarators (t : ParseTree) (h : t.Sound)
    (ht : t.tag ∈ Slot.node .nextDecOrInit) :
    Gives t.furtherDeclarators t.tokens (Trailed Declarator.Written .comma) := by
  rw [furtherDeclarators]
  refine h.optional ht (layout_node _) (by decide) .nil fun hrow => ?_
  refine .mark hrow (by decide) fun _ c mark hc hmark => ?_
  refine .name hc (by decide) fun name c hname hc => ?_
  refine .last hc fun next _ hnext htag => ?_
  refine (gives_declarators hname next.1 hnext htag).weaken fun ds hds => ?_
  exact hds.2.trailed hds.1 hmark
termination_by t.size
decreasing_by all_goals exact size_lt_of_mem (Subtype.property _)
end

theorem gives_declaration {t : ParseTree} (h : t.Sound)
    (ht : t.tag ∈ Slot.nodes declarationNodes) :
    Gives t.declaration t.tokens Declaration.Written := by
  obtain ⟨slots, hslots, hrow⟩ := h.exists_row ht
    (show ∀ n ∈ declarationNodes, layout n = layout .declarations by decide)
  rw [declaration, tokens_of_node ht]
  rcases List.mem_pair.1 hslots with rfl | rfl
  · -- variables
    rw [if_neg (hrow.peek?_ne (by decide))]
    refine .node hrow fun type c htype htag hc => ?_
    refine (gives_dataType htype (Slot.nodes_subset htag (by decide))).bind fun type htype => ?_
    refine .name hc (by decide) fun name c hname hc => ?_
    refine .node hc fun next c hnext htag hc => ?_
    refine (gives_declarators hname next.1 hnext htag).bind fun ds hds => ?_
    exact .done [.semicolon] hc (by decide) fun right hright => .variables htype hds.2 hright
  · -- an array
    rw [if_pos hrow.peek?_eq]
    -- the length is not evaluated, so the tokens up to it are taken together
    refine .see hrow fun head c _ hhead hc h₁ => ?_
    refine .see hc fun element c helement htag hc h₂ => ?_
    obtain ⟨type, htype, hmark⟩ :=
      exists_dataType helement (List.mem_map.2 ⟨.dataType2, by decide, htag.symm⟩)
    dsimp only
    rw [htype]
    refine .see hc fun name c _ hname hc h₃ => ?_
    refine .see hc fun left c _ hleft hc h₄ => ?_
    refine .see hc fun dimension c _ hdimension hc h₅ => ?_
    obtain ⟨mark, hmark_eq, -⟩ := hmark.exists_eq
    rw [hmark_eq] at hmark
    have htokens : tokensAll t.cursor.rest = [head.1.toToken, mark, name.1.toToken,
        left.1.toToken, dimension.1.toToken] ++ tokensAll c.rest := by
      rw [h₁, h₂, h₃, h₄, h₅, tokens_of_token hhead, hmark_eq, tokens_of_token hname,
        tokens_of_token hleft, tokens_of_token hdimension]
      rfl
    rw [htokens]
    refine .drop (silent_array (toToken_kind hhead) _ _ _ _) ?_
    refine .mark hc (by decide) fun _ c right hc hright => ?_
    refine .node hc fun elements c helements htag hc => ?_
    refine (gives_elements helements htag).bind fun elements helements => ?_
    refine .done [.semicolon] hc (by decide) fun close hclose => ?_
    have harray := Declaration.Written.array (marks_toToken hhead) hmark (toToken_kind hname)
      (marks_toToken hleft) (toToken_kind hdimension) hright helements hclose
    exact harray

/-- The nonterminals over rows of declarations. -/
def declarationRows : List Nonterminal := [.globalDec, .localDec]

theorem gives_declarationList {row : Nonterminal} (hn : row ∈ declarationRows) (t : ParseTree)
    (h : t.Sound) (ht : t.tag ∈ Slot.node row) :
    Gives (t.declarationList row) t.tokens (Rowed Declaration.Written) := by
  rw [declarationList]
  have hshape : ∀ row ∈ declarationRows,
      layout row = [[.lambda], [.nodes declarationNodes, .node row]] := by decide
  have hrows : ∀ m ∈ [row], layout m = [[.lambda], [.nodes declarationNodes, .node row]] :=
    fun m hm => (layout_node row m hm).trans (hshape row hn)
  refine h.optional ht hrows (by decide) .nil fun hrow => ?_
  refine .skip hrow fun first c hfirst htag hc => ?_
  refine (gives_declaration hfirst htag).bind fun first hfirst => ?_
  refine .last hc fun tail _ htail htag => ?_
  exact (gives_declarationList hn tail.1 htail htag).map fun rest hrest => .cons hfirst hrest
termination_by t.size
decreasing_by all_goals exact size_lt_of_mem (Subtype.property _)

/-! ### Simple statements -/

theorem gives_nameStatement {name : Token} (hname : name.kind = .ident) {t : ParseTree}
    (h : t.Sound) (ht : t.tag ∈ Slot.node .statementIdTail) :
    Gives (t.nameStatement name.lexeme name.line) t.tokens
      fun s ts => s.Written (name :: ts) := by
  obtain ⟨slots, hslots, hrow⟩ := h.exists_row ht (layout_node _)
  simp only [layout, List.mem_cons, List.not_mem_nil, or_false] at hslots
  rw [nameStatement, tokens_of_node ht]
  rcases hslots with rfl | rfl | rfl | rfl
  · -- a call
    refine .keyword hrow (by decide) fun head c htag hc => ?_
    dsimp only
    rw [htag]
    refine .node hc fun args c hargs hargsTag hc => ?_
    refine (gives_arguments args.1 hargs hargsTag).bind fun args hargs => ?_
    exact .done [.rightParen, .semicolon] hc (by decide) fun right hright =>
      .call hname (marks_toToken htag) hargs hright
  · -- an assignment to the name
    refine .skip hrow fun head c hhead htag hc => ?_
    dsimp only
    rw [Slot.eq_of_mem_node htag]
    refine (gives_assignOp hhead htag).bind fun op hop => ?_
    refine .node hc fun value c hvalue htag hc => ?_
    have hsub := Slot.nodes_subset htag (show _ ⊆ expressionNodes by decide)
    refine (gives_expression value.1 hvalue hsub).bind fun value hvalue => ?_
    exact .done [.semicolon] hc (by decide) fun right hright => .assign hname hop hvalue hright
  · -- an assignment to an element
    refine .keyword hrow (by decide) fun head c htag hc => ?_
    dsimp only
    rw [htag]
    refine .token hc fun index c _ hindexTag hc => ?_
    refine (gives_integer hindexTag).bind fun index hindex => ?_
    refine .mark hc (by decide) fun _ c bracket hc hbracket => ?_
    refine .node hc fun op c hop hopTag hc => ?_
    refine (gives_assignOp hop hopTag).bind fun op hop => ?_
    refine .node hc fun value c hvalue hvalueTag hc => ?_
    have hsub := Slot.nodes_subset hvalueTag (show _ ⊆ expressionNodes by decide)
    refine (gives_expression value.1 hvalue hsub).bind fun value hvalue => ?_
    exact .done [.semicolon] hc (by decide) fun right hright =>
      .assignElement hname (marks_toToken htag) hindex hbracket hop hvalue hright
  · -- a step
    refine .skip hrow fun head c hhead htag hc => ?_
    dsimp only
    rw [Slot.eq_of_mem_node htag]
    refine (gives_stepOp hhead htag).bind fun op hop => ?_
    exact .done [.semicolon] hc (by decide) fun right hright => .stepAfter hname hop hright

theorem gives_furtherParts (t : ParseTree) (h : t.Sound) (ht : t.tag ∈ Slot.node .serveTail) :
    Gives t.furtherParts t.tokens (Trailed Expr.Written .plus) := by
  rw [furtherParts]
  refine h.optional ht (layout_node _) (by decide) .nil fun hrow => ?_
  refine .mark hrow (by decide) fun _ c mark hc hmark => ?_
  refine .node hc fun first c hfirst htag hc => ?_
  have hsub := Slot.nodes_subset htag (show _ ⊆ valueNodes by decide)
  refine (gives_atom first.1 hfirst hsub).bind fun first hfirst => ?_
  refine .last hc fun tail _ htail htag => ?_
  exact (gives_furtherParts tail.1 htail htag).map fun rest hrest => .cons hmark hfirst hrest
termination_by t.size
decreasing_by all_goals exact size_lt_of_mem (Subtype.property _)

theorem gives_loopStep {t : ParseTree} (h : t.Sound) (ht : t.tag ∈ Slot.node .incDec) :
    Gives t.loopStep t.tokens fun r ts =>
      ∃ name : Token, name.kind = .ident ∧ name.lexeme = r.1 ∧ r.2.Written name ts := by
  obtain ⟨slots, hslots, hrow⟩ := h.exists_row ht (layout_node _)
  rw [loopStep, tokens_of_node ht]
  rcases List.mem_pair.1 hslots with rfl | rfl
  · -- the name first
    rw [if_pos hrow.peek?_eq]
    refine .name hrow (by decide) fun name c hname hc => ?_
    refine .last hc fun op _ hop htag => ?_
    exact (gives_stepOp hop htag).map fun op hop => ⟨name.1.toToken, hname, rfl, .after hop⟩
  · -- the operator first
    rw [if_neg (hrow.peek?_ne (by decide))]
    refine .node hrow fun op c hop htag hc => ?_
    refine (gives_stepOp hop htag).bind fun op hop => ?_
    refine .name hc (by decide) fun name c hname hc => ?_
    exact .finish hc ⟨name.1.toToken, hname, rfl, .before hop⟩

/-! ### Statements with blocks -/

section
variable {α : Type} {parent : ParseTree} {c : Cursor parent} {slots : List Slot}
  {post : α → List Token → Prop} {block : Child parent → Except ShapeError (List Statement)}

/-- Blocks of statements can be read. -/
def ReadsBlocks (block : Child parent → Except ShapeError (List Statement)) : Prop :=
  ∀ body, body.1.Sound → body.1.tag ∈ Slot.node .statementBlock →
    Gives (block body) body.1.tokens (Rowed Statement.Written)

/-- A branch behind the keyword it begins with. -/
theorem Gives.branch (hblock : ReadsBlocks block) {head : Token} {kind : Token.Kind}
    (hhead : head.kind = kind) {f : Branch × Cursor parent → Except ShapeError α}
    (h : Row (branchSlots ++ slots) c.rest)
    (hf : ∀ b (c' : Cursor parent) ts, Row slots c'.rest → b.line = head.line →
      Branch.Written kind b (head :: ts) →
      Gives (f (b, c')) (tokensAll c'.rest) fun a vs => post a (ts ++ vs)) :
    Gives (branch block head.line c >>= f) (tokensAll c.rest) post := by
  simp only [ParseTree.branch, bind_assoc, pure_bind]
  refine .mark h (by decide) fun _ c left hc hleft => ?_
  refine .node hc fun condition c hcondition htag hc => ?_
  have hsub := Slot.nodes_subset htag (show _ ⊆ expressionNodes by decide)
  refine (gives_expression condition.1 hcondition hsub).bind fun condition hcondition => ?_
  refine .marks hc (by decide) fun c right hc hright => ?_
  refine .node hc fun body c hbody htag hc => ?_
  refine (hblock body hbody htag).bind fun body hbody => ?_
  refine .mark hc (by decide) fun _ c close hc hclose => ?_
  have hbranch := Branch.Written.mk hhead hleft hcondition hright hbody hclose
  simpa using hf _ c _ hc rfl hbranch

/-- An arm of a choice by value. -/
theorem Gives.caseArm (hblock : ReadsBlocks block)
    {f : Case × Cursor parent → Except ShapeError α} (h : Row (caseSlots ++ slots) c.rest)
    (hf : ∀ b (c' : Cursor parent) ts, Row slots c'.rest → Case.Written b ts →
      Gives (f (b, c')) (tokensAll c'.rest) fun a vs => post a (ts ++ vs)) :
    Gives (caseArm block c >>= f) (tokensAll c.rest) post := by
  simp only [ParseTree.caseArm, bind_assoc, pure_bind]
  refine .name h (by decide) fun head c hhead hc => ?_
  refine .node hc fun value c hvalue htag hc => ?_
  have hslot := mem_literalSlot htag (by decide)
  refine (gives_literal value.1 hvalue hslot).bind fun value hvalue => ?_
  refine .mark hc (by decide) fun _ c colon hc hcolon => ?_
  refine .node hc fun body c hbody htag hc => ?_
  refine (hblock body hbody htag).bind fun body hbody => ?_
  refine .marks hc (by decide) fun c close hc hclose => ?_
  have hcase := Case.Written.mk hhead hvalue hcolon hbody hclose
  simpa using hf _ c _ hc hcase

end

theorem token?_of_tag {t : ParseTree} {kind : Token.Kind} (h : t.tag = .token kind) :
    t.token? = some kind := by
  rw [ParseTree.token?, h]

/-- The word with which a counting loop declares its variable, if it does. -/
theorem marks_pinchOpt {t : ParseTree} (h : t.Sound) (ht : t.tag ∈ Slot.node .pinchOpt) :
    Silent t.tokens ∧ Marks (if !t.vanishes then [.pinch] else []) t.tokens := by
  obtain ⟨slots, hslots, hrow⟩ := h.exists_row ht (layout_node _)
  rw [tokens_of_node ht]
  rcases List.mem_pair.1 hslots with rfl | rfl
  · rw [hrow.vanishes, hrow.tokensAll_cursor]
    exact ⟨.nil, rfl⟩
  · rw [Bool.eq_false_iff.2 (hrow.not_vanishes (by decide))]
    obtain ⟨child, c, -, -, htag, hrest, htokens⟩ := Row.expect (c := t.cursor) hrow (.phrase "")
    rw [htokens, List.forall₂_nil_right_iff.1 hrest, tokens_of_token htag]
    have hmark := marks_toToken htag
    exact ⟨.marks hmark (by decide), hmark⟩

mutual
theorem gives_statements (t : ParseTree) (h : t.Sound) (ht : t.tag ∈ Slot.node .statementBlock) :
    Gives t.statements t.tokens (Rowed Statement.Written) := by
  rw [statements]
  refine h.optional ht (layout_node _) (by decide) .nil fun hrow => ?_
  refine .node hrow fun first c hfirst htag hc => ?_
  refine (gives_statement first.1 hfirst htag).bind fun first hfirst => ?_
  refine .last hc fun tail _ htail htag => ?_
  exact (gives_statements tail.1 htail htag).map fun rest hrest => .cons hfirst hrest
termination_by t.size
decreasing_by all_goals exact size_lt_of_mem (Subtype.property _)

theorem gives_statement (t : ParseTree) (h : t.Sound) (ht : t.tag ∈ Slot.node .statement) :
    Gives t.statement t.tokens Statement.Written := by
  obtain ⟨slots, hslots, hrow⟩ := h.exists_row ht (layout_node _)
  simp only [layout, List.mem_cons, List.not_mem_nil, or_false] at hslots
  rw [statement, tokens_of_node ht]
  rcases hslots with rfl | rfl | rfl | rfl | rfl | rfl
  · -- a name and what is done with it
    refine .keyword hrow (by decide) fun head c htag hc => ?_
    dsimp only
    rw [htag]
    exact .last hc fun tail _ htail htailTag =>
      gives_nameStatement (toToken_kind htag) htail htailTag
  · -- a step
    refine .skip hrow fun head c hhead htag hc => ?_
    dsimp only
    rw [Slot.eq_of_mem_node htag]
    refine (gives_stepOp hhead htag).bind fun op hop => ?_
    refine .name hc (by decide) fun name c hname hc => ?_
    refine .done [.semicolon] hc (by decide) fun right hright => ?_
    obtain ⟨mark, hmark_eq, hmark⟩ := hop.exists_eq
    rw [hmark_eq, hhead.line_eq hmark_eq]
    exact .stepBefore hmark hname hright
  · -- a choice
    refine .lastSkip hrow fun head c hhead htag => ?_
    dsimp only
    rw [Slot.eq_of_mem_node htag]
    exact gives_choice head.1 hhead htag
  · -- a loop
    refine .lastSkip hrow fun head c hhead htag => ?_
    dsimp only
    rw [Slot.eq_of_mem_node htag]
    exact gives_loop head.1 hhead htag
  · -- output
    refine .keyword hrow (by decide) fun head c htag hc => ?_
    dsimp only
    rw [htag]
    refine .mark hc (by decide) fun _ c left hc hleft => ?_
    refine .node hc fun first c hfirst hfirstTag hc => ?_
    have hsub := Slot.nodes_subset hfirstTag (show _ ⊆ valueNodes by decide)
    refine (gives_atom first.1 hfirst hsub).bind fun first hfirst => ?_
    refine .node hc fun tail c htail htailTag hc => ?_
    refine (gives_furtherParts tail.1 htail htailTag).bind fun rest hrest => ?_
    refine .done [.rightParen, .semicolon] hc (by decide) fun right hright => ?_
    rw [← List.append_assoc _ _ right]
    exact .serve (toToken_kind htag) hleft (.cons hfirst hrest) hright
  · -- input
    refine .keyword hrow (by decide) fun head c htag hc => ?_
    dsimp only
    rw [htag]
    refine .mark hc (by decide) fun _ c left hc hleft => ?_
    refine .name hc (by decide) fun target c htarget hc => ?_
    exact .done [.rightParen, .semicolon] hc (by decide) fun right hright =>
      .make (toToken_kind htag) hleft htarget hright
termination_by t.size
decreasing_by all_goals exact size_lt_of_mem (Subtype.property _)

theorem gives_choice (t : ParseTree) (h : t.Sound)
    (ht : t.tag ∈ Slot.node .conditionalStatement) :
    Gives t.choice t.tokens Statement.Written := by
  obtain ⟨slots, hslots, hrow⟩ := h.exists_row ht (layout_node _)
  have hblock : ReadsBlocks fun body : Child t => statements body.1 :=
    fun body hbody htag => gives_statements body.1 hbody htag
  rw [choice, tokens_of_node ht]
  rcases List.mem_pair.1 hslots with rfl | rfl
  · -- by conditions
    refine .keyword hrow (by decide) fun head c htag hc => ?_
    dsimp only
    rw [token?_of_tag htag]
    refine .branch hblock (toToken_kind htag) hc fun first c ts hc hline hfirst => ?_
    refine .last hc fun tail _ htail htailTag => ?_
    refine (gives_furtherBranches tail.1 htail htailTag).map fun r hr => ?_
    obtain ⟨us, vs, heq, hrest, hotherwise⟩ := hr
    rw [heq, show head.1.line = first.line from hline.symm]
    exact .taste hfirst hrest hotherwise
  · -- by the value of a variable
    refine .keyword hrow (by decide) fun head c htag hc => ?_
    dsimp only
    rw [token?_of_tag htag]
    refine .mark hc (by decide) fun _ c left hc hleft => ?_
    refine .name hc (by decide) fun subject c hsubject hc => ?_
    refine .marks hc (by decide) fun c right hc hright => ?_
    refine .caseArm hblock hc fun first c ts hc hfirst => ?_
    refine .node hc fun tail c htail htailTag hc => ?_
    refine (gives_furtherCases tail.1 htail htailTag).bind fun rest hrest => ?_
    refine .node hc fun last c hlast hlastTag hc => ?_
    refine (gives_defaultArm last.1 hlast hlastTag).bind fun otherwise hotherwise => ?_
    refine .done [.rightBrace] hc (by decide) fun close hclose => ?_
    have hflip := Statement.Written.flip (toToken_kind htag) hleft hsubject hright
      (.cons hfirst hrest) hotherwise hclose
    simpa using hflip
termination_by t.size
decreasing_by all_goals exact size_lt_of_mem (Subtype.property _)

theorem gives_furtherBranches (t : ParseTree) (h : t.Sound)
    (ht : t.tag ∈ Slot.node .conditionalTail) :
    Gives t.furtherBranches t.tokens fun r ts =>
      ∃ us vs, ts = us ++ vs ∧ Rowed (Branch.Written .elif) r.1 us ∧
        Optionally (Rowed Statement.Written) [.mix, .leftBrace] [.rightBrace] r.2 vs := by
  obtain ⟨slots, hslots, hrow⟩ := h.exists_row ht (layout_node _)
  have hblock : ReadsBlocks fun body : Child t => statements body.1 :=
    fun body hbody htag => gives_statements body.1 hbody htag
  simp only [layout, List.mem_cons, List.not_mem_nil, or_false] at hslots
  rw [furtherBranches, tokens_of_node ht]
  rcases hslots with rfl | rfl | rfl
  · -- no more of them
    rw [if_pos hrow.vanishes, hrow.tokensAll_cursor]
    exact .pure .nil ⟨[], [], rfl, .nil, .none⟩
  · -- one more, and those behind it
    rw [if_neg (hrow.not_vanishes (by decide))]
    refine .keyword hrow (by decide) fun head c htag hc => ?_
    dsimp only
    rw [token?_of_tag htag]
    refine .branch hblock (toToken_kind htag) hc fun first c ts hc _ hfirst => ?_
    refine .last hc fun tail _ htail htailTag => ?_
    refine (gives_furtherBranches tail.1 htail htailTag).map fun r hr => ?_
    obtain ⟨us, vs, heq, hrest, hotherwise⟩ := hr
    refine ⟨_, vs, ?_, .cons hfirst hrest, hotherwise⟩
    simp [heq]
  · -- what is done if no condition holds
    rw [if_neg (hrow.not_vanishes (by decide))]
    refine .keyword hrow (by decide) fun head c htag hc => ?_
    dsimp only
    rw [token?_of_tag htag]
    refine .mark hc (by decide) fun _ c brace hc hbrace => ?_
    refine .node hc fun body c hbody hbodyTag hc => ?_
    refine (gives_statements body.1 hbody hbodyTag).bind fun body hbody => ?_
    refine .done [.rightBrace] hc (by decide) fun right hright => ?_
    have hleft : Marks [.mix, .leftBrace] (head.1.toToken :: brace) := by
      simp only [Marks, List.map_cons, toToken_kind htag]
      rw [hbrace]
    exact ⟨[], _, rfl, .nil, .some hleft hbody hright⟩
termination_by t.size
decreasing_by all_goals exact size_lt_of_mem (Subtype.property _)

theorem gives_furtherCases (t : ParseTree) (h : t.Sound) (ht : t.tag ∈ Slot.node .caseTail) :
    Gives t.furtherCases t.tokens (Rowed Case.Written) := by
  have hblock : ReadsBlocks fun body : Child t => statements body.1 :=
    fun body hbody htag => gives_statements body.1 hbody htag
  rw [furtherCases]
  refine h.optional ht (layout_node _) (by decide) .nil fun hrow => ?_
  refine .caseArm hblock hrow fun first c ts hc hfirst => ?_
  refine .last hc fun tail _ htail htag => ?_
  exact (gives_furtherCases tail.1 htail htag).map fun rest hrest => .cons hfirst hrest
termination_by t.size
decreasing_by all_goals exact size_lt_of_mem (Subtype.property _)

theorem gives_defaultArm (t : ParseTree) (h : t.Sound) (ht : t.tag ∈ Slot.node .defaultBlock) :
    Gives t.defaultArm t.tokens
      (Optionally (Rowed Statement.Written) [.defaultArm, .colon] [.chop, .semicolon]) := by
  rw [defaultArm]
  refine h.optional ht (layout_node _) (by decide) .none fun hrow => ?_
  refine .marks hrow (by decide) fun c left hc hleft => ?_
  refine .node hc fun body c hbody htag hc => ?_
  refine (gives_statements body.1 hbody htag).bind fun body hbody => ?_
  exact .done [.chop, .semicolon] hc (by decide) fun right hright => .some hleft hbody hright
termination_by t.size
decreasing_by all_goals exact size_lt_of_mem (Subtype.property _)

theorem gives_loop (t : ParseTree) (h : t.Sound) (ht : t.tag ∈ Slot.node .loopingStatement) :
    Gives t.loop t.tokens Statement.Written := by
  obtain ⟨slots, hslots, hrow⟩ := h.exists_row ht (layout_node _)
  simp only [layout, List.mem_cons, List.not_mem_nil, or_false] at hslots
  rw [loop, tokens_of_node ht]
  rcases hslots with rfl | rfl | rfl
  · -- a counting loop
    refine .keyword hrow (by decide) fun head c htag hc => ?_
    dsimp only
    rw [token?_of_tag htag]
    refine .mark hc (by decide) fun _ c left hc hleft => ?_
    refine .node hc fun declares c hdeclares hdeclaresTag hc => ?_
    obtain ⟨hsilent, hpinch⟩ := marks_pinchOpt hdeclares hdeclaresTag
    refine .drop hsilent ?_
    refine .name hc (by decide) fun var c hvar hc => ?_
    refine .mark hc (by decide) fun _ c assign hc hassign => ?_
    refine .node hc fun init c hinit hinitTag hc => ?_
    have hsub := Slot.nodes_subset hinitTag (show _ ⊆ valueNodes by decide)
    refine (gives_atom init.1 hinit hsub).bind fun init hinit => ?_
    refine .mark hc (by decide) fun _ c semi hc hsemi => ?_
    refine .node hc fun test c htest htestTag hc => ?_
    have hsub := Slot.nodes_subset htestTag (show _ ⊆ expressionNodes by decide)
    refine (gives_expression test.1 htest hsub).bind fun test htest => ?_
    refine .mark hc (by decide) fun _ c semi' hc hsemi' => ?_
    refine .node hc fun step c hstep hstepTag hc => ?_
    refine (gives_loopStep hstep hstepTag).bind fun step hstep => ?_
    obtain ⟨stepVar, hstepVar, hlexeme, hstep⟩ := hstep
    refine .marks hc (by decide) fun c right hc hright => ?_
    refine .node hc fun body c hbody hbodyTag hc => ?_
    refine (gives_statements body.1 hbody hbodyTag).bind fun body hbody => ?_
    refine .done [.rightBrace] hc (by decide) fun close hclose => ?_
    rw [← hlexeme]
    exact .forLoop (toToken_kind htag) hleft hpinch hvar hassign hinit hsemi htest hsemi' hstepVar
      hstep hright hbody hclose
  · -- a loop that tests before its body
    refine .keyword hrow (by decide) fun head c htag hc => ?_
    dsimp only
    rw [token?_of_tag htag]
    refine .mark hc (by decide) fun _ c left hc hleft => ?_
    refine .node hc fun test c htest htestTag hc => ?_
    have hsub := Slot.nodes_subset htestTag (show _ ⊆ expressionNodes by decide)
    refine (gives_expression test.1 htest hsub).bind fun test htest => ?_
    refine .marks hc (by decide) fun c right hc hright => ?_
    refine .node hc fun body c hbody hbodyTag hc => ?_
    refine (gives_statements body.1 hbody hbodyTag).bind fun body hbody => ?_
    exact .done [.rightBrace] hc (by decide) fun close hclose =>
      .simmer (toToken_kind htag) hleft htest hright hbody hclose
  · -- a loop that tests after its body
    refine .keyword hrow (by decide) fun head c htag hc => ?_
    dsimp only
    rw [token?_of_tag htag]
    refine .mark hc (by decide) fun _ c left hc hleft => ?_
    refine .node hc fun body c hbody hbodyTag hc => ?_
    refine (gives_statements body.1 hbody hbodyTag).bind fun body hbody => ?_
    refine .marks hc (by decide) fun c right hc hright => ?_
    refine .node hc fun test c htest htestTag hc => ?_
    have hsub := Slot.nodes_subset htestTag (show _ ⊆ expressionNodes by decide)
    refine (gives_expression test.1 htest hsub).bind fun test htest => ?_
    exact .done [.rightParen] hc (by decide) fun close hclose =>
      .keepmix (toToken_kind htag) hleft hbody hright htest hclose
termination_by t.size
decreasing_by all_goals exact size_lt_of_mem (Subtype.property _)
end

/-! ### Functions -/

/-- Parameters with or without a comma before them. -/
theorem gives_parametersFrom (t : ParseTree) {kinds : List Token.Kind}
    (hkinds : kinds = [] ∨ kinds = [.comma])
    (hrow : Row (kinds.map Slot.token ++ parameterSlots) t.cursor.rest) :
    Gives t.parametersFrom (tokensAll t.cursor.rest) fun ps ts => ps ≠ [] ∧
      ∃ marks us, Marks kinds marks ∧ ts = marks ++ us ∧
        Listed Parameter.Written .comma ps us := by
  have hcomma : skipComma t.cursor = t.cursor.tokens kinds := by
    rw [skipComma]
    rcases hkinds with rfl | rfl
    · rw [if_neg (hrow.peek?_ne (by decide))]
      rfl
    · rw [if_pos hrow.peek?_eq]
  have hplain : kinds.all Token.Kind.isPlain = true := by
    rcases hkinds with rfl | rfl <;> rfl
  rw [parametersFrom, hcomma]
  refine .marks hrow hplain fun c marks hc hmarks => ?_
  refine .node hc fun type c htype htag hc => ?_
  refine (gives_dataType htype (Slot.nodes_subset htag (by decide))).bind fun type htype => ?_
  refine .name hc (by decide) fun name c hname hc => ?_
  have hfirst := Parameter.Written.mk htype hname
  refine .last hc fun tail _ htail htag => ?_
  refine htail.optional htag (layout_node _) (by decide) ?_ fun hrow => ?_
  · exact ⟨List.cons_ne_nil _ _, marks, _, hmarks, by simp, .cons hfirst .nil⟩
  · refine (gives_parametersFrom tail.1 (.inr rfl) hrow).map fun rest hrest => ?_
    obtain ⟨hne, mark, us, hmark, heq, hlisted⟩ := hrest
    refine ⟨List.cons_ne_nil _ _, marks, _, hmarks, ?_, .cons hfirst (hlisted.trailed hne hmark)⟩
    simp [heq]
termination_by t.size
decreasing_by all_goals exact size_lt_of_mem (Subtype.property _)

theorem gives_parameters {t : ParseTree} (h : t.Sound) (ht : t.tag ∈ Slot.node .parameters) :
    Gives t.parameters t.tokens (Listed Parameter.Written .comma) := by
  rw [parameters]
  refine h.optional ht (layout_node _) (by decide) .nil fun hrow => ?_
  refine (gives_parametersFrom t (.inl rfl) hrow).weaken fun ps hps => ?_
  obtain ⟨-, marks, us, hmarks, heq, hlisted⟩ := hps
  obtain rfl : marks = [] := List.map_eq_nil_iff.1 hmarks
  rw [heq]
  exact hlisted

section
variable {α : Type} {parent : ParseTree} {c : Cursor parent} {slots : List Slot}
  {post : α → List Token → Prop}

/-- The word that opens a function tells whether it has a result. -/
theorem Gives.resultType {head : Child parent} {returns : Bool}
    {f : Option DataType × Cursor parent → Except ShapeError α}
    (hhead : head.1.tag = .token (if returns then .full else .hungry))
    (h : Row ((if returns then [.node .dataType] else []) ++ slots) c.rest)
    (hf : ∀ type (c' : Cursor parent) ts, Row slots c'.rest → type.isSome = returns →
      Optionally (fun type => Marks [DataType.kind type]) [] [] type ts →
      Gives (f (type, c')) (tokensAll c'.rest) fun a vs => post a (ts ++ vs)) :
    Gives (resultType head c >>= f) (tokensAll c.rest) post := by
  rw [ParseTree.resultType]
  cases returns with
  | true =>
    have hfull : head.1.token? = some .full := token?_of_tag hhead
    rw [hfull]
    simp only [bind_assoc, pure_bind]
    refine .node h fun type c htype htag hc => ?_
    refine (gives_dataType htype (Slot.nodes_subset htag (by decide))).bind fun type htype => ?_
    have hend : Marks [] [] := rfl
    simpa using hf (some type) c _ hc rfl (.some hend htype hend)
  | false =>
    rw [token?_of_tag hhead]
    exact hf none c [] h rfl .none

/-- The result of a function, if it has one. -/
theorem Gives.resultExpr {returns : Option DataType}
    {f : Option Expr × Cursor parent → Except ShapeError α}
    (h : Row (resultSlots returns.isSome ++ slots) c.rest)
    (hf : ∀ result (c' : Cursor parent) ts, Row slots c'.rest → returns.isSome = result.isSome →
      Optionally Expr.Written [.spit] [.semicolon] result ts →
      Gives (f (result, c')) (tokensAll c'.rest) fun a vs => post a (ts ++ vs)) :
    Gives (resultExpr returns c >>= f) (tokensAll c.rest) post := by
  rw [ParseTree.resultExpr]
  cases hreturns : returns.isSome with
  | true =>
    rw [hreturns] at h
    simp only [if_true, bind_assoc, pure_bind]
    refine .mark h (by decide) fun _ c left hc hleft => ?_
    refine .node hc fun result c hresult htag hc => ?_
    have hsub := Slot.nodes_subset htag (show _ ⊆ expressionNodes by decide)
    refine (gives_expression result.1 hresult hsub).bind fun result hresult => ?_
    refine .mark hc (by decide) fun _ c right hc hright => ?_
    simpa using hf (some result) c _ hc hreturns (.some hleft hresult hright)
  | false =>
    rw [hreturns] at h
    exact hf none c [] h hreturns .none

end

theorem gives_functions (t : ParseTree) (h : t.Sound) (ht : t.tag ∈ Slot.node .function) :
    Gives t.functions t.tokens (Rowed Function.Written) := by
  obtain ⟨slots, hslots, hrow⟩ := h.exists_row ht (layout_node _)
  simp only [layout, List.mem_cons, List.not_mem_nil, or_false] at hslots
  -- behind the word that opens it and its type, every function is read alike
  have hopen : t.tokens = [] ∧ t.vanishes = true ∨ ∃ returns : Bool,
      Row (.token (if returns then .full else .hungry) ::
        ((if returns then [.node .dataType] else []) ++ functionSlots returns)) t.cursor.rest := by
    rcases hslots with rfl | rfl | rfl
    · exact .inl ⟨(tokens_of_node ht).trans hrow.tokensAll_cursor, hrow.vanishes⟩
    · exact .inr ⟨true, hrow⟩
    · exact .inr ⟨false, hrow⟩
  rw [functions]
  rcases hopen with ⟨htokens, hvanishes⟩ | ⟨returns, hrow⟩
  · rw [if_pos hvanishes, htokens]
    exact .pure .nil .nil
  · have hkind : (if returns then Token.Kind.full else .hungry).isPlain = true := by
      cases returns <;> rfl
    rw [if_neg (hrow.not_vanishes (by cases returns <;> decide)), tokens_of_node ht]
    refine .keyword hrow hkind fun head c htag hc => ?_
    refine .resultType htag hc fun returns c mark hc hreturns hmark => ?_
    subst hreturns
    refine .name hc (by decide) fun name c hname hc => ?_
    refine .mark hc (by decide) fun _ c left hc hleft => ?_
    refine .node hc fun parameters c hparameters hparametersTag hc => ?_
    refine (gives_parameters hparameters hparametersTag).bind fun parameters hparameters => ?_
    refine .marks hc (by decide) fun c right hc hright => ?_
    refine .node hc fun locals c hlocals hlocalsTag hc => ?_
    refine (gives_declarationList (by decide) locals.1 hlocals hlocalsTag).bind
      fun locals hlocals => ?_
    refine .node hc fun body c hbody hbodyTag hc => ?_
    refine (gives_statements body.1 hbody hbodyTag).bind fun body hbody => ?_
    refine .resultExpr hc fun result c ts hc hresults hresult => ?_
    refine .mark hc (by decide) fun _ c close hc hclose => ?_
    refine .last hc fun tail _ htail htailTag => ?_
    refine (gives_functions tail.1 htail htailTag).map fun rest hrest => ?_
    have hfunction := Function.Written.mk (toToken_kind htag) hmark hname hleft hparameters hright
      hlocals hbody hresults hresult hclose
    simpa using Rowed.cons hfunction hrest
termination_by t.size
decreasing_by all_goals exact size_lt_of_mem (Subtype.property _)

end Bistro.ParseTree

namespace Bistro.Program

open ParseTree

/-- **Every sound tree of a program is turned into one that is written with its tokens**, or into an
error at the first literal that spells no value. -/
theorem gives_ofTree {t : ParseTree} (h : t.Sound) (ht : t.tag = .nonterminal .program) :
    Gives (ofTree t) t.tokens Program.Written := by
  have hn : t.tag ∈ Slot.node .program := List.mem_singleton.2 ht
  have hrow := h.row hn (layout_node _)
  unfold ofTree
  rw [if_neg (not_not.2 ht), tokens_of_node hn]
  refine .mark hrow (by decide) fun _ c head hc hhead => ?_
  refine .node hc fun globals c hglobals htag hc => ?_
  refine (gives_declarationList (by decide) globals.1 hglobals htag).bind fun globals hglobals => ?_
  refine .node hc fun functions c hfunctions htag hc => ?_
  refine (gives_functions functions.1 hfunctions htag).bind fun functions hfunctions => ?_
  refine .marks hc (by decide) fun c entry hc hentry => ?_
  refine .node hc fun locals c hlocals htag hc => ?_
  refine (gives_declarationList (by decide) locals.1 hlocals htag).bind fun locals hlocals => ?_
  refine .node hc fun body c hbody htag hc => ?_
  refine (gives_statements body.1 hbody htag).bind fun body hbody => ?_
  refine .mark hc (by decide) fun _ c spit hc hspit => ?_
  refine .token hc fun code c hcode htag hc => ?_
  refine (gives_integer htag).bind fun exitCode hexit => ?_
  refine .done [.semicolon, .rightBrace, .takeout] hc (by decide) fun close hclose => ?_
  rw [tokens_of_token htag] at hexit ⊢
  obtain ⟨hspells⟩ := hexit
  exact .mk hhead hglobals hfunctions hentry hlocals hbody hspit hspells hclose

/-- What a sound tree of a program is turned into. -/
theorem ofTree_cases {t : ParseTree} (h : t.Sound) (ht : t.tag = .nonterminal .program) :
    (∃ p, ofTree t = .ok p ∧ p.Written t.tokens ∧ Token.firstInvalid? t.tokens = none) ∨
      ∃ token, ofTree t = .error (.invalidLiteral token.lexeme token.line) ∧
        Token.firstInvalid? t.tokens = some token := by
  cases gives_ofTree h ht with
  | @ok p gives silent holds =>
    have hnone := silent []
    rw [List.append_nil] at hnone
    exact .inl ⟨p, gives, holds, hnone⟩
  | @invalid token fails blames =>
    have hsome := blames []
    rw [List.append_nil] at hsome
    exact .inr ⟨token, fails, hsome⟩

/-- A program is written with the tokens of the tree that it is made of. -/
theorem written_of_ofTree {t : ParseTree} (h : t.Sound) (ht : t.tag = .nonterminal .program)
    {p : Program} (hp : ofTree t = .ok p) : p.Written t.tokens := by
  rcases ofTree_cases h ht with ⟨p', hp', hwritten, -⟩ | ⟨token, herror, -⟩
  · obtain rfl := Except.ok.inj (hp.symm.trans hp')
    exact hwritten
  · rw [hp] at herror
    cases herror

end Bistro.Program
