import Bistro.Proofs.ParseTree.Sound
import Bistro.Proofs.Program.Written
import Bistro.Proofs.Token.Literal

/-!
# Reading sound trees

Reading a stretch of tokens from a sound tree can go wrong in one way only: a literal spells no
value.  Then the reading fails at the first such literal.  The lengths of arrays are not evaluated,
so they are left out of account.

What a reading does to a stretch of tokens is said without regard to what follows it, so that a
reading in steps reads the stretches one after the other.

## Main definitions

* `Token.evaluated`, `Token.firstInvalid?` — the tokens that are evaluated, and the first of them
  that spells no value.
* `ParseTree.Gives` — what a reading gives, and where it fails.

## Main results

* `ParseTree.Gives.bind` — readings one after the other.
* `ParseTree.Gives.mark`, `ParseTree.Gives.name`, `ParseTree.Gives.node`, `ParseTree.Gives.skip` —
  reading a child that is there.
-/

namespace Bistro

/-! ### Literals that spell no value -/

namespace Token

/-- The tokens that are evaluated: all but the lengths of arrays.  The length is the fourth token
behind the word that opens the declaration of an array. -/
def evaluated : List Token → List Token
  | ⟨_, .recipe, _⟩ :: _ :: _ :: _ :: _ :: rest => evaluated rest
  | t :: rest => t :: evaluated rest
  | [] => []

/-- A token is a literal that spells no value. -/
def isInvalid (t : Token) : Bool :=
  match t.kind with
  | .pinchLiteral => (Number.readInteger? t.lexeme).isNone
  | .skimLiteral => (Decimal.read? t.lexeme).isNone
  | _ => false

/-- The first literal that is evaluated but spells no value. -/
def firstInvalid? (ts : List Token) : Option Token := (evaluated ts).find? isInvalid

theorem isInvalid_eq_false_iff {t : Token} : t.isInvalid = false ↔ t.kind.Reads t.lexeme := by
  obtain ⟨lexeme, kind, line⟩ := t
  cases kind <;> simp [isInvalid, Kind.Reads, Option.isSome_iff_ne_none]

theorem not_isInvalid_iff {t : Token} : ¬ t.isInvalid = true ↔
    (t.kind = .pinchLiteral → (Number.readInteger? t.lexeme).isSome) ∧
      (t.kind = .skimLiteral → (Decimal.read? t.lexeme).isSome) := by
  rw [Bool.not_eq_true, isInvalid_eq_false_iff]
  obtain ⟨lexeme, kind, line⟩ := t
  cases kind <;> simp [Kind.Reads]

theorem evaluated_cons {t : Token} (h : t.kind ≠ .recipe) (rest : List Token) :
    evaluated (t :: rest) = t :: evaluated rest := by
  rw [evaluated]
  intro lexeme line _ _ _ _ _ ht
  exact absurd (congrArg Token.kind ht) h

theorem evaluated_array {t : Token} (h : t.kind = .recipe) (a b c d : Token) (rest : List Token) :
    evaluated (t :: a :: b :: c :: d :: rest) = evaluated rest := by
  obtain ⟨lexeme, kind, line⟩ := t
  obtain rfl : kind = .recipe := h
  rw [evaluated]

/-- Every token that is evaluated is one of the tokens. -/
theorem evaluated_sublist (ts : List Token) : (evaluated ts).Sublist ts := by
  induction ts using evaluated.induct with
  | case1 _ _ a b c d rest ih =>
    rw [evaluated]
    exact ((((ih.cons d).cons c).cons b).cons a).cons _
  | case2 t rest hne ih =>
    rw [evaluated]
    · exact ih.cons_cons t
    · exact hne
  | case3 => exact List.Sublist.slnil

/-- If all tokens can be read, none of those that are evaluated is invalid. -/
theorem firstInvalid?_eq_none {ts : List Token} (h : ∀ t ∈ ts, t.kind.Reads t.lexeme) :
    firstInvalid? ts = none := by
  rw [firstInvalid?, List.find?_eq_none]
  intro t ht
  simp [isInvalid_eq_false_iff.2 (h t ((evaluated_sublist ts).subset ht))]

/-- Kinds of tokens that can be read whatever they look like, and do not open an array. -/
def Kind.isPlain (kind : Kind) : Bool :=
  kind ∉ [.recipe, .pinchLiteral, .skimLiteral]

end Token

namespace ParseTree

open Token (firstInvalid?)

/-- All literals in a stretch of tokens spell values. -/
def Silent (ts : List Token) : Prop := ∀ us, firstInvalid? (ts ++ us) = firstInvalid? us

/-- The first literal in a stretch of tokens that spells no value. -/
def Blames (ts : List Token) (t : Token) : Prop := ∀ us, firstInvalid? (ts ++ us) = some t

theorem Silent.nil : Silent [] := fun _ => rfl

theorem Silent.append {ts us : List Token} (hts : Silent ts) (hus : Silent us) :
    Silent (ts ++ us) := by
  intro vs
  rw [List.append_assoc, hts, hus]

theorem silent_token {t : Token} (hkind : t.kind ≠ .recipe) (ht : t.isInvalid = false) :
    Silent [t] := by
  intro us
  rw [firstInvalid?, List.singleton_append, Token.evaluated_cons hkind,
    List.find?_cons_of_neg (by simp [ht]), ← firstInvalid?]

theorem blames_token {t : Token} (hkind : t.kind ≠ .recipe) (ht : t.isInvalid = true) :
    Blames [t] t := by
  intro us
  rw [firstInvalid?, List.singleton_append, Token.evaluated_cons hkind, List.find?_cons_of_pos ht]

theorem silent_plain {t : Token} (h : t.kind.isPlain = true) : Silent [t] := by
  have hne : ∀ kind, kind.isPlain = false → t.kind ≠ kind := by
    rintro _ hkind rfl
    rw [h] at hkind
    cases hkind
  refine silent_token (hne _ rfl) (Token.isInvalid_eq_false_iff.2 ?_)
  exact (Token.Kind.hasForm_of_ne (hne _ rfl) (hne _ rfl) _).reads

/-- The length of an array may be anything. -/
theorem silent_array {t : Token} (h : t.kind = .recipe) (type name left dimension : Token) :
    Silent [t, type, name, left, dimension] := by
  intro us
  rw [firstInvalid?]
  exact congrArg _ (Token.evaluated_array h type name left dimension us)

theorem Silent.marks {kinds : List Token.Kind} {ts : List Token} (h : Marks kinds ts)
    (hkinds : kinds.all Token.Kind.isPlain = true) : Silent ts := by
  subst h
  induction ts with
  | nil => exact .nil
  | cons t ts ih =>
    rw [List.map_cons, List.all_cons, Bool.and_eq_true] at hkinds
    exact (silent_plain hkinds.1).append (ih hkinds.2)

/-! ### Readings -/

/-- What a reading gives for a stretch of tokens: a result that satisfies a condition, if all
literals spell values, and otherwise an error at the first that does not. -/
inductive Gives {α : Type} (x : Except ShapeError α) (ts : List Token)
    (post : α → List Token → Prop) : Prop
  | ok {a : α} (gives : x = .ok a) (silent : Silent ts) (holds : post a ts)
  | invalid {t : Token} (fails : x = .error (.invalidLiteral t.lexeme t.line))
      (blames : Blames ts t)

section
variable {α β : Type} {x : Except ShapeError α} {ts us : List Token}
  {post : β → List Token → Prop} {mid : α → List Token → Prop}

theorem Gives.pure {b : β} (hts : Silent ts) (h : post b ts) :
    Gives (pure b : Except ShapeError β) ts post :=
  .ok rfl hts h

/-- Readings one after the other. -/
theorem Gives.bind {f : α → Except ShapeError β} (hx : Gives x ts mid)
    (hf : ∀ a, mid a ts → Gives (f a) us fun b vs => post b (ts ++ vs)) :
    Gives (x >>= f) (ts ++ us) post := by
  cases hx with
  | @ok a gives silent holds =>
    subst gives
    cases hf a holds with
    | ok gives' silent' holds' => exact .ok gives' (silent.append silent') holds'
    | invalid fails blames =>
      refine .invalid fails fun vs => ?_
      rw [List.append_assoc, silent, blames]
  | invalid fails blames =>
    subst fails
    refine .invalid rfl fun vs => ?_
    rw [List.append_assoc, blames]

/-- What is made of the result of a reading. -/
theorem Gives.map {f : α → β} (hx : Gives x ts mid) (hf : ∀ a, mid a ts → post (f a) ts) :
    Gives (x >>= fun a => Pure.pure (f a)) ts post := by
  cases hx with
  | @ok a gives silent holds =>
    subst gives
    exact .ok rfl silent (hf a holds)
  | invalid fails blames =>
    subst fails
    exact .invalid rfl blames

theorem Gives.weaken {x : Except ShapeError β} {mid : β → List Token → Prop} (hx : Gives x ts mid)
    (h : ∀ b, mid b ts → post b ts) : Gives x ts post := by
  rw [← bind_pure x]
  exact hx.map h

/-- Tokens that were read before. -/
theorem Gives.drop {y : Except ShapeError β} (hts : Silent ts)
    (hy : Gives y us fun b vs => post b (ts ++ vs)) : Gives y (ts ++ us) post := by
  cases hy with
  | ok gives silent holds => exact .ok gives (hts.append silent) holds
  | invalid fails blames =>
    refine .invalid fails fun vs => ?_
    rw [List.append_assoc, hts, blames]

/-- A token that was read before. -/
theorem Gives.pass {y : Except ShapeError β} {head : ParseTree} {kind : Token.Kind}
    (htag : head.tag = .token kind) (hkind : kind.isPlain = true)
    (hy : Gives y us fun b vs => post b (head.toToken :: vs)) :
    Gives y (head.tokens ++ us) post := by
  rw [tokens_of_token htag]
  exact .drop (silent_plain (toToken_kind htag ▸ hkind)) hy

theorem marks_toToken {t : ParseTree} {kind : Token.Kind} (h : t.tag = .token kind) :
    Marks [kind] [t.toToken] := by
  exact .singleton (toToken_kind h)

/-! ### Reading children -/

variable {parent : ParseTree} {c : Cursor parent} {slot : Slot} {slots : List Slot}
  {f : Child parent × Cursor parent → Except ShapeError β}

/-- Reading whatever child is next. -/
theorem Gives.skip (h : Row (slot :: slots) c.rest)
    (hf : ∀ child (c' : Cursor parent), child.1.Sound → child.1.tag ∈ slot → Row slots c'.rest →
      Gives (f (child, c')) (child.1.tokens ++ tokensAll c'.rest) post) :
    Gives (c.skip >>= f) (tokensAll c.rest) post := by
  obtain ⟨child, c', hnext, hsound, htag, hrest, htokens⟩ := h.next (.phrase "a symbol")
  rw [Cursor.skip, hnext, htokens]
  exact hf child c' hsound htag hrest

/-- Reading the token that tells what follows. -/
theorem Gives.keyword {kind : Token.Kind} (h : Row (.token kind :: slots) c.rest)
    (hkind : kind.isPlain = true)
    (hf : ∀ child (c' : Cursor parent), child.1.tag = .token kind → Row slots c'.rest →
      Gives (f (child, c')) (tokensAll c'.rest) fun b vs => post b (child.1.toToken :: vs)) :
    Gives (c.skip >>= f) (tokensAll c.rest) post := by
  refine .skip h fun child c' _ htag hc' => ?_
  rw [Slot.mem_token_iff] at htag
  exact .pass htag hkind (hf child c' htag hc')

/-- Reading a child whose tokens are taken into account elsewhere. -/
theorem Gives.see {tag : Tag} {wanted : ShapeError.Wanted} (h : Row ([tag] :: slots) c.rest)
    (hf : ∀ child (c' : Cursor parent), child.1.Sound → child.1.tag = tag → Row slots c'.rest →
      tokensAll c.rest = child.1.tokens ++ tokensAll c'.rest → Gives (f (child, c')) ts post) :
    Gives (c.expect wanted tag >>= f) ts post := by
  obtain ⟨child, c', hexpect, hsound, htag, hrest, htokens⟩ := h.expect wanted
  rw [hexpect]
  exact hf child c' hsound htag hrest htokens

theorem Gives.expect {tag : Tag} {wanted : ShapeError.Wanted} (h : Row ([tag] :: slots) c.rest)
    (hf : ∀ child (c' : Cursor parent), child.1.Sound → child.1.tag = tag → Row slots c'.rest →
      Gives (f (child, c')) (child.1.tokens ++ tokensAll c'.rest) post) :
    Gives (c.expect wanted tag >>= f) (tokensAll c.rest) post :=
  .see h fun child c' hsound htag hc' htokens => htokens ▸ hf child c' hsound htag hc'

/-- Reading a token. -/
theorem Gives.token {kind : Token.Kind} (h : Row (.token kind :: slots) c.rest)
    (hf : ∀ child (c' : Cursor parent), child.1.Sound → child.1.tag = .token kind →
      Row slots c'.rest → Gives (f (child, c')) (child.1.tokens ++ tokensAll c'.rest) post) :
    Gives (c.token kind >>= f) (tokensAll c.rest) post :=
  .expect h hf

/-- Reading a token that is used. -/
theorem Gives.name {kind : Token.Kind} (h : Row (.token kind :: slots) c.rest)
    (hkind : kind.isPlain = true)
    (hf : ∀ child (c' : Cursor parent), child.1.toToken.kind = kind → Row slots c'.rest →
      Gives (f (child, c')) (tokensAll c'.rest) fun b vs => post b (child.1.toToken :: vs)) :
    Gives (c.token kind >>= f) (tokensAll c.rest) post := by
  refine .token h fun child c' _ htag hc' => ?_
  exact .pass htag hkind (hf child c' (toToken_kind htag) hc')

/-- Reading a mark. -/
theorem Gives.mark {kind : Token.Kind} (h : Row (.token kind :: slots) c.rest)
    (hkind : kind.isPlain = true)
    (hf : ∀ child (c' : Cursor parent) mark, Row slots c'.rest → Marks [kind] mark →
      Gives (f (child, c')) (tokensAll c'.rest) fun b vs => post b (mark ++ vs)) :
    Gives (c.token kind >>= f) (tokensAll c.rest) post := by
  refine .token h fun child c' _ htag hc' => ?_
  exact .pass htag hkind (hf child c' [child.1.toToken] hc' (marks_toToken htag))

/-- Reading an expansion of a nonterminal. -/
theorem Gives.node {n : Nonterminal} (h : Row (.node n :: slots) c.rest)
    (hf : ∀ child (c' : Cursor parent), child.1.Sound → child.1.tag ∈ Slot.node n →
      Row slots c'.rest → Gives (f (child, c')) (child.1.tokens ++ tokensAll c'.rest) post) :
    Gives (c.node n >>= f) (tokensAll c.rest) post :=
  .expect h fun child c' hsound htag => hf child c' hsound (List.mem_singleton.2 htag)

/-- Reading the last child, whatever it is. -/
theorem Gives.lastSkip (h : Row [slot] c.rest)
    (hf : ∀ child (c' : Cursor parent), child.1.Sound → child.1.tag ∈ slot →
      Gives (f (child, c')) child.1.tokens post) :
    Gives (c.skip >>= f) (tokensAll c.rest) post := by
  refine .skip h fun child c' hsound htag hc' => ?_
  rw [List.forall₂_nil_right_iff.1 hc', tokensAll_nil, List.append_nil]
  exact hf child c' hsound htag

/-- Reading the last child. -/
theorem Gives.last {n : Nonterminal} (h : Row [.node n] c.rest)
    (hf : ∀ child (c' : Cursor parent), child.1.Sound → child.1.tag ∈ Slot.node n →
      Gives (f (child, c')) child.1.tokens post) :
    Gives (c.node n >>= f) (tokensAll c.rest) post := by
  refine .node h fun child c' hsound htag hc' => ?_
  rw [List.forall₂_nil_right_iff.1 hc', tokensAll_nil, List.append_nil]
  exact hf child c' hsound htag

theorem Row.tokens {kinds : List Token.Kind} (h : Row (kinds.map Slot.token ++ slots) c.rest) :
    ∃ (c' : Cursor parent) (marks : List Token), c.tokens kinds = .ok c' ∧ Row slots c'.rest ∧
      Marks kinds marks ∧ tokensAll c.rest = marks ++ tokensAll c'.rest := by
  unfold Cursor.tokens
  induction kinds generalizing c with
  | nil => exact ⟨c, [], rfl, h, rfl, rfl⟩
  | cons kind kinds ih =>
    obtain ⟨child, c₁, htoken, -, htag, hrest, htokens⟩ := h.expect (.token kind)
    obtain ⟨c', marks, hmarks, hc', hkinds, htokens'⟩ := ih hrest
    refine ⟨c', child.1.toToken :: marks, ?_, hc', ?_, ?_⟩
    · rw [List.foldlM_cons, Cursor.token, htoken]
      exact hmarks
    · simp only [Marks, List.map_cons, toToken_kind htag]
      rw [hkinds]
    · rw [htokens, htokens', tokens_of_token htag]
      rfl

/-- Passing over marks. -/
theorem Gives.marks {f : Cursor parent → Except ShapeError β} {kinds : List Token.Kind}
    (h : Row (kinds.map Slot.token ++ slots) c.rest)
    (hkinds : kinds.all Token.Kind.isPlain = true)
    (hf : ∀ (c' : Cursor parent) marks, Row slots c'.rest → Marks kinds marks →
      Gives (f c') (tokensAll c'.rest) fun b vs => post b (marks ++ vs)) :
    Gives (c.tokens kinds >>= f) (tokensAll c.rest) post := by
  obtain ⟨c', marks, htokens, hc', hmarks, heq⟩ := h.tokens
  rw [htokens, heq]
  exact .drop (.marks hmarks hkinds) (hf c' marks hc' hmarks)

/-- Only marks are left. -/
theorem Gives.done (kinds : List Token.Kind) {b : β} (h : Row (kinds.map Slot.token) c.rest)
    (hkinds : kinds.all Token.Kind.isPlain = true)
    (hb : ∀ marks, Marks kinds marks → post b marks) :
    Gives (Pure.pure b) (tokensAll c.rest) post := by
  rw [← List.append_nil (kinds.map Slot.token)] at h
  obtain ⟨c', marks, -, hc', hmarks, heq⟩ := h.tokens
  rw [List.forall₂_nil_right_iff.1 hc', tokensAll_nil, List.append_nil] at heq
  rw [heq]
  exact .pure (.marks hmarks hkinds) (hb marks hmarks)

/-- A reading behind which only marks are left. -/
theorem Gives.close {x : Except ShapeError β} {mid : β → List Token → Prop}
    (hx : Gives x ts mid) (kinds : List Token.Kind) (h : Row (kinds.map Slot.token) c.rest)
    (hkinds : kinds.all Token.Kind.isPlain = true)
    (hb : ∀ b, mid b ts → ∀ marks, Marks kinds marks → post b (ts ++ marks)) :
    Gives x (ts ++ tokensAll c.rest) post := by
  rw [← bind_pure x]
  exact hx.bind fun b hmid => .done kinds h hkinds (hb b hmid)

/-- Nothing is left. -/
theorem Gives.finish {b : β} (h : Row [] c.rest) (hb : post b []) :
    Gives (Pure.pure b) (tokensAll c.rest) post := by
  rw [List.forall₂_nil_right_iff.1 h]
  exact .pure .nil hb

/-- The only child of a node. -/
theorem Gives.firstChild {t : ParseTree} {f : Child t → Except ShapeError β}
    (h : Row [slot] t.children)
    (hf : ∀ child, child.1.Sound → child.1.tag ∈ slot → Gives (f child) child.1.tokens post) :
    Gives (t.firstChild >>= f) (tokensAll t.cursor.rest) post := by
  unfold ParseTree.firstChild
  rw [bind_assoc]
  refine Gives.skip (c := t.cursor) h fun child c' hsound htag hc' => ?_
  rw [List.forall₂_nil_right_iff.1 hc', tokensAll_nil, List.append_nil]
  exact hf child hsound htag

/-- A node that may have vanished. -/
theorem Sound.optional {t : ParseTree} {ns : List Nonterminal} (h : t.Sound)
    (hn : t.tag ∈ Slot.nodes ns) (hns : ∀ n ∈ ns, layout n = [[.lambda], slot :: slots])
    (hslot : .empty ∉ slot) {b : β} {y : Except ShapeError β} (hb : post b [])
    (hy : Row (slot :: slots) t.cursor.rest → Gives y (tokensAll t.cursor.rest) post) :
    Gives (if t.vanishes then Pure.pure b else y) t.tokens post := by
  obtain ⟨_, hslots, hrow⟩ := h.exists_row hn hns
  rcases List.mem_pair.1 hslots with rfl | rfl
  · rw [if_pos hrow.vanishes, tokens_of_node hn, hrow.tokensAll_cursor]
    exact .pure .nil hb
  · rw [if_neg (hrow.not_vanishes hslot), tokens_of_node hn]
    exact hy hrow

end

end ParseTree

end Bistro
