import Bistro.Proofs.Parse.FirstError

/-!
# Open nodes

Each item of the stack belongs to the production by which it was put there, and each production on
the stack has an end mark and a node that is not yet complete.  The machine keeps the nodes only,
with the nonterminals at their heads; here the owners of all items are followed as well, step by
step.

The open nodes are always among the owners of the end marks, in the same order.  If there are as
many of them they are the same, and then an error at a terminal names the owner of this terminal.
They are the same from the beginning, and every step keeps them so but one: a repair that goes on
from the stack after the last match can put end marks back whose nodes are complete.  From there on
nodes are missing.

## Main definitions

* `Parse.OwnedItem` — an item and the nonterminal whose production it belongs to.
* `Parse.Attributed` — the stacks of a machine with the owners of their items.
* `Parse.Layered` — a stack of the ends of productions.
* `Parse.Rooted` — what is left of the stack after the last match, and what will come off.
* `Parse.PutsBack` — a repair that puts back end marks.

## Main results

* `Parse.Attributed.layered` — each item belongs to a production of its owner.
* `Parse.Attributed.suffix_of_stuck` — at an error the stack is what is left of the stack after the
  last match.
* `Parse.Attributed.opened_sublist` — **the open nodes are among the owners of the end marks.**
* `Parse.opened_length_step` — the numbers stay the same, unless a repair puts back end marks.
* `Parse.open_nodes_mirror` — **where the open nodes mirror the stack.**
* `Parse.put_back_unmirrored` — a repair after which a wrong nonterminal is named.
-/

namespace Bistro.Parse

open Grammar (Production)

variable {setting : Setting} {s s' : State} {effort : Nonterminal → Nat} {most longest : Nat}
  {start : Nonterminal} {tokens : List Token}

/-! ### Owners -/

/-- An item of a stack and the nonterminal whose production it belongs to. -/
structure OwnedItem where
  item : Item
  owner : Nonterminal
  deriving DecidableEq, Repr, Inhabited

variable {σ ρ φ : List OwnedItem}

/-- The items that the rest of a production of a nonterminal has on the stack. -/
def ownedBy (n : Nonterminal) (β : Production Nonterminal Token.Kind) : List OwnedItem :=
  β.map fun x => ⟨.ofSymbol x, n⟩

/-- The items that an expansion puts on the stack. -/
def expansion (n : Nonterminal) (α : Production Nonterminal Token.Kind) : List OwnedItem :=
  ownedBy n α ++ (ending true α).map (⟨·, n⟩)

/-- The number of end marks on a stack. -/
def marks (σ : List Item) : Nat := σ.count .endOfProduction

/-- The owners of the end marks on a stack. -/
def owners (σ : List OwnedItem) : List Nonterminal :=
  (σ.filter (·.item = .endOfProduction)).map OwnedItem.owner

@[simp] theorem map_item_ownedBy (n : Nonterminal) (β : Production Nonterminal Token.Kind) :
    (ownedBy n β).map OwnedItem.item = β.map Item.ofSymbol := by
  simp [ownedBy, Function.comp_def]

@[simp] theorem map_item_expansion (n : Nonterminal) (α : Production Nonterminal Token.Kind) :
    (expansion n α).map OwnedItem.item = α.map Item.ofSymbol ++ ending true α := by
  simp [expansion, Function.comp_def]

@[simp] theorem owners_append (σ τ : List OwnedItem) : owners (σ ++ τ) = owners σ ++ owners τ := by
  simp [owners]

theorem owners_cons_mark {x : OwnedItem} (hx : x.item = .endOfProduction) (σ : List OwnedItem) :
    owners (x :: σ) = x.owner :: owners σ := by
  simp [owners, hx]

theorem owners_cons_ne {x : OwnedItem} (hx : x.item ≠ .endOfProduction) (σ : List OwnedItem) :
    owners (x :: σ) = owners σ := by
  simp [owners, hx]

@[simp] theorem owners_ownedBy (n : Nonterminal) (β : Production Nonterminal Token.Kind) :
    owners (ownedBy n β) = [] := by
  induction β with
  | nil => rfl
  | cons x β ih =>
    refine (owners_cons_ne ?_ _).trans ih
    cases x <;> simp [Item.ofSymbol]

theorem owners_expansion (n : Nonterminal) (α : Production Nonterminal Token.Kind) :
    owners (expansion n α) = if α = [] then [] else [n] := by
  rw [expansion, owners_append, owners_ownedBy]
  cases α <;> simp [ending, owners]

theorem length_owners (σ : List OwnedItem) :
    (owners σ).length = marks (σ.map OwnedItem.item) := by
  induction σ with
  | nil => rfl
  | cons x σ ih =>
    by_cases hx : x.item = .endOfProduction
    · rw [owners_cons_mark hx, List.map_cons, hx, marks, List.count_cons_self, List.length_cons, ih]
      rfl
    · rw [owners_cons_ne hx, List.map_cons, marks, List.count_cons_of_ne hx, ih]
      rfl

/-! ### Nodes -/

namespace State

/-- The nonterminals at the heads of the open nodes, the innermost first. -/
def openHeads (s : State) : List Nonterminal := s.opened.map OpenNode.head

@[simp] theorem openHeads_attach (node : ParseTree) (s : State) :
    (s.attach node).openHeads = s.openHeads := by
  unfold attach openHeads
  split
  · next h => simp [h]
  · rfl

@[simp] theorem openHeads_closeNode (s : State) : s.closeNode.openHeads = s.openHeads.tail := by
  unfold closeNode
  split
  · next h => rw [openHeads_attach]; simp [openHeads, h]
  · next h => simp [openHeads, h]

@[simp] theorem openHeads_closeNodes (n : Nat) (s : State) :
    (s.closeNodes n).openHeads = s.openHeads.drop n := by
  induction n generalizing s with
  | zero => rfl
  | succ n ih => rw [closeNodes, ih, openHeads_closeNode, List.drop_tail]

@[simp] theorem openHeads_matchTerminal (setting : Setting) (kind : Token.Kind) (rest : List Item)
    (s : State) : (s.matchTerminal setting kind rest).openHeads = s.openHeads := by
  have hstack : ∀ (s : State) (σ ρ : List Item),
      { s with stack := σ, checkpoint := ρ }.openHeads = s.openHeads := fun _ _ _ => rfl
  unfold matchTerminal
  dsimp only
  rw [hstack]
  split
  · exact openHeads_attach ..
  · exact openHeads_attach ..
  · exact openHeads_attach ..

theorem openHeads_expand (setting : Setting) (n : Nonterminal) (i : Nat) (rest : List Item)
    (s : State) : (s.expand setting n i rest).openHeads =
      owners (expansion n (production setting n i)) ++ s.openHeads := by
  rw [owners_expansion]
  unfold expand
  dsimp only
  split
  · next h =>
    rw [openHeads_attach, h]
    rfl
  · next h =>
    have hne : production setting n i ≠ [] := by simpa using h
    simp [hne, openHeads]

theorem length_openHeads (s : State) : s.openHeads.length = s.opened.length := List.length_map _

theorem context_eq (setting : Setting) (s : State) :
    s.context setting = s.openHeads.headD setting.tables.grammar.start := by
  unfold context openHeads
  cases s.opened <;> rfl

end State

/-! ### Cutting the stack -/

/-- The state at some of the tokens ahead, with its stack cut down to a part of it. -/
def State.cutTo (ahead : List Token) (ends : Nat) (kept : List Item) (s : State) : State :=
  { State.closeNodes ends { s with ahead } with stack := kept, checkpoint := kept }

@[simp] theorem State.openHeads_cutTo (ahead : List Token) (ends : Nat) (kept : List Item)
    (s : State) : (s.cutTo ahead ends kept).openHeads = s.openHeads.drop ends :=
  openHeads_closeNodes ends _

/-- As many nodes are closed as end marks are cut off. -/
theorem syncPoint?_ends {a : Lookahead} {τ kept : List Item} {ends : Nat}
    (h : syncPoint? setting a τ = some (ends, kept)) :
    ∃ front, τ = front ++ kept ∧ marks front = ends := by
  induction τ generalizing ends with
  | nil => cases h
  | cons item τ ih =>
    -- an item that is cut off, and is no end mark
    have hcut : item ≠ .endOfProduction → syncPoint? setting a τ = some (ends, kept) →
        ∃ front, item :: τ = front ++ kept ∧ marks front = ends := by
      intro hne hτ
      obtain ⟨front, rfl, hfront⟩ := ih hτ
      exact ⟨item :: front, rfl, by rw [marks, List.count_cons_of_ne hne]; exact hfront⟩
    have hkeep : ∀ {τ' : List Item}, some (0, τ') = some (ends, kept) → ends = 0 ∧ kept = τ' := by
      intro τ' heq
      obtain ⟨rfl, rfl⟩ := Prod.mk.inj (Option.some.inj heq)
      exact ⟨rfl, rfl⟩
    cases item with
    | terminal kind =>
      rw [syncPoint?] at h
      split at h
      · obtain ⟨rfl, rfl⟩ := hkeep h
        exact ⟨[], rfl, rfl⟩
      · exact hcut (by simp) h
    | bottom =>
      rw [syncPoint?] at h
      split at h
      · obtain ⟨rfl, rfl⟩ := hkeep h
        exact ⟨[], rfl, rfl⟩
      · exact hcut (by simp) h
    | nonterminal n =>
      rw [syncPoint?] at h
      split at h
      · obtain ⟨rfl, rfl⟩ := hkeep h
        exact ⟨[], rfl, rfl⟩
      · split at h
        · obtain ⟨rfl, rfl⟩ := hkeep h
          exact ⟨[.nonterminal n], rfl, rfl⟩
        · exact hcut (by simp) h
    | endOfProduction =>
      rw [syncPoint?] at h
      obtain ⟨⟨e, kept'⟩, he, heq⟩ := Option.map_eq_some_iff.1 h
      obtain ⟨rfl, rfl⟩ := Prod.mk.inj heq
      obtain ⟨front, rfl, hfront⟩ := ih he
      refine ⟨.endOfProduction :: front, rfl, ?_⟩
      rw [marks, List.count_cons_self, ← hfront]
      rfl

/-! ### Following the owners -/

/-- The owners of the items on the two stacks of a machine: on the present one, and on the one after
the last match. -/
inductive Attributed (setting : Setting) (start : Nonterminal) (tokens : List Token) :
    State → List OwnedItem → List OwnedItem → Prop
  /-- What is there at the beginning counts to the start symbol. -/
  | initial : Attributed setting start tokens (State.initial start tokens)
      [⟨.nonterminal start, start⟩, ⟨.bottom, start⟩]
      [⟨.nonterminal start, start⟩, ⟨.bottom, start⟩]
  /-- An end mark is taken off. -/
  | close {s : State} {rest : List Item} {x : OwnedItem} {σ ρ : List OwnedItem}
      (h : Attributed setting start tokens s (x :: σ) ρ)
      (htop : s.stack = .endOfProduction :: rest) :
      Attributed setting start tokens { s with stack := rest }.closeNode σ ρ
  /-- A terminal is matched. -/
  | terminal {s : State} {kind : Token.Kind} {rest : List Item} {x : OwnedItem}
      {σ ρ : List OwnedItem} (h : Attributed setting start tokens s (x :: σ) ρ)
      (htop : s.stack = .terminal kind :: rest) (hseen : s.lookahead = .token kind) :
      Attributed setting start tokens (s.matchTerminal setting kind rest) σ σ
  /-- A nonterminal is expanded, and owns what is put in its place. -/
  | expand {s : State} {n : Nonterminal} {i : Nat} {rest : List Item} {x : OwnedItem}
      {σ ρ : List OwnedItem} (h : Attributed setting start tokens s (x :: σ) ρ)
      (htop : s.stack = .nonterminal n :: rest)
      (hi : setting.tables.select? n s.lookahead = some i) :
      Attributed setting start tokens (s.expand setting n i rest)
        (expansion n (State.production setting n i) ++ σ) ρ
  /-- A repair goes on from one of the two stacks. -/
  | repair {s s' : State} {r : Repair} {σ ρ : List OwnedItem}
      (h : Attributed setting start tokens s σ ρ) (hstuck : Stuck setting s.lookahead s.stack)
      (hr : repair? setting (reported setting s) = some r)
      (hstep : step setting s = .running s') (hs' : s' = (reported setting s).apply r) :
      Attributed setting start tokens s' (if r.fromCheckpoint then ρ else σ) ρ
  /-- The stack is cut. -/
  | cut {s s' : State} {ahead : List Token} {φ σ ρ : List OwnedItem}
      (h : Attributed setting start tokens s (φ ++ σ) ρ)
      (hstuck : Stuck setting s.lookahead s.stack)
      (hr : repair? setting (reported setting s) = none)
      (hsync : syncPoint? setting (look s.inserted ahead) s.stack =
        some ((owners φ).length, σ.map OwnedItem.item))
      (hstep : step setting s = .running s')
      (hs' : s' = (reported setting s).cutTo ahead (owners φ).length (σ.map OwnedItem.item)) :
      Attributed setting start tokens s' σ σ

/-- Without the owners these are the stacks of the machine. -/
theorem Attributed.items (h : Attributed setting start tokens s σ ρ) :
    σ.map OwnedItem.item = s.stack ∧ ρ.map OwnedItem.item = s.checkpoint := by
  induction h with
  | initial => exact ⟨rfl, rfl⟩
  | close h htop ih =>
    rw [htop, List.map_cons] at ih
    exact ⟨by simpa using (List.cons.inj ih.1).2, by simpa using ih.2⟩
  | terminal h htop hseen ih =>
    rw [htop, List.map_cons] at ih
    exact ⟨by simpa using (List.cons.inj ih.1).2, by simpa using (List.cons.inj ih.1).2⟩
  | expand h htop hi ih =>
    rw [htop, List.map_cons] at ih
    exact ⟨by simp [(List.cons.inj ih.1).2], by simpa using ih.2⟩
  | repair h hstuck hr hstep hs' ih =>
    subst hs'
    refine ⟨?_, ih.2⟩
    unfold State.apply
    dsimp only
    split
    · exact ih.2
    · exact ih.1
  | cut h hstuck hr hsync hstep hs' ih =>
    subst hs'
    exact ⟨rfl, rfl⟩

theorem Attributed.item_eq {x : OwnedItem} {item : Item} {rest : List Item}
    (h : Attributed setting start tokens s (x :: σ) ρ) (htop : s.stack = item :: rest) :
    x.item = item :=
  (List.cons.inj (h.items.1.trans htop)).1

/-- Owners are followed along a run. -/
theorem Attributed.reaches (h : Attributed setting start tokens s σ ρ) :
    Reaches setting (State.initial start tokens) s := by
  induction h with
  | initial => exact .refl
  | close h htop ih => exact ih.tail (Quiet.close htop).step_eq
  | terminal h htop hseen ih => exact ih.tail (Quiet.terminal htop hseen).step_eq
  | expand h htop hi ih => exact ih.tail (Quiet.expand htop hi).step_eq
  | repair h hstuck hr hstep hs' ih => exact ih.tail hstep
  | cut h hstuck hr hsync hstep hs' ih => exact ih.tail hstep

/-- **Every item on the stack has an owner**, in every state that is reached. -/
theorem Attributed.of_reaches (hreach : Reaches setting (State.initial start tokens) s) :
    ∃ σ ρ, Attributed setting start tokens s σ ρ := by
  induction hreach with
  | refl => exact ⟨_, _, .initial⟩
  | @tail s s' _ hstep ih =>
    obtain ⟨σ, ρ, h⟩ := ih
    have hitems := h.items.1
    rcases step_cases setting s with hbottom | ⟨s₁, hq⟩ | hstuck
    · cases hbottom.step_eq.symm.trans hstep
    · obtain rfl := Step.running.inj (hq.step_eq.symm.trans hstep)
      cases hq with
      | close htop =>
        obtain ⟨x, τ, rfl, -, -⟩ := List.map_eq_cons_iff.1 (hitems.trans htop)
        exact ⟨_, _, .close h htop⟩
      | terminal htop hseen =>
        obtain ⟨x, τ, rfl, -, -⟩ := List.map_eq_cons_iff.1 (hitems.trans htop)
        exact ⟨_, _, .terminal h htop hseen⟩
      | expand htop hi =>
        obtain ⟨x, τ, rfl, -, -⟩ := List.map_eq_cons_iff.1 (hitems.trans htop)
        exact ⟨_, _, .expand h htop hi⟩
    · have hstumble := hstuck.step_eq.symm.trans hstep
      cases hr : repair? setting (reported setting s) with
      | some r => exact ⟨_, _, .repair h hstuck hr hstep (eq_apply_of_repair hr hstumble)⟩
      | none =>
        obtain ⟨ahead, ends, kept, -, hsync, hs'⟩ :=
          (stumble_running_cases hstumble).resolve_left (by simp [hr])
        -- the owners of what is kept stay
        obtain ⟨front, hfront, hends⟩ := syncPoint?_ends hsync
        obtain ⟨φ, τ, rfl, hφ, rfl⟩ := List.map_eq_append_iff.1 (hitems.trans hfront)
        obtain rfl : (owners φ).length = ends := by rw [length_owners, hφ, hends]
        exact ⟨_, _, .cut h hstuck hr hsync hstep hs'⟩

/-! ### Layers -/

/-- A stack with owners is made of the ends of productions, each with an end mark below it, down to
the bottom. -/
inductive Layered (g : Grammar Nonterminal Token.Kind) : List OwnedItem → Prop
  /-- The bottom. -/
  | bottom : Layered g [⟨.bottom, g.start⟩]
  /-- The start symbol and the bottom. -/
  | start : Layered g [⟨.nonterminal g.start, g.start⟩, ⟨.bottom, g.start⟩]
  /-- What is left of a production. -/
  | layer {n : Nonterminal} {before β : Production Nonterminal Token.Kind} {σ : List OwnedItem}
      (mem : before ++ β ∈ g.alternatives n) (h : Layered g σ) :
      Layered g (ownedBy n β ++ ⟨.endOfProduction, n⟩ :: σ)

variable {g : Grammar Nonterminal Token.Kind}

theorem Layered.tail {x : OwnedItem} (h : Layered g (x :: σ)) (hx : x.item ≠ .bottom) :
    Layered g σ := by
  generalize hτ : x :: σ = τ at h
  cases h with
  | bottom =>
    obtain ⟨rfl, -⟩ := List.cons.inj hτ
    exact absurd rfl hx
  | start =>
    obtain ⟨-, rfl⟩ := List.cons.inj hτ
    exact .bottom
  | @layer n before β σ' mem h =>
    cases β with
    | nil =>
      obtain ⟨-, rfl⟩ := List.cons.inj hτ
      exact h
    | cons y β =>
      obtain ⟨-, rfl⟩ := List.cons.inj hτ
      have mem : (before ++ [y]) ++ β ∈ g.alternatives n := by simpa using mem
      exact .layer mem h

theorem Layered.eq_nil_of_bottom {x : OwnedItem} (h : Layered g (x :: σ)) (hx : x.item = .bottom) :
    σ = [] := by
  generalize hτ : x :: σ = τ at h
  cases h with
  | bottom => exact (List.cons.inj hτ).2
  | start =>
    obtain ⟨rfl, -⟩ := List.cons.inj hτ
    cases hx
  | @layer n before β σ' mem h =>
    cases β with
    | nil =>
      obtain ⟨rfl, -⟩ := List.cons.inj hτ
      cases hx
    | cons y β =>
      obtain ⟨rfl, -⟩ := List.cons.inj hτ
      cases y <;> cases hx

theorem Layered.of_append (h : Layered g (φ ++ σ)) (hσ : σ ≠ []) : Layered g σ := by
  induction φ with
  | nil => exact h
  | cons x φ ih =>
    by_cases hx : x.item = .bottom
    · exact absurd (List.append_eq_nil_iff.1 (h.eq_nil_of_bottom hx)).2 hσ
    · exact ih (h.tail hx)

theorem Layered.grounded (h : Layered g σ) : [.bottom] <:+ σ.map OwnedItem.item := by
  induction h with
  | bottom => exact List.suffix_rfl
  | start => exact List.suffix_cons _ _
  | layer mem h ih =>
    rw [List.map_append, List.map_cons]
    exact (ih.trans (List.suffix_cons _ _)).trans (List.suffix_append _ _)

/-- The owner of an item is that of the first end mark at it or below it. -/
theorem Layered.owner_eq {x : OwnedItem} (h : Layered g (x :: σ)) :
    x.owner = (owners (x :: σ)).headD g.start := by
  generalize hτ : x :: σ = τ at h
  cases h with
  | bottom =>
    obtain ⟨rfl, -⟩ := List.cons.inj hτ
    rfl
  | start =>
    obtain ⟨rfl, -⟩ := List.cons.inj hτ
    rfl
  | @layer n before β σ' mem h =>
    have hx : x.owner = n := by
      cases β with
      | nil =>
        obtain ⟨rfl, -⟩ := List.cons.inj hτ
        rfl
      | cons y β =>
        obtain ⟨rfl, -⟩ := List.cons.inj hτ
        rfl
    rw [owners_append, owners_ownedBy, owners_cons_mark rfl, hx]
    rfl

/-- A terminal belongs to a production of its owner, and what comes behind it in this production is
below it. -/
theorem Layered.exists_production {kind : Token.Kind} {n : Nonterminal}
    (h : Layered g (⟨.terminal kind, n⟩ :: σ)) :
    ∃ before β τ, before ++ .terminal kind :: β ∈ g.alternatives n ∧
      σ = ownedBy n β ++ ⟨.endOfProduction, n⟩ :: τ := by
  generalize hτ : (⟨.terminal kind, n⟩ : OwnedItem) :: σ = τ at h
  cases h with
  | bottom => cases hτ
  | start => cases hτ
  | @layer m before β σ' mem h =>
    cases β with
    | nil => cases hτ
    | cons y β =>
      cases y with
      | nonterminal m' => cases hτ
      | terminal kind' =>
        obtain ⟨heq, rfl⟩ := List.cons.inj hτ
        obtain ⟨hkind, rfl⟩ := OwnedItem.mk.inj heq
        obtain rfl := Item.terminal.inj hkind
        exact ⟨before, β, σ', mem, rfl⟩

/-- An expansion puts a production on the stack, or nothing. -/
theorem Layered.expansion {n : Nonterminal} {α : Production Nonterminal Token.Kind}
    (h : Layered g σ) (hα : α ∈ g.alternatives n) : Layered g (expansion n α ++ σ) := by
  cases α with
  | nil => exact h
  | cons x α =>
    have hmem : [] ++ x :: α ∈ g.alternatives n := hα
    simpa [Parse.expansion, ending] using Layered.layer hmem h

/-- **Each item belongs to a production of its owner.** -/
theorem Attributed.layered (ht : setting.tables.Paced effort most longest)
    (h : Attributed setting setting.tables.grammar.start tokens s σ ρ) :
    Layered setting.tables.grammar σ ∧ Layered setting.tables.grammar ρ := by
  induction h with
  | initial => exact ⟨.start, .start⟩
  | close h htop ih =>
    have hx := h.item_eq htop
    exact ⟨ih.1.tail (by simp [hx]), ih.2⟩
  | terminal h htop hseen ih =>
    have hx := h.item_eq htop
    exact ⟨ih.1.tail (by simp [hx]), ih.1.tail (by simp [hx])⟩
  | expand h htop hi ih =>
    have hx := h.item_eq htop
    exact ⟨(ih.1.tail (by simp [hx])).expansion (production_mem ht hi), ih.2⟩
  | repair h hstuck hr hstep hs' ih =>
    refine ⟨?_, ih.2⟩
    split
    · exact ih.2
    · exact ih.1
  | cut h hstuck hr hsync hstep hs' ih =>
    -- the bottom is not cut off
    have hground := ih.1.grounded
    rw [h.items.1] at hground
    have hkept := (syncPoint?_spec hsync).2.2 hground
    refine ⟨ih.1.of_append ?_, ih.1.of_append ?_⟩
    · rintro rfl
      simp at hkept
    · rintro rfl
      simp at hkept

/-! ### What is left of the stack after the last match -/

/-- In view of a lookahead a row of items comes to nothing, or the terminal that is seen comes to
its top. -/
def Clears (setting : Setting) (a : Lookahead) (τ : List Item) : Prop :=
  (∃ k, Settles setting true a k τ []) ∨
    ∃ k kind υ, a = .token kind ∧ Settles setting true a k τ (.terminal kind :: υ)

section
variable {a : Lookahead} {τ : List Item}

theorem Clears.nil (setting : Setting) (a : Lookahead) : Clears setting a [] :=
  .inl ⟨0, .refl []⟩

theorem Clears.close (h : Clears setting a (.endOfProduction :: τ)) : Clears setting a τ := by
  rcases h with ⟨k, h⟩ | ⟨k, kind, υ, ha, h⟩
  · cases h with
    | mark h => exact .inl ⟨_, h⟩
  · cases h with
    | mark h => exact .inr ⟨_, kind, υ, ha, h⟩

theorem Clears.expand {n : Nonterminal} {i : Nat} (h : Clears setting a (.nonterminal n :: τ))
    (hi : setting.tables.select? n a = some i) :
    Clears setting a ((State.production setting n i).map Item.ofSymbol ++
      (ending true (State.production setting n i) ++ τ)) := by
  rcases h with ⟨k, h⟩ | ⟨k, kind, υ, ha, h⟩
  · cases h with
    | expand hi' h =>
      obtain rfl := Option.some.inj (hi.symm.trans hi')
      exact .inl ⟨_, h⟩
  · cases h with
    | expand hi' h =>
      obtain rfl := Option.some.inj (hi.symm.trans hi')
      exact .inr ⟨_, kind, υ, ha, h⟩

/-- Nothing that clears does not fit. -/
theorem Clears.not_stuck {item : Item} {υ : List Item} (h : Clears setting a (item :: τ)) :
    ¬ Stuck setting a (item :: υ) := by
  intro hstuck
  rcases h with ⟨k, h⟩ | ⟨k, kind, υ, ha, h⟩
  · cases h with
    | mark h => exact hstuck
    | expand hi h => cases hi.symm.trans hstuck
  · cases h with
    | refl => exact hstuck ha
    | mark h => exact hstuck
    | expand hi h => cases hi.symm.trans hstuck

/-- A nonterminal that is expanded begins with the terminal that is seen, or it vanishes. -/
theorem clears_nonterminal (ht : setting.tables.Paced effort most longest) {n : Nonterminal}
    {i : Nat} (hi : setting.tables.select? n a = some i) : Clears setting a [.nonterminal n] := by
  rcases begins_or_vanishes ht hi with ⟨x, rfl, hx⟩ | ⟨hnull, ha⟩
  · obtain ⟨k, -, υ, -, h⟩ := settles_match ht true hx
    exact .inr ⟨k, x, _, rfl, h []⟩
  · obtain ⟨k, -, h⟩ := settles_vanish ht true hnull ha
    exact .inl ⟨k, h []⟩

end

/-- The two stacks have a common part, and what is above it on the present one clears in view of the
lookahead. -/
def Rooted (setting : Setting) (a : Lookahead) (σ ρ : List OwnedItem) : Prop :=
  ∃ φ κ, σ = φ ++ κ ∧ κ <:+ ρ ∧ Clears setting a (φ.map OwnedItem.item)

theorem Rooted.of_suffix (a : Lookahead) (h : σ <:+ ρ) : Rooted setting a σ ρ :=
  ⟨[], σ, rfl, h, .nil setting a⟩

/-- Where the machine is stuck there is nothing above the common part. -/
theorem Rooted.suffix_of_stuck {a : Lookahead} (h : Rooted setting a σ ρ)
    (hstuck : Stuck setting a (σ.map OwnedItem.item)) : σ <:+ ρ := by
  obtain ⟨φ, κ, rfl, hκ, hclears⟩ := h
  cases φ with
  | nil => exact hκ
  | cons x φ => exact absurd hstuck hclears.not_stuck

theorem Attributed.rooted (ht : setting.tables.Paced effort most longest)
    (h : Attributed setting start tokens s σ ρ) : Rooted setting s.lookahead σ ρ := by
  induction h with
  | initial => exact .of_suffix _ List.suffix_rfl
  | @close s rest x σ ρ h htop ih =>
    have hx := h.item_eq htop
    have hseen : ({ s with stack := rest }.closeNode).lookahead = s.lookahead := by
      simp [State.lookahead]
    rw [hseen]
    obtain ⟨φ, κ, hσ, hκ, hclears⟩ := ih
    cases φ with
    | nil =>
      obtain rfl : x :: σ = κ := hσ
      exact .of_suffix _ ((List.suffix_cons x σ).trans hκ)
    | cons y φ =>
      obtain ⟨rfl, rfl⟩ := List.cons.inj hσ
      rw [List.map_cons, hx] at hclears
      exact ⟨φ, κ, rfl, hκ, hclears.close⟩
  | terminal => exact .of_suffix _ List.suffix_rfl
  | @expand s n i rest x σ ρ h htop hi ih =>
    have hx := h.item_eq htop
    have hseen : (s.expand setting n i rest).lookahead = s.lookahead := by simp [State.lookahead]
    rw [hseen]
    obtain ⟨φ, κ, hσ, hκ, hclears⟩ := ih
    cases φ with
    | nil =>
      -- the nonterminal was there from the beginning
      obtain rfl : x :: σ = κ := hσ
      refine ⟨_, σ, rfl, (List.suffix_cons x σ).trans hκ, ?_⟩
      simpa using (clears_nonterminal ht hi).expand hi
    | cons y φ =>
      obtain ⟨rfl, rfl⟩ := List.cons.inj hσ
      rw [List.map_cons, hx] at hclears
      refine ⟨expansion n (State.production setting n i) ++ φ, κ, by simp, hκ, ?_⟩
      simpa using hclears.expand hi
  | repair h hstuck hr hstep hs' ih =>
    -- whatever is seen now, both stacks have no more than the one after the last match
    rw [← h.items.1] at hstuck
    refine .of_suffix _ ?_
    split
    · exact List.suffix_rfl
    · exact ih.suffix_of_stuck hstuck
  | cut => exact .of_suffix _ List.suffix_rfl

/-- **At an error the stack is what is left of the stack after the last match.** -/
theorem Attributed.suffix_of_stuck (ht : setting.tables.Paced effort most longest)
    (h : Attributed setting start tokens s σ ρ) (hstuck : Stuck setting s.lookahead s.stack) :
    σ <:+ ρ := by
  rw [← h.items.1] at hstuck
  exact (h.rooted ht).suffix_of_stuck hstuck

/-! ### Nodes and owners -/

/-- **The open nodes are among the owners of the end marks**, in the same order. -/
theorem Attributed.opened_sublist (ht : setting.tables.Paced effort most longest)
    (h : Attributed setting start tokens s σ ρ) : s.openHeads.Sublist (owners σ) := by
  induction h with
  | initial => exact List.Sublist.slnil
  | close h htop ih =>
    rw [owners_cons_mark (h.item_eq htop)] at ih
    rw [State.openHeads_closeNode]
    exact ih.tail
  | terminal h htop hseen ih =>
    rw [owners_cons_ne (by simp [h.item_eq htop])] at ih
    rwa [State.openHeads_matchTerminal]
  | expand h htop hi ih =>
    rw [owners_cons_ne (by simp [h.item_eq htop])] at ih
    rw [State.openHeads_expand, owners_append]
    exact ih.append_left _
  | @repair s s' r σ ρ h hstuck hr hstep hs' ih =>
    have hsame : s'.openHeads = s.openHeads := by rw [hs']; rfl
    rw [hsame]
    split
    · -- the marks that are put back are added to those that were there
      obtain ⟨above, rfl⟩ := h.suffix_of_stuck ht hstuck
      rw [owners_append]
      exact ih.trans (List.sublist_append_right _ _)
    · exact ih
  | @cut s s' ahead φ σ ρ h hstuck hr hsync hstep hs' ih =>
    have hdropped := ih.drop (owners φ).length
    rw [owners_append, List.drop_left] at hdropped
    rw [hs', State.openHeads_cutTo]
    exact hdropped

/-- **If there are as many open nodes as end marks, an error at a terminal names its owner.** -/
theorem Attributed.errorAt_eq (ht : setting.tables.Paced effort most longest)
    (h : Attributed setting setting.tables.grammar.start tokens s σ ρ)
    (hcount : s.opened.length = marks s.stack) {kind : Token.Kind} {n : Nonterminal}
    {τ : List OwnedItem} (hσ : σ = ⟨.terminal kind, n⟩ :: τ) :
    errorAt setting s = .expected (s.line setting) [kind.spelling] s.lexeme n := by
  have hsublist := h.opened_sublist ht
  have hsame : s.openHeads = owners σ := by
    refine hsublist.eq_of_length ?_
    rw [State.length_openHeads, length_owners, h.items.1, hcount]
  have hcontext : s.context setting = n := by
    have hlayered := (h.layered ht).1
    subst hσ
    rw [State.context_eq, hsame]
    exact hlayered.owner_eq.symm
  have hstack : s.stack = .terminal kind :: τ.map OwnedItem.item := by rw [← h.items.1, hσ]; rfl
  unfold errorAt
  rw [hstack, hcontext]
  rfl

/-! ### Counting -/

/-- A repair goes on from the stack after the last match, on which there are more end marks than on
the present one. -/
structure PutsBack (setting : Setting) (s : State) : Prop where
  /-- There is an error. -/
  stuck : Stuck setting s.lookahead s.stack
  /-- It is repaired from the stack after the last match. -/
  repair : ∃ r, repair? setting (reported setting s) = some r ∧ r.fromCheckpoint = true
  /-- End marks have come off since. -/
  fewer : marks s.stack < marks s.checkpoint

theorem Attributed.marks_le_of_stuck (ht : setting.tables.Paced effort most longest)
    (h : Attributed setting start tokens s σ ρ) (hstuck : Stuck setting s.lookahead s.stack) :
    marks s.stack ≤ marks s.checkpoint := by
  obtain ⟨above, rfl⟩ := h.suffix_of_stuck ht hstuck
  rw [← h.items.1, ← h.items.2, List.map_append]
  unfold marks
  rw [List.count_append]
  omega

/-- A quiet step takes off as many end marks as it closes nodes, and puts on as many as it opens. -/
theorem Quiet.opened_length (hq : Quiet setting s s') (hcount : s.opened.length = marks s.stack) :
    s'.opened.length = marks s'.stack := by
  rw [← State.length_openHeads] at hcount ⊢
  cases hq with
  | @close rest htop =>
    rw [htop, marks, List.count_cons_self] at hcount
    have hheads : ({ s with stack := rest }.closeNode).openHeads = s.openHeads.tail :=
      State.openHeads_closeNode _
    rw [hheads, List.length_tail, hcount]
    simp [marks]
  | @terminal kind rest htop hseen =>
    rw [htop, marks, List.count_cons_of_ne (by simp)] at hcount
    rw [State.openHeads_matchTerminal, hcount]
    simp [marks]
  | @expand n i rest htop hi =>
    rw [htop, marks, List.count_cons_of_ne (by simp)] at hcount
    have hitems := map_item_expansion n (State.production setting n i)
    rw [State.openHeads_expand, List.length_append, length_owners, hitems, hcount,
      State.expand_stack, ← List.append_assoc]
    exact (List.count_append ..).symm

/-- **The numbers stay the same, unless a repair puts back end marks.** -/
theorem opened_length_step (ht : setting.tables.Paced effort most longest)
    (h : Attributed setting start tokens s σ ρ) (hcount : s.opened.length = marks s.stack)
    (hstep : step setting s = .running s') (hback : ¬ PutsBack setting s) :
    s'.opened.length = marks s'.stack := by
  rcases step_cases setting s with hbottom | ⟨s₁, hq⟩ | hstuck
  · cases hbottom.step_eq.symm.trans hstep
  · obtain rfl := Step.running.inj (hq.step_eq.symm.trans hstep)
    exact hq.opened_length hcount
  · have hstumble := hstuck.step_eq.symm.trans hstep
    rcases stumble_running_cases hstumble with ⟨r, hr, rfl⟩ | ⟨ahead, ends, kept, -, hsync, hs'⟩
    · have hopened : ((reported setting s).apply r).opened = s.opened := rfl
      rw [hopened, hcount]
      by_cases hfrom : r.fromCheckpoint = true
      · -- the two stacks have as many end marks
        have hstack : ((reported setting s).apply r).stack = s.checkpoint := if_pos hfrom
        rw [hstack]
        refine Nat.le_antisymm (h.marks_le_of_stuck ht hstuck) (Nat.not_lt.1 fun hlt => ?_)
        exact hback ⟨hstuck, ⟨r, hr, hfrom⟩, hlt⟩
      · have hstack : ((reported setting s).apply r).stack = s.stack := if_neg hfrom
        rw [hstack]
    · obtain ⟨front, hfront, hends⟩ := syncPoint?_ends hsync
      have hheads : s'.openHeads = s.openHeads.drop ends := by
        rw [hs']
        exact State.openHeads_cutTo ahead ends kept (reported setting s)
      have hstack : s'.stack = kept := by rw [hs']
      rw [hfront, marks, List.count_append] at hcount
      rw [← State.length_openHeads, hheads, List.length_drop, State.length_openHeads, hcount,
        ← hends, hstack]
      simp [marks]

/-- After such a repair there are too few open nodes. -/
theorem PutsBack.opened_lt (h : PutsBack setting s) (hcount : s.opened.length = marks s.stack)
    (hstep : step setting s = .running s') : s'.opened.length < marks s'.stack := by
  obtain ⟨r, hr, hfrom⟩ := h.repair
  have hs' := eq_apply_of_repair hr (h.stuck.step_eq.symm.trans hstep)
  have hstack : s'.stack = s.checkpoint := by rw [hs']; exact if_pos hfrom
  have hopened : s'.opened = s.opened := by rw [hs']; rfl
  rw [hstack, hopened, hcount]
  exact h.fewer

/-- Any number of steps, none of which puts back end marks. -/
def Undisturbed (setting : Setting) : State → State → Prop :=
  Relation.ReflTransGen fun s s' => step setting s = .running s' ∧ ¬ PutsBack setting s

theorem Undisturbed.reaches (h : Undisturbed setting s s') : Reaches setting s s' := by
  induction h with
  | refl => exact .refl
  | tail _ hstep ih => exact ih.tail hstep.1

theorem Undisturbed.opened_length (ht : setting.tables.Paced effort most longest)
    (h : Undisturbed setting (State.initial start tokens) s) :
    s.opened.length = marks s.stack := by
  induction h with
  | refl => rfl
  | tail hreach hstep ih =>
    obtain ⟨σ, ρ, hs⟩ := Attributed.of_reaches (Undisturbed.reaches hreach)
    exact opened_length_step ht hs ih hstep.1 hstep.2

/-- **Where the open nodes mirror the stack.**  In every state that is reached each item of the
stack has an owner, of whose production it is a part.  The heads of the open nodes are among the
owners of the end marks, in the same order.  If there are as many nodes as end marks, an error at a
terminal names its owner.  There are as many as long as no repair has put back end marks, and right
after the first that does there are too few. -/
theorem open_nodes_mirror (limits : Limits) (tokens : List Token) :
    ∃ tables, Language.tables = .ok tables ∧
      let setting := Setting.ofTokens tables limits tokens
      let init := State.initial .program tokens
      (∀ s, Reaches setting init s ↔ ∃ σ ρ, Attributed setting .program tokens s σ ρ) ∧
      (∀ s σ ρ, Attributed setting .program tokens s σ ρ →
        σ.map OwnedItem.item = s.stack ∧ Layered Language.grammar σ ∧
        s.openHeads.Sublist (owners σ) ∧
        (s.opened.length = marks s.stack → ∀ kind n τ, σ = ⟨.terminal kind, n⟩ :: τ →
          errorAt setting s = .expected (s.line setting) [kind.spelling] s.lexeme n)) ∧
      (∀ s, Undisturbed setting init s → s.opened.length = marks s.stack ∧
        ∀ s', PutsBack setting s → step setting s = .running s' →
          s'.opened.length < marks s'.stack) := by
  obtain ⟨tables, htables, hgrammar, ht⟩ := Language.exists_tables
  refine ⟨tables, htables, ?_⟩
  intro setting init
  have hstart : setting.tables.grammar.start = .program := congrArg Grammar.start hgrammar
  have ht : setting.tables.Paced Language.effort 9 16 := ht
  refine ⟨fun s => ⟨Attributed.of_reaches, fun ⟨_, _, h⟩ => h.reaches⟩, ?_, ?_⟩
  · intro s σ ρ h
    rw [← hstart] at h
    have hlayered := (h.layered ht).1
    refine ⟨h.items.1, hgrammar ▸ hlayered, h.opened_sublist ht, ?_⟩
    intro hcount kind n τ hσ
    exact h.errorAt_eq ht hcount hσ
  · intro s hs
    have hcount := hs.opened_length ht
    exact ⟨hcount, fun s' hback hstep => hback.opened_lt hcount hstep⟩

/-! ### Nodes that are missing -/

/-- A program with a stray parenthesis in a branch, which is not closed. -/
def openBranch : List Token :=
  [⟨"dinein", .dinein, 1⟩, ⟨"chef", .chef, 1⟩, ⟨"pinch", .pinch, 1⟩, ⟨"dish", .dish, 1⟩,
    ⟨"(", .leftParen, 1⟩, ⟨")", .rightParen, 1⟩, ⟨"\x7b", .leftBrace, 1⟩, ⟨"taste", .taste, 1⟩,
    ⟨"(", .leftParen, 1⟩, ⟨"a", .ident, 1⟩, ⟨")", .rightParen, 1⟩, ⟨"\x7b", .leftBrace, 1⟩,
    ⟨"x", .ident, 1⟩, ⟨"=", .assign, 1⟩, ⟨"5", .pinchLiteral, 1⟩, ⟨")", .rightParen, 1⟩,
    ⟨"+", .plus, 1⟩, ⟨"6", .pinchLiteral, 1⟩, ⟨";", .semicolon, 1⟩, ⟨"spit", .spit, 1⟩,
    ⟨"0", .pinchLiteral, 1⟩, ⟨";", .semicolon, 1⟩, ⟨"\x7d", .rightBrace, 1⟩,
    ⟨"takeout", .takeout, 1⟩]

-- the machine is run by the kernel; after sixty-seven steps it is stuck for the second time
set_option maxRecDepth 10000 in
theorem eval_openBranch : ∀ tables ∈ Language.writtenTables.toOption,
    let setting := Setting.ofTokens tables .standard openBranch
    ∃ s ∈ (iterate setting 67 (State.initial tables.grammar.start openBranch)).running?,
      Stuck setting s.lookahead s.stack ∧ s.opened.length = 0 ∧ marks s.stack = 4 ∧
      s.stack.take 3 =
        [.terminal .rightBrace, .nonterminal .conditionalTail, .endOfProduction] ∧
      errorAt setting s = .expected 1 ["\x7d"] "spit" .program := by
  decide +kernel

/-- In a program no further branch follows a closing brace. -/
theorem not_suffix_program : ∀ α ∈ Language.grammar.alternatives .program,
    ¬ [.terminal .rightBrace, .nonterminal .conditionalTail] <:+ α := by
  decide +kernel

/-- **A repair after which a wrong nonterminal is named.**  The brace that is missed belongs to a
branch and not to the program, but all open nodes are lost, and the error names the program. -/
theorem put_back_unmirrored : ∃ tables, Language.tables = .ok tables ∧
    let setting := Setting.ofTokens tables .standard openBranch
    ∃ s n τ ρ, Reaches setting (State.initial .program openBranch) s ∧
      Attributed setting .program openBranch s (⟨.terminal .rightBrace, n⟩ :: τ) ρ ∧
      Stuck setting s.lookahead s.stack ∧ s.opened.length = 0 ∧ marks s.stack = 4 ∧
      n ≠ .program ∧ errorAt setting s = .expected 1 ["\x7d"] "spit" .program := by
  obtain ⟨tables, htables, hgrammar, ht⟩ := Language.exists_tables
  refine ⟨tables, htables, ?_⟩
  intro setting
  have hstart : tables.grammar.start = .program := by rw [hgrammar]; rfl
  obtain ⟨s, hs, hstuck, hopened, hmarks, htop, herror⟩ :=
    eval_openBranch tables (Language.mem_writtenTables htables)
  have hreach : Reaches setting (State.initial tables.grammar.start openBranch) s :=
    reaches_of_running (Step.mem_running?.1 hs)
  obtain ⟨σ, ρ, h⟩ := Attributed.of_reaches hreach
  -- what is below the brace shows that it does not belong to the program
  have hitems := h.items.1
  rw [← List.take_append_drop 3 s.stack, htop] at hitems
  obtain ⟨⟨item, n⟩, τ, rfl, rfl, hτ⟩ := List.map_eq_cons_iff.1 hitems
  obtain ⟨before, β, υ, hproduction, rfl⟩ := (h.layered ht).1.exists_production
  rw [List.map_append, map_item_ownedBy, List.map_cons] at hτ
  have hβ : β = [.nonterminal .conditionalTail] := by
    cases β with
    | nil => cases hτ
    | cons y β =>
      obtain ⟨hy, hrest⟩ := List.cons.inj hτ
      cases y with
      | terminal kind => cases hy
      | nonterminal m =>
        obtain rfl := Item.nonterminal.inj hy
        cases β with
        | nil => rfl
        | cons z β => cases z <;> cases (List.cons.inj hrest).1
  have hn : n ≠ .program := by
    rintro rfl
    have hproduction : before ++ .terminal .rightBrace :: β ∈
        Language.grammar.alternatives .program := hgrammar ▸ hproduction
    rw [hβ] at hproduction
    exact not_suffix_program _ hproduction (List.suffix_append _ _)
  exact ⟨s, n, _, ρ, hstart ▸ hreach, hstart ▸ h, hstuck, hopened, hmarks, hn, herror⟩

end Bistro.Parse
