import Bistro.Grammar.Follow
import Bistro.Proofs.Grammar.First

/-!
# FOLLOW sets are exact

A round goes through all spots at which a nonterminal stands in a production, and adds to the FOLLOW
set of the nonterminal what can stand behind it there: what the rest of the production can begin
with, and, if the rest can vanish, what can stand behind the head.  Each of these additions prolongs
a derivation, so all that is known comes from a derivation.

For the converse, sets that a round leaves as they are hold, for each nonterminal of a production,
whatever the symbols behind it can begin with.  This is kept by every replacement in a derivation,
also where symbols vanish and others become neighbours.  There is a round that changes nothing,
because only so many lookaheads can be added.

## Main definitions

* `Grammar.Spot`, `Grammar.spots` — the places at which nonterminals stand in productions.
* `Grammar.CanFollow` — a lookahead stands behind a nonterminal in some derivation.
* `Grammar.Guarded` — what can stand behind the nonterminals of a form is known.

## Main results

* `Grammar.followRound_eq` — a round is one addition for each spot.
* `Grammar.Guarded.derives` — derivations keep what is known of neighbours.
* `Grammar.exists_followRound_eq` — the rounds reach sets that they leave as they are.
* `Grammar.followSets_exact` — **the FOLLOW sets hold what stands behind nonterminals in
  derivations, and nothing else.**
-/

namespace Bistro.Grammar

variable {N T : Type} [DecidableEq N] [DecidableEq T] [Ord T]

/-! ### The order of lookaheads -/

namespace Lookahead

omit [DecidableEq T] in
@[simp] theorem compare_token (a b : T) : compare (token a) (token b) = compare a b := by
  show (compare a b).then .eq = compare a b
  cases compare a b <;> rfl

instance [Std.OrientedOrd T] : Std.OrientedOrd (Lookahead T) where
  eq_swap {a b} := by
    cases a with
    | atEnd => cases b <;> rfl
    | token a =>
      cases b with
      | atEnd => rfl
      | token b =>
        rw [compare_token, compare_token]
        exact Std.OrientedCmp.eq_swap

instance [Std.TransOrd T] : Std.TransOrd (Lookahead T) where
  isLE_trans {a b c} hab hbc := by
    cases c with
    | atEnd => cases a <;> rfl
    | token c =>
      cases b with
      | atEnd => cases hbc
      | token b =>
        cases a with
        | atEnd => cases hab
        | token a =>
          rw [compare_token] at hab hbc ⊢
          exact Std.TransCmp.isLE_trans hab hbc

instance [Std.LawfulEqOrd T] : Std.LawfulEqOrd (Lookahead T) where
  compare_self {a} := by
    cases a with
    | atEnd => rfl
    | token a =>
      rw [compare_token]
      exact Std.ReflCmp.compare_self
  eq_of_compare {a b} h := by
    cases a with
    | atEnd =>
      cases b with
      | atEnd => rfl
      | token b => cases h
    | token a =>
      cases b with
      | atEnd => cases h
      | token b =>
        rw [compare_token] at h
        rw [Std.LawfulEqCmp.eq_of_compare h]

end Lookahead

/-! ### Lookaheads of sequences -/

section
variable {first : FirstSets N T} {behind behind' : List (Lookahead T)}

theorem First.lookaheads_mono {f f' : First T} (hf : f.Within f')
    (h : ∀ a ∈ behind, a ∈ behind') {a : Lookahead T} (ha : a ∈ f.lookaheads behind) :
    a ∈ f'.lookaheads behind' := by
  rw [First.mem_lookaheads] at ha ⊢
  rcases ha with ⟨hnull, ha⟩ | ⟨t, ht, rfl⟩
  · exact .inl ⟨hf.nullable hnull, h a ha⟩
  · exact .inr ⟨t, hf.terminals t ht, rfl⟩

/-- What comes first in two sequences comes first in the first one, with the second one behind. -/
theorem mem_lookaheads_append (α β : Production N T) (a : Lookahead T) :
    a ∈ (firstOf first (α ++ β)).lookaheads behind ↔
      a ∈ (firstOf first α).lookaheads ((firstOf first β).lookaheads behind) := by
  simp only [First.mem_lookaheads, nullable_firstOf_append, mem_firstOf_append, Bool.and_eq_true]
  grind

end

/-! ### Spots -/

omit [DecidableEq N] [DecidableEq T] [Ord T] in
/-- A symbol that stands in two sequences stands in the first one or in the second one. -/
theorem append_eq_append_cons {α β u v : Production N T} {x : Symbol N T}
    (h : α ++ β = u ++ x :: v) :
    (∃ w, α = u ++ x :: w ∧ v = w ++ β) ∨ ∃ w, u = α ++ w ∧ β = w ++ x :: v := by
  rcases List.append_eq_append_iff.1 h with hu | ⟨w, rfl, hw⟩
  · exact .inr hu
  · cases w with
    | nil => exact .inr ⟨[], by simp, by simpa using hw.symm⟩
    | cons y w =>
      obtain ⟨rfl, rfl⟩ := List.cons.inj hw
      exact .inl ⟨w, rfl, rfl⟩

/-- A place at which a nonterminal stands in a production. -/
structure Spot (N T : Type) where
  /-- The nonterminal whose production it is. -/
  head : N
  /-- The nonterminal that stands there. -/
  symbol : N
  /-- The rest of the production. -/
  rest : Production N T

/-- The spots in a production, from left to right. -/
def spotsIn (head : N) : Production N T → List (Spot N T)
  | [] => []
  | .terminal _ :: rest => spotsIn head rest
  | .nonterminal n :: rest => ⟨head, n, rest⟩ :: spotsIn head rest

/-- The spots in all productions, in order. -/
def spots (g : Grammar N T) : List (Spot N T) :=
  g.productions.flatMap fun (head, _, production) => spotsIn head production

omit [DecidableEq N] [DecidableEq T] [Ord T] in
theorem mem_spotsIn {head : N} {α : Production N T} {spot : Spot N T} :
    spot ∈ spotsIn head α ↔
      spot.head = head ∧ ∃ β, α = β ++ .nonterminal spot.symbol :: spot.rest := by
  induction α with
  | nil => simp [spotsIn]
  | cons x α ih =>
    cases x with
    | terminal t =>
      rw [spotsIn, ih]
      refine and_congr_right fun _ => ⟨?_, ?_⟩
      · rintro ⟨β, rfl⟩
        exact ⟨.terminal t :: β, rfl⟩
      · rintro ⟨_ | ⟨y, β⟩, hβ⟩
        · cases hβ
        · exact ⟨β, (List.cons.inj hβ).2⟩
    | nonterminal n =>
      rw [spotsIn, List.mem_cons, ih]
      constructor
      · rintro (rfl | ⟨hhead, β, rfl⟩)
        · exact ⟨rfl, [], rfl⟩
        · exact ⟨hhead, .nonterminal n :: β, rfl⟩
      · rintro ⟨hhead, _ | ⟨y, β⟩, hβ⟩
        · obtain ⟨hn, hrest⟩ := List.cons.inj hβ
          obtain ⟨_, symbol, rest⟩ := spot
          obtain rfl : n = symbol := Symbol.nonterminal.inj hn
          obtain rfl : α = rest := hrest
          obtain rfl : _ = head := hhead
          exact .inl rfl
        · exact .inr ⟨hhead, β, (List.cons.inj hβ).2⟩

variable {g : Grammar N T}

omit [DecidableEq T] [Ord T] in
theorem mem_spots (hg : g.heads.Nodup) {spot : Spot N T} :
    spot ∈ g.spots ↔
      ∃ β, β ++ .nonterminal spot.symbol :: spot.rest ∈ g.alternatives spot.head := by
  unfold spots
  simp only [List.mem_flatMap, Prod.exists, mem_productions_iff hg, mem_spotsIn]
  constructor
  · rintro ⟨n, i, α, hi, rfl, β, rfl⟩
    exact ⟨β, List.mem_of_getElem? hi⟩
  · rintro ⟨β, hβ⟩
    obtain ⟨i, hi⟩ := List.mem_iff_getElem?.1 hβ
    exact ⟨spot.head, i, _, hi, rfl, β, rfl⟩

omit [DecidableEq N] [DecidableEq T] [Ord T] in
theorem mem_occurrences {spot : Spot N T} (h : spot ∈ g.spots) : spot.symbol ∈ g.occurrences := by
  obtain ⟨⟨n, i, α⟩, hα, hspot⟩ := List.mem_flatMap.1 h
  obtain ⟨-, β, rfl⟩ := mem_spotsIn.1 hspot
  exact List.mem_flatMap.2 ⟨_, hα, List.mem_filterMap.2 ⟨.nonterminal spot.symbol, by simp, rfl⟩⟩

/-! ### Additions -/

namespace FollowSets

variable {first : FirstSets N T} {sets sets' : FollowSets N T} {spot : Spot N T}

/-- What can stand behind the nonterminal at a spot. -/
def found (first : FirstSets N T) (sets : FollowSets N T) (spot : Spot N T) : List (Lookahead T) :=
  (firstOf first spot.rest).lookaheads (sets.getD spot.head [])

/-- Adds what can stand behind the nonterminal at a spot. -/
def add (first : FirstSets N T) (sets : FollowSets N T) (spot : Spot N T) : FollowSets N T :=
  sets.set spot.symbol (SortedList.union (found first sets spot) (sets.getD spot.symbol []))

/-- Everything that one family of FOLLOW sets knows, another knows as well. -/
def Within (sets sets' : FollowSets N T) : Prop := ∀ n, ∀ a ∈ sets.getD n [], a ∈ sets'.getD n []

theorem mem_add {n : N} {a : Lookahead T} : a ∈ (add first sets spot).getD n [] ↔
    a ∈ sets.getD n [] ∨ spot.symbol = n ∧ a ∈ found first sets spot := by
  rw [add, Dictionary.getD_set]
  split
  · next hn => simp [hn, or_comm]
  · next hn => simp [hn]

theorem within_add : Within sets (add first sets spot) :=
  fun _ _ ha => mem_add.2 (.inl ha)

theorem Within.found (h : Within sets sets') {a : Lookahead T}
    (ha : a ∈ FollowSets.found first sets spot) : a ∈ FollowSets.found first sets' spot :=
  First.lookaheads_mono (.refl _) (h spot.head) ha

theorem contains_add : (add first sets spot).contains spot.symbol = true :=
  (Dictionary.contains_set ..).2 (.inl rfl)

/-- Additions never take anything away. -/
theorem within_foldl (spots : List (Spot N T)) : Within sets (spots.foldl (add first) sets) := by
  induction spots generalizing sets with
  | nil => exact fun _ _ h => h
  | cons spot spots ih => exact fun n a ha => ih n a (within_add n a ha)

/-- After additions at some spots, what could stand there before is known, and there is an entry. -/
theorem covers_foldl (first : FirstSets N T) (sets : FollowSets N T) {spots : List (Spot N T)}
    (hspot : spot ∈ spots) :
    (∀ a ∈ found first sets spot, a ∈ (spots.foldl (add first) sets).getD spot.symbol []) ∧
      (spots.foldl (add first) sets).contains spot.symbol = true := by
  induction spots generalizing sets with
  | nil => cases hspot
  | cons other spots ih =>
    rcases List.mem_cons.1 hspot with rfl | hspot
    · refine ⟨fun a ha => within_foldl spots _ a (mem_add.2 (.inr ⟨rfl, ha⟩)), ?_⟩
      -- an entry that is there stays there
      refine List.foldlRecOn (motive := fun sets : FollowSets N T =>
        sets.contains spot.symbol = true) spots _ contains_add fun sets hsets _ _ => ?_
      exact (Dictionary.contains_set ..).2 (.inr hsets)
    · obtain ⟨hfound, hentry⟩ := ih (add first sets other) hspot
      exact ⟨fun a ha => hfound a (within_add.found ha), hentry⟩

end FollowSets

/-! ### Rounds -/

theorem followProduction_eq (first : FirstSets N T) (head : N) (α : Production N T)
    (sets : FollowSets N T) :
    followProduction first head α sets = (spotsIn head α).foldl (FollowSets.add first) sets := by
  induction α generalizing sets with
  | nil => rfl
  | cons x α ih =>
    cases x with
    | terminal t => exact ih sets
    | nonterminal n => exact ih _

/-- **A round is one addition for each spot.** -/
theorem followRound_eq (g : Grammar N T) (first : FirstSets N T) (sets : FollowSets N T) :
    g.followRound first sets = g.spots.foldl (FollowSets.add first) sets := by
  unfold followRound spots
  generalize g.productions = productions
  induction productions generalizing sets with
  | nil => rfl
  | cons p productions ih =>
    obtain ⟨head, i, α⟩ := p
    rw [List.foldl_cons, List.flatMap_cons, List.foldl_append, ih]
    exact congrArg (List.foldl _ · _) (followProduction_eq first head α sets)

/-- What additions keep, rounds keep. -/
theorem followRound_keeps {first : FirstSets N T} {P : FollowSets N T → Prop}
    {sets : FollowSets N T} (h : P sets)
    (hadd : ∀ sets, P sets → ∀ spot ∈ g.spots, P (FollowSets.add first sets spot)) :
    P (g.followRound first sets) := by
  rw [followRound_eq]
  exact List.foldlRecOn _ _ h hadd

theorem iterate_followRound_keeps {first : FirstSets N T} {P : FollowSets N T → Prop}
    {sets : FollowSets N T} (h : P sets)
    (hadd : ∀ sets, P sets → ∀ spot ∈ g.spots, P (FollowSets.add first sets spot)) (k : Nat) :
    P ((g.followRound first)^[k] sets) := by
  induction k with
  | zero => exact h
  | succ k ih =>
    rw [Function.iterate_succ_apply']
    exact followRound_keeps ih hadd

/-- All entries are in increasing order. -/
def FollowSets.Ordered (sets : FollowSets N T) : Prop :=
  ∀ n, SortedList.Increasing (sets.getD n [])

section
variable [Std.TransOrd T] [Std.LawfulEqOrd T] {first : FirstSets N T} {sets : FollowSets N T}

theorem FollowSets.Ordered.add (h : FollowSets.Ordered sets) (spot : Spot N T) :
    FollowSets.Ordered (FollowSets.add first sets spot) := by
  intro n
  rw [FollowSets.add, Dictionary.getD_set]
  split
  · exact (h _).union _
  · exact h n

/-- **A round after one that added nothing changes nothing.** -/
theorem followRound_idle (hord : FollowSets.Ordered (g.followRound first sets))
    (hidle : FollowSets.Within (g.followRound first sets) sets) :
    g.followRound first (g.followRound first sets) = g.followRound first sets := by
  rw [followRound_eq g first (g.followRound first sets)]
  refine List.foldlRecOn _ _ (motive := (· = g.followRound first sets)) rfl ?_
  rintro _ rfl spot hspot
  -- what is found was found by the round before, and the entry is there
  obtain ⟨hcovers, hentry⟩ := FollowSets.covers_foldl first sets hspot
  rw [← followRound_eq] at hcovers hentry
  have hsame : SortedList.union (FollowSets.found first (g.followRound first sets) spot)
      ((g.followRound first sets).getD spot.symbol []) =
        (g.followRound first sets).getD spot.symbol [] := by
    refine ((hord _).union _).ext (hord _) fun a => ?_
    rw [SortedList.mem_union, or_iff_right_iff_imp]
    exact fun ha => hcovers a (hidle.found ha)
  rw [FollowSets.add, hsame]
  unfold Dictionary.contains at hentry
  obtain ⟨follow, hfollow⟩ := Option.isSome_iff_exists.1 hentry
  exact Dictionary.set_eq_self (by rw [Dictionary.getD, hfollow]; rfl)

end

/-! ### What is known comes from a derivation -/

/-- A lookahead stands behind a nonterminal in some derivation: a terminal right behind it in a form
that some nonterminal derives, the end of the input behind a form that ends with it. -/
def CanFollow (g : Grammar N T) (start n : N) : Lookahead T → Prop
  | .token t => ∃ m u v, g.Derives [.nonterminal m] (u ++ .nonterminal n :: .terminal t :: v)
  | .atEnd => ∃ u, g.Derives [.nonterminal start] (u ++ [.nonterminal n])

section
variable {start n : N} {a : Lookahead T} {spot : Spot N T}

omit [DecidableEq T] [Ord T] in
/-- The production around a spot takes the place of its head, and the rest of it vanishes. -/
theorem derives_spot (hg : g.heads.Nodup) (hspot : spot ∈ g.spots)
    {α rest : Production N T} (hrest : g.Derives spot.rest rest) {u v : Production N T}
    (h : g.Derives α (u ++ .nonterminal spot.head :: v)) :
    ∃ u', g.Derives α (u' ++ .nonterminal spot.symbol :: (rest ++ v)) := by
  obtain ⟨β, hβ⟩ := (mem_spots hg).1 hspot
  have hreplace : g.Rewrites (u ++ .nonterminal spot.head :: v)
      (u ++ (β ++ .nonterminal spot.symbol :: spot.rest) ++ v) :=
    ⟨u, spot.head, _, v, hβ, rfl, rfl⟩
  have hvanish := (hrest.append_right v).append_left (u ++ β ++ [.nonterminal spot.symbol])
  have hsame : u ++ (β ++ .nonterminal spot.symbol :: spot.rest) ++ v =
      u ++ β ++ [.nonterminal spot.symbol] ++ (spot.rest ++ v) := by simp
  rw [← hsame] at hvanish
  refine ⟨u ++ β, ?_⟩
  rw [List.append_cons]
  exact (h.tail hreplace).trans hvanish

omit [DecidableEq T] [Ord T] in
/-- What stands behind a head stands behind a nonterminal of its production, if the rest can
vanish. -/
theorem CanFollow.inside (hg : g.heads.Nodup) (hspot : spot ∈ g.spots)
    (hnull : g.Derives spot.rest []) (h : g.CanFollow start spot.head a) :
    g.CanFollow start spot.symbol a := by
  cases a with
  | atEnd =>
    obtain ⟨u, hu⟩ := h
    exact derives_spot hg hspot hnull hu
  | token t =>
    obtain ⟨m, u, v, hu⟩ := h
    obtain ⟨u', hu'⟩ := derives_spot hg hspot hnull hu
    exact ⟨m, u', v, hu'⟩

/-- All that is known comes from a derivation. -/
def FollowSets.Sound (g : Grammar N T) (start : N) (sets : FollowSets N T) : Prop :=
  ∀ n, ∀ a ∈ sets.getD n [], g.CanFollow start n a

theorem FollowSets.Sound.add {first : FirstSets N T} {sets : FollowSets N T} (hg : g.heads.Nodup)
    (hfirst : FirstSets.Sound g first) (h : FollowSets.Sound g start sets)
    (hspot : spot ∈ g.spots) : FollowSets.Sound g start (FollowSets.add first sets spot) := by
  intro n a ha
  rcases FollowSets.mem_add.1 ha with ha | ⟨rfl, hfound⟩
  · exact h n a ha
  · rcases First.mem_lookaheads.1 hfound with ⟨hnull, ha⟩ | ⟨t, ht, rfl⟩
    · exact (h _ a ha).inside hg hspot ((hfirst.firstOf _).nullable hnull)
    · obtain ⟨v, hv⟩ := (hfirst.firstOf spot.rest).terminals t ht
      obtain ⟨u, hu⟩ := derives_spot hg hspot hv (u := []) (v := []) .refl
      exact ⟨spot.head, u, v, by simpa using hu⟩

end

/-! ### What comes from a derivation is known -/

/-- The sets hold what can stand behind the nonterminals of each production. -/
def FollowSets.Closed (g : Grammar N T) (first : FirstSets N T) (sets : FollowSets N T) : Prop :=
  ∀ spot ∈ g.spots, ∀ a ∈ FollowSets.found first sets spot, a ∈ sets.getD spot.symbol []

/-- The sets hold what can stand behind the nonterminals of a form, if `behind` can stand behind the
form itself. -/
def Guarded (first : FirstSets N T) (sets : FollowSets N T) (behind : List (Lookahead T))
    (form : Production N T) : Prop :=
  ∀ u n v, form = u ++ .nonterminal n :: v →
    ∀ a ∈ (firstOf first v).lookaheads behind, a ∈ sets.getD n []

section
variable {first : FirstSets N T} {sets : FollowSets N T} {behind : List (Lookahead T)}
  {form form' : Production N T}

theorem Guarded.singleton {n : N} (h : ∀ a ∈ behind, a ∈ sets.getD n []) :
    Guarded first sets behind [.nonterminal n] := by
  rintro u m v huv a ha
  obtain ⟨hu, hv⟩ : u = [] ∧ .nonterminal m :: v = [Symbol.nonterminal (T := T) n] := by
    cases u with
    | nil => exact ⟨rfl, huv.symm⟩
    | cons x u =>
      have := congrArg List.length huv
      simp at this
  obtain ⟨hm, rfl⟩ := List.cons.inj hv
  obtain rfl := Symbol.nonterminal.inj hm
  rcases First.mem_lookaheads.1 ha with ⟨-, ha⟩ | ⟨t, ht, rfl⟩
  · exact h a ha
  · cases ht

/-- **A replacement keeps what is known of neighbours.** -/
theorem Guarded.rewrites (hg : g.heads.Nodup) (hfirst : FirstSets.Closed g first)
    (hsets : FollowSets.Closed g first sets) (h : Guarded first sets behind form)
    (hr : g.Rewrites form form') : Guarded first sets behind form' := by
  obtain ⟨before, n, α, after, hα, rfl, rfl⟩ := hr
  intro u m v huv a ha
  -- the nonterminal stands before the replaced one, in its alternative, or behind it
  rw [List.append_assoc] at huv
  rcases append_eq_append_cons huv with ⟨before', rfl, rfl⟩ | ⟨u', rfl, hrest⟩
  · refine h u m (before' ++ .nonterminal n :: after) (by simp) a ?_
    refine First.lookaheads_mono (hfirst.rewrites ?_) (fun _ h => h) ha
    exact ⟨before', n, α, after, hα, rfl, by simp⟩
  · rcases append_eq_append_cons hrest with ⟨α', rfl, rfl⟩ | ⟨u'', rfl, rfl⟩
    · -- what can stand behind the replaced nonterminal is known, and its alternative is closed
      rw [mem_lookaheads_append] at ha
      refine hsets ⟨n, m, α'⟩ ((mem_spots hg).2 ⟨u', hα⟩) a ?_
      exact First.lookaheads_mono (.refl _) (h before n after rfl) ha
    · exact h (before ++ .nonterminal n :: u'') m v (by simp) a ha

theorem Guarded.derives (hg : g.heads.Nodup) (hfirst : FirstSets.Closed g first)
    (hsets : FollowSets.Closed g first sets) (h : Guarded first sets behind form)
    (hd : g.Derives form form') : Guarded first sets behind form' := by
  induction hd with
  | refl => exact h
  | tail _ hr ih => exact ih.rewrites hg hfirst hsets hr

/-- Closed sets hold what stands behind a nonterminal in a derivation. -/
theorem CanFollow.mem {start n : N} {a : Lookahead T} (hg : g.heads.Nodup)
    (hfirst : FirstSets.Closed g first) (hsets : FollowSets.Closed g first sets)
    (hstart : .atEnd ∈ sets.getD start []) (h : g.CanFollow start n a) : a ∈ sets.getD n [] := by
  cases a with
  | atEnd =>
    obtain ⟨u, hu⟩ := h
    have hguard : Guarded first sets [.atEnd] [.nonterminal start] :=
      .singleton fun a ha => by rwa [List.mem_singleton.1 ha]
    refine (hguard.derives hg hfirst hsets hu) u n [] rfl _ (First.mem_lookaheads.2 ?_)
    exact .inl ⟨rfl, List.mem_singleton.2 rfl⟩
  | token t =>
    obtain ⟨m, u, v, hu⟩ := h
    have hguard : Guarded first sets [] [.nonterminal m] :=
      .singleton fun a ha => absurd ha List.not_mem_nil
    refine (hguard.derives hg hfirst hsets hu) u n (.terminal t :: v) rfl _
      (First.mem_lookaheads.2 ?_)
    exact .inr ⟨t, List.mem_singleton.2 rfl, rfl⟩

end

/-! ### The rounds end -/

/-- Everything that is known is about nonterminals and terminals of the grammar. -/
def FollowSets.Bounded (g : Grammar N T) (start : N) (sets : FollowSets N T) : Prop :=
  ∀ n, ∀ a ∈ sets.getD n [], (n = start ∨ n ∈ g.occurrences) ∧ ∀ t, a = .token t → t ∈ g.terminals

theorem FollowSets.Bounded.add {start : N} {first : FirstSets N T} {sets : FollowSets N T}
    (hg : g.heads.Nodup) (hfirst : FirstSets.Bounded g first)
    (h : FollowSets.Bounded g start sets) {spot : Spot N T} (hspot : spot ∈ g.spots) :
    FollowSets.Bounded g start (FollowSets.add first sets spot) := by
  intro n a ha
  rcases FollowSets.mem_add.1 ha with ha | ⟨rfl, hfound⟩
  · exact h n a ha
  · refine ⟨.inr (mem_occurrences hspot), ?_⟩
    rcases First.mem_lookaheads.1 hfound with ⟨-, ha⟩ | ⟨t, ht, rfl⟩
    · exact (h _ a ha).2
    · rintro _ ⟨⟩
      obtain ⟨β, hβ⟩ := (mem_spots hg).1 hspot
      exact (hfirst.firstOf ht).elim (fun ht => mem_terminals hβ (by simp [ht])) id

/-- All that can be known of neighbours. -/
def followFacts (g : Grammar N T) (start : N) : Finset (N × Lookahead T) :=
  insert start g.occurrences.toFinset ×ˢ insert .atEnd (g.terminals.toFinset.image .token)

/-- How much is known. -/
def FollowSets.amount (g : Grammar N T) (start : N) (sets : FollowSets N T) : Nat :=
  ((g.followFacts start).filter fun (n, a) => a ∈ sets.getD n []).card

omit [Ord T] in
theorem followAmount_le (g : Grammar N T) (start : N) (sets : FollowSets N T) :
    FollowSets.amount g start sets ≤ (g.occurrences.length + 1) * (g.terminals.length + 1) := by
  refine (Finset.card_filter_le _ _).trans ?_
  unfold followFacts
  rw [Finset.card_product]
  refine Nat.mul_le_mul ((Finset.card_insert_le _ _).trans ?_)
    ((Finset.card_insert_le _ _).trans ?_)
  · exact Nat.succ_le_succ (List.toFinset_card_le _)
  · exact Nat.succ_le_succ (Finset.card_image_le.trans (List.toFinset_card_le _))

omit [Ord T] in
/-- If no more is known than before, then nothing new. -/
theorem followWithin_of_amount_le {start : N} {sets sets' : FollowSets N T}
    (h : FollowSets.Within sets sets') (hsets' : FollowSets.Bounded g start sets')
    (hle : FollowSets.amount g start sets' ≤ FollowSets.amount g start sets) :
    FollowSets.Within sets' sets := by
  have hsub : ((g.followFacts start).filter fun (n, a) => a ∈ sets.getD n []) ⊆
      (g.followFacts start).filter fun (n, a) => a ∈ sets'.getD n [] :=
    Finset.monotone_filter_right _ fun fact _ hfact => h fact.1 fact.2 hfact
  have heq := Finset.eq_of_subset_of_card_le hsub hle
  intro n a ha
  obtain ⟨hn, ht⟩ := hsets' n a ha
  have hfact : (n, a) ∈ g.followFacts start := by
    cases a with
    | atEnd => simp [followFacts, hn]
    | token t => simp [followFacts, hn, ht t rfl]
  have hmem : (n, a) ∈ (g.followFacts start).filter fun (n, a) => a ∈ sets'.getD n [] :=
    Finset.mem_filter.2 ⟨hfact, ha⟩
  rw [← heq] at hmem
  exact (Finset.mem_filter.1 hmem).2

/-- Nothing is known yet but that the input ends behind the start symbol. -/
def followSeeds (g : Grammar N T) (start : N) : FollowSets N T :=
  let seeds : FollowSets N T := ⟨g.heads.map (·, [])⟩
  seeds.set start (SortedList.insert .atEnd (seeds.getD start []))

theorem getD_followSeeds (g : Grammar N T) (start n : N) :
    (g.followSeeds start).getD n [] = if start = n then [.atEnd] else [] := by
  have hseeds : ∀ m, (⟨g.heads.map (·, [])⟩ : FollowSets N T).getD m [] = [] := by
    intro m
    unfold Dictionary.getD
    cases hm : (⟨g.heads.map (·, [])⟩ : FollowSets N T).get? m with
    | none => rfl
    | some follow =>
      obtain ⟨k, -, heq⟩ := List.mem_map.1 (Dictionary.mem_of_find hm)
      exact (Prod.mk.inj heq).2.symm
  unfold followSeeds
  rw [Dictionary.getD_set, hseeds, hseeds]
  rfl

theorem ordered_followSeeds (g : Grammar N T) (start : N) :
    FollowSets.Ordered (g.followSeeds start) := by
  intro n
  rw [getD_followSeeds]
  split
  · exact SortedList.increasing_singleton _
  · exact SortedList.increasing_nil

theorem mem_followSeeds {start n : N} {a : Lookahead T} :
    a ∈ (g.followSeeds start).getD n [] ↔ start = n ∧ a = .atEnd := by
  rw [getD_followSeeds]
  split
  · next hn => simp [hn]
  · next hn => simp [hn]

theorem bounded_followSeeds (g : Grammar N T) (start : N) :
    FollowSets.Bounded g start (g.followSeeds start) := by
  intro n a ha
  obtain ⟨rfl, rfl⟩ := mem_followSeeds.1 ha
  exact ⟨.inl rfl, fun t ht => by cases ht⟩

theorem sound_followSeeds (g : Grammar N T) (start : N) :
    FollowSets.Sound g start (g.followSeeds start) := by
  intro n a ha
  obtain ⟨rfl, rfl⟩ := mem_followSeeds.1 ha
  exact ⟨[], .refl⟩

/-! ### Exactness -/

variable [Std.TransOrd T] [Std.LawfulEqOrd T]

theorem grows_firstSets (g : Grammar N T) : g.Grows g.firstSeeds g.firstSets := by
  obtain ⟨k, -, hk, -⟩ := exists_firstRound_eq g
  exact hk ▸ grows_iterate g k

theorem firstSets_sound (g : Grammar N T) : FirstSets.Sound g g.firstSets := by
  refine (grows_firstSets g).keeps (fun n => ?_) fun _ _ h => h.sound
  rw [getD_firstSeeds]
  exact ⟨fun t ht => absurd ht List.not_mem_nil, fun h => absurd h Bool.false_ne_true⟩

theorem firstSets_closed (g : Grammar N T) : FirstSets.Closed g g.firstSets := by
  obtain ⟨-, -, -, hfix⟩ := exists_firstRound_eq g
  intro n
  have hcovers := firstRound_covers g g.firstSets n
  rwa [hfix] at hcovers

theorem firstSets_bounded (g : Grammar N T) : FirstSets.Bounded g g.firstSets := by
  refine (grows_firstSets g).keeps (fun n => ?_) fun _ _ h => h.bounded
  rw [getD_firstSeeds]
  simp [First.none]

/-- The rounds reach FOLLOW sets that a further round leaves as they are. -/
theorem exists_followRound_eq (hg : g.heads.Nodup) (start : N) :
    ∃ k ≤ g.followRounds,
      (g.followRound g.firstSets)^[k] (g.followSeeds start) = g.followSets start g.firstSets ∧
      g.followRound g.firstSets (g.followSets start g.firstSets) =
        g.followSets start g.firstSets := by
  have hord : ∀ k, FollowSets.Ordered ((g.followRound g.firstSets)^[k] (g.followSeeds start)) :=
    iterate_followRound_keeps (ordered_followSeeds g start) fun _ h spot _ => h.add spot
  have hbounded : ∀ k, FollowSets.Bounded g start
      ((g.followRound g.firstSets)^[k] (g.followSeeds start)) :=
    iterate_followRound_keeps (bounded_followSeeds g start) fun _ h spot hspot =>
      h.add hg (firstSets_bounded g) hspot
  -- a round adds something, or the next one changes nothing
  have hstep : ∀ k,
      FollowSets.amount g start ((g.followRound g.firstSets)^[k] (g.followSeeds start)) <
        FollowSets.amount g start ((g.followRound g.firstSets)^[k + 1] (g.followSeeds start)) ∨
      g.followRound g.firstSets ((g.followRound g.firstSets)^[k + 1] (g.followSeeds start)) =
        (g.followRound g.firstSets)^[k + 1] (g.followSeeds start) := by
    intro k
    have hnext := hord (k + 1)
    have hnext' := hbounded (k + 1)
    rw [Function.iterate_succ_apply'] at hnext hnext' ⊢
    refine or_iff_not_imp_left.2 fun hle => followRound_idle hnext ?_
    refine followWithin_of_amount_le ?_ hnext' (Nat.le_of_not_lt hle)
    rw [followRound_eq]
    exact FollowSets.within_foldl _
  obtain ⟨k, hk, hfix⟩ := exists_settled (fun k => followAmount_le g start _) hstep
  have hk' : k ≤ g.followRounds := by
    have hle : (g.occurrences.length + 1) * (g.terminals.length + 1) ≤
        (g.heads.length + g.occurrences.length + 1) * (g.terminals.length + 1) :=
      Nat.mul_le_mul_right _ (by omega)
    unfold followRounds
    omega
  have heq : g.followSets start g.firstSets =
      (g.followRound g.firstSets)^[k] (g.followSeeds start) := stabilize_eq hfix hk' rfl
  exact ⟨k, hk', heq.symm, heq ▸ hfix⟩

theorem followSets_sound (hg : g.heads.Nodup) (start : N) :
    FollowSets.Sound g start (g.followSets start g.firstSets) := by
  obtain ⟨k, -, hk, -⟩ := exists_followRound_eq hg start
  rw [← hk]
  exact iterate_followRound_keeps (sound_followSeeds g start) (fun _ h spot hspot =>
    h.add hg (firstSets_sound g) hspot) k

theorem followSets_closed (hg : g.heads.Nodup) (start : N) :
    FollowSets.Closed g g.firstSets (g.followSets start g.firstSets) := by
  obtain ⟨-, -, -, hfix⟩ := exists_followRound_eq hg start
  intro spot hspot a ha
  have := (FollowSets.covers_foldl _ _ hspot).1 a ha
  rwa [← followRound_eq, hfix] at this

theorem atEnd_mem_followSets (hg : g.heads.Nodup) (start : N) :
    .atEnd ∈ (g.followSets start g.firstSets).getD start [] := by
  obtain ⟨k, -, hk, -⟩ := exists_followRound_eq hg start
  rw [← hk]
  refine iterate_followRound_keeps (P := fun sets => Lookahead.atEnd ∈ sets.getD start []) ?_
    (fun _ h _ _ => FollowSets.within_add _ _ h) k
  exact mem_followSeeds.2 ⟨rfl, rfl⟩

/-- **The FOLLOW sets hold what stands behind nonterminals in derivations, and nothing else.**  They
come out of so many rounds that a further one changes nothing.  Then the end of the input is in an
entry if and only if the start symbol derives a form that ends with the nonterminal, and a terminal
if and only if some nonterminal derives a form in which the terminal stands right behind it.  Heads
have one entry each, as they have in every grammar that rules were added to. -/
theorem followSets_exact (g : Grammar N T) (hg : g.heads.Nodup) (start : N) :
    (∃ k ≤ g.followRounds,
      (g.followRound g.firstSets)^[k] (g.followSeeds start) = g.followSets start g.firstSets ∧
      g.followRound g.firstSets (g.followSets start g.firstSets) =
        g.followSets start g.firstSets) ∧
    ∀ n : N,
      (.atEnd ∈ (g.followSets start g.firstSets).getD n [] ↔
        ∃ u, g.Derives [.nonterminal start] (u ++ [.nonterminal n])) ∧
      ∀ t : T, .token t ∈ (g.followSets start g.firstSets).getD n [] ↔
        ∃ m u v, g.Derives [.nonterminal m] (u ++ .nonterminal n :: .terminal t :: v) := by
  have hexact : ∀ n a, a ∈ (g.followSets start g.firstSets).getD n [] ↔ g.CanFollow start n a :=
    fun n a => ⟨followSets_sound hg start n a, fun h => h.mem hg (firstSets_closed g)
      (followSets_closed hg start) (atEnd_mem_followSets hg start)⟩
  exact ⟨exists_followRound_eq hg start, fun n => ⟨hexact n .atEnd, fun t => hexact n (.token t)⟩⟩

/-- A grammar in which what stands between two symbols can vanish, and with a nonterminal without
rules: `S → A B C`, `A → a`, `B → B C | λ` and `C → c | D b | λ`. -/
def vanishing : Grammar Nat Nat :=
  ((((ofStart 0).rule 0 [[.nonterminal 1, .nonterminal 2, .nonterminal 3]]).rule 1
    [[.terminal 0]]).rule 2 [[.nonterminal 2, .nonterminal 3], []]).rule 3
    [[.terminal 2], [.nonterminal 4, .terminal 1], []]

/-- There a form that `S` derives ends with `A`, in another one `c` stands right behind `A`, and in
one that `C` derives `b` stands right behind `D`; but `b` never stands behind `A`, since `D` is in
between and does not vanish. -/
theorem followSets_exact_vanishing : vanishing.heads.Nodup ∧
    (∃ u, vanishing.Derives [.nonterminal 0] (u ++ [.nonterminal 1])) ∧
    (∃ m u v, vanishing.Derives [.nonterminal m] (u ++ .nonterminal 1 :: .terminal 2 :: v)) ∧
    (∃ m u v, vanishing.Derives [.nonterminal m] (u ++ .nonterminal 4 :: .terminal 1 :: v)) ∧
    ¬∃ m u v, vanishing.Derives [.nonterminal m] (u ++ .nonterminal 1 :: .terminal 1 :: v) := by
  have hg : vanishing.heads.Nodup := by decide
  obtain ⟨-, hsets⟩ := followSets_exact vanishing hg 0
  refine ⟨hg, (hsets 1).1.1 (by decide), ((hsets 1).2 2).1 (by decide),
    ((hsets 4).2 1).1 (by decide), fun h => ?_⟩
  exact absurd (((hsets 1).2 1).2 h) (by decide)

end Bistro.Grammar
