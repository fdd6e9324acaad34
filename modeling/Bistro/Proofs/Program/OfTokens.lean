import Bistro.Proofs.Parse.Lines
import Bistro.Proofs.Program.OfTree
import Bistro.Proofs.Program.Words

/-!
# Programs from tokens

What becomes of a row of tokens that the parser accepts, whatever the tokens look like: it is turned
into a program unless a literal spells no value.  The program is written with the tokens, so nothing
is lost on the way and nothing changes its place.

## Main results

* `Program.ofTree_fails_only_at_literals` — **the tree of an accepted row of tokens is turned into a
  program unless a literal spells no value**, and the first such literal is named.
* `Program.ofTree_keeps_words` — **the program is written with the tokens and has their words.**
-/

namespace Bistro.Program

/-- **The tree of an accepted row of tokens is turned into a program exactly if every integer and
every fractional number among the tokens, lengths of arrays apart, spells a value.**  Otherwise the
error names the first literal that does not; the tree never has another shape than expected. -/
theorem ofTree_fails_only_at_literals : ∃ tables, Language.tables = .ok tables ∧
    ∀ (limits : Limits) (tokens : List Token),
      (Parse.ofTokens tables limits tokens).success = true →
      ∃ tree, (Parse.ofTokens tables limits tokens).tree = some tree ∧
        (∀ wanted found line, ofTree tree ≠ .error (.malformed wanted found line)) ∧
        ((∃ p, ofTree tree = .ok p) ↔ ∀ t ∈ Token.evaluated tokens,
          (t.kind = .pinchLiteral → (Number.readInteger? t.lexeme).isSome) ∧
          (t.kind = .skimLiteral → (Decimal.read? t.lexeme).isSome)) ∧
        ((∀ p, ofTree tree ≠ .ok p) →
          ∃ t, (Token.evaluated tokens).find? Token.isInvalid = some t ∧
            ofTree tree = .error (.invalidLiteral t.lexeme t.line)) := by
  obtain ⟨tables, htables, haccepted⟩ := Parse.exists_accepted_tree
  refine ⟨tables, htables, fun limits tokens h => ?_⟩
  obtain ⟨tree, htree, htag, hsound, rfl⟩ := haccepted limits tokens h
  refine ⟨tree, htree, ?_⟩
  -- the two conditions on a token say that it can be read
  have hvalid : (∀ t ∈ Token.evaluated tree.tokens,
      (t.kind = .pinchLiteral → (Number.readInteger? t.lexeme).isSome) ∧
      (t.kind = .skimLiteral → (Decimal.read? t.lexeme).isSome)) ↔
        Token.firstInvalid? tree.tokens = none := by
    rw [Token.firstInvalid?, List.find?_eq_none]
    refine forall₂_congr fun t _ => ?_
    rw [Token.not_isInvalid_iff]
  rw [hvalid]
  rcases ofTree_cases hsound htag with ⟨p, hp, -, hnone⟩ | ⟨t, ht, hsome⟩
  · refine ⟨?_, iff_of_true ⟨p, hp⟩ hnone, fun hne => absurd hp (hne p)⟩
    intro wanted found line hmalformed
    rw [hp] at hmalformed
    cases hmalformed
  · refine ⟨?_, iff_of_false ?_ ?_, fun _ => ⟨t, hsome, ht⟩⟩
    · intro wanted found line hmalformed
      rw [ht] at hmalformed
      cases hmalformed
    · rintro ⟨p, hp⟩
      rw [ht] at hp
      cases hp
    · simp [hsome]

/-- **A program keeps what is written.**  It is written with the tokens it was made of: each of its
declarations, variables, functions, parameters, statements, branches, arms, arguments and operators
with tokens of its own, one after the other and with none left over.  In particular its names and
literals are those of the tokens, in their order. -/
theorem ofTree_keeps_words : ∃ tables, Language.tables = .ok tables ∧
    ∀ (limits : Limits) (tokens : List Token),
      (Parse.ofTokens tables limits tokens).success = true →
      ∃ tree, (Parse.ofTokens tables limits tokens).tree = some tree ∧
        ∀ p, ofTree tree = .ok p →
          p.Written tokens ∧ Token.words tokens = p.words.map some := by
  obtain ⟨tables, htables, haccepted⟩ := Parse.exists_accepted_tree
  refine ⟨tables, htables, fun limits tokens h => ?_⟩
  obtain ⟨tree, htree, htag, hsound, rfl⟩ := haccepted limits tokens h
  refine ⟨tree, htree, fun p hp => ?_⟩
  rcases ofTree_cases hsound htag with ⟨p', hp', hwritten, -⟩ | ⟨t, ht, -⟩
  · obtain rfl := Except.ok.inj (hp.symm.trans hp')
    exact ⟨hwritten, hwritten.words_eq⟩
  · rw [hp] at ht
    cases ht

end Bistro.Program
