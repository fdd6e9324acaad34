import Bistro.Proofs.Exec.Completion
import Bistro.Proofs.Parse.Lines
import Bistro.Proofs.Program.OfTree

/-!
# No failure is silent

A run of a program that comes from a source text records an error whenever something in it fails: an
expression has no value, a condition has no truth value, nothing is stored, a call does not run the
body of its function, or a loop is given up.  As errors last, a run that ends without errors has
carried out every statement that it came to.

The texts and the steps that a run can come to are described from outside: by the words of the
program and by the states of the run.  That is more than a run really comes to, and all of it is
covered.

## Main results

* `Program.failures_reported` — **no failure is silent, and a run that succeeds has carried out
  every statement it came to.**
-/

namespace Bistro

theorem Machine.not_failed_of_result {m : Machine}
    (h : successBanner.toList <:+ m.result.toList) : ¬ m.Failed := by
  intro hfailed
  have hresult : m.result = failureBanner := by
    unfold Machine.result
    exact if_pos hfailed
  rw [hresult] at h
  exact absurd h (by decide)

namespace Program

open Exec

/-- A program that is made of the tokens of a source text is regular. -/
theorem regular_of_source {source : String} {tree : ParseTree} {p : Program} (hsound : tree.Sound)
    (htag : tree.tag = .nonterminal .program)
    (htokens : tree.tokens = (Scan.ofSource source).tokens) (hp : ofTree tree = .ok p) : p.Regular := by
  refine (written_of_ofTree hsound htag hp).regular ?_
  rw [htokens]
  exact Scan.hasForm_tokens source

/-- **No failure is silent.**  In every state of a run of a program that comes from a source text,
and with any number of calls that may still be nested:

* if an expression of the program has no value, or one that is a call does not run the body of a
  function, then behind its evaluation an error is recorded;
* if a condition has no truth value, then behind its test an error is recorded;
* if a statement does not do what it is there for, then behind it an error is recorded.

So if the text of a run ends with the banner of success, then every statement that was executed in
the course of it has done what it is there for. -/
theorem failures_reported : ∃ tables, Language.tables = .ok tables ∧
    ∀ (source : String) (bounds : Limits),
      (Parse.ofTokens tables bounds (Scan.ofSource source).tokens).success = true →
      ∃ tree, (Parse.ofTokens tables bounds (Scan.ofSource source).tokens).tree = some tree ∧
        ∀ (p : Program) (limits : Limits) (input : Input), ofTree tree = .ok p →
          (∀ m, p.Reaches limits input m → ∀ depth,
            (∀ e, e.words ⊆ p.words →
              (((evaluate limits (invoke limits depth) e).run m).1 = none →
                ((evaluate limits (invoke limits depth) e).run m).2.Failed) ∧
              (∀ name args line, e = .call name args line →
                ¬ RunsBody limits depth name args line m
                  ((evaluate limits (invoke limits depth) e).run m) →
                ((evaluate limits (invoke limits depth) e).run m).2.Failed) ∧
              ((∀ b, ((evaluate limits (invoke limits depth) e).run m).1 ≠ some (.bool b)) →
                ((test limits (invoke limits depth) e).run m).2.Failed)) ∧
            ∀ site s, s.words ⊆ p.words → ¬ Completes limits depth site m s →
              ((execute limits (invoke limits depth) site s).run m).2.Failed) ∧
          (Machine.successBanner.toList <:+ (p.run limits input).result.toList →
            ∀ depth site s m, s.words ⊆ p.words →
              p.Takes limits input (execute limits (invoke limits depth) site s) m →
              Completes limits depth site m s) := by
  obtain ⟨tables, htables, haccepted⟩ := Parse.exists_accepted_tree
  refine ⟨tables, htables, fun source bounds hsuccess => ?_⟩
  obtain ⟨tree, htree, htag, hsound, htokens⟩ := haccepted bounds _ hsuccess
  refine ⟨tree, htree, fun p limits input hp => ?_⟩
  have hregular := regular_of_source hsound htag htokens hp
  have hcall := answers_invoke limits
  have hstatement : ∀ m, p.Reaches limits input m → ∀ depth site s, s.words ⊆ p.words →
      ((execute limits (invoke limits depth) site s).run m).2.Failed ∨
        Completes limits depth site m s := fun m hm depth site s hs =>
    failed_or_completes limits depth site s (hregular.words.of_subset hs) (hm.regular hregular)
  refine ⟨fun m hm depth => ⟨fun e he => ?_, fun site s hs => ?_⟩, ?_⟩
  · have hm := hm.regular hregular
    have he := hregular.words.of_subset he
    refine ⟨(explains_evaluate (hcall depth) e he).failed hm, ?_, ?_⟩
    · rintro name args line rfl hnot
      rw [Expr.words, Word.allRegular_cons] at he
      exact (failed_or_call depth name line he.2 hm).resolve_right hnot
    · intro hnot
      rcases failed_or_test (hcall depth) he hm with ⟨-, hfailed⟩ | ⟨b, htruth, -⟩
      · exact hfailed
      · exact absurd (congrArg Prod.fst htruth) (hnot b)
  · exact (hstatement m hm depth site s hs).resolve_right
  · intro hsucceeded depth site s m hs htaken
    refine (hstatement m htaken.reaches depth site s hs).resolve_left fun hfailed => ?_
    exact Machine.not_failed_of_result hsucceeded (htaken.reaches_run.failed_run hfailed)

end Program

end Bistro
