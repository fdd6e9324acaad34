import Bistro.Proofs.Parse.Lines
import Bistro.Proofs.Program.OfTree
import Bistro.Session

/-!
# Sessions

A session never fails: the grammar has no conflict, and every tree that the parser gives is that of
a program whose literals can be read.  Each stage opens the way for the next one, so what a session
tells of a stage is empty unless the stages before it found no error.

## Main definitions

* `Session.Gated` — what a session tells of its stages.

## Main results

* `Session.exists_outcome` — what parsing a source text gives.
* `Session.courses` — the courses that a session can take.
* `Session.ofSource_gated` — **a session always has an outcome, and its stages gate one another.**
-/

namespace Bistro

/-! ### Results -/

theorem Output.texts_eq_nil_iff (o : Output) : o.texts = [] ↔ o.isEmpty = true := by
  simp [Output.texts, Output.lines, Output.isEmpty]

namespace Machine

theorem hasErrors_eq (m : Machine) :
    m.diagnostics.hasErrors = m.diagnostics.items.any Diagnostic.isError := by
  simp [Diagnostics.hasErrors, Diagnostics.items, List.any_reverse, List.any_map, Function.comp_def]

/-- The text of a run without errors: its output and the banner behind it. -/
def successText (output : List String) : String :=
  if output = [] then successBanner else "\n".intercalate output ++ "\n\n" ++ successBanner

theorem successText_ne (output : List String) : successText output ≠ failureBanner := by
  -- every text of a run without errors ends with its banner, and the other banner does not
  have hsuffix : ¬ successBanner.toList <:+ failureBanner.toList := by decide
  intro heq
  apply hsuffix
  rw [← heq, successText]
  split
  · exact List.suffix_rfl
  · rw [String.toList_append]
    exact List.suffix_append _ _

theorem result_eq (m : Machine) :
    m.result = if m.diagnostics.hasErrors then failureBanner else successText m.output.texts := by
  unfold Machine.result successText
  simp only [Output.texts_eq_nil_iff]

end Machine

namespace Session

/-! ### Courses -/

/-- What parsing the tokens of a source text gives: either nothing is reported and there is a tree,
which is that of a program, or something is reported and there is none. -/
theorem exists_outcome : ∃ tables, Language.tables = .ok tables ∧
    ∀ (limits : Limits) (source : String) (o : Parse.Outcome),
      o = Parse.ofTokens tables limits (Scan.ofSource source).tokens →
      (o.success = true ∧ o.errors = [] ∧
        ∃ tree program, o.tree = some tree ∧ Program.ofTree tree = .ok program) ∨
      (o.success = false ∧ o.errors ≠ [] ∧ o.tree = none) := by
  obtain ⟨tables, htables, hgrammar, ht⟩ := Language.exists_tables
  refine ⟨tables, htables, fun limits source o ho => ?_⟩
  rw [Parse.ofTokens_eq] at ho
  -- the tables of the setting are those of the language, whatever the limits are
  generalize hsetting : Parse.Setting.ofTokens tables limits _ = setting at ho
  obtain rfl : setting.tables = tables := by rw [← hsetting]; rfl
  rw [ho]
  rcases Parse.outcome_cases ht (Scan.ofSource source).tokens with ⟨hsuccess, herrors⟩ | hfailure
  · obtain ⟨tree, htree, htag, hsound, htokens⟩ := Parse.exists_sound_tree ht hgrammar hsuccess
    -- every literal of a source text can be read
    have hvalid := Token.firstInvalid?_eq_none (Scan.reads_tokens source)
    rcases Program.ofTree_cases hsound htag with ⟨program, hprogram, -⟩ | ⟨token, -, htoken⟩
    · exact .inl ⟨hsuccess, herrors, tree, program, htree, hprogram⟩
    · rw [htokens, hvalid] at htoken
      cases htoken
  · exact .inr hfailure

section
variable {limits : Limits} {stage : Stage} {source : String} {input : Input}

theorem ofSource_of_scan (h : stage = .scan ∨ (Scan.ofSource source).errors ≠ []) :
    ofSource limits stage source input = .ok (ofScan (Scan.ofSource source)) := by
  have hcond : (decide (stage = .scan) || !(ofScan (Scan.ofSource source)).lexicalErrors.isEmpty) =
      true := by
    simpa [ofScan] using h
  unfold ofSource
  rw [if_pos hcond]
  rfl

theorem mapError_ok_bind {ε ε' α β : Type} (f : ε → ε') (a : α) (g : α → Except ε' β) :
    ((Except.ok a).mapError f >>= g) = g a := rfl

/-- A text without lexical errors is parsed. -/
theorem ofSource_of_outcome {tables : Grammar.Tables Nonterminal Token.Kind} {o : Parse.Outcome}
    (htables : Language.tables = .ok tables) (hstage : stage ≠ .scan)
    (hlexical : (Scan.ofSource source).errors = [])
    (ho : Parse.ofTokens tables limits (Scan.ofSource source).tokens = o) :
    ofSource limits stage source input =
      if stage = .parse ∨ o.success = false then .ok ((ofScan (Scan.ofSource source)).withOutcome o)
      else match o.tree with
        | none => .ok ((ofScan (Scan.ofSource source)).withOutcome o)
        | some tree => do
          let program ← (Program.ofTree tree).mapError Failure.shape
          return ((ofScan (Scan.ofSource source)).withOutcome o).withRun
            (program.run limits input) := by
  have hcond : ¬ (decide (stage = .scan) ||
      !(ofScan (Scan.ofSource source)).lexicalErrors.isEmpty) = true := by
    simp [ofScan, hstage, hlexical]
  have htokens : (ofScan (Scan.ofSource source)).tokens = (Scan.ofSource source).tokens := rfl
  unfold ofSource
  rw [if_neg hcond, htables, mapError_ok_bind, htokens, ho]
  simp only [Bool.or_eq_true, decide_eq_true_eq, Bool.not_eq_true']
  rfl

end

/-- The courses that the sessions with a source text can take. -/
inductive Courses (limits : Limits) (source : String) : Prop
  /-- Every session ends with the lexical errors. -/
  | lexical (faulty : (Scan.ofSource source).errors ≠ [])
      (ends : ∀ stage input,
        ofSource limits stage source input = .ok (ofScan (Scan.ofSource source)))
  /-- Every session that parses the text ends with the syntax errors. -/
  | grammatical (o : Parse.Outcome) (scans : (Scan.ofSource source).errors = [])
      (faulty : o.errors ≠ []) (bare : o.tree = none)
      (ends : ∀ stage input, stage ≠ .scan →
        ofSource limits stage source input = .ok ((ofScan (Scan.ofSource source)).withOutcome o))
  /-- Every session ends with its last stage. -/
  | complete (o : Parse.Outcome) (program : Program) (scans : (Scan.ofSource source).errors = [])
      (parses : o.errors = []) (grown : o.tree.isSome = true)
      (endsParse : ∀ input,
        ofSource limits .parse source input = .ok ((ofScan (Scan.ofSource source)).withOutcome o))
      (endsRun : ∀ input, ofSource limits .run source input =
        .ok (((ofScan (Scan.ofSource source)).withOutcome o).withRun (program.run limits input)))

theorem courses (limits : Limits) (source : String) : Courses limits source := by
  by_cases hlexical : (Scan.ofSource source).errors = []
  · obtain ⟨tables, htables, houtcome⟩ := exists_outcome
    -- the outcome does not depend on the stage or on the input
    generalize ho : Parse.ofTokens tables limits (Scan.ofSource source).tokens = o
    rcases houtcome limits source o ho.symm with
      ⟨hsuccess, herrors, tree, program, htree, hprogram⟩ | ⟨hsuccess, herrors, htree⟩
    · refine .complete o program hlexical herrors (by simp [htree]) ?_ ?_
      · intro input
        rw [ofSource_of_outcome htables (by decide) hlexical ho, if_pos (.inl rfl)]
      · intro input
        rw [ofSource_of_outcome htables (by decide) hlexical ho, if_neg (by simp [hsuccess]), htree]
        dsimp only
        rw [hprogram]
        rfl
    · refine .grammatical o hlexical herrors htree fun stage input hstage => ?_
      rw [ofSource_of_outcome htables hstage hlexical ho, if_pos (.inr hsuccess)]
  · exact .lexical hlexical fun stage input => ofSource_of_scan (.inr hlexical)

/-! ### Stages -/

/-- What a session with the given last stage tells of its stages. -/
structure Gated (stage : Stage) (s : Session) : Prop where
  /-- With lexical errors nothing is parsed or run. -/
  lexical : s.lexicalErrors ≠ [] →
    s.syntaxErrors = [] ∧ s.diagnostics = [] ∧ s.output = [] ∧ s.tree = none ∧ s.requests = []
  /-- With syntax errors there is no tree, and nothing is run. -/
  grammatical : s.syntaxErrors ≠ [] →
    s.tree = none ∧ s.diagnostics = [] ∧ s.output = [] ∧ s.requests = []
  /-- There is a tree if the text was parsed and has no errors. -/
  tree_iff : s.tree.isSome = true ↔
    (stage = .parse ∨ stage = .run) ∧ s.lexicalErrors = [] ∧ s.syntaxErrors = []
  /-- A run that fails tells only that it does. -/
  failed_iff : stage = .run → (s.result = Machine.failureBanner ↔ s.hasErrors = true)
  /-- A run that does not fail tells its output. -/
  succeeded : stage = .run → s.hasErrors = false → s.result = Machine.successText s.output

theorem gated_ofScan {stage : Stage} {scan : Scan} (h : stage = .scan ∨ scan.errors ≠ []) :
    (ofScan scan).Gated stage where
  lexical _ := ⟨rfl, rfl, rfl, rfl, rfl⟩
  grammatical h := absurd rfl h
  tree_iff := by
    refine ⟨nofun, ?_⟩
    rintro ⟨hstage, hlexical, -⟩
    rcases h with rfl | h
    · rcases hstage with h | h <;> cases h
    · exact absurd hlexical h
  failed_iff hrun := by
    rcases h with rfl | h
    · cases hrun
    · have : (ofScan scan).hasErrors = true := by simp [hasErrors, ofScan, h]
      exact ⟨fun _ => this, fun _ => rfl⟩
  succeeded hrun herrors := by
    rcases h with rfl | h
    · cases hrun
    · simp [hasErrors, ofScan, h] at herrors

theorem gated_of_syntaxErrors {stage : Stage} {scan : Scan} {o : Parse.Outcome}
    (hscan : scan.errors = []) (ho : o.errors ≠ []) (htree : o.tree = none) :
    ((ofScan scan).withOutcome o).Gated stage where
  lexical h := absurd hscan h
  grammatical _ := ⟨htree, rfl, rfl, rfl⟩
  tree_iff := by
    have : ((ofScan scan).withOutcome o).tree = none := htree
    simp only [this, Option.isSome_none]
    exact ⟨nofun, fun h => absurd h.2.2 ho⟩
  failed_iff _ := by
    have : ((ofScan scan).withOutcome o).hasErrors = true := by
      simp [hasErrors, withOutcome, ho]
    exact ⟨fun _ => this, fun _ => rfl⟩
  succeeded _ herrors := by simp [hasErrors, withOutcome, ho] at herrors

section
variable {s : Session} (hlexical : s.lexicalErrors = []) (hparses : s.syntaxErrors = [])
  (htree : s.tree.isSome = true)
include hlexical hparses htree

theorem gated_of_tree : s.Gated .parse where
  lexical h := absurd hlexical h
  grammatical h := absurd hparses h
  tree_iff := ⟨fun _ => ⟨.inl rfl, hlexical, hparses⟩, fun _ => htree⟩
  failed_iff := nofun
  succeeded := nofun

theorem gated_of_run (m : Machine) : (s.withRun m).Gated .run := by
  have hresult : (s.withRun m).result = if (s.withRun m).hasErrors then Machine.failureBanner
      else Machine.successText (s.withRun m).output := by
    -- the stages before found no error, so the errors of the session are those of the run
    have herroneous : (s.withRun m).hasErrors = m.diagnostics.hasErrors := by
      rw [Machine.hasErrors_eq]
      simp [hasErrors, withRun, hlexical, hparses]
    rw [herroneous]
    exact m.result_eq
  refine ⟨fun h => absurd hlexical h, fun h => absurd hparses h,
    ⟨fun _ => ⟨.inr rfl, hlexical, hparses⟩, fun _ => htree⟩, fun _ => ?_, fun _ hfine => ?_⟩
  · rw [hresult]
    split
    · next h => simp [h]
    · next h => simpa [h] using Machine.successText_ne _
  · rw [hresult, hfine]
    rfl

end

/-- **A session with any source text, last stage, limits and input has an outcome, and its stages
gate one another.**  What is learnt from scanning and parsing does not depend on whether the program
is run as well. -/
theorem ofSource_gated (limits : Limits) (source : String) (input : Input) :
    (∀ stage, ∃ s, ofSource limits stage source input = .ok s ∧ s.Gated stage) ∧
      ∃ parsed ran, ofSource limits .parse source input = .ok parsed ∧
        ofSource limits .run source input = .ok ran ∧
        parsed.tokens = ran.tokens ∧ parsed.lexicalErrors = ran.lexicalErrors ∧
        parsed.syntaxErrors = ran.syntaxErrors ∧ parsed.tree = ran.tree := by
  have hscan : ofSource limits .scan source input = .ok (ofScan (Scan.ofSource source)) :=
    ofSource_of_scan (.inl rfl)
  cases courses limits source with
  | lexical faulty ends =>
    refine ⟨fun stage => ⟨_, ends stage input, gated_ofScan (.inr faulty)⟩, ?_⟩
    exact ⟨_, _, ends .parse input, ends .run input, rfl, rfl, rfl, rfl⟩
  | grammatical o scans faulty bare ends =>
    refine ⟨fun stage => ?_, ?_⟩
    · by_cases hstage : stage = .scan
      · subst hstage
        exact ⟨_, hscan, gated_ofScan (.inl rfl)⟩
      · exact ⟨_, ends stage input hstage, gated_of_syntaxErrors scans faulty bare⟩
    · exact ⟨_, _, ends .parse input (by decide), ends .run input (by decide), rfl, rfl, rfl, rfl⟩
  | complete o program scans parses grown endsParse endsRun =>
    refine ⟨fun stage => ?_, _, _, endsParse input, endsRun input, rfl, rfl, rfl, rfl⟩
    cases stage with
    | scan => exact ⟨_, hscan, gated_ofScan (.inl rfl)⟩
    | parse => exact ⟨_, endsParse input, gated_of_tree scans parses grown⟩
    | run => exact ⟨_, endsRun input, gated_of_run scans parses grown _⟩

end Session

end Bistro
