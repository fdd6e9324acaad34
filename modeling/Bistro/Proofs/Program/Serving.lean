import Bistro.Proofs.Exec.Outcome
import Bistro.Proofs.Program.Heads
import Bistro.Proofs.Program.OfTokens
import Bistro.Proofs.Session
import Bistro.Proofs.Token.Quote

/-!
# The program that serves a text

The shortest program that serves a text has this as its only statement.  Whatever its layout is, its
tokens are derived by the grammar and leave the program no choice: a construct that is not there
would begin with another word.  Its run serves the text that was written between the quotes.  An
integer is served as it is printed, and is read as the same integer again.

## Main definitions

* `Program.servingText`, `Program.servingWords`, `Program.serving` — the program that serves a text,
  its words, and how it is written with one blank between them.
* `Scan.Reads` — a source text is scanned to given words.
* `Session.Serves` — a session serves a text and does nothing else.

## Main results

* `Program.reads_serving` — the program is scanned to its words.
* `Program.Written.serves_text` — what is written with these words is the program.
* `Session.exists_serves` — every session with these words serves the text.
* `Exec.texts_serve`, `Exec.visibleValue?_make` — a value is served as it is printed, and a printed
  integer is read again.
* `Literal.means_what_it_spells` — **literals mean what they spell, from the source text to the
  output.**
-/

namespace Bistro

/-! ### The program -/

namespace Program

/-- The program whose only statement serves a text; its parts are on the given lines. -/
def servingText (s : String) (line line' line'' : Nat) : Program :=
  ⟨[], [], [], [.serve [.literal (.pasta s) line] line'], 0, line''⟩

section
open Token.Kind

/-- The words of the program before the text. -/
def servingBefore : List (Token.Kind × String) :=
  [dinein, chef, pinch, dish, leftParen, rightParen, leftBrace, serve, leftParen].map bare

/-- The words behind the text. -/
def servingBehind : List (Token.Kind × String) :=
  [rightParen, semicolon, spit].map bare ++
    (pinchLiteral, "0") :: [semicolon, rightBrace, takeout].map bare

/-- The words of the program that serves a text. -/
def servingWords (s : String) : List (Token.Kind × String) :=
  servingBefore ++ (pastaLiteral, Literal.quoted s) :: servingBehind

end

/-- How the program is written that serves a text. -/
def serving (s : String) : String :=
  "dinein chef pinch dish ( ) \x7b serve ( " ++ Literal.quote s ++ " ) ; spit 0 ; \x7d takeout"

end Program

/-! ### Scanning -/

/-- Words with a blank between each two of them. -/
def Spelling.spaced : List (Token.Kind × String) → List Spelling
  | [] => []
  | first :: rest => ⟨[], first.1, first.2⟩ :: rest.map fun w => ⟨[' '], w.1, w.2⟩

/-- The text of words with a blank before each of them. -/
def Spelling.blankText (words : List (Token.Kind × String)) : List Char :=
  words.flatMap fun w => ' ' :: w.1.spell w.2.toList

namespace Spelling

theorem text_spaced_append {before : List (Token.Kind × String)} (hbefore : before ≠ [])
    (w : Token.Kind × String) (behind : List (Token.Kind × String)) :
    text (spaced (before ++ w :: behind)) =
      text (spaced before) ++ ' ' :: (w.1.spell w.2.toList ++ blankText behind) := by
  obtain ⟨first, rest, rfl⟩ := List.exists_cons_of_ne_nil hbefore
  simp [text, spaced, written, blankText, List.flatMap_map]

theorem map_spaced (words : List (Token.Kind × String)) :
    (spaced words).map (fun s => (s.kind, s.lexeme)) = words := by
  cases words with
  | nil => rfl
  | cons first rest => simp [spaced, Function.comp_def]

theorem isRow_spaced {words : List (Token.Kind × String)}
    (h : ∀ w ∈ words, w.1.WellFormed w.2.toList) : IsRow (spaced words) := by
  cases words with
  | nil => trivial
  | cons first rest =>
    obtain ⟨hfirst, hrest⟩ := List.forall_mem_cons.1 h
    refine ⟨rfl, fun s hs => ?_, List.forall_mem_cons.2 ⟨hfirst, fun s hs => ?_⟩⟩
    · obtain ⟨w, -, rfl⟩ := List.mem_map.1 hs
      exact .mk rfl .nil
    · obtain ⟨w, hw, rfl⟩ := List.mem_map.1 hs
      exact hrest w hw

theorem map_bare_tokens (before : List Char) (row : List Spelling) :
    (tokens before row).map Token.bare = row.map fun s => (s.kind, s.lexeme) := by
  induction row generalizing before with
  | nil => rfl
  | cons s row ih => simp [tokens, ih, Token.bare]

end Spelling

namespace Scan

/-- A source text is scanned to tokens with the given words, and without an error. -/
def Reads (source : String) (words : List (Token.Kind × String)) : Prop :=
  (ofSource source).errors = [] ∧ (ofSource source).tokens.map Token.bare = words

/-- Well-formed words are scanned from their spelling. -/
theorem reads_spaced {words : List (Token.Kind × String)}
    (h : ∀ w ∈ words, w.1.WellFormed w.2.toList) :
    Reads (String.ofList (Spelling.text (Spelling.spaced words))) words := by
  rw [Reads, ofSource_ofList, ofText_row (Spelling.isRow_spaced h)]
  exact ⟨rfl, (Spelling.map_bare_tokens [] _).trans (Spelling.map_spaced words)⟩

end Scan

namespace Program

theorem wellFormed_bare {kinds : List Token.Kind} (h : ∀ kind ∈ kinds, kind ∉ Token.Kind.varied) :
    ∀ w ∈ kinds.map Token.Kind.bare, w.1.WellFormed w.2.toList := by
  intro w hw
  obtain ⟨kind, hkind, rfl⟩ := List.mem_map.1 hw
  exact .fixed (h kind hkind)

theorem wellFormed_servingWords {s : String} (h : s.length ≤ Segment.maxTextLength) :
    ∀ w ∈ servingWords s, w.1.WellFormed w.2.toList := by
  have htext := Token.Kind.wellFormed_quoted h
  have hcode : Token.Kind.pinchLiteral.WellFormed "0".toList :=
    Token.Kind.wellFormed_repr (n := 0) (by decide)
  unfold servingWords servingBefore servingBehind
  simp only [List.forall_mem_append, List.forall_mem_cons]
  exact ⟨wellFormed_bare (by decide), htext, wellFormed_bare (by decide), hcode,
    wellFormed_bare (by decide)⟩

/-- What is written around a literal is that of the words, if it is so before and behind. -/
theorem text_servingWords {before behind : String}
    (hbefore : before.toList = Spelling.text (Spelling.spaced servingBefore) ++ [' '])
    (hbehind : behind.toList = Spelling.blankText servingBehind) (s : String) :
    before ++ Literal.quote s ++ behind =
      String.ofList (Spelling.text (Spelling.spaced (servingWords s))) := by
  have hliteral : Token.Kind.pastaLiteral.spell (Literal.quoted s).toList =
      (Literal.quote s).toList := by
    simp [Literal.toList_quoted, Token.Kind.spell, Literal.quote]
  apply String.toList_injective
  rw [servingWords, String.toList_ofList, Spelling.text_spaced_append (by decide), hliteral,
    ← hbehind, List.append_cons, ← hbefore, String.toList_append, String.toList_append,
    List.append_assoc]

/-- The program with blanks between its words is scanned to these words. -/
theorem reads_serving {s : String} (h : s.length ≤ Segment.maxTextLength) :
    Scan.Reads (serving s) (servingWords s) := by
  have htext : serving s = String.ofList (Spelling.text (Spelling.spaced (servingWords s))) :=
    text_servingWords (by decide) (by decide) s
  rw [htext]
  exact Scan.reads_spaced (wellFormed_servingWords h)

end Program

/-! ### Parsing -/

/-- The tokens of the program that serves the empty text, all on one line. -/
def Program.servingNothing : List Token :=
  (servingWords "").map fun w => ⟨w.2, w.1, 1⟩

-- the machine is run by the kernel
set_option maxRecDepth 10000 in
theorem Parse.eval_servingNothing : ∀ tables ∈ Language.writtenTables.toOption,
    (ofTokens tables .standard Program.servingNothing).success = true := by
  decide +kernel

namespace Program

theorem map_kind_of_bare {s : String} {tokens : List Token}
    (h : tokens.map Token.bare = servingWords s) :
    tokens.map Token.kind = servingNothing.map Token.kind := by
  have hkinds : (tokens.map Token.bare).map Prod.fst = tokens.map Token.kind := by
    rw [List.map_map]
    rfl
  rw [← hkinds, h]
  rfl

/-- Only the kinds of tokens matter to the grammar, so one text is as good as any other. -/
theorem success_serving {tables : Grammar.Tables Nonterminal Token.Kind}
    (htables : Language.tables = .ok tables) (limits : Limits) {s : String} {tokens : List Token}
    (h : tokens.map Token.bare = servingWords s) :
    (Parse.ofTokens tables limits tokens).success = true := by
  obtain ⟨tables', htables', hgrammar, ht⟩ := Language.exists_tables
  obtain rfl := Except.ok.inj (htables'.symm.trans htables)
  have hg : ∀ n, (tables'.grammar.alternatives n).Nodup := hgrammar ▸ Language.nodup_alternatives
  have hnothing := Parse.eval_servingNothing tables' (Language.mem_writtenTables htables)
  have hparses (limits : Limits) (tokens : List Token) :
      (Parse.ofTokens tables' limits tokens).success = true ↔
        tables'.grammar.Yields [.nonterminal tables'.grammar.start] (tokens.map Token.kind) := by
    have hpaced :
        (Parse.Setting.ofTokens tables' limits tokens).tables.Paced Language.effort 9 16 := ht
    exact Parse.success_iff_yields hpaced hg
  rw [hparses, ← map_kind_of_bare h] at hnothing
  exact (hparses limits tokens).2 hnothing

end Program

/-! ### What is written with these words -/

theorem Token.literal?_of_bare {t : Token} {s : String}
    (h : t.bare = (.pastaLiteral, Literal.quoted s)) : t.literal? = some (.pasta s) := by
  obtain ⟨lexeme, kind, line⟩ := t
  obtain ⟨rfl, rfl⟩ := Prod.mk.inj h
  rw [literal?, ParseTree.unquote_quoted]

theorem Token.literal?_of_bare_zero {t : Token} (h : t.bare = (.pinchLiteral, "0")) :
    t.literal? = some (.pinch 0) := by
  obtain ⟨lexeme, kind, line⟩ := t
  obtain ⟨rfl, rfl⟩ := Prod.mk.inj h
  exact congrArg (Option.map Literal.pinch) (Number.readInteger?_repr (n := 0) rfl)

/-- One text is served. -/
theorem Statement.Written.serves_text {st : Statement} {ts us : List Token} (h : st.Written ts)
    {s : String} {ws : List (Token.Kind × String)}
    (hws : (ts ++ us).map Token.bare = Token.Kind.serve.bare :: Token.Kind.leftParen.bare ::
      (.pastaLiteral, Literal.quoted s) :: Token.Kind.rightParen.bare ::
      Token.Kind.semicolon.bare :: ws) :
    us.map Token.bare = ws ∧ ∃ line line', st = .serve [.literal (.pasta s) line] line' := by
  have hserve : Token.Kind.serve ∈ st.heads := h.headed.kind_mem hws
  cases st with
  | serve parts line' =>
    cases h with
    | serve _ opens' parts_written closes =>
      have hbehind := (List.cons.inj hws).2
      rw [List.append_eq, List.append_assoc, List.append_assoc] at hbehind
      have hparts := (opens'.split hbehind).2
      cases parts_written with
      | nil => cases (closes.split hparts).1
      | cons first others =>
        rw [List.append_assoc] at hparts
        obtain ⟨t, rest, hcons, ht, hrest⟩ := List.map_eq_cons_iff.1 hparts
        have hoperator : ∀ u ∈ rest.head?, ∀ op : BinaryOp, u.kind ≠ op.kind := by
          intro u hu op
          obtain ⟨behind, rfl⟩ := List.head?_eq_some_iff.1 hu
          have hkind : u.kind = .rightParen := congrArg Prod.fst (List.cons.inj hrest).1
          rw [hkind]
          cases op <;> decide
        obtain ⟨rfl, rfl⟩ := first.eq_literal hcons (Token.literal?_of_bare ht) hoperator
        obtain ⟨-, rfl⟩ := List.cons.inj hcons
        obtain ⟨rfl, rfl⟩ := others.eq_nil hrest (by decide)
        exact ⟨(closes.split hrest).2, _, _, rfl⟩
  | _ => simp [heads] at hserve

/-- **What is written with these words is the program that serves the text.** -/
theorem Program.Written.serves_text {p : Program} {tokens : List Token} (h : p.Written tokens)
    {s : String} (hwords : tokens.map Token.bare = servingWords s) :
    ∃ line line' line'', p = servingText s line line' line'' := by
  cases h with
  | mk opens globals_written functions_written enters locals_written body_written spits exits
      closes =>
    have hglobals := (opens.split hwords).2
    obtain ⟨rfl, rfl⟩ := globals_written.eq_nil (fun _ _ h => h.headed) hglobals (by decide)
    obtain ⟨rfl, rfl⟩ := functions_written.eq_nil (fun _ _ h => h.headed) hglobals (by decide)
    have hlocals := (enters.split hglobals).2
    obtain ⟨rfl, rfl⟩ := locals_written.eq_nil (fun _ _ h => h.headed) hlocals (by decide)
    cases body_written with
    | nil => cases (spits.split hlocals).1
    | cons first others =>
      rw [List.nil_append, List.append_assoc] at hlocals
      obtain ⟨hothers, line, line', rfl⟩ := first.serves_text hlocals
      obtain ⟨rfl, rfl⟩ := others.eq_nil Statement.Written.headed_all hothers (by decide)
      have hcode := (List.cons.inj (spits.split hothers).2).1
      rw [Token.literal?_of_bare_zero hcode] at exits
      obtain rfl := Literal.pinch.inj (Option.some.inj exits)
      exact ⟨line, line', _, rfl⟩

/-! ### Running -/

namespace Exec

/-- The value of an expression is served as it is printed. -/
theorem run_serve (limits : Limits) (call : Call) (site : Site) {e : Expr} {m k : Machine}
    {v : Value} (he : (evaluate limits call e).run (m.at site) = (some v, k)) (line : Nat) :
    ((execute limits call site (.serve [e] line)).run m).2 =
      { k with
        diagnostics := k.diagnostics.enter m.diagnostics.site
        output := k.output.serve v.render line } := by
  have hall : (evaluateAll limits call [e]).run (m.at site) = ([some v], k) := by
    rw [evaluateAll, run_bind, he]
    rfl
  rw [Machine.at] at hall
  rw [execute, run_atSite, serveParts, run_bind, hall, ← String.empty_append (s := v.render)]
  rfl

section
variable {m : Machine} {name : String} {b : Binding}

theorem run_readVariable {v : Value} (hb : m.scopes.peek? name = some b)
    (hvariable : b.isFunction = false) (hv : b.value = some v) (line : Nat) :
    (readVariable name line).run m = (some v, m.noted [name] []) := by
  have hmarked : (m.scopes.view name).map Binding.marked = some b.marked := by
    rw [ScopeStack.view, hb]
    rfl
  have hfunction : b.marked.isFunction = false := hvariable
  have hvalue : b.marked.value = some v := hv
  rw [readVariable, run_bind, run_lookup_eq, hmarked]
  simp only [hfunction, hvalue]
  rfl

/-- The value of a variable is served as it is printed. -/
theorem texts_serve {v : Value} (hb : m.scopes.peek? name = some b)
    (hvariable : b.isFunction = false) (hv : b.value = some v) (limits : Limits) (call : Call)
    (site : Site) (line line' : Nat) :
    let m' := ((execute limits call site (.serve [.var name line] line')).run m).2
    m'.output.texts = m.output.texts ++ [v.render] ∧
      m'.diagnostics.items = m.diagnostics.items := by
  have hread : (evaluate limits call (.var name line)).run (m.at site) =
      (some v, (m.at site).noted [name] []) := by
    rw [evaluate]
    exact run_readVariable (m := m.at site) hb hvariable hv line
  rw [run_serve limits call site hread]
  refine ⟨?_, rfl⟩
  rw [Output.texts, Output.lines_serve, List.map_append]
  rfl

/-- An integer that was printed and is read into a variable is stored. -/
theorem visibleValue?_make {limits : Limits} {n : Int} (h : n.natAbs ≤ 999999999)
    (hrange : limits.integerRange = Limits.standard.integerRange)
    (hb : m.scopes.peek? name = some b) (hkind : b.kind = .scalar .pinch)
    (hanswer : (m.input.ask name).1 = some (Value.pinch n).render) (call : Call) (site : Site)
    (line : Nat) :
    let m' := ((execute limits call site (.make name line)).run m).2
    m'.visibleValue? name = some (.pinch n) ∧ m'.diagnostics.items = m.diagnostics.items := by
  have houtcome : inputOutcome limits (m.input.ask name).1 (m.scopes.view name) =
      .put (.pinch n) := by
    obtain ⟨_, kind, _, _, _⟩ := b
    obtain rfl : kind = .scalar .pinch := hkind
    rw [hanswer, ScopeStack.view, hb]
    simp only [Option.map_some, Binding.unmarked, inputOutcome, hrange, readInput?_render h]
  have hleads : (Outcome.put (.pinch n)).Leads (.var name) ((m.at site).noted [name] [])
      ((readInput limits name line).run (m.at site)).2 := by
    rw [← houtcome]
    exact leads_readInput limits name line (m.at site)
  obtain ⟨hscopes, hdiagnostics⟩ := hleads
  have hmarked : (m.scopes.mark [name]).peek? name = some b.marked :=
    (ScopeStack.peek?_adjust Binding.marked name m.scopes).trans (congrArg _ hb)
  have hstored := valueAt?_adjust_withValue hmarked (.pinch n)
  have hitems := congrArg Diagnostics.items hdiagnostics
  rw [execute, run_atSite]
  refine ⟨?_, hitems⟩
  show ((readInput limits name line).run (m.at site)).2.visibleValue? name = some (.pinch n)
  rw [Machine.visibleValue?, hscopes]
  exact hstored

end

theorem run_checkExit {limits : Limits} {code : Int} (h : code ∈ limits.acceptedExitCodes)
    (line : Nat) (m : Machine) : (checkExit limits code line).run m = ((), m) := by
  rw [checkExit, if_pos h]
  rfl

theorem output_checkExit (limits : Limits) (code : Int) (line : Nat) (m : Machine) :
    ((checkExit limits code line).run m).2.output = m.output := by
  unfold checkExit
  split <;> rfl

end Exec

/-- The program serves its text, and then its result is checked. -/
theorem Program.exists_run_servingText (limits : Limits) (s : String) (line line' line'' : Nat)
    (input : Input) :
    ∃ m : Machine, (servingText s line line' line'').run limits input =
        ((Exec.checkExit limits 0 line'').run m).2 ∧
      m.output.texts = [s] ∧ m.diagnostics.items = [] := by
  let opened : Machine :=
    { Machine.initial input with scopes := (Machine.initial input).scopes.pushEntry }
  have hserve := Exec.run_serve limits (Exec.invoke limits limits.maxCallDepth)
    ((Site.child ⟨.entry, []⟩ 1).child 0) (e := .literal (.pasta s) line) (m := opened)
    (v := .pasta s) rfl line'
  refine ⟨_, rfl, ?_⟩
  exact ⟨congrArg (·.output.texts) hserve, congrArg (·.diagnostics.items) hserve⟩

/-! ### Sessions -/

namespace Session

/-- A session whose program serves a text and does nothing else. -/
structure Serves (limits : Limits) (text : String) (s : Session) : Prop where
  /-- The tree is that of the program that serves the text. -/
  program : ∃ tree line line' line'', s.tree = some tree ∧
    Program.ofTree tree = .ok (Program.servingText text line line' line'')
  /-- The output is one text. -/
  output : s.output = [text]
  /-- Nothing is reported, and the result is the output, if the program may end with zero. -/
  succeeds : 0 ∈ limits.acceptedExitCodes →
    s.diagnostics = [] ∧ s.result = Machine.successText [text]

theorem tree_withOutcome (s : Session) (o : Parse.Outcome) : (s.withOutcome o).tree = o.tree :=
  rfl

theorem serves_withRun {limits : Limits} {text : String} {s : Session} {tree : ParseTree}
    {line line' line'' : Nat} (htree : s.tree = some tree)
    (hprogram : Program.ofTree tree = .ok (Program.servingText text line line' line''))
    (input : Input) :
    (s.withRun ((Program.servingText text line line' line'').run limits input)).Serves limits
      text := by
  obtain ⟨m, hrun, houtput, hitems⟩ :=
    Program.exists_run_servingText limits text line line' line'' input
  rw [hrun]
  refine ⟨⟨tree, line, line', line'', htree, hprogram⟩, ?_, fun hcode => ?_⟩
  · show ((Exec.checkExit limits 0 line'').run m).2.output.texts = [text]
    rw [Exec.output_checkExit, houtput]
  · rw [Exec.run_checkExit hcode]
    refine ⟨hitems, ?_⟩
    have hfine : m.diagnostics.hasErrors = false := by
      rw [m.hasErrors_eq, hitems]
      rfl
    show m.result = Machine.successText [text]
    rw [m.result_eq, hfine, houtput]
    rfl

/-- **Every session with the words of the program serves the text.** -/
theorem exists_serves {source text : String}
    (h : Scan.Reads source (Program.servingWords text)) (limits : Limits) (input : Input) :
    ∃ s, ofSource limits .run source input = .ok s ∧ s.Serves limits text := by
  obtain ⟨hlexical, hwords⟩ := h
  obtain ⟨tables, htables, haccepted⟩ := Parse.exists_accepted_tree
  have hsuccess := Program.success_serving htables limits hwords
  obtain ⟨tree, htree, htag, hsound, htokens⟩ := haccepted limits _ hsuccess
  -- every literal of a source text can be read
  have hvalid := Token.firstInvalid?_eq_none (Scan.reads_tokens source)
  rcases Program.ofTree_cases hsound htag with ⟨p, hprogram, hwritten, -⟩ | ⟨token, -, htoken⟩
  · generalize ho : Parse.ofTokens tables limits (Scan.ofSource source).tokens = o at hsuccess htree
    have hsession : ofSource limits .run source input =
        .ok (((ofScan (Scan.ofSource source)).withOutcome o).withRun (p.run limits input)) := by
      rw [ofSource_of_outcome htables (by decide) hlexical ho, if_neg (by simp [hsuccess]), htree]
      dsimp only
      rw [hprogram]
      rfl
    have hparsed : ((ofScan (Scan.ofSource source)).withOutcome o).tree = some tree := by
      rw [tree_withOutcome, htree]
    rw [htokens] at hwritten
    obtain ⟨line, line', line'', rfl⟩ := hwritten.serves_text hwords
    exact ⟨_, hsession, serves_withRun hparsed hprogram input⟩
  · rw [htokens, hvalid] at htoken
    cases htoken

end Session

/-! ### What literals mean -/

namespace Literal

/-- A text means what its literal spells. -/
structure MeansText (s : String) : Prop where
  /-- The literal is scanned to one token, and without an error. -/
  scans : Scan.ofSource (quote s) = ⟨[⟨quoted s, .pastaLiteral, 1⟩], []⟩
  /-- The value of the token is the text. -/
  lowers : ∀ line, (ParseTree.leaf .pastaLiteral (quoted s) line).literal = .ok (.pasta s)
  /-- The literal can be written in the program that serves it. -/
  written : Scan.Reads (Program.serving s) (Program.servingWords s)
  /-- Whatever the layout of the program is, it serves the text. -/
  serves : ∀ source, Scan.Reads source (Program.servingWords s) → ∀ limits input,
    ∃ session, Session.ofSource limits .run source input = .ok session ∧ session.Serves limits s

/-- An integer means what its literal spells, and is printed as it is read. -/
structure MeansInteger (n : Int) : Prop where
  /-- The literal is scanned to one token, and without an error. -/
  scans : Scan.ofSource (decimal n) = ⟨[⟨n.repr, .pinchLiteral, 1⟩], []⟩
  /-- The value of the token is the integer. -/
  lowers : ∀ line, (ParseTree.leaf .pinchLiteral n.repr line).literal = .ok (.pinch n)
  /-- A variable with the integer is served as the integer is printed. -/
  prints : ∀ (m : Machine) (name : String) (b : Binding), m.scopes.peek? name = some b →
    b.kind = .scalar .pinch → b.value = some (.pinch n) → ∀ limits call site line line',
    let m' := ((Exec.execute limits call site (.serve [.var name line] line')).run m).2
    m'.output.texts = m.output.texts ++ [(Value.pinch n).render] ∧
      m'.diagnostics.items = m.diagnostics.items
  /-- The printed integer is read into an integer variable under the default range. -/
  reads : ∀ (m : Machine) (name : String) (b : Binding), m.scopes.peek? name = some b →
    b.kind = .scalar .pinch → (m.input.ask name).1 = some (Value.pinch n).render →
    ∀ limits call site line, limits.integerRange = Limits.standard.integerRange →
    let m' := ((Exec.execute limits call site (.make name line)).run m).2
    m'.visibleValue? name = some (.pinch n) ∧ m'.diagnostics.items = m.diagnostics.items

/-- **Literals mean what they spell.**  A text of at most 256 characters that is written in quotes,
with escapes, is the value of its token and is served by the program that serves it; an integer of
at most nine digits is the value of its token, and is read again as it was printed. -/
theorem means_what_it_spells :
    (∀ s : String, s.length ≤ 256 → MeansText s) ∧
      ∀ n : Int, n.natAbs ≤ 999999999 → MeansInteger n := by
  refine ⟨fun s hs => ?_, fun n hn => ?_⟩
  · exact {
      scans := Scan.ofSource_quote hs
      lowers := ParseTree.literal_quoted s
      written := Program.reads_serving hs
      serves := fun _ hsource limits input => Session.exists_serves hsource limits input }
  · refine {
      scans := Scan.ofSource_decimal hn
      lowers := ParseTree.literal_repr (Number.fits_of_le hn)
      prints := ?_
      reads := ?_ }
    · intro m name b hb hkind hvalue limits call site line line'
      have hvariable : b.isFunction = false := by rw [Binding.isFunction, hkind]
      exact Exec.texts_serve hb hvariable hvalue limits call site line line'
    · intro m name b hb hkind hanswer limits call site line hrange
      exact Exec.visibleValue?_make hn hrange hb hkind hanswer call site line

/-- A text of a quote, a backslash and a line feed is served, and a negative integer is read from
its printed form. -/
theorem means_what_it_spells_corner :
    (∃ session, Session.ofSource .standard .run (Program.serving "\"\\\n") (.ofAnswers []) =
        .ok session ∧ session.output = ["\"\\\n"]) ∧
      ∃ m : Machine, m.input.requests = [] ∧ m.visibleValue? "x" = none ∧
        ((Exec.execute .standard (Exec.invoke .standard 0) .outside (.make "x" 2)).run
          m).2.visibleValue? "x" = some (.pinch (-7)) := by
  have htext := means_what_it_spells.1 "\"\\\n" (by decide)
  have hinteger := means_what_it_spells.2 (-7) (by decide)
  obtain ⟨session, hsession, hserves⟩ := htext.serves _ htext.written .standard (.ofAnswers [])
  let m := ((Exec.declare (.scalar "x" .pinch 1)).run (Machine.initial (.ofAnswers ["-7"]))).2
  have hdeclared : m.scopes.peek? "x" = some (.scalar "x" .pinch 1) := rfl
  have hreads := hinteger.reads m "x" _ hdeclared rfl rfl .standard (Exec.invoke .standard 0)
    .outside 2 rfl
  exact ⟨⟨session, hsession, hserves.output⟩, m, rfl, rfl, hreads.1⟩

end Literal

end Bistro
