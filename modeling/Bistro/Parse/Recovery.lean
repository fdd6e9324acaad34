import Bistro.Parse.State

/-!
# Going on after a syntax error

After an error the machine first looks for a repair of one token: the next token is deleted, a
terminal that the stack expects is inserted before it, or both.  A repair is judged by a trial, in
which the machine runs on without building a tree: it is taken only if a few tokens are then matched
or the input is accepted, and of several the one that gets farthest is taken, the first of those
that get equally far.

If there is no such repair, the stack is cut down to an item that can go on with the next token.  If
no item can, tokens are passed over, up to a limit.

## Main definitions

* `Parse.Trial`, `Parse.Trial.move`, `Parse.Trial.iterate` — trials.
* `Parse.Score` — how far a trial gets.
* `Parse.Repair`, `Parse.repair?` — the best repair.
* `Parse.recover?` — the search for a place to go on.
-/

namespace Bistro.Parse

/-! ### Trials -/

/-- Tokens that a repair must let the machine match. -/
def minMatched : Nat := 3

/-- Tokens that a trial looks at. -/
def trialLength : Nat := 32

/-- How far a trial gets. -/
inductive Score
  /-- A number of tokens was matched. -/
  | matched (count : Nat)
  /-- The whole input was accepted. -/
  | accepted
  deriving DecidableEq, Repr, Inhabited

namespace Score

/-- Whether a score is good enough for a repair. -/
def isEnough : Score → Bool
  | matched count => minMatched ≤ count
  | accepted => true

/-- Whether the first score is better. -/
def beats : Score → Score → Bool
  | accepted, matched _ => true
  | matched a, matched b => b < a
  | _, accepted => false

end Score

/-- The state of a trial. -/
structure Trial where
  /-- The symbols to be found, the next one first. -/
  stack : List Item
  /-- A terminal to be matched before the tokens ahead. -/
  inserted : Option Token.Kind
  /-- The tokens that are not yet consumed. -/
  ahead : List Token
  /-- How many tokens were matched. -/
  matched : Nat
  deriving DecidableEq, Repr, Inhabited

namespace Trial

/-- What the trial sees next. -/
def lookahead (t : Trial) : Lookahead := look t.inserted t.ahead

/-- The trial behind the terminal on top of its stack; an inserted one does not count. -/
def matchTerminal (rest : List Item) (t : Trial) : Trial :=
  match t.inserted with
  | some _ => { t with stack := rest, inserted := none }
  | none => { t with stack := rest, ahead := t.ahead.tail, matched := t.matched + 1 }

/-- The outcome of one or more moves. -/
inductive Move
  /-- The trial is over. -/
  | ended (score : Score)
  /-- The trial goes on. -/
  | going (t : Trial)
  deriving DecidableEq, Repr, Inhabited

/-- One move: as the machine makes it, but without a tree and without end marks.  A trial is over
when something does not fit, when enough tokens are matched, or at the bottom of the stack. -/
def move (setting : Setting) (t : Trial) : Move :=
  if trialLength ≤ t.matched then .ended (.matched t.matched)
  else match t.stack with
    | [] => .ended (.matched t.matched)
    -- only at the bottom can the whole input be accepted, however few tokens that took
    | .bottom :: _ => .ended (if t.lookahead = .atEnd then .accepted else .matched t.matched)
    | .endOfProduction :: rest => .going { t with stack := rest }
    | .terminal kind :: rest =>
      if t.lookahead = .token kind then .going (t.matchTerminal rest)
      else .ended (.matched t.matched)
    | .nonterminal n :: rest =>
      match setting.tables.select? n t.lookahead with
      | none => .ended (.matched t.matched)
      | some alternative =>
        let symbols := State.production setting n alternative
        .going { t with stack := symbols.map Item.ofSymbol ++ rest }

/-- Makes at most a number of moves. -/
def iterate (setting : Setting) : Nat → Trial → Move
  | 0, t => .going t
  | moves + 1, t =>
    match t.move setting with
    | .going t => iterate setting moves t
    | ended => ended

/-- How far a trial got. -/
def Move.score : Move → Score
  | ended score => score
  | going t => .matched t.matched

end Trial

/-- More moves than a trial from a stack of the given height makes. -/
def trialMoves (height : Nat) : Nat := 1000 * (height + 10000)

/-! ### Repairs -/

/-- A repair of one token. -/
structure Repair where
  /-- Go on from the stack as it was after the last match. -/
  fromCheckpoint : Bool
  /-- Delete the next token. -/
  skip : Bool
  /-- Match this terminal first. -/
  insert : Option Token.Kind
  deriving DecidableEq, Repr, Inhabited

/-- The terminals that the top of a stack can begin with, in order. -/
def expectedTerminals (setting : Setting) : List Item → List Token.Kind
  | .terminal kind :: _ => [kind]
  | .nonterminal n :: _ =>
    (setting.tables.row n).filterMap fun
      | (.token kind, _) => some kind
      | (.atEnd, _) => none
  | _ => []

/-- The repairs to be tried on a stack: the deletion, the insertions and the replacements. -/
def candidates (setting : Setting) (s : State) (fromCheckpoint : Bool) (stack : List Item) :
    List Repair :=
  let expected := expectedTerminals setting stack
  let insertions := expected.map fun kind => ⟨fromCheckpoint, false, some kind⟩
  -- at the end of the input there is no token to delete or to replace
  if s.ahead.isEmpty then insertions
  else
    ⟨fromCheckpoint, true, none⟩ :: insertions
      ++ expected.map fun kind => ⟨fromCheckpoint, true, some kind⟩

/-- The trial of a repair on a stack. -/
def Trial.ofRepair (s : State) (stack : List Item) (r : Repair) : Trial :=
  ⟨stack, r.insert, if r.skip then s.ahead.tail else s.ahead, 0⟩

/-- How far the machine gets from a stack with a repair. -/
def score (setting : Setting) (s : State) (stack : List Item) (r : Repair) : Score :=
  ((Trial.ofRepair s stack r).iterate setting (trialMoves stack.length)).score

/-- The better of the best repair so far and a further one. -/
def better (best : Option (Score × Repair)) (next : Score × Repair) : Option (Score × Repair) :=
  if !next.1.isEnough then best
  else match best with
    | none => some next
    | some top => if next.1.beats top.1 then some next else best

/-- The best repair, if one is good enough.  The stack after the last match is tried second, where
it differs: it still holds what vanished in view of the wrong token. -/
def repair? (setting : Setting) (s : State) : Option Repair :=
  let judged (fromCheckpoint : Bool) (stack : List Item) : List (Score × Repair) :=
    (candidates setting s fromCheckpoint stack).map fun r => (score setting s stack r, r)
  let all := judged false s.stack ++ if s.checkpoint = s.stack then [] else judged true s.checkpoint
  (all.foldl better none).map (·.2)

/-- The state after a repair.  Open nodes stay as they are, as no tree follows an error. -/
def State.apply (s : State) (r : Repair) : State :=
  { s with
    stack := if r.fromCheckpoint then s.checkpoint else s.stack
    ahead := if r.skip then s.ahead.tail else s.ahead
    inserted := r.insert }

/-! ### Cutting the stack -/

/-- The stack cut down to an item that can go on with a lookahead, and how many ends of productions
were cut off.  A nonterminal that the lookahead may follow is cut off as if it were complete. -/
def syncPoint? (setting : Setting) (a : Lookahead) : List Item → Option (Nat × List Item)
  | [] => none
  | .terminal kind :: rest =>
    if a = .token kind then some (0, .terminal kind :: rest) else syncPoint? setting a rest
  | .nonterminal n :: rest =>
    if (setting.tables.select? n a).isSome then some (0, .nonterminal n :: rest)
    -- `n` is taken as complete, although nothing of it was found
    else if setting.tables.follows a n then some (0, rest)
    else syncPoint? setting a rest
  | .bottom :: rest =>
    if a = .atEnd then some (0, .bottom :: rest) else syncPoint? setting a rest
  | .endOfProduction :: rest =>
    (syncPoint? setting a rest).map fun (ends, kept) => (ends + 1, kept)

/-- Looks for a place to go on, passing over at most `attempts` tokens. -/
def recover? (setting : Setting) : Nat → State → Option State
  | attempts, s =>
    match syncPoint? setting s.lookahead s.stack with
    | some (ends, kept) => some { s.closeNodes ends with stack := kept, checkpoint := kept }
    | none =>
      match s.ahead, attempts with
      | _ :: ahead, attempts + 1 => recover? setting attempts { s with ahead }
      | _, _ => none

end Bistro.Parse
