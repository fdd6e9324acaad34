/-!
# Output

The texts that a run served, in order, each with the line of the statement that served it.
-/

namespace Bistro

/-- A served text. -/
structure OutputLine where
  text : String
  /-- The line of the statement. -/
  line : Nat
  deriving DecidableEq, Repr, Inhabited

/-- The output of a run. -/
structure Output where
  /-- What was served, the latest first. -/
  served : List OutputLine
  deriving DecidableEq, Repr, Inhabited

namespace Output

/-- Nothing was served yet. -/
def empty : Output := ⟨[]⟩

/-- Serves a text. -/
def serve (text : String) (line : Nat) (o : Output) : Output := ⟨⟨text, line⟩ :: o.served⟩

/-- What was served, in order. -/
def lines (o : Output) : List OutputLine := o.served.reverse

/-- The served texts, in order. -/
def texts (o : Output) : List String := o.lines.map (·.text)

/-- Whether nothing was served. -/
def isEmpty (o : Output) : Bool := o.served.isEmpty

@[simp] theorem lines_empty : empty.lines = [] := rfl

/-- A served text comes last. -/
@[simp] theorem lines_serve (text : String) (line : Nat) (o : Output) :
    (o.serve text line).lines = o.lines ++ [⟨text, line⟩] := by
  simp [lines, serve]

end Output

end Bistro
