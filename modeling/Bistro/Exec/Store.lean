import Bistro.Exec.Operators

/-!
# Storing values

Assignments, steps by one and input.  All checks come before the store, so a statement stores its
value or reports a finding and stores nothing.

## Main definitions

* `Text.isBlank`, `Text.trim` — white space, and texts without it at either end.
* `Exec.Slot`, `Exec.resolveSlot` — what an assignment stores into.
* `Exec.assign` — an assignment of a computed value.
* `Exec.takeStep` — a step by one.
* `Exec.readInput` — input into a variable.
-/

namespace Bistro

/-! ### White space -/

namespace Text

/-- The characters with the Unicode property White_Space, as ranges of code points. -/
def blankRanges : List (Nat × Nat) :=
  [(0x9, 0xD), (0x20, 0x20), (0x85, 0x85), (0xA0, 0xA0), (0x1680, 0x1680), (0x2000, 0x200A),
    (0x2028, 0x2029), (0x202F, 0x202F), (0x205F, 0x205F), (0x3000, 0x3000)]

/-- Whether a character is white space. -/
def isBlank (c : Char) : Bool := blankRanges.any fun (low, high) => low ≤ c.toNat && c.toNat ≤ high

/-- A row of characters without white space at its ends. -/
def trimChars (cs : List Char) : List Char :=
  ((cs.dropWhile isBlank).reverse.dropWhile isBlank).reverse

/-- A text without white space at its ends. -/
def trim (s : String) : String := String.ofList (trimChars s.toList)

end Text

namespace Exec

/-! ### Assignments -/

/-- What an assignment stores into, with the former value. -/
inductive Slot
  /-- A variable. -/
  | scalar (target : ValueType) (current : Option Value)
  /-- A whole array. -/
  | whole (element : ValueType) (dimension : Nat)
  /-- An element of an array. -/
  | element (element : ValueType) (index : Nat) (current : Value)
  deriving Repr, Inhabited

/-- Finds what an assignment stores into. -/
def resolveSlot (target : Place) (line : Nat) : Exec (Option Slot) := do
  match ← lookup target.name with
  | none => reject (.assignUndeclared target.name) line
  | some b =>
    match target, b.kind with
    | .var _, .scalar type => return some (.scalar type b.value)
    | .var _, .array element dimension => return some (.whole element dimension)
    | .var name, .function _ => reject (.assignFunction name) line
    | .element name index, .array element dimension =>
      match elementAt? b.value index with
      | some current => return some (.element element index.toNat current)
      | none => reject (.outOfBounds name index dimension) line
    | .element name _, _ => reject (.notAnArray name) line

/-- The value to be stored: the given one, or the former one with an operator applied to it. -/
def combine (limits : Limits) (op : AssignOp) (current : Option Value) (v : Value) (name : String)
    (line : Nat) : Exec (Option Value) :=
  match op.binary? with
  | none => return some v
  | some binary =>
    match current with
    | none => reject (.unset name) line
    | some current => applyBinary limits binary current v line

/-- The array with an element replaced. -/
def replaceElement (index : Nat) (v : Value) (b : Binding) : Binding :=
  match b.value with
  | some (.recipe items) => b.withValue (.recipe (items.set index v))
  | _ => b

/-- Whether a value can be stored as a whole array. -/
def fitsArray (element : ValueType) (dimension : Nat) : Value → Bool
  | .recipe items => items.length = dimension && items.all (·.fitsType element)
  | _ => false

/-- Stores a value in a slot of `name`. -/
def fillSlot (limits : Limits) (name : String) (op : AssignOp) (v : Value) (line : Nat) :
    Slot → Exec Unit
  | .scalar target current => do
    let some next ← combine limits op current v name line | return
    let some next ← checkType target next (.assignment name) line | return
    store name next
  | .whole element dimension =>
    -- no operator applies to arrays, so a whole array can only be replaced
    if op = .assign && fitsArray element dimension v then store name v
    else
      let declared := Binding.Kind.array element dimension
      report (.mismatch (.assignment name) v.type declared.describe) line
  | .element element index current => do
    let some next ← combine limits op (some current) v name line | return
    let some next ← checkType element next (.elementAssignment name index) line | return
    modify fun m => { m with scopes := m.scopes.adjust name (replaceElement index next) }

/-- Assigns a computed value. -/
def assign (limits : Limits) (target : Place) (op : AssignOp) (v : Option Value) (line : Nat) :
    Exec Unit := do
  -- a wrong target is reported even if there is no value to store
  let some slot ← resolveSlot target line | return
  let some v := v | return
  fillSlot limits target.name op v line slot

/-! ### Steps -/

/-- Takes a step with a variable.  Tells whether it was taken. -/
def takeStep (limits : Limits) (name : String) (op : StepOp) (line : Nat) : Exec Bool := do
  match ← lookup name with
  | none =>
    report (.undeclared name) line
    return false
  | some b =>
    match b.kind, b.value with
    | .scalar target, some current =>
      if !current.isNumeric then
        report (.stepOfType op name current.type) line
        return false
      -- one is an integer here; beside a fractional number it is converted
      let some next ← applyBinary limits op.binary current (.pinch 1) line | return false
      let some next ← checkType target next (.update name) line | return false
      store name next
      return true
    | .scalar _, none =>
      report (.unset name) line
      return false
    | kind, _ =>
      report (.stepOfKind op name kind.describe) line
      return false

/-! ### Input -/

/-- The value of a type that a text spells.  Integers must be in the permitted range and fractional
numbers finite; a text stands for itself. -/
def readInput? (type : ValueType) (text : String) (range : IntegerRange) : Option Value :=
  match type with
  | .pinch => ((Number.readInteger? (Text.trim text)).filter range.contains).map .pinch
  | .skim => ((Decimal.read? (Text.trim text)).filter Binary64.isFinite).map .skim
  | .pasta => some (.pasta text)
  | .bool =>
    if Text.trim text = "yum" then some (.bool true)
    else if Text.trim text = "bleh" then some (.bool false)
    else none
  | .recipe => none

/-- Asks for the value of a name. -/
def ask (name : String) : Exec (Option String) :=
  modifyGet fun m =>
    let (answer, input) := m.input.ask name
    (answer, { m with input })

/-- Reads input into a variable. -/
def readInput (limits : Limits) (name : String) (line : Nat) : Exec Unit := do
  match ← lookup name with
  | none => report (.undeclared name) line
  | some b =>
    match b.kind with
    | .scalar type =>
      match ← ask name with
      | none => report (.inputCancelled name) line
      | some text =>
        match readInput? type text limits.integerRange with
        | some v => store name v
        | none => report (.invalidInput name type (Text.trim text)) line
    | kind => report (.inputOfKind name kind.describe) line

end Exec

end Bistro
