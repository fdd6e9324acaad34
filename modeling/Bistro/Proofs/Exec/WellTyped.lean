import Bistro.Proofs.Exec.Traced

/-!
# Runs stay well typed

Every change that a run makes keeps the scopes well typed, so they are well typed in every state
that a run passes through.  An array then always has as many elements as it was declared with: an
element is found exactly at the indices of its dimension, and nothing is ever stored beside it.

## Main definitions

* `Program.Reaches` — the states of a run.
* `Exec.Slot.Inside`, `Exec.StoresInside` — where an assignment to an element stores.
* `Exec.ReadsInside` — what a look at an element of an array gives.

## Main results

* `Machine.Change.wellTyped` — one change keeps the scopes well typed.
* `Program.Reaches.wellTyped` — so does a run.
* `Exec.storesInside_assign`, `Exec.readsInside_readElement` — arrays are used within their bounds.
* `Exec.run_well_typed` — **all of this in every state of every run.**
-/

namespace Bistro

/-! ### Changes keep scopes well typed -/

theorem Binding.Accepts.wellTyped {b : Binding} {v : Value} (h : b.Accepts v) :
    (b.withValue v).WellTyped := by
  unfold Binding.Accepts at h
  show Binding.WellTyped { b with value := some v }
  unfold Binding.WellTyped
  split at h
  · next type hkind =>
    simp only [hkind]
    intro w hw
    obtain rfl := Option.some.inj hw
    exact h
  · next element dimension hkind =>
    simp only [hkind]
    obtain ⟨items, rfl, hlength, hitems⟩ := h
    exact ⟨items, rfl, hlength, hitems⟩
  · exact h.elim

theorem Binding.WellTyped.exists_items {b : Binding} {element : ValueType} {dimension : Nat}
    (h : b.WellTyped) (hkind : b.kind = .array element dimension) :
    ∃ items, b.value = some (.recipe items) ∧ items.length = dimension ∧
      ∀ v ∈ items, v.type = element := by
  simpa only [Binding.WellTyped, hkind] using h

theorem wellTyped_replaceElement {b : Binding} {element : ValueType} {dimension : Nat} {v : Value}
    (h : b.WellTyped) (hkind : b.kind = .array element dimension) (hv : v.type = element)
    (index : Nat) : (Exec.replaceElement index v b).WellTyped := by
  obtain ⟨items, hvalue, hlength, hitems⟩ := h.exists_items hkind
  have heq : Exec.replaceElement index v b = b.withValue (.recipe (items.set index v)) := by
    rw [Exec.replaceElement, hvalue]
  rw [heq]
  apply Binding.Accepts.wellTyped
  rw [Binding.Accepts, hkind]
  refine ⟨items.set index v, rfl, by simpa using hlength, fun x hx => ?_⟩
  rcases List.mem_or_eq_of_mem_set hx with hx | rfl
  · exact hitems x hx
  · exact hv

theorem isFunction_replaceElement (index : Nat) (v : Value) (b : Binding) :
    (Exec.replaceElement index v b).isFunction = b.isFunction := by
  unfold Exec.replaceElement
  split <;> rfl

/-- One change of a run keeps the scopes well typed. -/
theorem Machine.Change.wellTyped {m m' : Machine} (h : Machine.Change m m')
    (hm : m.scopes.WellTyped) : m'.scopes.WellTyped := by
  cases h with
  | findings diagnostics => exact hm
  | output output => exact hm
  | input input => exact hm
  | calls callDepth => exact hm
  | mark name => exact hm.adjust fun b _ hb => ⟨hb.marked, rfl⟩
  | store hb hv =>
    refine hm.adjust fun b' hb' _ => ?_
    -- the name still resolves to the binding that the value was checked for
    obtain rfl := Option.some.inj (hb.symm.trans hb')
    exact ⟨hv.wellTyped, rfl⟩
  | element hb hkind hitems hindex hv =>
    refine hm.adjust fun b' hb' htyped => ?_
    obtain rfl := Option.some.inj (hb.symm.trans hb')
    exact ⟨wellTyped_replaceElement htyped hkind hv _, isFunction_replaceElement _ _ _⟩
  | declare h hb hf => exact hm.declare hb hf h
  | function h => exact hm.declareGlobal (b := .function _) rfl h
  | push kind link => exact hm.push kind link
  | pop h => exact hm.pop h

theorem Machine.Leads.wellTyped {m m' : Machine} (h : Machine.Leads m m')
    (hm : m.scopes.WellTyped) : m'.scopes.WellTyped := by
  induction h with
  | refl => exact hm
  | tail _ hchange ih => exact hchange.wellTyped ih

/-- A state of a run of a program on the given input. -/
def Program.Reaches (limits : Limits) (p : Program) (input : Input) (m : Machine) : Prop :=
  m = .initial input ∨ (Exec.runProgram limits p).passes (.initial input) m

theorem Program.reaches_run (limits : Limits) (p : Program) (input : Input) :
    p.Reaches limits input (p.run limits input) :=
  (Exec.runProgram limits p).passes_end (.initial input)

/-- The scopes of every state of a run are well typed. -/
theorem Program.Reaches.wellTyped {limits : Limits} {p : Program} {input : Input} {m : Machine}
    (h : p.Reaches limits input m) : m.scopes.WellTyped := by
  -- the state before the run, or one that is passed through
  rcases h with rfl | hpass
  · exact ScopeStack.WellTyped.initial
  · have hlead := (Exec.Traced.runProgram limits p).leads hpass
    exact hlead.wellTyped ScopeStack.WellTyped.initial

namespace Exec

/-! ### Elements -/

/-- The elements of an array are those at the indices of its dimension. -/
theorem elementAt?_eq_none_iff {items : List Value} {index : Int} :
    elementAt? (some (.recipe items)) index = none ↔ index < 0 ∨ items.length ≤ index := by
  rw [elementAt?]
  split
  · next hneg => simp [hneg]
  · next hneg =>
    rw [List.getElem?_eq_none_iff]
    omega

/-- A slot is that of an element inside the array that a name stands for. -/
def Slot.Inside (scopes : ScopeStack) (name : String) (index : Int) (slot : Slot) : Prop :=
  ∃ b element items current, slot = .element element index.toNat current ∧
    scopes.peek? name = some b ∧ b.kind = .array element items.length ∧
    b.value = some (.recipe items) ∧ 0 ≤ index ∧ index.toNat < items.length

/-- What filling a slot leaves of the scopes: it stores nothing, or it replaces an element inside
the array that the name stands for by one of the same type. -/
def FillsInside (name : String) (index : Int) (before after : ScopeStack) : Prop :=
  after = before ∨ ∃ b element items next, before.peek? name = some b ∧
    b.kind = .array element items.length ∧ b.value = some (.recipe items) ∧
    0 ≤ index ∧ index.toNat < items.length ∧ next.type = element ∧
    after = before.adjust name (replaceElement index.toNat next)

/-- An assignment to an element stores inside the array that the name stands for.  A list would take
a store beside its end without a change, so that what is left does not tell where it was: the slot
has to be inside before it is filled. -/
structure StoresInside (limits : Limits) (name : String) (index : Int) (line : Nat) (m : Machine) :
    Prop where
  /-- The scopes in which the slot is filled: the name was looked up. -/
  scopes : ((resolveSlot (.element name index) line).run m).2.scopes = (m.scopes.lookup name).2
  /-- Every slot that is filled is inside the array as it is then. -/
  slot : ∀ slot, ((resolveSlot (.element name index) line).run m).1 = some slot →
    slot.Inside (m.scopes.lookup name).2 name index
  /-- What is left of the scopes, whatever is stored. -/
  fills : ∀ op v, FillsInside name index (m.scopes.lookup name).2
    ((assign limits (.element name index) op v line).run m).2.scopes

variable {σ : ScopeStack}

/-- A step that only reports keeps the scopes as they are. -/
theorem OnlyReports.triple_scopes {α : Type} {x : Exec α} (h : OnlyReports x) :
    Triple (fun _ => True) (·.scopes = σ) x fun _ m => m.scopes = σ := by
  rintro m rfl
  obtain ⟨d, hd⟩ := h.run m
  refine ⟨fun _ _ => trivial, ?_⟩
  rw [hd]

/-- The slot of an element is inside the array that the name stands for. -/
theorem triple_resolveSlot_element (hσ : σ.WellTyped) (name : String) (index : Int) (line : Nat) :
    Triple (fun _ => True) (·.scopes = σ) (resolveSlot (.element name index) line) fun r m =>
      m.scopes = (σ.lookup name).2 ∧
        ∀ slot, r = some slot → slot.Inside (σ.lookup name).2 name index := by
  have htyped : (σ.lookup name).2.WellTyped := hσ.adjust fun b _ hb => ⟨hb.marked, rfl⟩
  have hlookup : Triple (fun _ => True) (·.scopes = σ) (lookup name) fun r m =>
      m.scopes = (σ.lookup name).2 ∧ m.scopes.peek? name = r := by
    refine Triple.modifyGet fun m hm => ⟨trivial, ?_⟩
    rw [hm]
    exact ⟨rfl, rfl⟩
  have hreject : ∀ f : Finding, Triple (fun _ => True) (·.scopes = (σ.lookup name).2)
      (reject f line : Exec (Option Slot)) fun r m => r = none ∧ m.scopes = (σ.lookup name).2 :=
    fun f => (OnlyReports.reject f line).triple_scopes.and_result fun _ => rfl
  refine (triple_resolveSlot (.element name index) line hlookup hreject).mono (fun _ hm => hm) ?_
  rintro r m ⟨hm, hslot⟩
  refine ⟨hm, fun slot heq => ?_⟩
  obtain ⟨b, hb, hof, hindex, element, current, rfl⟩ := hslot slot heq
  obtain ⟨dimension, items, hkind, hitems, hlt⟩ := hof
  rw [hm] at hb
  -- the array is well typed, so that its dimension is the number of its elements
  obtain ⟨items', hitems', hlength, -⟩ := (htyped.peek? hb).exists_items hkind
  obtain rfl := Value.recipe.inj (Option.some.inj (hitems.symm.trans hitems'))
  exact ⟨b, element, items, current, rfl, hb, hlength ▸ hkind, hitems, hindex, hlt⟩

/-- What is stored in such a slot is of the type of the elements. -/
theorem triple_fillSlot_element (limits : Limits) (name : String) (index : Int) (op : AssignOp)
    (v : Value) (line : Nat) {slot : Slot} (hslot : slot.Inside σ name index) :
    Triple (fun _ => True) (·.scopes = σ) (fillSlot limits name op v line slot) fun _ m =>
      FillsInside name index σ m.scopes := by
  obtain ⟨b, element, items, current, rfl, hb, hkind, hitems, hindex, hlt⟩ := hslot
  refine (OnlyReports.combine limits op _ v name line).triple_scopes.bind fun r => ?_
  split
  · next next =>
    have hcheck : Triple (fun _ => True) (·.scopes = σ)
        (checkType element next (.elementAssignment name index.toNat) line)
        fun r m => (∀ w, r = some w → w.type = element) ∧ m.scopes = σ :=
      (OnlyReports.checkType _ _ _ _).triple_scopes.and_result (checkType_type _ _ _ _)
    refine hcheck.bind fun r => ?_
    split
    · next next =>
      refine Triple.modify fun m hm => ⟨trivial, .inr ?_⟩
      obtain ⟨htype, rfl⟩ := hm
      exact ⟨b, element, items, next, hb, hkind, hitems, hindex, hlt, htype next rfl, rfl⟩
    · exact Triple.pure fun m hm => .inl hm.2
  · exact Triple.pure fun m hm => .inl hm

theorem fillsInside_assign (limits : Limits) {m : Machine} (hm : m.scopes.WellTyped)
    (name : String) (index : Int) (op : AssignOp) (v : Option Value) (line : Nat) :
    FillsInside name index (m.scopes.lookup name).2
      ((assign limits (.element name index) op v line).run m).2.scopes := by
  suffices h : Triple (fun _ => True) (·.scopes = m.scopes)
      (assign limits (.element name index) op v line) fun _ n =>
        FillsInside name index (m.scopes.lookup name).2 n.scopes from (h m rfl).2
  refine (triple_resolveSlot_element hm name index line).bind fun r => ?_
  split
  · next slot =>
    split
    · next v =>
      rintro n ⟨hn, hslot⟩
      exact triple_fillSlot_element limits name index op v line (hslot slot rfl) n hn
    · exact Triple.pure fun n hn => .inl hn.1
  · exact Triple.pure fun n hn => .inl hn.1

/-- **An assignment to an element stores nothing beside the array.** -/
theorem storesInside_assign (limits : Limits) {m : Machine} (hm : m.scopes.WellTyped)
    (name : String) (index : Int) (line : Nat) : StoresInside limits name index line m := by
  obtain ⟨-, hscopes, hslot⟩ := triple_resolveSlot_element hm name index line m rfl
  exact ⟨hscopes, hslot, fun op v => fillsInside_assign limits hm name index op v line⟩

/-- A look at an element of an array gives nothing exactly at an index outside of it, and then tells
so; otherwise it gives a value of the type of the elements and reports nothing. -/
structure ReadsInside (name : String) (index : Int) (line : Nat) (element : ValueType)
    (dimension : Nat) (m : Machine) (r : Option Value × Machine) : Prop where
  /-- When it gives nothing. -/
  fails_iff : r.1 = none ↔ index < 0 ∨ dimension ≤ index
  /-- What is reported then. -/
  reports : r.1 = none → ∃ d : Diagnostic, d.kind = .arrayOutOfBounds ∧
    d = (Finding.outOfBounds name index dimension).onLine line ∧
    r.2.diagnostics = m.diagnostics.push d
  /-- What it gives otherwise. -/
  gives : ∀ v, r.1 = some v → v.type = element ∧ r.2.diagnostics = m.diagnostics

theorem readsInside_readElement {m : Machine} (hm : m.scopes.WellTyped) {name : String}
    {b : Binding} {element : ValueType} {dimension : Nat} (hb : m.scopes.peek? name = some b)
    (hkind : b.kind = .array element dimension) (index : Int) (line : Nat) :
    ReadsInside name index line element dimension m ((readElement name index line).run m) := by
  obtain ⟨items, hitems, rfl, htypes⟩ := (hm.peek? hb).exists_items hkind
  -- looking the name up marks its binding, which stays an array with the same elements
  have hlookup : (m.scopes.lookup name).1 = some b.marked := by
    have := ScopeStack.peek?_adjust Binding.marked name m.scopes
    rwa [hb] at this
  have hmarked : b.marked.kind = .array element items.length := hkind
  have hvalue : b.marked.value = some (.recipe items) := hitems
  have houtside : elementAt? (some (.recipe items)) index = none ↔
      index < 0 ∨ items.length ≤ index := elementAt?_eq_none_iff
  unfold readElement
  rw [run_bind, run_lookup, hlookup]
  simp only [hmarked, hvalue]
  cases hitem : elementAt? (some (.recipe items)) index with
  | none =>
    have hbeyond := houtside.1 hitem
    refine ⟨⟨fun _ => hbeyond, fun _ => rfl⟩, fun _ => ⟨_, rfl, rfl, rfl⟩, fun v hv => ?_⟩
    cases hv
  | some v =>
    have hwithin : ¬ (index < 0 ∨ items.length ≤ index) := by simp [← houtside, hitem]
    refine ⟨⟨fun h => ?_, fun h => absurd h hwithin⟩, fun h => ?_, fun w hw => ?_⟩
    · cases h
    · cases h
    · obtain rfl := Option.some.inj hw
      obtain ⟨items', hvalue, -, hget⟩ := elementAt?_eq_some hitem
      obtain rfl := Value.recipe.inj (Option.some.inj hvalue)
      exact ⟨htypes v (List.mem_of_getElem? hget), rfl⟩

/-! ### Runs -/

/-- **In every state of a run of any program the scopes are well typed.**  So the slot that an
assignment to an element fills is always inside the array, and reading an element of an array fails
exactly at an index outside of it. -/
theorem run_well_typed (limits : Limits) (p : Program) (input : Input) (m : Machine)
    (hm : p.Reaches limits input m) :
    m.scopes.WellTyped ∧
      (∀ name index line, StoresInside limits name index line m) ∧
      ∀ name b element dimension, m.scopes.peek? name = some b →
        b.kind = .array element dimension → ∀ index line,
          ReadsInside name index line element dimension m
            ((readElement name index line).run m) := by
  have htyped := hm.wellTyped
  refine ⟨htyped, fun name index line => ?_, fun name b element dimension hb hkind => ?_⟩
  · exact storesInside_assign limits htyped name index line
  · exact readsInside_readElement htyped hb hkind

/-- A program that fills a tray of two. -/
def trayProgram : Program where
  globals := [.array ⟨.pinch, "tray", "2", none, 1⟩]
  functions := []
  locals := []
  body := [.assign (.element "tray" 1) .assign (.literal (.pinch 7) 2) 2]
  exitCode := 0
  exitLine := 3

/-- The slot of the second element is inside the tray, and there is no third one to be read. -/
theorem run_well_typed_tray :
    let m := trayProgram.run .standard (.ofAnswers [])
    (∃ slot, ((resolveSlot (.element "tray" 1) 4).run m).1 = some slot ∧
      slot.Inside (m.scopes.lookup "tray").2 "tray" 1) ∧
    ((readElement "tray" 2 4).run m).1 = none := by
  intro m
  obtain ⟨-, hstores, hreads⟩ :=
    run_well_typed .standard trayProgram (.ofAnswers []) m (trayProgram.reaches_run _ _)
  have htray := hreads "tray"
    ⟨"tray", .array .pinch 2, some (.recipe [.pinch 0, .pinch 7]), true, 1⟩ .pinch 2 rfl rfl 2 4
  exact ⟨⟨_, rfl, (hstores "tray" 1 4).slot _ rfl⟩, htray.fails_iff.2 (by decide)⟩

end Exec

end Bistro
