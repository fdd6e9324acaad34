import Bistro.Proofs.Exec.Small
import Bistro.Proofs.Number.Shortest
import Bistro.Proofs.Parse.Lines
import Bistro.Proofs.Program.OfTree

/-!
# Integers stay in the range of nine digits

In a run of a program that comes from a source text, with the integers permitted that are permitted
unless others are chosen, every integer has at most nine digits.  So no operation on integers leaves
the range of words, and the report that one did is never made: not even one of fractional numbers
reads like it.

## Main results

* `Machine.Small.overflow_notMem` — the report of an overflow of integers is not recorded.
* `Program.integers_stay_small` — **integers stay in the range of nine digits.**
-/

namespace Bistro

/-! ### Reports of overflows -/

/-- Two rows of characters are cut alike at the first blank. -/
theorem append_blank_inj {l l' r r' : List Char} (hl : ' ' ∉ l) (hl' : ' ' ∉ l')
    (h : l ++ ' ' :: r = l' ++ ' ' :: r') : l = l' ∧ r = r' := by
  induction l generalizing l' with
  | nil =>
    cases l' with
    | nil => exact ⟨rfl, (List.cons.inj h).2⟩
    | cons c l' => exact absurd (List.mem_cons.2 (.inl (List.cons.inj h).1)) hl'
  | cons c l ih =>
    cases l' with
    | nil => exact absurd (List.mem_cons.2 (.inl (List.cons.inj h).1.symm)) hl
    | cons c' l' =>
      obtain ⟨rfl, htail⟩ := List.cons.inj h
      obtain ⟨rfl, rfl⟩ := ih (fun hm => hl (List.mem_cons_of_mem _ hm))
        (fun hm => hl' (List.mem_cons_of_mem _ hm)) htail
      exact ⟨rfl, rfl⟩

theorem BinaryOp.symbol_inj {op op' : BinaryOp} (h : op.symbol = op'.symbol) : op = op' := by
  cases op <;> cases op' <;> first | rfl | exact absurd h (by decide)

theorem BinaryOp.blank_notMem_symbol (op : BinaryOp) : ' ' ∉ op.symbol.toList := by
  cases op <;> decide

/-- The report of an overflow tells the operator and the operands. -/
theorem Finding.overflow_inj {left left' right right' : String} {op op' : BinaryOp}
    {line line' : Nat} (hleft : ' ' ∉ left.toList) (hleft' : ' ' ∉ left'.toList)
    (h : (Finding.overflow left op right).onLine line =
      (Finding.overflow left' op' right').onLine line') :
    left = left' ∧ op = op' ∧ right = right' := by
  have hmessage : "Arithmetic overflow in " ++ left ++ " " ++ op.symbol ++ " " ++ right =
      "Arithmetic overflow in " ++ left' ++ " " ++ op'.symbol ++ " " ++ right' :=
    congrArg Diagnostic.message h
  simp only [String.append_assoc, String.append_right_inj] at hmessage
  have htexts := congrArg String.toList hmessage
  have hblank : " ".toList = [' '] := by decide
  simp only [String.toList_append, hblank, List.singleton_append] at htexts
  obtain ⟨hl, hrest⟩ := append_blank_inj hleft hleft' htexts
  obtain ⟨hop, hr⟩ := append_blank_inj op.blank_notMem_symbol op'.blank_notMem_symbol hrest
  exact ⟨String.toList_injective hl, BinaryOp.symbol_inj (String.toList_injective hop),
    String.toList_injective hr⟩

/-- The other report of the same kind begins otherwise. -/
theorem Finding.overflow_ne_outOfRange (left right : String) (op : BinaryOp) (n : Int)
    (range : IntegerRange) (line line' : Nat) :
    (Finding.overflow left op right).onLine line ≠ (Finding.outOfRange n range).onLine line' := by
  intro h
  have hmessage : "Arithmetic overflow in " ++ left ++ " " ++ op.symbol ++ " " ++ right =
      "Integer result " ++ n.repr ++ " is outside the range " ++ range.low.repr ++ "..=" ++
        range.high.repr := congrArg Diagnostic.message h
  simp only [String.append_assoc] at hmessage
  have hfirst : ∀ (s t : String) (c : Char), s.toList.head? = some c →
      (s ++ t).toList.head? = some c := by
    intro s t c hc
    rw [String.toList_append, List.head?_append, hc]
    rfl
  have hhead := congrArg (fun text => text.toList.head?) hmessage
  rw [hfirst _ _ 'A' (by decide), hfirst _ _ 'I' (by decide)] at hhead
  exact absurd hhead (by decide)

/-- The operators of arithmetic. -/
def BinaryOp.arithmetic : List BinaryOp := [.add, .sub, .mul, .div, .mod]

/-- An operation on fractional numbers that are written like integers does not overflow. -/
theorem Exec.isFinite_fractionResult {op : BinaryOp} (hop : op ∈ BinaryOp.arithmetic)
    {x y : Binary64} {a b : Int} (ha : Number.fits a = true) (hb : Number.fits b = true)
    (hx : Decimal.render x = a.repr) (hy : Decimal.render y = b.repr)
    (hzero : (divides op && y.isZero) = false) :
    (fractionResult op x y).isFinite = true := by
  have hx := Decimal.moderate_of_render ha hx
  have hy' := Decimal.moderate_of_render hb hy
  simp only [BinaryOp.arithmetic, List.mem_cons, List.not_mem_nil, or_false] at hop
  rcases hop with rfl | rfl | rfl | rfl | rfl
  · exact hx.isFinite_add hy'
  · exact hx.isFinite_sub hy'
  · exact hx.isFinite_mul hy'
  · exact hx.isFinite_div hy' (Decimal.atLeastHalf_of_render hzero hy) hzero
  · exact hx.isFinite_rem hy' hzero

/-- **The report of an overflow of integers is not recorded.** -/
theorem Machine.Small.overflow_notMem {m : Machine} (hm : m.Small) {op : BinaryOp}
    (hop : op ∈ BinaryOp.arithmetic) {a b : Int} (ha : Number.fits a = true)
    (hb : Number.fits b = true) (line : Nat) :
    (Finding.overflow a.repr op b.repr).onLine line ∉ m.diagnostics.items := by
  intro hmem
  obtain ⟨f, line', heq, hf⟩ := hm.findings _ hmem
  have hkind : Diagnostic.Kind.arithmeticOverflow = f.kind := congrArg Diagnostic.kind heq
  cases f with
  | overflow left op' right =>
    obtain ⟨x, y, rfl, rfl, hzero, hinfinite⟩ := hf
    have hblank : ' ' ∉ a.repr.toList := by
      intro hmem
      rcases Decimal.mem_intRepr hmem with h | h <;> exact absurd h (by decide)
    obtain ⟨hx, rfl, hy⟩ := Finding.overflow_inj hblank (Decimal.blank_notMem_render x) heq
    rw [Exec.isFinite_fractionResult hop ha hb hx.symm hy.symm hzero] at hinfinite
    cases hinfinite
  | outOfRange n range => exact Finding.overflow_ne_outOfRange _ _ _ _ _ _ _ heq
  | argumentCount name expected given =>
    rw [Finding.kind] at hkind
    split at hkind <;> cases hkind
  | _ => cases hkind

namespace Program

open Exec

/-- The literals of a program that is made of the tokens of a source text are small. -/
theorem small_of_source {source : String} {tree : ParseTree} {p : Program} (hsound : tree.Sound)
    (htag : tree.tag = .nonterminal .program)
    (htokens : tree.tokens = (Scan.ofSource source).tokens) (hp : ofTree tree = .ok p) :
    ∀ w ∈ p.words, w.Small := by
  refine (written_of_ofTree hsound htag hp).small ?_
  rw [htokens]
  exact Scan.hasForm_tokens source

/-- **Integers stay in the range of nine digits.**  In every state of a run of a program that comes
from a source text, with the usual integers permitted, whatever the other limits and the input are,
and with any number of calls that may still be nested:

* the integers in the values of all bindings, which are variables, parameters and arrays, are in the
  range;
* the integers in the values of the expressions of the program are in the range;
* the integers in the results of its functions are in the range, if those in the arguments are.

On integers in that range each operation has a result that fits a word.  And whatever integers of a
word there are, the report that an operation on them overflowed is not recorded. -/
theorem integers_stay_small : ∃ tables, Language.tables = .ok tables ∧
    ∀ (source : String) (bounds : Limits),
      (Parse.ofTokens tables bounds (Scan.ofSource source).tokens).success = true →
      ∃ tree, (Parse.ofTokens tables bounds (Scan.ofSource source).tokens).tree = some tree ∧
        ∀ (p : Program) (limits : Limits) (input : Input), ofTree tree = .ok p →
          limits.integerRange = Limits.standard.integerRange →
          ∀ m, p.Reaches limits input m →
            m.scopes.All (fun b => ∀ v, b.value = some v → v.Small) ∧
            (∀ depth,
              (∀ e, e.words ⊆ p.words → ∀ v,
                ((evaluate limits (invoke limits depth) e).run m).1 = some v → v.Small) ∧
              ∀ f ∈ p.functions, ∀ line args, (∀ v, some v ∈ args → v.Small) → ∀ v,
                ((invoke limits depth f line args).run m).1 = some v → v.Small) ∧
            (∀ op a b, Number.Small a → Number.Small b → (integerResult op a b).isSome) ∧
            ∀ op ∈ BinaryOp.arithmetic, ∀ a b line, Number.fits a = true → Number.fits b = true →
              (Finding.overflow a.repr op b.repr).onLine line ∉ m.diagnostics.items := by
  obtain ⟨tables, htables, haccepted⟩ := Parse.exists_accepted_tree
  refine ⟨tables, htables, fun source bounds hsuccess => ?_⟩
  obtain ⟨tree, htree, htag, hsound, htokens⟩ := haccepted bounds _ hsuccess
  refine ⟨tree, htree, fun p limits input hp hlimits m hm => ?_⟩
  have hwords := small_of_source hsound htag htokens hp
  have hsmall := hm.small hlimits hwords
  have hcalls := modest_invoke hlimits
  refine ⟨hsmall.bindings.mono fun _ hb => hb.value, fun depth => ⟨fun e he => ?_, ?_⟩,
    fun op a b => isSome_integerResult op, ?_⟩
  · exact (finds_evaluate (hcalls depth) e (fun w hw => hwords w (he hw)) m hsmall).2.1
  · intro f hf line args hargs
    have hliterals : ∀ w ∈ f.words, w.Small := fun w hw => hwords w (p.words_function hf hw)
    exact ((hcalls depth).call line hliterals hargs m hsmall).2.1
  · exact fun op hop a b line ha hb => hsmall.overflow_notMem hop ha hb line

end Program

end Bistro
