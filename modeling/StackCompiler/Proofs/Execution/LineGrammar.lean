import StackCompiler.Proofs.Execution.Wording
import StackCompiler.Proofs.Scanning.Places

/-!
# The grammar of code lines

`Line.Denotes` is the language of code lines, made without a word about how instructions are
written: nine words for the operations and one for halting, three words in front of a number or a
name, two in front of a label, and the label lines. A number has no needless zeros, and a name is
one of the source language and no keyword of it.

A line denotes one instruction at most (`Line.Denotes.unique`), since `Line.instr?` reads it: a line
of one word with a colon at its end is a label, and the first word of any other line tells what
stands behind it. So variables may be called `L0` or `HALT`. The number of a literal or a label is
written by the digits that are read as this number (`isCanonical_toDigits`,
`decimalValue_toDigits`).
-/

set_option autoImplicit false
set_option relaxedAutoImplicit false

namespace StackCompiler

open Scanning

/-! ### Numbers in base ten -/

/-- A numeral that does not begin with a needless zero. -/
def IsCanonical (digits : List Char) : Prop :=
  IsNumeral digits ∧ (digits.head? = some '0' → digits = ['0'])

theorem natOfDigits_toDigits (n : Nat) : natOfDigits (Nat.toDigits 10 n) = n :=
  Nat.ofDigitChars_ten_toDigits

theorem decimalValue_toDigits (n : Nat) : decimalValue (Nat.toDigits 10 n) = n := by
  rw [← natOfDigits_eq, natOfDigits_toDigits]

theorem isCanonical_toDigits (n : Nat) : IsCanonical (Nat.toDigits 10 n) := by
  refine ⟨⟨Nat.toDigits_ne_nil, fun c hc ↦ ?_⟩, fun hzero ↦ ?_⟩
  · exact (isDigit_iff c).mp (Nat.isDigit_of_mem_toDigits (by decide) (by decide) hc)
  · induction n using Nat.strong_induction_on with
    | _ n ih =>
      by_cases hn : n < 10
      · rw [Nat.toDigits_of_lt_base hn] at hzero ⊢
        simpa using hzero
      · -- the digits begin with those of a tenth, which is not zero
        rw [Nat.toDigits_of_base_le (by decide) (by omega),
          List.head?_append_of_ne_nil _ Nat.toDigits_ne_nil] at hzero
        have htenth := congrArg natOfDigits (ih (n / 10) (by omega) hzero)
        rw [natOfDigits_toDigits] at htenth
        exact absurd (show n / 10 = 0 from htenth) (by omega)

/-! ### The language of lines -/

/-- The words of the operations. -/
def operationWords : List (String × Operation) :=
  [("ADD", .add), ("SUB", .sub), ("MULT", .mult), ("DIV", .div), ("AND", .and), ("OR", .or),
    ("EQ", .equal), ("LT", .less), ("GT", .greater)]

/-- A name of the source language. -/
def IsVariableName (name : String) : Prop :=
  IsName name.toList ∧ ∀ kind, (name, kind) ∉ TokenKind.keywords

namespace Line

/-- A line of code denotes an instruction. -/
inductive Denotes : String → Instr → Prop
  | operation {word : String} {operation : Operation} (h : (word, operation) ∈ operationWords) :
      Denotes word (.apply operation)
  | halt : Denotes "HALT" .halt
  | push {digits : List Char} (h : IsCanonical digits) :
      Denotes ("LOADL " ++ String.ofList digits) (.push (some (.int (decimalValue digits))))
  | load {name : String} (h : IsVariableName name) : Denotes ("LOAD " ++ name) (.load name)
  | store {name : String} (h : IsVariableName name) : Denotes ("STORE " ++ name) (.store name)
  | jump {digits : List Char} (h : IsCanonical digits) :
      Denotes ("JUMP " ++ String.ofList ('L' :: digits)) (.jump (decimalValue digits))
  | jumpIfZero {digits : List Char} (h : IsCanonical digits) :
      Denotes ("JUMPIF(0) " ++ String.ofList ('L' :: digits)) (.jumpIfZero (decimalValue digits))
  | label {digits : List Char} (h : IsCanonical digits) :
      Denotes (String.ofList ('L' :: digits ++ [':'])) (.label (decimalValue digits))

/-! ### Reading a line -/

/-- The first word of a line. -/
def word (line : String) : String :=
  String.ofList (line.toList.takeWhile (· != ' '))

/-- The instruction that a word and an operand are read as. The operand is not checked. -/
def instrOf? (word behind : String) : Option Instr :=
  match word with
  | "HALT" => some .halt
  | "LOADL" => some (.push (some (.int (natOfDigits behind.toList))))
  | "LOAD" => some (.load behind)
  | "STORE" => some (.store behind)
  | "JUMP" => some (.jump (natOfDigits behind.toList.tail))
  | "JUMPIF(0)" => some (.jumpIfZero (natOfDigits behind.toList.tail))
  | other => (operationWords.lookup other).map .apply

/-- The instruction that a line is read as. -/
def instr? (line : String) : Option Instr :=
  if isLabel line then some (.label (natOfDigits line.toList.tail.dropLast))
  else instrOf? (word line) (operand line)

/-- A word with a blank is followed by its operand. -/
theorem instr?_append {front : String} (hfront : front.toList.dropWhile (· != ' ') = [' '])
    (behind : String) : instr? (front ++ behind) = instrOf? (word front) behind := by
  have hblank : ' ' ∈ front.toList :=
    List.dropWhile_subset (· != ' ') (hfront ▸ List.mem_singleton_self _)
  have hword : word (front ++ behind) = word front := by
    rw [word, word, String.toList_append, List.takeWhile_append, if_neg]
    intro hlength
    have hwhole := List.takeWhile_append_dropWhile (p := (· != ' ')) (l := front.toList)
    rw [hfront] at hwhole
    have hsum := congrArg List.length hwhole
    simp only [List.length_append, List.length_singleton] at hsum
    omega
  rw [instr?, if_neg (Instr.not_isLabel_append hblank behind), hword, Instr.operand_append hfront]

/-- A line is read as the instruction that it denotes. -/
theorem Denotes.instr? {line : String} {instruction : Instr} (h : Denotes line instruction) :
    Line.instr? line = some instruction := by
  have hoperations : ∀ entry ∈ operationWords, Line.instr? entry.1 = some (.apply entry.2) := by
    decide +kernel
  cases h with
  | operation h => exact hoperations (_, _) h
  | halt => decide
  | push h =>
    rw [instr?_append (by decide), (by decide : word "LOADL " = "LOADL"), instrOf?,
      String.toList_ofList, natOfDigits_eq]
  | load h => rw [instr?_append (by decide), (by decide : word "LOAD " = "LOAD"), instrOf?]
  | store h => rw [instr?_append (by decide), (by decide : word "STORE " = "STORE"), instrOf?]
  | jump h =>
    rw [instr?_append (by decide), (by decide : word "JUMP " = "JUMP"), instrOf?,
      String.toList_ofList, List.tail_cons, natOfDigits_eq]
  | jumpIfZero h =>
    rw [instr?_append (by decide), (by decide : word "JUMPIF(0) " = "JUMPIF(0)"), instrOf?,
      String.toList_ofList, List.tail_cons, natOfDigits_eq]
  | @label digits h =>
    have hlabel : isLabel (String.ofList ('L' :: digits ++ [':'])) = true := by
      have hblank : ' ' ∉ digits := fun hmem ↦ h.1.not_mem_blanks ' ' hmem (by decide)
      rw [isLabel, String.toList_ofList, List.getLast?_concat]
      simp [hblank]
    rw [Line.instr?, if_pos hlabel]
    simp [natOfDigits_eq]

/-- A line denotes one instruction at most. -/
theorem Denotes.unique {line : String} {first second : Instr} (h : Denotes line first)
    (hother : Denotes line second) : first = second :=
  Option.some.inj (h.instr?.symm.trans hother.instr?)

/-- A line holds something, and no line feed. -/
theorem Denotes.isLine {line : String} {instruction : Instr} (h : Denotes line instruction) :
    line ≠ "" ∧ '\n' ∉ line.toList := by
  have hoperations : ∀ entry ∈ operationWords, entry.1 ≠ "" ∧ '\n' ∉ entry.1.toList := by decide
  have hdigits {digits : List Char} (h : IsCanonical digits) : '\n' ∉ digits :=
    fun hmem ↦ h.1.not_mem_blanks '\n' hmem (by decide)
  have hname {name : String} (h : IsVariableName name) : '\n' ∉ name.toList := by
    have hreads : Reads name.toList _ := .name h.1 (by simpa using h.2)
    exact fun hmem ↦ hreads.not_mem_blanks '\n' hmem (by decide)
  cases h with
  | operation h => exact hoperations (_, _) h
  | halt => decide
  | push h | jump h | jumpIfZero h | label h => simp [hdigits h]
  | load h | store h => simp [hname h]

end Line

end StackCompiler
