import Mathlib.Data.List.Basic
import StackCompiler.Proofs.Execution.Layout

/-!
# The wording of code

What a reader of the text of code can tell about a line. A line of one word with a colon at its end
is a label, a line that begins with `JUMP` is a jump, and what it names stands behind the first
blank. The texts of instructions can be told apart in this way whatever the names of variables are
(`Instr.isLabel_text`, `Instr.isJump_text`, `Instr.text_eq_halt_iff`): a name stands behind a word
and a blank only.
-/

set_option autoImplicit false
set_option relaxedAutoImplicit false

namespace StackCompiler

/-! ### Lines -/

namespace Line

/-- A line of one word that ends with a colon. -/
def isLabel (line : String) : Bool :=
  !line.toList.contains ' ' && line.toList.getLast? == some ':'

/-- A line that begins with `JUMP`. -/
def isJump (line : String) : Bool :=
  ['J', 'U', 'M', 'P'].isPrefixOf line.toList

/-- What stands behind the first blank of a line. -/
def operand (line : String) : String :=
  String.ofList (line.toList.dropWhile (· != ' ')).tail

end Line

namespace Instr

/-! ### Labels by name -/

theorem toList_labelText (label : Label) :
    (labelText label).toList = 'L' :: Nat.toDigits 10 label := by
  rw [labelText, labelName]
  exact String.toList_append.trans (congrArg _ Nat.toList_repr)

theorem labelText_inj {first second : Label} :
    labelText first = labelText second ↔ first = second := by
  refine ⟨fun h ↦ ?_, fun h ↦ h ▸ rfl⟩
  have hdigits := congrArg String.toList h
  rw [toList_labelText, toList_labelText, List.cons.injEq] at hdigits
  have hread := congrArg (fun digits ↦ Nat.ofDigitChars 10 digits 0) hdigits.2
  simpa only [Nat.ofDigitChars_ten_toDigits] using hread

theorem blank_not_mem_labelText (label : Label) : ' ' ∉ (labelText label).toList := by
  rw [toList_labelText, List.mem_cons, not_or]
  refine ⟨by decide, fun hmem ↦ ?_⟩
  exact absurd (Nat.isDigit_of_mem_toDigits (by decide) (by decide) hmem) (by decide)

/-! ### Lines of instructions -/

theorem toList_text_label (mark : Label) :
    (label mark).text.toList = (labelText mark).toList ++ [':'] :=
  String.toList_append

/-- A line with a blank is no label. -/
theorem not_isLabel_append {word : String} (hword : ' ' ∈ word.toList) (behind : String) :
    ¬ Line.isLabel (word ++ behind) = true := by
  simp [Line.isLabel, String.toList_append, hword]

theorem isLabel_text {instruction : Instr} :
    Line.isLabel instruction.text = true ↔ ∃ mark, instruction = .label mark := by
  cases instruction with
  | push value =>
    refine iff_of_false ?_ (by rintro ⟨_, ⟨⟩⟩)
    cases value with
    | none => decide
    | some value => exact not_isLabel_append (by decide) value.text
  | load name | store name =>
    exact iff_of_false (not_isLabel_append (by decide) name) (by rintro ⟨_, ⟨⟩⟩)
  | apply operation =>
    refine iff_of_false ?_ (by rintro ⟨_, ⟨⟩⟩)
    cases operation <;> decide
  | jump target | jumpIfZero target =>
    exact iff_of_false (not_isLabel_append (by decide) (labelText target)) (by rintro ⟨_, ⟨⟩⟩)
  | label mark => simp [Line.isLabel, toList_text_label, blank_not_mem_labelText mark]
  | halt => exact iff_of_false (by decide) (by rintro ⟨_, ⟨⟩⟩)

/-- The first four characters of a line tell whether it is a jump. -/
theorem isJump_append {word : String} (hword : 4 ≤ word.toList.length) (behind : String) :
    Line.isJump (word ++ behind) = Line.isJump word := by
  have hprefix : ['J', 'U', 'M', 'P'] <+: word.toList ++ behind.toList ↔
      ['J', 'U', 'M', 'P'] <+: word.toList :=
    ⟨fun h ↦ List.prefix_of_prefix_length_le h (List.prefix_append ..) hword,
      fun h ↦ h.trans (List.prefix_append ..)⟩
  rw [Bool.eq_iff_iff, Line.isJump, Line.isJump, String.toList_append, List.isPrefixOf_iff_prefix,
    List.isPrefixOf_iff_prefix, hprefix]

theorem not_isJump_append {word : String} (hlength : 4 ≤ word.toList.length)
    (hword : ¬ Line.isJump word = true) (behind : String) :
    ¬ Line.isJump (word ++ behind) = true := by
  rwa [isJump_append hlength]

theorem isJump_text {instruction : Instr} :
    Line.isJump instruction.text = true ↔ ∃ target, instruction.target? = some target := by
  cases instruction with
  | push value =>
    refine iff_of_false ?_ (by rintro ⟨_, ⟨⟩⟩)
    cases value with
    | none => decide
    | some value =>
      exact not_isJump_append (by decide : 4 ≤ "LOADL ".toList.length) (by decide) value.text
  | load name =>
    refine iff_of_false ?_ (by rintro ⟨_, ⟨⟩⟩)
    exact not_isJump_append (by decide : 4 ≤ "LOAD ".toList.length) (by decide) name
  | store name =>
    refine iff_of_false ?_ (by rintro ⟨_, ⟨⟩⟩)
    exact not_isJump_append (by decide : 4 ≤ "STORE ".toList.length) (by decide) name
  | apply operation =>
    refine iff_of_false ?_ (by rintro ⟨_, ⟨⟩⟩)
    cases operation <;> decide
  | jump target =>
    exact iff_of_true (isJump_append (by decide : 4 ≤ "JUMP ".toList.length) _) ⟨target, rfl⟩
  | jumpIfZero target =>
    exact iff_of_true (isJump_append (by decide : 4 ≤ "JUMPIF(0) ".toList.length) _) ⟨target, rfl⟩
  | label mark =>
    refine iff_of_false ?_ (by rintro ⟨_, ⟨⟩⟩)
    simp [Line.isJump, toList_text_label, toList_labelText]
  | halt => exact iff_of_false (by decide) (by rintro ⟨_, ⟨⟩⟩)

theorem operand_append {word : String} (hword : word.toList.dropWhile (· != ' ') = [' '])
    (behind : String) : Line.operand (word ++ behind) = behind := by
  rw [Line.operand, String.toList_append, List.dropWhile_append, hword]
  exact String.ofList_toList

theorem operand_text {instruction : Instr} {label : Label}
    (h : instruction.target? = some label) : Line.operand instruction.text = labelText label := by
  cases instruction with
  | push _ | load _ | store _ | apply _ | label _ | halt => cases h
  | jump target =>
    cases h
    exact operand_append (by decide : "JUMP ".toList.dropWhile _ = [' ']) _
  | jumpIfZero target =>
    cases h
    exact operand_append (by decide : "JUMPIF(0) ".toList.dropWhile _ = [' ']) _

theorem append_ne_halt {word : String} (hword : ' ' ∈ word.toList) (behind : String) :
    word ++ behind ≠ "HALT" := by
  intro h
  have hblank : ' ' ∈ "HALT".toList := by
    rw [← h, String.toList_append]
    exact List.mem_append_left _ hword
  exact absurd hblank (by decide)

theorem text_eq_halt_iff {instruction : Instr} :
    instruction.text = "HALT" ↔ instruction = .halt := by
  cases instruction with
  | push value =>
    refine iff_of_false ?_ (by rintro ⟨⟩)
    cases value with
    | none => decide
    | some value => exact append_ne_halt (by decide : ' ' ∈ "LOADL ".toList) value.text
  | load name =>
    exact iff_of_false (append_ne_halt (by decide : ' ' ∈ "LOAD ".toList) name) (by rintro ⟨⟩)
  | store name =>
    exact iff_of_false (append_ne_halt (by decide : ' ' ∈ "STORE ".toList) name) (by rintro ⟨⟩)
  | apply operation =>
    refine iff_of_false ?_ (by rintro ⟨⟩)
    cases operation <;> decide
  | jump target =>
    exact iff_of_false (append_ne_halt (by decide : ' ' ∈ "JUMP ".toList) _) (by rintro ⟨⟩)
  | jumpIfZero target =>
    exact iff_of_false (append_ne_halt (by decide : ' ' ∈ "JUMPIF(0) ".toList) _) (by rintro ⟨⟩)
  | label mark =>
    refine iff_of_false (fun h ↦ ?_) (by rintro ⟨⟩)
    have hlabel := isLabel_text.mpr ⟨mark, rfl⟩
    rw [h] at hlabel
    exact absurd hlabel (by decide)
  | halt => exact iff_of_true rfl rfl

end Instr

end StackCompiler
