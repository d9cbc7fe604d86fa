import StackCompiler.Proofs.Compilation.Decoding
import StackCompiler.Proofs.Execution.StackDepth
import StackCompiler.Proofs.Grammar.Positions
import StackCompiler.Proofs.Grammar.Writing
import StackCompiler.Proofs.Passes.Generator

/-!
# No pass breaks down

The passes have faults of their own, for trees and tokens that they cannot handle: a tree with a
hole, an operator without an instruction, a token that names no type, a lookup behind the end of the
tokens, a literal that cannot be written. Only the last of them can happen to what was read from
tokens (`passes_never_breakDown`). A program that is read is well formed whatever the tokens are, so
it has an outline, it has code unless a literal is too long, checked or not, and a check of it is
stopped by nothing but one of the five rules of the context (`Cause.IsContextRule`).

Tokens that no scan makes can hold such a literal (`code_assigning_tooLong`). Those of a text never
do, so every source text comes to the end of its compilation, and every number in its code can be
written.
-/

set_option autoImplicit false
set_option relaxedAutoImplicit false

namespace StackCompiler

open Scanning Grammar

/-- The causes for which a check stops at a rule of the context. -/
def Cause.IsContextRule : Cause → Prop
  | duplicateDeclaration .. | undeclared .. | assignmentType .. | conditionType ..
  | operandTypes .. => True
  | stated .. | strayCharacter _ | oversizedInteger _ | unexpectedToken .. | unsupported ..
  | nestedTooDeeply => False

theorem Violation.Within.isContextRule {tokens : List Token} {found : Violation}
    (h : found.Within tokens) : found.cause.IsContextRule := by
  have hfamily := h.family
  have habout := h.isAbout
  cases hcause : found.cause with
  | stated | strayCharacter | oversizedInteger | nestedTooDeeply =>
    rw [hcause] at habout
    cases habout
  | unexpectedToken | unsupported =>
    rw [hcause] at hfamily
    cases hfamily
  | duplicateDeclaration | undeclared | assignmentType | conditionType | operandTypes => trivial

/-- A check of a program that was read ends well or at a rule of the context, whatever has been
declared before. -/
theorem Program.WellFormed.check_cases {program : Program} (h : program.WellFormed)
    (scope : Scope) :
    (∃ type, (program.node.check scope).1 = .ok type) ∨
      ∃ found, (program.node.check scope).1 = .error (.violation found) ∧
        found.cause.IsContextRule := by
  cases hcheck : (program.node.check scope).1 with
  | ok type => exact .inl ⟨type, rfl⟩
  | error fault =>
    obtain ⟨found, rfl, hwithin⟩ := h.check_eq_error hcheck
    exact .inr ⟨found, rfl, hwithin.isContextRule⟩

/-! ### Numbers in code -/

/-- The number that an instruction pushes is below the limit if the instruction can be written. -/
theorem Instr.lt_of_pushed {instruction : Instr} {value : Int}
    (h : instruction.isWritable = true) (hpushed : instruction.pushed? = some value) :
    value < (10 ^ integerDigitLimit : Nat) := by
  unfold pushed? at hpushed
  split at hpushed <;> cases hpushed
  rw [isWritable, Option.all_some, Literal.isWritable_int_iff] at h
  omega

/-- The passes break down on nothing that was read but a literal that cannot be written. Whatever
the tokens are, a program that is read from them has an outline. If its literals can be written, it
has code, and every instruction of it can be written; otherwise a literal stops the generator and
nothing else does. A check of the program, on top of any declarations, ends well or at one of the
five rules of the context. A reader by positions never looks behind the end of the tokens, from
wherever it starts. And every text is compiled to an end, with no number in the code that is too
long to be written. -/
theorem passes_never_breakDown :
    (∀ (stream rest : TokenStream) (depth : Nat) (lines : List String) (program : Program),
      stream.readProgramWithin depth lines = (.ok program, rest) →
        (∃ outline, program.node.outline = .ok outline) ∧
        (LiteralsAreWritable program.expressions →
          ∃ code labels, program.node.code = .ok (code, labels) ∧
            ∀ instruction ∈ code, instruction.isWritable = true) ∧
        (¬ LiteralsAreWritable program.expressions →
          program.node.code = .error .unwritableLiteral) ∧
        ∀ scope, (∃ type, (program.node.check scope).1 = .ok type) ∨
          ∃ found, (program.node.check scope).1 = .error (.violation found) ∧
            found.cause.IsContextRule) ∧
    (∀ (stream : TokenStream) (depth position : Nat), position < stream.toList.length →
      Walk.Agrees stream position (Walk.program depth stream.toList position)
          (Grammar.program depth (stream.pending.drop position)) ∧
        ∀ index, Walk.program depth stream.toList position ≠ .error (.outOfRange index)) ∧
    ∀ passes : Passes, passes.Faithful → ∀ (keepsOutline : Bool) (file text : String),
      ∃ run, compileWith passes keepsOutline file text = .ok run ∧
        ∀ code, run.result.verdict = .compiled code →
          ∀ value ∈ code.filterMap Instr.pushed?,
            0 ≤ value ∧ value < (10 ^ integerDigitLimit : Nat) := by
  refine ⟨?_, ?_, ?_⟩
  · intro stream rest depth lines program hread
    obtain ⟨tokens, -, hderives, hnearest⟩ := TokenStream.derives_of_readProgramWithin hread
    have hoperators := operatorsOperate_of_readProgramWithin hread
    refine ⟨program.exists_outline, fun hliterals ↦ ?_, fun hliterals ↦ ?_,
      (hderives.wellFormed hnearest).check_cases⟩
    · have hcode := program.code_node hoperators hliterals
      exact ⟨_, _, hcode, fun _ ↦ Node.isWritable_of_mem_code hcode⟩
    · rw [program.code_node_eq hoperators, ifWritable, if_neg hliterals]
  · intro stream depth position hposition
    have hagrees := Walk.program_agrees depth hposition
    refine ⟨hagrees, fun index hindex ↦ ?_⟩
    rw [hindex] at hagrees
    cases hagrees
  · intro passes hpasses keepsOutline file text
    obtain ⟨run, hrun, hending⟩ := exists_ending hpasses keepsOutline file text
    refine ⟨run, hrun, fun code hverdict value hvalue ↦ ?_⟩
    obtain ⟨program, taken, rest, -, hread, htyped, rfl, -, -, hpushes⟩ :=
      hending.exists_pushes hpasses hverdict
    have hnonneg : 0 ≤ value := by
      rw [hpushes] at hvalue
      obtain ⟨token, -, hnumber⟩ := List.mem_filterMap.mp hvalue
      exact token.number?_nonneg hnumber
    obtain ⟨instruction, hmem, hpushed⟩ := List.mem_filterMap.mp hvalue
    have hwritable := Node.isWritable_of_mem_code (hpasses.code_of_read hread htyped) hmem
    exact ⟨hnonneg, Instr.lt_of_pushed hwritable hpushed⟩

/-- The program `program p; var x : integer; begin x := 1; end`, except that its literal stands for
any number at all. -/
def assigning (value : Int) : Program :=
  let token (kind : TokenKind) (lexeme : String) : Token := ⟨kind, lexeme, none, ⟨"", 1, 1⟩⟩
  { name := token .ident "p"
    declarations := [⟨token .ident "x", token .integerKw "integer"⟩]
    statements := [.assign (token .ident "x")
      (.intLit ⟨.intLit, "1", some (.int value), ⟨"", 1, 1⟩⟩)] }

/-- No scan makes a token for a number that cannot be written, but a reader takes it and a check
passes it. The generator is stopped. -/
theorem code_assigning_tooLong :
    let program := assigning (10 ^ integerDigitLimit : Nat)
    program.stream.readProgramWithin nestingLimit [] = (.ok program, .endingAt ⟨"", 1, 1⟩ []) ∧
      (program.node.check .empty).1 = .ok none ∧
      ¬ ∃ code labels, program.node.code = .ok (code, labels) := by
  have hread (value : Int) : (assigning value).stream.readProgramWithin nestingLimit [] =
      (.ok (assigning value), .endingAt ⟨"", 1, 1⟩ []) := rfl
  have hcheck (value : Int) : ((assigning value).node.check .empty).1 = .ok none := rfl
  have hcode : (assigning (10 ^ integerDigitLimit : Nat)).node.code =
      .error .unwritableLiteral := by
    decide +kernel
  refine ⟨hread _, hcheck _, ?_⟩
  rintro ⟨code, labels, hsome⟩
  cases hcode.symm.trans hsome

/-- A program that can be read, with a sum of an integer and a Boolean, and an undeclared
variable. -/
def mixedSum : String :=
  "program p; begin while 1 + true do x := 1; end"

theorem passes_never_breakDown_mixedSum :
    ∃ program rest, (scan "p.src" mixedSum).stream.readProgramWithin nestingLimit [] =
        (.ok program, rest) ∧
      (∃ outline, program.node.outline = .ok outline) ∧
      LiteralsAreWritable program.expressions ∧
      (∃ code labels, program.node.code = .ok (code, labels) ∧
        ∀ instruction ∈ code, instruction.isWritable = true) ∧
      (∃ found, (program.node.check .empty).1 = .error (.violation found) ∧
        found.cause.IsContextRule) ∧
      13 < (scan "p.src" mixedSum).stream.toList.length ∧
      (∀ index, Walk.program nestingLimit (scan "p.src" mixedSum).stream.toList 13 ≠
        .error (.outOfRange index)) ∧
      Passes.standard.Faithful ∧ ∃ run, compile true "p.src" mixedSum = .ok run := by
  have hshape : ((scan "p.src" mixedSum).stream.readProgramWithin nestingLimit []).1.toOption.map
      (fun program ↦ (program.node.check .empty).1.toOption.isSome) = some false := by
    decide +kernel
  have hlength : 13 < (scan "p.src" mixedSum).stream.toList.length := by decide +kernel
  have hpasses := Passes.within_faithful nestingLimit nestingLimit
  obtain ⟨hread, hpositions, hcompile⟩ := passes_never_breakDown
  rcases hprogram : (scan "p.src" mixedSum).stream.readProgramWithin nestingLimit [] with
    ⟨_ | program, rest⟩
  · rw [hprogram] at hshape
    cases hshape
  rw [hprogram] at hshape
  obtain ⟨houtline, hcode, -, hcheck⟩ := hread _ _ _ _ _ hprogram
  have hliterals := literalsAreWritable_of_scan hprogram
  have hviolation := (hcheck .empty).resolve_left fun ⟨type, htype⟩ ↦ by
    simp [Except.toOption, htype] at hshape
  obtain ⟨run, hrun, -⟩ := hcompile _ hpasses true "p.src" mixedSum
  exact ⟨program, rest, rfl, houtline, hliterals, hcode hliterals, hviolation, hlength,
    (hpositions _ nestingLimit 13 hlength).2, hpasses, run, hrun⟩

end StackCompiler
