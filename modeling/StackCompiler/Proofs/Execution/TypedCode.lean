import StackCompiler.Proofs.Execution.Layout
import StackCompiler.Proofs.Execution.Literals

/-!
# Types of stacks

Code has types too: `Instr.Typed` relates the types of the values on the stack before an instruction
to those behind it, and `CodeTyped` does so for pieces of code. The first type is that of the top.
The stack is empty at every label and behind every jump, so it does not matter from where a line is
reached, and a jump asks for its label in the code around it.

Code of well-typed expressions adds their type (`Expr.HasType.codeTyped`), and code of well-typed
statements takes an empty stack to an empty stack (`Stmt.WellTyped.codeTyped`). Only the literals of
integers have to be looked at besides, since no type says that their tokens hold integers:
`literalsAreIntegers_of_scan` gives this for programs that are read from texts.
-/

set_option autoImplicit false
set_option relaxedAutoImplicit false

namespace StackCompiler

/-- An instruction takes stacks of the first types to stacks of the second. -/
inductive Instr.Typed (types : TypeEnv) (code : List Instr) : Instr → List Ty → List Ty → Prop
  | push {value : Int} {type : Ty} {stack : List Ty} (hvalue : type.Holds value) :
      Typed types code (.push (some (.int value))) stack (type :: stack)
  | load {name : String} {type : Ty} {stack : List Ty} (hname : types name = some type) :
      Typed types code (.load name) stack (type :: stack)
  | store {name : String} {type : Ty} {stack : List Ty} (hname : types name = some type) :
      Typed types code (.store name) (type :: stack) stack
  | apply {operation : Operation} {kind : TokenKind} {first second result : Ty} {stack : List Ty}
      (hkind : Operation.ofKind? kind = some operation) (hjoins : kind.Joins first second result) :
      Typed types code (.apply operation) (second :: first :: stack) (result :: stack)
  | jump {target : Label} (htarget : .label target ∈ code) : Typed types code (.jump target) [] []
  | jumpIfZero {target : Label} (htarget : .label target ∈ code) :
      Typed types code (.jumpIfZero target) [.boolean] []
  | label (mark : Label) : Typed types code (.label mark) [] []

/-- A piece of code takes stacks of the first types to stacks of the second. -/
inductive CodeTyped (types : TypeEnv) (code : List Instr) : List Instr → List Ty → List Ty → Prop
  | nil {stack : List Ty} : CodeTyped types code [] stack stack
  | cons {instruction : Instr} {piece : List Instr} {before middle after : List Ty}
      (hfirst : instruction.Typed types code before middle)
      (hrest : CodeTyped types code piece middle after) :
      CodeTyped types code (instruction :: piece) before after

variable {types : TypeEnv} {code : List Instr}

theorem Instr.Typed.codeTyped {instruction : Instr} {before after : List Ty}
    (h : instruction.Typed types code before after) :
    CodeTyped types code [instruction] before after :=
  .cons h .nil

theorem CodeTyped.append {first second : List Instr} {before middle after : List Ty}
    (hfirst : CodeTyped types code first before middle)
    (hsecond : CodeTyped types code second middle after) :
    CodeTyped types code (first ++ second) before after := by
  induction hfirst with
  | nil => exact hsecond
  | cons hinstruction _ ih => exact .cons hinstruction (ih hsecond)

theorem CodeTyped.exists_typed_of_mem {piece : List Instr} {before after : List Ty}
    (h : CodeTyped types code piece before after) {instruction : Instr}
    (hmem : instruction ∈ piece) : ∃ first second, instruction.Typed types code first second := by
  induction h with
  | nil => cases hmem
  | cons hfirst _ ih =>
    rcases List.mem_cons.mp hmem with rfl | hmem
    · exact ⟨_, _, hfirst⟩
    · exact ih hmem

/-- Behind a label the stack is empty, and what follows is code for the empty stack. -/
theorem CodeTyped.drop_of_label {piece : List Instr} {before after : List Ty}
    (h : CodeTyped types code piece before after) {line : Nat} {mark : Label}
    (hline : piece[line]? = some (.label mark)) :
    CodeTyped types code (piece.drop line) [] after := by
  induction h generalizing line with
  | nil => cases hline
  | cons hfirst hrest ih =>
    cases line with
    | zero =>
      cases hline
      cases hfirst
      exact .cons (.label mark) hrest
    | succ line => exact ih hline

/-! ### Code of trees -/

/-- The code of an expression adds the type of the expression. -/
theorem Expr.HasType.codeTyped {e : Expr} {type : Ty} (h : e.HasType types type)
    (hliterals : LiteralsAreIntegers e.parts) (stack : List Ty) :
    CodeTyped types code e.code stack (type :: stack) := by
  induction h generalizing stack with
  | intLit token =>
    obtain ⟨value, hvalue⟩ := hliterals token List.mem_cons_self
    rw [Expr.code, hvalue]
    exact (Instr.Typed.push (Ty.holds_integer value)).codeTyped
  | boolLit token => exact (Instr.Typed.push (Ty.holds_toInt ..)).codeTyped
  | use hname => exact (Instr.Typed.load hname).codeTyped
  | @binary left right operator first _ _ _ _ hoperator ihleft ihright =>
    obtain ⟨operation, hoperation⟩ := hoperator.exists_operation
    rw [Expr.code, hoperation]
    have hleft := ihleft (hliterals.of_subset (by simp [parts])) stack
    have hright := ihright (hliterals.of_subset (by simp [parts])) (first :: stack)
    exact (hleft.append hright).append (Instr.Typed.apply hoperation hoperator).codeTyped

theorem CodeTyped.branchCode {first : Label} {condition body alternative : List Instr}
    (hcondition : CodeTyped types code condition [] [.boolean])
    (hbody : CodeTyped types code body [] [])
    (halternative : CodeTyped types code alternative [] []) (hfirst : .label first ∈ code)
    (hsecond : .label (first + 1) ∈ code) :
    CodeTyped types code (branchCode first condition body alternative) [] [] := by
  have htest := hcondition.append (Instr.Typed.jumpIfZero hfirst).codeTyped
  have hmiddle : CodeTyped types code [.jump (first + 1), .label first] [] [] :=
    .cons (.jump hsecond) (Instr.Typed.label first).codeTyped
  exact (((htest.append hbody).append hmiddle).append halternative).append
    (Instr.Typed.label (first + 1)).codeTyped

theorem CodeTyped.loopCode {first : Label} {condition body : List Instr}
    (hcondition : CodeTyped types code condition [] [.boolean])
    (hbody : CodeTyped types code body [] []) (hfirst : .label first ∈ code)
    (hsecond : .label (first + 1) ∈ code) :
    CodeTyped types code (loopCode first condition body) [] [] := by
  have htest := ((Instr.Typed.label first).codeTyped.append hcondition).append
    (Instr.Typed.jumpIfZero hsecond).codeTyped
  have hlast : CodeTyped types code [.jump first, .label (first + 1)] [] [] :=
    .cons (.jump hfirst) (Instr.Typed.label (first + 1)).codeTyped
  exact (htest.append hbody).append hlast

/-- A number of labels from a first one on are in the code. -/
def HasLabels (code : List Instr) (first count : Nat) : Prop :=
  ∀ label, first ≤ label → label < first + count → .label label ∈ code

/-- Of labels in the code, those of a smaller range are in the code too. -/
theorem HasLabels.mono {first count inner fewer : Nat} (h : HasLabels code first count)
    (hlow : first ≤ inner) (hhigh : inner + fewer ≤ first + count) :
    HasLabels code inner fewer :=
  fun label hfrom hto ↦ h label (by omega) (by omega)

theorem Stmt.codeTyped_codeOfAll {statements : List Stmt}
    (ih : ∀ statement ∈ statements, LiteralsAreIntegers statement.expressions →
      ∀ {first : Nat}, HasLabels code first statement.labelCount →
        CodeTyped types code (statement.code first) [] [])
    (hliterals : LiteralsAreIntegers (Stmt.expressionsOfAll statements)) {first : Nat}
    (hlabels : HasLabels code first (Stmt.labelCountOfAll statements)) :
    CodeTyped types code (Stmt.codeOfAll statements first) [] [] := by
  induction statements generalizing first with
  | nil => exact .nil
  | cons statement more ihmore =>
    simp only [expressionsOfAll] at hliterals
    rw [labelCountOfAll] at hlabels
    have hfirst := ih statement List.mem_cons_self (hliterals.of_subset (by simp))
      (hlabels.mono (Nat.le_refl _) (by omega))
    have hmore := ihmore (fun other hother ↦ ih other (List.mem_cons_of_mem _ hother))
      (hliterals.of_subset (by simp))
      (hlabels.mono (Nat.le_add_right first statement.labelCount) (by omega))
    exact hfirst.append hmore

/-- The code of a statement takes an empty stack to an empty stack, if its labels are there. -/
theorem Stmt.WellTyped.codeTyped {statement : Stmt} (h : statement.WellTyped types)
    (hliterals : LiteralsAreIntegers statement.expressions) {first : Nat}
    (hlabels : HasLabels code first statement.labelCount) :
    CodeTyped types code (statement.code first) [] [] := by
  induction h generalizing first with
  | assign htarget hvalue =>
    exact (hvalue.codeTyped hliterals []).append (Instr.Typed.store htarget).codeTyped
  | ifThen hcondition _ ih =>
    simp only [expressions] at hliterals
    rw [labelCount] at hlabels
    have hbody := ih (hliterals.of_subset (by simp))
      (hlabels.mono (Nat.le_add_right first 2) (by omega))
    exact .branchCode (hcondition.codeTyped (hliterals.of_subset (by simp)) []) hbody .nil
      (hlabels first (by omega) (by omega)) (hlabels (first + 1) (by omega) (by omega))
  | @ifElse _ body _ hcondition _ _ ihbody ihalternative =>
    simp only [expressions] at hliterals
    rw [labelCount] at hlabels
    have hbody := ihbody (hliterals.of_subset (by simp))
      (hlabels.mono (Nat.le_add_right first 2) (by omega))
    have halternative := ihalternative (hliterals.of_subset (by simp))
      (hlabels.mono (by omega : first ≤ first + 2 + body.labelCount) (by omega))
    exact .branchCode (hcondition.codeTyped (hliterals.of_subset (by simp)) []) hbody
      halternative (hlabels first (by omega) (by omega)) (hlabels (first + 1) (by omega) (by omega))
  | loop hcondition _ ih =>
    simp only [expressions] at hliterals
    rw [labelCount] at hlabels
    have hbody := ih (hliterals.of_subset (by simp))
      (hlabels.mono (Nat.le_add_right first 2) (by omega))
    exact .loopCode (hcondition.codeTyped (hliterals.of_subset (by simp)) []) hbody
      (hlabels first (by omega) (by omega)) (hlabels (first + 1) (by omega) (by omega))
  | block _ ih => exact codeTyped_codeOfAll ih hliterals hlabels

/-- Before the last line of a well-typed program, its code takes an empty stack to an empty
stack. -/
theorem Program.WellTyped.exists_codeTyped {program : Program} (h : program.WellTyped)
    (hliterals : LiteralsAreIntegers program.expressions) :
    ∃ piece, program.code = piece ++ [.halt] ∧
      CodeTyped program.types program.code piece [] [] := by
  refine ⟨_, rfl, (Stmt.WellTyped.block h.body).codeTyped hliterals fun label hlow hhigh ↦ ?_⟩
  exact List.mem_append_left _ ((Stmt.label_mem_code_iff _ 0 _).mpr ⟨hlow, hhigh⟩)

end StackCompiler
