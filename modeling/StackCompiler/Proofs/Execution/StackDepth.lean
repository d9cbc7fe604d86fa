import Mathlib.Logic.Relation
import Mathlib.Order.Bounds.Basic
import StackCompiler.Proofs.Execution.Safety
import StackCompiler.Proofs.Execution.Sites
import StackCompiler.Proofs.Grammar.Writing

/-!
# The depth of the stack

How many values there are on the stack depends on the line alone, whether a program keeps the rules
for types or not. `Flow` is the graph that control moves in: from a line to the next one or to the
line of a label, whatever the values on the stack are, with the number of values kept beside the
line. `depthAt` counts along the code as if there were no jumps, and `exists_stackDiscipline`, the
main statement, says that every path from the first line agrees with it.

A jump makes no difference because it finds an empty stack, as every label does, and this is what
`Instr.Shifts` asks for. Code of expressions adds one value and code of statements none
(`Expr.codeShifts`, `Stmt.codeShifts`), so the laws of single instructions hold on all lines
(`Program.keepsDepth_code`), and a step along the graph keeps to the count (`KeepsDepth.flow`).

The code of an expression reaches `Expr.height` above the depth at which it starts: the right
operand is computed on top of the left one.
-/

set_option autoImplicit false
set_option relaxedAutoImplicit false

namespace StackCompiler

open Machine

/-! ### Instructions -/

/-- The number of values that an instruction takes off the stack. -/
def Instr.pops : Instr → Nat
  | .push _ | .load _ | .jump _ | .label _ | .halt => 0
  | .store _ | .jumpIfZero _ => 1
  | .apply _ => 2

/-- The number of values that an instruction puts on the stack. -/
def Instr.pushes : Instr → Nat
  | .push _ | .load _ | .apply _ => 1
  | .store _ | .jump _ | .jumpIfZero _ | .label _ | .halt => 0

/-- Whether control may go on to the next line. -/
def Instr.goesOn : Instr → Bool
  | .jump _ | .halt => false
  | .push _ | .load _ | .store _ | .apply _ | .jumpIfZero _ | .label _ => true

/-- The number of values on the stack behind an instruction. -/
def Instr.depthBehind (depth : Nat) (instruction : Instr) : Nat :=
  depth - instruction.pops + instruction.pushes

/-- The number of values on the stack behind a piece of code without jumps. -/
def depthBehind (depth : Nat) (piece : List Instr) : Nat :=
  piece.foldl Instr.depthBehind depth

/-- The number of values on the stack in front of a line, counted from the first line on. -/
def depthAt (code : List Instr) (line : Nat) : Nat :=
  depthBehind 0 (code.take line)

@[simp] theorem depthBehind_nil (depth : Nat) : depthBehind depth [] = depth :=
  rfl

@[simp] theorem depthBehind_cons (depth : Nat) (instruction : Instr) (piece : List Instr) :
    depthBehind depth (instruction :: piece) = depthBehind (instruction.depthBehind depth) piece :=
  rfl

theorem depthBehind_append (depth : Nat) (first second : List Instr) :
    depthBehind depth (first ++ second) = depthBehind (depthBehind depth first) second :=
  List.foldl_append

/-- Where an instruction may stand: it finds so many values on the stack and leaves so many. No
values are kept across a jump or a label. -/
inductive Instr.Shifts : Instr → Nat → Nat → Prop
  | push (value : Option Literal) (depth : Nat) : Shifts (.push value) depth (depth + 1)
  | load (name : String) (depth : Nat) : Shifts (.load name) depth (depth + 1)
  | store (name : String) : Shifts (.store name) 1 0
  | apply (operation : Operation) (depth : Nat) : Shifts (.apply operation) (depth + 2) (depth + 1)
  | jump (target : Label) : Shifts (.jump target) 0 0
  | jumpIfZero (target : Label) : Shifts (.jumpIfZero target) 1 0
  | label (mark : Label) : Shifts (.label mark) 0 0

section Shifts

variable {instruction : Instr} {before after : Nat}

theorem Instr.Shifts.pops_le (h : instruction.Shifts before after) :
    instruction.pops ≤ before := by
  cases h <;> simp [pops]

theorem Instr.Shifts.depthBehind_eq (h : instruction.Shifts before after) :
    instruction.depthBehind before = after := by
  cases h <;> rfl

theorem Instr.Shifts.eq_zero_of_target? (h : instruction.Shifts before after) {label : Label}
    (htarget : instruction.target? = some label) : after = 0 := by
  cases h <;> first | rfl | cases htarget

end Shifts

/-- A piece of code finds so many values on the stack and leaves so many. -/
inductive CodeShifts : List Instr → Nat → Nat → Prop
  | nil (depth : Nat) : CodeShifts [] depth depth
  | cons {instruction : Instr} {piece : List Instr} {before middle after : Nat}
      (hfirst : instruction.Shifts before middle) (hrest : CodeShifts piece middle after) :
      CodeShifts (instruction :: piece) before after

section CodeShifts

variable {instruction : Instr} {piece first second : List Instr} {before middle after : Nat}

theorem Instr.Shifts.codeShifts (h : instruction.Shifts before after) :
    CodeShifts [instruction] before after :=
  .cons h (.nil after)

theorem CodeShifts.append (hfirst : CodeShifts first before middle)
    (hsecond : CodeShifts second middle after) : CodeShifts (first ++ second) before after := by
  induction hfirst with
  | nil => exact hsecond
  | cons hinstruction _ ih => exact .cons hinstruction (ih hsecond)

theorem CodeShifts.depthBehind_eq (h : CodeShifts piece before after) :
    depthBehind before piece = after := by
  induction h with
  | nil => rfl
  | cons hfirst _ ih => rw [depthBehind_cons, hfirst.depthBehind_eq, ih]

/-- An instruction in a piece of code finds as many values as are counted up to it. -/
theorem CodeShifts.shifts (h : CodeShifts piece before after) {line : Nat}
    (hline : piece[line]? = some instruction) :
    instruction.Shifts (depthBehind before (piece.take line))
      (depthBehind before (piece.take (line + 1))) := by
  induction h generalizing line with
  | nil => cases hline
  | cons hfirst _ ih =>
    cases line with
    | zero =>
      cases hline
      rw [List.take_succ_cons, depthBehind_cons, hfirst.depthBehind_eq]
      exact hfirst
    | succ line =>
      rw [List.take_succ_cons, List.take_succ_cons, depthBehind_cons, depthBehind_cons,
        hfirst.depthBehind_eq]
      exact ih hline

end CodeShifts

/-! ### Code of trees -/

theorem CodeShifts.branchCode {first : Label} {condition body alternative : List Instr}
    (hcondition : CodeShifts condition 0 1) (hbody : CodeShifts body 0 0)
    (halternative : CodeShifts alternative 0 0) :
    CodeShifts (branchCode first condition body alternative) 0 0 := by
  have htest := hcondition.append (Instr.Shifts.jumpIfZero first).codeShifts
  have hmiddle : CodeShifts [.jump (first + 1), .label first] 0 0 :=
    .cons (.jump (first + 1)) (Instr.Shifts.label first).codeShifts
  exact (((htest.append hbody).append hmiddle).append halternative).append
    (Instr.Shifts.label (first + 1)).codeShifts

theorem CodeShifts.loopCode {first : Label} {condition body : List Instr}
    (hcondition : CodeShifts condition 0 1) (hbody : CodeShifts body 0 0) :
    CodeShifts (loopCode first condition body) 0 0 := by
  have htest := ((Instr.Shifts.label first).codeShifts.append hcondition).append
    (Instr.Shifts.jumpIfZero (first + 1)).codeShifts
  have hlast : CodeShifts [.jump first, .label (first + 1)] 0 0 :=
    .cons (.jump first) (Instr.Shifts.label (first + 1)).codeShifts
  exact (htest.append hbody).append hlast

/-- The code of an expression adds one value. -/
theorem Expr.codeShifts {e : Expr} (h : OperatorsOperate e.parts) (depth : Nat) :
    CodeShifts e.code depth (depth + 1) := by
  induction e generalizing depth with
  | intLit token => exact (Instr.Shifts.push token.literal depth).codeShifts
  | boolLit token => exact (Instr.Shifts.push _ depth).codeShifts
  | use name => exact (Instr.Shifts.load name.lexeme depth).codeShifts
  | binary left operator right ihleft ihright =>
    obtain ⟨operation, hoperation⟩ := h left operator right List.mem_cons_self
    have hleft := ihleft (h.of_subset (by simp [parts])) depth
    have hright := ihright (h.of_subset (by simp [parts])) (depth + 1)
    rw [code, hoperation]
    exact (hleft.append hright).append (Instr.Shifts.apply operation depth).codeShifts

theorem Stmt.codeShifts_codeOfAll {statements : List Stmt}
    (ih : ∀ statement ∈ statements, ∀ first, CodeShifts (statement.code first) 0 0)
    (first : Label) : CodeShifts (Stmt.codeOfAll statements first) 0 0 := by
  induction statements generalizing first with
  | nil => exact .nil 0
  | cons statement more ihmore =>
    exact (ih statement List.mem_cons_self first).append
      (ihmore (fun other hother ↦ ih other (List.mem_cons_of_mem _ hother)) _)

/-- The code of a statement finds an empty stack and leaves it empty. -/
theorem Stmt.codeShifts {statement : Stmt} (h : OperatorsOperate statement.expressions)
    (first : Label) : CodeShifts (statement.code first) 0 0 := by
  induction statement generalizing first with
  | assign target value =>
    exact (Expr.codeShifts h 0).append (Instr.Shifts.store target.lexeme).codeShifts
  | ifThen condition body ih =>
    have hcondition := condition.codeShifts (h.of_subset (by simp [expressions])) 0
    exact .branchCode hcondition (ih (h.of_subset (by simp [expressions])) _) (.nil 0)
  | ifElse condition body alternative ihbody ihalternative =>
    have hcondition := condition.codeShifts (h.of_subset (by simp [expressions])) 0
    have hbody := ihbody (h.of_subset (by simp [expressions])) (first + 2)
    have halternative := ihalternative (h.of_subset (by simp [expressions]))
      (first + 2 + body.labelCount)
    exact .branchCode hcondition hbody halternative
  | loop condition body ih =>
    have hcondition := condition.codeShifts (h.of_subset (by simp [expressions])) 0
    exact .loopCode hcondition (ih (h.of_subset (by simp [expressions])) _)
  | block statements ih =>
    refine codeShifts_codeOfAll (fun statement hmem ↦ ih statement hmem (h.of_subset ?_)) first
    exact fun e he ↦ mem_expressionsOfAll.mpr ⟨statement, hmem, he⟩

/-! ### The highest point -/

/-- The greatest number of values that an expression needs on the stack. -/
def Expr.height : Expr → Nat
  | binary left _ right => max left.height (1 + right.height)
  | intLit _ | boolLit _ | use _ => 1

/-- The greatest number of values on the stack in front of, in and behind a piece of code. -/
def peak (depth : Nat) : List Instr → Nat
  | [] => depth
  | instruction :: piece => max depth (peak (instruction.depthBehind depth) piece)

theorem le_peak (depth : Nat) (piece : List Instr) : depth ≤ peak depth piece := by
  cases piece with
  | nil => exact Nat.le_refl depth
  | cons instruction piece => exact Nat.le_max_left ..

theorem peak_append (depth : Nat) (first second : List Instr) :
    peak depth (first ++ second) =
      max (peak depth first) (peak (depthBehind depth first) second) := by
  induction first generalizing depth with
  | nil => exact (Nat.max_eq_right (le_peak depth second)).symm
  | cons instruction first ih =>
    rw [List.cons_append, peak, peak, ih, depthBehind_cons, Nat.max_assoc]

theorem isGreatest_peak (depth : Nat) (piece : List Instr) :
    IsGreatest {found | ∃ count ≤ piece.length, found = depthBehind depth (piece.take count)}
      (peak depth piece) := by
  induction piece generalizing depth with
  | nil => exact ⟨⟨0, Nat.le_refl 0, rfl⟩, by rintro _ ⟨count, -, rfl⟩; simp [peak]⟩
  | cons instruction piece ih =>
    obtain ⟨⟨highest, hhighest, hpeak⟩, hupper⟩ := ih (instruction.depthBehind depth)
    constructor
    · rcases Nat.le_total (peak (instruction.depthBehind depth) piece) depth with hle | hle
      · exact ⟨0, Nat.zero_le _, Nat.max_eq_left hle⟩
      · exact ⟨highest + 1, Nat.succ_le_succ hhighest, (Nat.max_eq_right hle).trans hpeak⟩
    · rintro _ ⟨count, hcount, rfl⟩
      cases count with
      | zero => exact Nat.le_max_left ..
      | succ count =>
        exact (hupper ⟨count, Nat.le_of_succ_le_succ hcount, rfl⟩).trans (Nat.le_max_right ..)

theorem Expr.height_pos (e : Expr) : 0 < e.height := by
  induction e with
  | intLit _ | boolLit _ | use _ => exact Nat.one_pos
  | binary left operator right ihleft _ => exact Nat.lt_of_lt_of_le ihleft (Nat.le_max_left ..)

theorem Expr.peak_code {e : Expr} (h : OperatorsOperate e.parts) (depth : Nat) :
    peak depth e.code = depth + e.height := by
  induction e generalizing depth with
  | intLit _ | boolLit _ | use _ =>
    simp [code, peak, Instr.depthBehind, Instr.pops, Instr.pushes, height]
  | binary left operator right ihleft ihright =>
    obtain ⟨operation, hoperation⟩ := h left operator right List.mem_cons_self
    have hleft : OperatorsOperate left.parts := h.of_subset (by simp [parts])
    have hright : OperatorsOperate right.parts := h.of_subset (by simp [parts])
    have hpos := right.height_pos
    rw [code, hoperation, peak_append, peak_append, depthBehind_append,
      (codeShifts hleft depth).depthBehind_eq, (codeShifts hright (depth + 1)).depthBehind_eq,
      ihleft hleft, ihright hright, height]
    simp only [Option.map_some, Option.toList_some, peak, Instr.depthBehind, Instr.pops,
      Instr.pushes]
    omega

/-! ### Programs -/

/-- The laws of the single instructions hold for the depths on all lines, and control cannot leave
the code. -/
structure KeepsDepth (code : List Instr) (depth : Nat → Nat) : Prop where
  start : depth 0 = 0
  inhabited : 0 < code.length
  shifts : ∀ line instruction, code[line]? = some instruction →
    instruction.Shifts (depth line) (depth (line + 1)) ∧ line + 1 < code.length ∨
      instruction = .halt ∧ line + 1 = code.length ∧ depth line = 0
  target_mem : ∀ instruction ∈ code, ∀ label, instruction.target? = some label →
    .label label ∈ code

theorem Program.target_mem_code (program : Program) {instruction : Instr} {label : Label}
    (hmem : instruction ∈ program.code) (htarget : instruction.target? = some label) :
    .label label ∈ program.code := by
  have hmem : instruction ∈ (Stmt.block program.statements).code 0 := by
    rcases List.mem_append.mp hmem with hmem | hmem
    · exact hmem
    · cases List.mem_singleton.mp hmem
      cases htarget
  have hused := (oncePerLabel_target.mem_filterMap (.block program.statements) 0 label).mp
    (List.mem_filterMap.mpr ⟨instruction, hmem, htarget⟩)
  exact List.mem_append_left _ ((Stmt.label_mem_code_iff _ 0 label).mpr hused)

theorem Program.keepsDepth_code {program : Program} (h : OperatorsOperate program.expressions) :
    KeepsDepth program.code (depthAt program.code) := by
  have hblock : OperatorsOperate (Stmt.block program.statements).expressions := h
  have hbody := Stmt.codeShifts hblock 0
  refine ⟨rfl, by simp [code], fun line instruction hline ↦ ?_,
    fun instruction hmem label ↦ program.target_mem_code hmem⟩
  simp only [depthAt]
  generalize hpiece : (Stmt.block program.statements).code 0 = piece at hbody
  rw [code, hpiece] at hline ⊢
  rcases Nat.lt_trichotomy line piece.length with hinside | rfl | hbehind
  · rw [List.getElem?_append_left hinside] at hline
    rw [List.take_append_of_le_length (Nat.le_of_lt hinside),
      List.take_append_of_le_length (Nat.succ_le_of_lt hinside)]
    exact .inl ⟨hbody.shifts hline, by simpa using hinside⟩
  · rw [List.getElem?_append_right (Nat.le_refl _), Nat.sub_self] at hline
    cases hline
    rw [List.take_left]
    exact .inr ⟨rfl, by simp, hbody.depthBehind_eq⟩
  · rw [List.getElem?_eq_none (by simpa [Nat.succ_le_iff] using hbehind)] at hline
    cases hline

/-! ### Paths -/

/-- A line with a number of values on the stack. -/
structure Standing where
  line : Nat
  depth : Nat

/-- Control may move from one line to another, with the stack as the instruction leaves it. Whether
a conditional jump is made is left open. -/
inductive Flow (code : List Instr) : Standing → Standing → Prop
  | next {line depth : Nat} {instruction : Instr} (hline : code[line]? = some instruction)
      (hgoes : instruction.goesOn = true) :
      Flow code ⟨line, depth⟩ ⟨line + 1, instruction.depthBehind depth⟩
  | jump {line depth target : Nat} {instruction : Instr} {label : Label}
      (hline : code[line]? = some instruction) (hlabel : instruction.target? = some label)
      (htarget : code[target]? = some (.label label)) :
      Flow code ⟨line, depth⟩ ⟨target, instruction.depthBehind depth⟩

/-- There is a path from the first line with an empty stack. -/
def Reachable (code : List Instr) (standing : Standing) : Prop :=
  Relation.ReflTransGen (Flow code) ⟨0, 0⟩ standing

namespace KeepsDepth

variable {code : List Instr} {depth : Nat → Nat} (h : KeepsDepth code depth)

include h

theorem depth_label {line : Nat} {label : Label} (hline : code[line]? = some (.label label)) :
    depth line = 0 := by
  obtain ⟨hshifts, -⟩ | ⟨hhalt, -⟩ := h.shifts line _ hline
  · generalize depth line = before, depth (line + 1) = after at hshifts
    cases hshifts
    rfl
  · cases hhalt

/-- A move keeps to the depths on the lines, and to the lines of the code. -/
theorem flow {first next : Standing} (hflow : Flow code first next)
    (hfirst : first.depth = depth first.line) :
    next.depth = depth next.line ∧ next.line < code.length := by
  cases hflow with
  | @next line found instruction hline hgoes =>
    obtain ⟨hshifts, hinside⟩ | ⟨rfl, -⟩ := h.shifts line instruction hline
    · obtain rfl : found = depth line := hfirst
      exact ⟨hshifts.depthBehind_eq, hinside⟩
    · cases hgoes
  | @jump line found target instruction label hline hlabel htarget =>
    obtain ⟨hshifts, -⟩ | ⟨rfl, -⟩ := h.shifts line instruction hline
    · obtain rfl : found = depth line := hfirst
      have hempty := hshifts.depthBehind_eq.trans (hshifts.eq_zero_of_target? hlabel)
      exact ⟨hempty.trans (h.depth_label htarget).symm, (List.getElem?_eq_some_iff.mp htarget).1⟩
    · cases hlabel

theorem reachable {standing : Standing} (hreachable : Reachable code standing) :
    standing.depth = depth standing.line ∧ standing.line < code.length := by
  induction hreachable with
  | refl => exact ⟨h.start.symm, h.inhabited⟩
  | tail _ hflow ih => exact h.flow hflow ih.1

theorem pops_le {line : Nat} {instruction : Instr} (hline : code[line]? = some instruction) :
    instruction.pops ≤ depth line := by
  obtain ⟨hshifts, -⟩ | ⟨rfl, -⟩ := h.shifts line instruction hline
  · exact hshifts.pops_le
  · exact Nat.zero_le _

theorem halt_iff {line : Nat} : code[line]? = some .halt ↔ line + 1 = code.length := by
  constructor
  · intro hline
    obtain ⟨hshifts, -⟩ | ⟨-, hlast, -⟩ := h.shifts line _ hline
    · cases hshifts
    · exact hlast
  · intro hlast
    have hinside : line < code.length := by omega
    have hline := List.getElem?_eq_getElem hinside
    obtain ⟨-, hbehind⟩ | ⟨hhalt, -⟩ := h.shifts line _ hline
    · omega
    · rw [hline, hhalt]

end KeepsDepth

/-- Instructions behind which nothing is left on the stack. -/
def Instr.empties : Instr → Bool
  | .store _ | .jump _ | .jumpIfZero _ => true
  | .push _ | .load _ | .apply _ | .label _ | .halt => false

/-- The stack holds so many values on each line, whatever path leads there. Each instruction finds
those that it takes off, and control ends at the last line and nowhere else. -/
structure StackDiscipline (code : List Instr) (depth : Nat → Nat) : Prop where
  reachable : ∀ standing, Reachable code standing → standing.depth = depth standing.line ∧
    ∃ instruction, code[standing.line]? = some instruction ∧ instruction.pops ≤ standing.depth
  next : ∀ (line : Nat) (instruction : Instr), code[line]? = some instruction →
    instruction.goesOn = true → line + 1 < code.length
  target : ∀ (line : Nat) (instruction : Instr) (label : Label), code[line]? = some instruction →
    instruction.target? = some label → ∃ target : Nat, code[target]? = some (.label label)
  halt_iff : ∀ line : Nat, code[line]? = some .halt ↔ line + 1 = code.length
  depth_halt : ∀ line : Nat, code[line]? = some .halt → depth line = 0
  depth_label : ∀ (line : Nat) (label : Label), code[line]? = some (.label label) → depth line = 0
  depth_behind : ∀ (line : Nat) (instruction : Instr), code[line]? = some instruction →
    instruction.empties = true → depth (line + 1) = 0

theorem KeepsDepth.stackDiscipline {code : List Instr} {depth : Nat → Nat}
    (h : KeepsDepth code depth) : StackDiscipline code depth where
  reachable standing hreachable := by
    obtain ⟨hdepth, hinside⟩ := h.reachable hreachable
    have hline := List.getElem?_eq_getElem hinside
    exact ⟨hdepth, _, hline, hdepth ▸ h.pops_le hline⟩
  next line instruction hline hgoes := by
    obtain ⟨-, hinside⟩ | ⟨rfl, -⟩ := h.shifts line instruction hline
    · exact hinside
    · cases hgoes
  target line instruction label hline htarget :=
    List.mem_iff_getElem?.mp (h.target_mem _ (List.mem_of_getElem? hline) label htarget)
  halt_iff line := h.halt_iff
  depth_halt line hline := by
    obtain ⟨hshifts, -⟩ | ⟨-, -, hdepth⟩ := h.shifts line _ hline
    · cases hshifts
    · exact hdepth
  depth_label line label := h.depth_label
  depth_behind line instruction hline hempties := by
    obtain ⟨hshifts, -⟩ | ⟨rfl, -⟩ := h.shifts line instruction hline
    · generalize depth line = before, depth (line + 1) = after at hshifts
      cases hshifts <;> first | rfl | cases hempties
    · cases hempties

/-! ### The machine -/

/-- What a step does to the line, to the number of values on the stack and to the store. -/
theorem Machine.exists_instr_of_step? {machine : Machine} {config next : Config}
    (h : machine.step? config = some next) :
    ∃ instruction, machine.code[config.line]? = some instruction ∧
      next.stack.length = instruction.depthBehind config.stack.length ∧
      (instruction.goesOn = true ∧ next.line = config.line + 1 ∨
        ∃ label, instruction.target? = some label ∧
          machine.code[next.line]? = some (.label label)) ∧
      (next.store = config.store ∨ ∃ name value, next.store = config.store.set name value) := by
  obtain ⟨instruction, hline, hperform⟩ := Option.bind_eq_some_iff.mp h
  obtain ⟨line, stack, store⟩ := config
  refine ⟨instruction, hline, ?_⟩
  cases instruction with
  | push literal =>
    match literal, hperform with
    | some (.int value), hperform =>
      cases hperform
      exact ⟨rfl, .inl ⟨rfl, rfl⟩, .inl rfl⟩
  | load name =>
    obtain ⟨value, -, rfl⟩ := Option.map_eq_some_iff.mp hperform
    exact ⟨rfl, .inl ⟨rfl, rfl⟩, .inl rfl⟩
  | store name =>
    match stack, hperform with
    | value :: stack, hperform =>
      cases hperform
      exact ⟨rfl, .inl ⟨rfl, rfl⟩, .inr ⟨name, value, rfl⟩⟩
  | apply operation =>
    match stack, hperform with
    | right :: left :: stack, hperform =>
      obtain ⟨value, -, rfl⟩ := Option.map_eq_some_iff.mp hperform
      exact ⟨rfl, .inl ⟨rfl, rfl⟩, .inl rfl⟩
  | jump target =>
    obtain ⟨found, hfound, rfl⟩ := Option.map_eq_some_iff.mp hperform
    exact ⟨rfl, .inr ⟨target, rfl, getElem?_of_lineOf? hfound⟩, .inl rfl⟩
  | jumpIfZero target =>
    match stack, hperform with
    | value :: stack, hperform =>
      simp only [Instr.perform?] at hperform
      split at hperform
      · obtain ⟨found, hfound, rfl⟩ := Option.map_eq_some_iff.mp hperform
        exact ⟨rfl, .inr ⟨target, rfl, getElem?_of_lineOf? hfound⟩, .inl rfl⟩
      · cases hperform
        exact ⟨rfl, .inl ⟨rfl, rfl⟩, .inl rfl⟩
  | label mark =>
    cases hperform
    exact ⟨rfl, .inl ⟨rfl, rfl⟩, .inl rfl⟩
  | halt => cases hperform

/-- A step of the machine is a move along the graph. -/
theorem Machine.flow_of_step? {machine : Machine} {config next : Config}
    (h : machine.step? config = some next) :
    Flow machine.code ⟨config.line, config.stack.length⟩ ⟨next.line, next.stack.length⟩ := by
  obtain ⟨instruction, hline, hdepth, ⟨hgoes, hnext⟩ | ⟨label, htarget, hlabel⟩, -⟩ :=
    exists_instr_of_step? h
  · rw [hdepth, hnext]
    exact .next hline hgoes
  · rw [hdepth]
    exact .jump hline htarget hlabel

/-- What the machine reaches from an empty stack on the first line is reached along a path. -/
theorem Machine.reachable_of_reaches {machine : Machine} {store : Store} {config : Config}
    (h : machine.Reaches (start store) config) :
    Reachable machine.code ⟨config.line, config.stack.length⟩ := by
  obtain ⟨count, hrun⟩ := h
  suffices hpath : ∀ first, machine.run? count first = some config →
      Relation.ReflTransGen (Flow machine.code) ⟨first.line, first.stack.length⟩
        ⟨config.line, config.stack.length⟩ from hpath _ hrun
  clear hrun
  induction count with
  | zero =>
    intro first hrun
    cases hrun
    exact .refl
  | succ count ih =>
    intro first hrun
    obtain ⟨middle, hstep, hrest⟩ := Option.bind_eq_some_iff.mp hrun
    exact .head (flow_of_step? hstep) (ih middle hrest)

/-! ### Expressions in code -/

theorem Machine.HasAt.isPrefix_drop {machine : Machine} {line : Nat} {piece : List Instr}
    (h : machine.HasAt line piece) : piece <+: machine.code.drop line := by
  obtain ⟨before, after, hcode, rfl⟩ := h
  rw [hcode, List.append_assoc, List.drop_left]
  exact List.prefix_append piece after

/-- Inside a piece of code, the depth is counted on from that of its first line. -/
theorem depthAt_add {code piece : List Instr} {line : Nat} (h : piece <+: code.drop line)
    {count : Nat} (hcount : count ≤ piece.length) :
    depthAt code (line + count) = depthBehind (depthAt code line) (piece.take count) := by
  obtain ⟨after, hafter⟩ := h
  rw [depthAt, List.take_add, depthBehind_append, ← hafter, List.take_append_of_le_length hcount]
  rfl

/-- Where the code of an expression starts with an empty stack, the greatest depth in it is the
height of the expression. -/
theorem Expr.isGreatest_depthAt {e : Expr} (h : OperatorsOperate e.parts) {code : List Instr}
    {line : Nat} (hcode : e.code <+: code.drop line) (hempty : depthAt code line = 0) :
    IsGreatest {found | ∃ count ≤ e.code.length, found = depthAt code (line + count)}
      e.height := by
  have hpeak := isGreatest_peak 0 e.code
  rw [Expr.peak_code h, Nat.zero_add] at hpeak
  convert hpeak using 2
  refine Set.ext fun found ↦ exists_congr fun count ↦ and_congr_right fun hcount ↦ ?_
  rw [depthAt_add hcode hcount, hempty]

/-- The expression that a statement computes for itself, with its line. -/
def Site.expression? : Site → Option (Nat × Expr)
  | ⟨line, _, .assign _ value⟩ => some (line, value)
  | ⟨line, _, .ifThen condition _⟩ | ⟨line, _, .ifElse condition _ _⟩ => some (line, condition)
  | ⟨line, _, .loop condition _⟩ => some (line + 1, condition)
  | ⟨_, _, .block _⟩ => none

section Sites

variable {site : Site} {line : Nat} {e : Expr}

theorem Site.parts_subset_of_expression? (h : site.expression? = some (line, e)) :
    e.parts ⊆ site.statement.expressions := by
  obtain ⟨start, first, statement⟩ := site
  cases statement <;> cases h <;> simp [Stmt.expressions]

/-- The value of the expression of a statement is taken off the stack at once. -/
theorem Site.hasAt_of_expression? {machine : Machine} (h : site.expression? = some (line, e))
    (hsite : machine.HasAt site.line site.code) :
    machine.HasAt line e.code ∧ ∃ taker, machine.HasAt (line + e.code.length) [taker] ∧
      ((∃ name, taker = .store name) ∨ ∃ target, taker = .jumpIfZero target) := by
  obtain ⟨start, first, statement⟩ := site
  cases statement with
  | assign target value =>
    cases h
    exact ⟨hsite.left, _, hsite.right, .inl ⟨_, rfl⟩⟩
  | ifThen condition body | ifElse condition body alternative =>
    cases h
    have htest := hsite.left.left.left.left
    exact ⟨htest.left, _, htest.right, .inr ⟨_, rfl⟩⟩
  | loop condition body =>
    cases h
    have htest := hsite.left.left
    have htaker := htest.right
    rw [List.length_append, List.length_singleton, ← Nat.add_assoc] at htaker
    exact ⟨htest.left.right, _, htaker, .inr ⟨_, rfl⟩⟩
  | block statements => cases h

/-- The code of a statement that computes an expression finds an empty stack there. -/
theorem Site.depthAt_eq_zero {machine : Machine}
    (hkeeps : KeepsDepth machine.code (depthAt machine.code))
    (hsite : machine.HasAt site.line site.code) (h : site.expression? = some (line, e))
    (hoperators : OperatorsOperate e.parts) : depthAt machine.code line = 0 := by
  obtain ⟨hcode, taker, htaker, hkind⟩ := site.hasAt_of_expression? h hsite
  have hbehind := depthAt_add hcode.isPrefix_drop (Nat.le_refl e.code.length)
  rw [List.take_length, (Expr.codeShifts hoperators _).depthBehind_eq] at hbehind
  obtain ⟨hshifts, -⟩ | ⟨rfl, -⟩ := hkeeps.shifts _ _ htaker.getElem?
  · rw [hbehind] at hshifts
    generalize depthAt machine.code (line + e.code.length + 1) = after at hshifts
    generalize depthAt machine.code line = before at hshifts ⊢
    obtain ⟨name, rfl⟩ | ⟨target, rfl⟩ := hkind <;> cases hshifts <;> rfl
  · simp at hkind

end Sites

theorem Stmt.expressions_subset_of_mem_sitesOfAll {statements : List Stmt}
    (ih : ∀ statement ∈ statements, ∀ {line first}, ∀ site ∈ statement.sites line first,
      site.statement.expressions ⊆ statement.expressions) {line : Nat} {first : Label} :
    ∀ site ∈ Stmt.sitesOfAll line first statements,
      site.statement.expressions ⊆ Stmt.expressionsOfAll statements := by
  induction statements generalizing line first with
  | nil => simp [sitesOfAll]
  | cons statement more ihmore =>
    intro site hsite
    rcases List.mem_append.mp hsite with hsite | hsite
    · exact List.subset_append_of_subset_left _ (ih statement List.mem_cons_self site hsite)
    · have hmore := ihmore (fun other hother ↦ ih other (List.mem_cons_of_mem _ hother)) site hsite
      exact List.subset_append_of_subset_right _ hmore

theorem Stmt.expressions_subset_of_mem_sites (statement : Stmt) :
    ∀ {line : Nat} {first : Label}, ∀ site ∈ statement.sites line first,
      site.statement.expressions ⊆ statement.expressions := by
  induction statement with
  | assign target value => simp [sites]
  | ifThen condition body ih | loop condition body ih =>
    intro line first site hsite
    rcases List.mem_cons.mp hsite with rfl | hsite
    · exact List.Subset.refl _
    · exact List.subset_append_of_subset_right _ (ih site hsite)
  | ifElse condition body alternative ihbody ihalternative =>
    intro line first site hsite
    rcases List.mem_cons.mp hsite with rfl | hsite
    · exact List.Subset.refl _
    · rcases List.mem_append.mp hsite with hsite | hsite
      · have hbody := List.subset_append_of_subset_right condition.parts (ihbody site hsite)
        exact List.subset_append_of_subset_left _ hbody
      · exact List.subset_append_of_subset_right _ (ihalternative site hsite)
  | block statements ih =>
    intro line first site hsite
    rcases List.mem_cons.mp hsite with rfl | hsite
    · exact List.Subset.refl _
    · exact expressions_subset_of_mem_sitesOfAll ih site hsite

/-! ### Programs that are read -/

theorem OperatorsOperate.append {first second : List Expr} (hfirst : OperatorsOperate first)
    (hsecond : OperatorsOperate second) : OperatorsOperate (first ++ second) :=
  fun left operator right hmem ↦ (List.mem_append.mp hmem).elim (hfirst left operator right)
    (hsecond left operator right)

theorem TokenKind.exists_operation {kind : TokenKind} (h : kind ∈ TokenKind.operators) :
    ∃ operation, Operation.ofKind? kind = some operation := by
  simp only [operators, List.mem_cons, List.not_mem_nil, or_false] at h
  rcases h with rfl | rfl | rfl | rfl | rfl | rfl | rfl | rfl | rfl <;> exact ⟨_, rfl⟩

theorem Expr.WellFormed.operatorsOperate {e : Expr} (h : e.WellFormed) :
    OperatorsOperate e.parts := by
  induction h with
  | intLit _ | boolLit _ | use _ => simp [OperatorsOperate, parts]
  | binary _ hoperator _ ihleft ihright =>
    intro left operator right hmem
    rcases List.mem_cons.mp hmem with hself | hmem
    · cases hself
      exact TokenKind.exists_operation hoperator
    · exact (ihleft.append ihright) left operator right hmem

theorem Stmt.WellFormed.operatorsOperate {statement : Stmt} (h : statement.WellFormed) :
    OperatorsOperate statement.expressions := by
  induction h with
  | assign _ hvalue => exact hvalue.operatorsOperate
  | ifThen hcondition _ ih | loop hcondition _ ih => exact hcondition.operatorsOperate.append ih
  | ifElse hcondition _ _ _ ihbody ihalternative =>
    exact (hcondition.operatorsOperate.append ihbody).append ihalternative
  | block _ ih =>
    intro left operator right hmem
    obtain ⟨statement, hstatement, hmem⟩ := mem_expressionsOfAll.mp hmem
    exact ih statement hstatement left operator right hmem

/-- The operators of programs that are read operate. -/
theorem operatorsOperate_of_readProgramWithin {stream rest : TokenStream} {depth : Nat}
    {lines : List String} {program : Program}
    (h : stream.readProgramWithin depth lines = (.ok program, rest)) :
    OperatorsOperate program.expressions := by
  obtain ⟨tokens, -, hderives, hnearest⟩ := TokenStream.derives_of_readProgramWithin h
  exact (Stmt.WellFormed.block (hderives.wellFormed hnearest).statements).operatorsOperate

/-- The code of a program that is read keeps the stack in order, whether the program passes the
check or not: there are numbers of values on the lines that hold on every path from the first line
with an empty stack, and so wherever the machine comes. The expressions of the statements find an
empty stack, and where an expression does, the greatest number of values in its code is its
height. There is code if the literals can be written, as those of a text can
(`literalsAreWritable_of_scan`). -/
theorem exists_stackDiscipline {stream rest : TokenStream} {depth : Nat} {lines : List String}
    {program : Program} (hread : stream.readProgramWithin depth lines = (.ok program, rest))
    (hwritable : LiteralsAreWritable program.expressions) :
    ∃ code labels, program.node.code = .ok (code, labels) ∧ ∃ values : Nat → Nat,
      StackDiscipline code values ∧
      (∀ divide store config, Machine.Reaches ⟨code, divide⟩ (start store) config →
        config.stack.length = values config.line) ∧
      (∀ e ∈ program.expressions, ∀ line, e.code <+: code.drop line → values line = 0 →
        IsGreatest {found | ∃ count ≤ e.code.length, found = values (line + count)} e.height) ∧
      ∀ site ∈ program.sites, ∀ line e, site.expression? = some (line, e) →
        e ∈ program.expressions ∧ e.code <+: code.drop line ∧ values line = 0 := by
  have hoperators := operatorsOperate_of_readProgramWithin hread
  have hkeeps := program.keepsDepth_code hoperators
  refine ⟨program.code, _, program.code_node hoperators hwritable, depthAt program.code,
    hkeeps.stackDiscipline, fun divide store config hreaches ↦ ?_,
    fun e he line hcode hempty ↦ ?_, fun site hsite line e he ↦ ?_⟩
  · exact (hkeeps.reachable (reachable_of_reaches hreaches)).1
  · have hparts : e.parts ⊆ (Stmt.block program.statements).expressions :=
      Stmt.parts_subset_of_mem_expressions he
    exact e.isGreatest_depthAt (hoperators.of_subset hparts) hcode hempty
  · have hparts := List.Subset.trans (Site.parts_subset_of_expression? he)
      (Stmt.expressions_subset_of_mem_sites (.block program.statements) site hsite)
    have hstands : Machine.HasAt ⟨program.code, fun _ _ ↦ none⟩ site.line site.code :=
      program.hasAt_of_mem_sites hsite
    exact ⟨hparts e.self_mem_parts, (site.hasAt_of_expression? he hstands).1.isPrefix_drop,
      site.depthAt_eq_zero hkeeps hstands he (hoperators.of_subset hparts)⟩

/-- The body of the loop `while a < 3 do a := 1 - (2 - a)`. -/
def reflection : Stmt :=
  let token (kind : TokenKind) (lexeme : String) : Token := ⟨kind, lexeme, none, ⟨"", 1, 1⟩⟩
  let one : Token := ⟨.intLit, "1", some (.int 1), ⟨"", 1, 1⟩⟩
  let two : Token := ⟨.intLit, "2", some (.int 2), ⟨"", 1, 1⟩⟩
  let a := token .ident "a"
  let minus := token .minus "-"
  .assign a (.binary (.intLit one) minus (.binary (.intLit two) minus (.use a)))

/-- The program `program p; begin while a < 3 do a := 1 - (2 - a); end`, in which `a` is not
declared. -/
def reflecting : Program :=
  let token (kind : TokenKind) (lexeme : String) : Token := ⟨kind, lexeme, none, ⟨"", 1, 1⟩⟩
  let three : Token := ⟨.intLit, "3", some (.int 3), ⟨"", 1, 1⟩⟩
  { name := token .ident "p"
    declarations := []
    statements := [.loop (.binary (.use (token .ident "a")) (token .less "<") (.intLit three))
      reflection] }

/-- The body of the loop starts on the sixth line and needs three values on the stack, however often
the loop is entered. -/
theorem stackDiscipline_reflecting :
    reflecting.stream.readProgramWithin nestingLimit [] =
      (.ok reflecting, .endingAt ⟨"", 1, 1⟩ []) ∧
    LiteralsAreWritable reflecting.expressions ∧
    ∃ code labels, reflecting.node.code = .ok (code, labels) ∧ ∃ values : Nat → Nat,
      StackDiscipline code values ∧ ⟨5, 2, reflection⟩ ∈ reflecting.sites ∧
        IsGreatest {found | ∃ count ≤ 5, found = values (5 + count)} 3 := by
  have hread : reflecting.stream.readProgramWithin nestingLimit [] =
      (.ok reflecting, .endingAt ⟨"", 1, 1⟩ []) := rfl
  have hwritable : LiteralsAreWritable reflecting.expressions := by decide +kernel
  obtain ⟨code, labels, hcode, values, hvalues, -, hheight, hsites⟩ :=
    exists_stackDiscipline hread hwritable
  have hsite : ⟨5, 2, reflection⟩ ∈ reflecting.sites :=
    .tail _ (.tail _ List.mem_cons_self)
  obtain ⟨he, hstands, hempty⟩ := hsites _ hsite _ _ rfl
  exact ⟨hread, hwritable, code, labels, hcode, values, hvalues, hsite,
    hheight _ he 5 hstands hempty⟩

end StackCompiler
