import StackCompiler.Machine.Code
import StackCompiler.Proofs.Execution.Store

/-!
# Execution of machine code

The machine that the instructions are for: a line number, a stack of integers and a store. Integers
are unbounded, truth values are `1` and `0`, and a label line does nothing. What division gives, and
for which operands, is left open (`Division`). A configuration has at most one successor
(`Machine.step?`); it has none at `halt`, behind the last line, and where an instruction does not
find what it needs: an operand, a value in the store, an integer to push, the line of a label, or a
division that accepts its operands.

`Machine.run?` takes a number of steps. Runs with the same start can be told apart by their lengths
only, so what a run that ends at `halt` passes through is reached on every other way too
(`Machine.exists_rest_of_reaches`).
-/

set_option autoImplicit false
set_option relaxedAutoImplicit false

namespace StackCompiler

/-- What an operation makes of the two values that it pops. Every integer but zero counts as
true. -/
def Operation.result? (divide : Division) : Operation → Int → Int → Option Int
  | add, left, right => some (left + right)
  | sub, left, right => some (left - right)
  | mult, left, right => some (left * right)
  | div, left, right => divide left right
  | and, left, right => some (left != 0 && right != 0).toInt
  | or, left, right => some (left != 0 || right != 0).toInt
  | equal, left, right => some (left == right).toInt
  | less, left, right => some (decide (left < right)).toInt
  | greater, left, right => some (decide (left > right)).toInt

/-- The line of code that holds a label. -/
def lineOf? (code : List Instr) (label : Label) : Option Nat :=
  code.findIdx? (· == .label label)

namespace Machine

structure Config where
  line : Nat
  stack : List Int
  store : Store

/-- The configuration on the next line with another stack. -/
def Config.next (config : Config) (stack : List Int) : Config :=
  { config with line := config.line + 1, stack := stack }

/-- The configuration on the line of a label with another stack. -/
def Config.goTo? (config : Config) (code : List Instr) (label : Label) (stack : List Int) :
    Option Config :=
  (lineOf? code label).map fun line ↦ { config with line := line, stack := stack }

end Machine

open Machine

/-- The effect of an instruction. -/
def Instr.perform? (divide : Division) (code : List Instr) (config : Config) :
    Instr → Option Config
  | .push (some (.int value)) => some (config.next (value :: config.stack))
  | .push _ => none
  | .load name => (config.store name).map fun value ↦ config.next (value :: config.stack)
  | .store name =>
    match config.stack with
    | value :: stack =>
      some { config.next stack with store := config.store.set name value }
    | [] => none
  | .apply operation =>
    match config.stack with
    | right :: left :: stack =>
      (operation.result? divide left right).map fun value ↦ config.next (value :: stack)
    | _ => none
  | .jump target => config.goTo? code target config.stack
  | .jumpIfZero target =>
    match config.stack with
    | value :: stack =>
      if value = 0 then config.goTo? code target stack else some (config.next stack)
    | [] => none
  | .label _ => some (config.next config.stack)
  | .halt => none

/-- A machine with its code and its division. -/
structure Machine where
  code : List Instr
  divide : Division

namespace Machine

variable (machine : Machine)

/-- The successor of a configuration. -/
def step? (config : Config) : Option Config :=
  machine.code[config.line]?.bind fun instruction ↦
    instruction.perform? machine.divide machine.code config

/-- The configuration after a number of steps. -/
def run? : Nat → Config → Option Config
  | 0, config => some config
  | count + 1, config => (machine.step? config).bind (run? count)

/-- The configuration on the first line with an empty stack. -/
def start (store : Store) : Config :=
  ⟨0, [], store⟩

def Reaches (first last : Config) : Prop :=
  ∃ count, machine.run? count first = some last

/-- The configuration is at a line that halts. -/
def AtHalt (config : Config) : Prop :=
  machine.code[config.line]? = some .halt

/-- The run from the first line on a store halts in a configuration. -/
def Halts (store : Store) (last : Config) : Prop :=
  machine.Reaches (start store) last ∧ machine.AtHalt last

variable {machine} {first middle last : Config}

/-! ### Runs -/

theorem run?_add (before after : Nat) (config : Config) :
    machine.run? (before + after) config =
      (machine.run? before config).bind (machine.run? after) := by
  induction before generalizing config with
  | zero => simp [run?]
  | succ before ih =>
    rw [Nat.succ_add]
    simp only [run?]
    cases machine.step? config with
    | none => rfl
    | some next => exact ih next

theorem Reaches.refl (config : Config) : machine.Reaches config config :=
  ⟨0, rfl⟩

theorem Reaches.of_step (h : machine.step? first = some last) : machine.Reaches first last :=
  ⟨1, by simp [run?, h]⟩

theorem Reaches.trans (h : machine.Reaches first middle) (hlast : machine.Reaches middle last) :
    machine.Reaches first last := by
  obtain ⟨before, hbefore⟩ := h
  obtain ⟨after, hafter⟩ := hlast
  exact ⟨before + after, by rw [run?_add, hbefore]; exact hafter⟩

theorem AtHalt.step?_eq_none (h : machine.AtHalt last) : machine.step? last = none := by
  rw [step?, h]
  rfl

/-- A run to a configuration without successor passes through all that its start reaches. -/
theorem exists_rest_of_reaches {count : Nat} (hrun : machine.run? count first = some last)
    (hend : machine.step? last = none) (h : machine.Reaches first middle) :
    ∃ rest ≤ count, machine.run? rest middle = some last := by
  obtain ⟨before, hbefore⟩ := h
  by_cases hshort : before ≤ count
  · obtain ⟨rest, rfl⟩ := Nat.exists_eq_add_of_le hshort
    rw [run?_add, hbefore] at hrun
    exact ⟨rest, Nat.le_add_left .., hrun⟩
  · obtain ⟨more, rfl⟩ := Nat.exists_eq_add_of_lt (Nat.lt_of_not_le hshort)
    rw [Nat.add_assoc, run?_add, hrun] at hbefore
    simp [run?, hend] at hbefore

/-- A first step makes the run to a configuration without successor shorter. -/
theorem exists_rest_of_step {count : Nat} (hrun : machine.run? count first = some last)
    (hend : machine.step? last = none) (h : machine.step? first = some middle) :
    ∃ rest < count, machine.run? rest middle = some last := by
  cases count with
  | zero =>
    cases hrun
    rw [hend] at h
    cases h
  | succ count =>
    rw [run?, h] at hrun
    exact ⟨count, Nat.lt_succ_self count, hrun⟩

/-- From one start no two configurations without successor are reached. -/
theorem Reaches.eq_of_step?_eq_none {other : Config} (h : machine.Reaches first last)
    (hother : machine.Reaches first other) (hend : machine.step? last = none)
    (hstuck : machine.step? other = none) : last = other := by
  obtain ⟨count, hrun⟩ := h
  obtain ⟨rest, -, hrest⟩ := exists_rest_of_reaches hrun hend hother
  cases rest with
  | zero => exact (Option.some.inj hrest).symm
  | succ rest => simp [run?, hstuck] at hrest

end Machine

end StackCompiler
