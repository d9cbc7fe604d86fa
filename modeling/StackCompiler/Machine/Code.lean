import StackCompiler.Token.Basic

/-!
# Machine code

The instructions of a stack machine with named variables and numbered labels. Each instruction is
one line of text, a label on a line of its own.
-/

set_option autoImplicit false
set_option relaxedAutoImplicit false

namespace StackCompiler

/-- The operations on the two values on top of the stack. -/
inductive Operation where
  | add | sub | mult | div
  | and | or
  | equal | less | greater
  deriving DecidableEq, Repr

namespace Operation

def text : Operation → String
  | add => "ADD"
  | sub => "SUB"
  | mult => "MULT"
  | div => "DIV"
  | and => "AND"
  | or => "OR"
  | equal => "EQ"
  | less => "LT"
  | greater => "GT"

/-- The operation that an operator stands for. -/
def ofKind? : TokenKind → Option Operation
  | .plus => some add
  | .minus => some sub
  | .times => some mult
  | .divide => some div
  | .andKw => some and
  | .orKw => some or
  | .equal => some equal
  | .less => some less
  | .greater => some greater
  | _ => none

end Operation

abbrev Label := Nat

/-- The name of a label, made of its number. -/
def labelName (stem : String) (label : Label) : String :=
  s!"{stem}{label}"

/-- Hands out labels in the order of their numbers. Their names have a common stem. -/
structure LabelSupply where
  stem : String
  used : Nat
  deriving DecidableEq, Repr

namespace LabelSupply

def withStem (stem : String) : LabelSupply := ⟨stem, 0⟩

/-- The next label. -/
def take (supply : LabelSupply) : Label × LabelSupply :=
  (supply.used, { supply with used := supply.used + 1 })

/-- The name of the next label. -/
def takeName (supply : LabelSupply) : String × LabelSupply :=
  let (label, rest) := supply.take
  (labelName supply.stem label, rest)

end LabelSupply

inductive Instr where
  /-- Pushes the value of a literal. -/
  | push (value : Option Literal)
  | load (name : String)
  /-- Pops into a variable. -/
  | store (name : String)
  /-- Pops two values and pushes the result. -/
  | apply (operation : Operation)
  | jump (target : Label)
  /-- Pops, and jumps if the value is zero. -/
  | jumpIfZero (target : Label)
  /-- Marks a place; no operation. -/
  | label (label : Label)
  | halt
  deriving DecidableEq, Repr

namespace Instr

/-- What the names of labels in code begin with. -/
def labelStem : String := "L"

/-- The name of a label in code. -/
def labelText (label : Label) : String :=
  labelName labelStem label

/-- Whether the number that is pushed, if there is one, can be written. No other code is
generated. -/
def isWritable : Instr → Bool
  | push value => value.all Literal.isWritable
  | _ => true

/-- The line of an instruction, if it can be written. -/
def text : Instr → String
  | push (some value) => s!"LOADL {value.text}"
  | push none => "LOADL"
  | load name => s!"LOAD {name}"
  | store name => s!"STORE {name}"
  | apply operation => operation.text
  | jump target => s!"JUMP {labelText target}"
  | jumpIfZero target => s!"JUMPIF(0) {labelText target}"
  | label mark => s!"{labelText mark}:"
  | halt => "HALT"

end Instr

/-- Code as text: every line is closed by a line feed. -/
def codeText (code : List Instr) : String :=
  String.join (code.map fun instruction => instruction.text ++ "\n")

end StackCompiler
