import StackCompiler.Machine.Code
import StackCompiler.Tree.Node

/-!
# Code for trees

An expression becomes code that leaves one value on the stack: the code of the left operand, that
of the right operand, and the operation. Conditions and loops become jumps:

    if c then s else t        while c do s
        c                     m:
        jump if zero m            c
        s                         jump if zero n
        jump n                    s
    m:                            jump m
        t                     n:
    n:

Each of the two takes two labels before its parts take theirs, so labels are numbered in the order
in which the constructs begin. A condition without `else` has the same code, with nothing for `t`.
-/

set_option autoImplicit false
set_option relaxedAutoImplicit false

namespace StackCompiler

/-- The instruction of an operator. -/
def Instr.ofOperator (operator : Token) : Except Breakdown Instr :=
  match Operation.ofKind? operator.kind with
  | some operation => .ok (.apply operation)
  | none => .error (.noInstruction operator.kind)

/-- The instruction of a literal, whose number has to be written. -/
def Instr.ofLiteral (token : Token) : Except Breakdown Instr :=
  if token.literal.all Literal.isWritable then .ok (.push token.literal)
  else .error .unwritableLiteral

/-- The code of a condition. -/
def branchCode (first : Label) (condition body alternative : List Instr) : List Instr :=
  condition ++ [.jumpIfZero first] ++ body ++ [.jump (first + 1), .label first] ++ alternative ++
    [.label (first + 1)]

/-- The code of a loop. -/
def loopCode (first : Label) (condition body : List Instr) : List Instr :=
  [.label first] ++ condition ++ [.jumpIfZero (first + 1)] ++ body ++
    [.jump first, .label (first + 1)]

mutual

/-- The code of a tree whose labels are numbered from `first` on, and the number after the last of
them. Declarations reserve nothing: variables are addressed by name. Only a program halts. -/
def Node.codeFrom (first : Label) : Node → Except Breakdown (List Instr × Label)
  | .program _ declarations body => do
    let (declared, middle) ← Node.codeFromAll first declarations
    let (body, next) ← body.codeFrom middle
    return (declared ++ body ++ [.halt], next)
  | .varDecl _ _ => return ([], first)
  | .block statements => Node.codeFromAll first statements
  | .assign target value => do
    let (value, next) ← value.codeFrom first
    return (value ++ [.store target.lexeme], next)
  | .ifThen condition body => do
    let (condition, middle) ← condition.codeFrom (first + 2)
    let (body, next) ← body.codeFrom middle
    return (branchCode first condition body [], next)
  | .ifElse condition body alternative => do
    let (condition, middle) ← condition.codeFrom (first + 2)
    let (body, later) ← body.codeFrom middle
    let (alternative, next) ← alternative.codeFrom later
    return (branchCode first condition body alternative, next)
  | .loop condition body => do
    let (condition, middle) ← condition.codeFrom (first + 2)
    let (body, next) ← body.codeFrom middle
    return (loopCode first condition body, next)
  | .binary left operator right => do
    let (left, middle) ← left.codeFrom first
    let (right, next) ← right.codeFrom middle
    let operation ← Instr.ofOperator operator
    return (left ++ right ++ [operation], next)
  | .intLit token => return ([← Instr.ofLiteral token], first)
  | .boolLit token => return ([.push (some (.int (if token.truth then 1 else 0)))], first)
  | .use name => return ([.load name.lexeme], first)
  | .hole gap => .error (.hole gap)

def Node.codeFromAll (first : Label) : List Node → Except Breakdown (List Instr × Label)
  | [] => return ([], first)
  | node :: more => do
    let (code, middle) ← node.codeFrom first
    let (later, next) ← Node.codeFromAll middle more
    return (code ++ later, next)

end

/-- The code of a tree, and the number of labels in it. -/
def Node.code (node : Node) : Except Breakdown (List Instr × Label) :=
  node.codeFrom 0

end StackCompiler
