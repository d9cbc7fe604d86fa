import StackCompiler.Diagnostic
import StackCompiler.Tree.Node
import StackCompiler.Typing.Scope

/-!
# Context check

The rules for declarations and types. A declaration enters its variable into the scope, once for
each name, and in a program all declarations come before the body; every variable in it has to be
declared, and

* an assignment needs a value of the type of its variable,
* a condition has to be Boolean,
* `+ - * /` join integers to an integer, `and or` join Booleans to a Boolean, and `< > =` compare
  two values of one type.

The check stops at the first rule that is broken, and what it finds is a `Violation`: the cause
and the token where it stands. A tree is looked at in the order of its parts, an operation after its
operands. What is no expression has no type.
-/

set_option autoImplicit false
set_option relaxedAutoImplicit false

namespace StackCompiler

/-- A rule that a program breaks, and the token where it does. -/
structure Violation where
  cause : Cause
  token : Token
  deriving DecidableEq, Repr

/-- What stops a check. -/
inductive CheckFault where
  | violation (violation : Violation)
  | breakdown (breakdown : Breakdown)
  deriving DecidableEq, Repr

/-- A check takes the scope to a larger one, which stays when the check stops. -/
abbrev Check := ExceptT CheckFault (StateM Scope)

def violate {α : Type} (cause : Cause) (token : Token) : Check α :=
  throw (.violation ⟨cause, token⟩)

def breakDown {α : Type} (breakdown : Breakdown) : Check α :=
  throw (.breakdown breakdown)

/-- The variable that a token names. -/
def requireVariable (name : Token) : Check Variable := do
  let scope ← get
  match scope.find? name.lexeme with
  | some found => return found
  | none => violate (.undeclared name.lexeme (scope.similarNames name.lexeme)) name

/-- The words for the type of a tree that may have none. -/
def typeText : Option Ty → String
  | some type => type.name
  | none => "None"

/-! ### Operations and conditions -/

/-- The types of a binary operation: what it asks of its operands, in words and as a condition, and
the type of its result. -/
structure OperatorRule where
  requirement : String
  accepts : Option Ty → Option Ty → Bool
  result : Ty

def OperatorRule.ofKind? (kind : TokenKind) : Option OperatorRule :=
  let both (type : Ty) (left right : Option Ty) := left == some type && right == some type
  if kind.isArithmetic then some ⟨"integer operands", both .integer, .integer⟩
  else if kind.isLogical then some ⟨"boolean operands", both .boolean, .boolean⟩
  else if kind.isComparison then
    some ⟨"operands of the same type", fun left right => left == right, .boolean⟩
  else none

/-- The type of an operation on operands of the given types. -/
def operationType (operator : Token) (left right : Option Ty) : Check Ty :=
  match OperatorRule.ofKind? operator.kind with
  | some rule =>
    if rule.accepts left right then return rule.result
    else
      violate (.operandTypes operator.lexeme rule.requirement (typeText left) (typeText right))
        operator
  | none => breakDown (.unknownOperator operator.kind)

/-- The first token of an expression, parentheses aside. -/
def Node.firstToken : Node → Check Token
  | binary left _ _ => left.firstToken
  | intLit token | boolLit token | use token => return token
  | other => breakDown (.noFirstToken other.kindName)

/-- Asks that the condition of a statement with the given keyword, whose type is known, is Boolean.
The violation stands at the first token of the condition. -/
def requireBoolean (statement : String) (condition : Node) (type : Option Ty) : Check Unit := do
  if type == some .boolean then return ()
  else violate (.conditionType statement (typeText type)) (← condition.firstToken)

/-! ### Declarations -/

/-- The type that a token names. -/
def Token.type (token : Token) : Except Breakdown Ty :=
  match Ty.ofKind? token.kind with
  | some type => .ok type
  | none => .error (.notTypeName token.kind)

/-- The violation at a declaration whose name is declared already. -/
def Scope.duplicate (first new : Variable) : Violation :=
  ⟨.duplicateDeclaration new.name (some first.token.location), new.token⟩

/-- Enters a declaration. -/
def enter (name type : Token) : Check Unit := do
  match type.type with
  | .error found => breakDown found
  | .ok type =>
    match (← get).declare ⟨name, type⟩ with
    | .ok larger => set larger
    | .error first => throw (.violation (Scope.duplicate first ⟨name, type⟩))

/-! ### Trees -/

mutual

/-- Checks a tree and gives its type. -/
def Node.findType : Node → Check (Option Ty)
  | .program _ declarations body => do
    Node.findTypes declarations
    let _ ← body.findType
    return none
  | .varDecl name type => do
    enter name type
    return none
  | .block statements => do
    Node.findTypes statements
    return none
  | .assign target value => do
    let declared ← requireVariable target
    let type ← value.findType
    if type == some declared.type then return none
    else violate (.assignmentType target.lexeme declared.type.name (typeText type)) target
  | .ifThen condition body => do
    requireBoolean "if" condition (← condition.findType)
    let _ ← body.findType
    return none
  | .ifElse condition body alternative => do
    requireBoolean "if" condition (← condition.findType)
    let _ ← body.findType
    let _ ← alternative.findType
    return none
  | .loop condition body => do
    requireBoolean "while" condition (← condition.findType)
    let _ ← body.findType
    return none
  | .binary left operator right => do
    let left ← left.findType
    let right ← right.findType
    return some (← operationType operator left right)
  | .intLit _ => return some .integer
  | .boolLit _ => return some .boolean
  | .use name => return some (← requireVariable name).type
  | .hole gap => breakDown (.hole gap)

def Node.findTypes : List Node → Check Unit
  | [] => return ()
  | node :: more => do
    let _ ← node.findType
    Node.findTypes more

end

/-- Checks a tree on top of what is declared already. The scope holds what was entered, whether the
check succeeds or not. -/
def Node.check (scope : Scope) (node : Node) : Except CheckFault (Option Ty) × Scope :=
  node.findType.run.run scope

end StackCompiler
