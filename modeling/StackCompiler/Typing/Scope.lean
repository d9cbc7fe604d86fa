import StackCompiler.Text.Similarity
import StackCompiler.Token.Basic

/-!
# Scopes

The declared variables of a program, in the order of their declarations. A name is declared once:
`Scope.declare` refuses it the second time and says which declaration came first.
-/

set_option autoImplicit false
set_option relaxedAutoImplicit false

namespace StackCompiler

/-- The two types of value. -/
inductive Ty where
  | integer
  | boolean
  deriving DecidableEq, Repr

namespace Ty

def name : Ty → String
  | integer => "integer"
  | boolean => "boolean"

def ofName? (text : String) : Option Ty :=
  [integer, boolean].find? (·.name == text)

/-- The type that a keyword names. -/
def ofKind? : TokenKind → Option Ty
  | .integerKw => some integer
  | .booleanKw => some boolean
  | _ => none

end Ty

/-- A declared variable, with the token that declares it. -/
structure Variable where
  token : Token
  type : Ty
  deriving DecidableEq, Repr

def Variable.name (declared : Variable) : String :=
  declared.token.lexeme

structure Scope where
  entries : List Variable
  deriving DecidableEq, Repr

namespace Scope

def empty : Scope := ⟨[]⟩

def find? (scope : Scope) (name : String) : Option Variable :=
  scope.entries.find? (·.name == name)

def contains (scope : Scope) (name : String) : Bool :=
  (scope.find? name).isSome

def names (scope : Scope) : List String :=
  scope.entries.map Variable.name

def size (scope : Scope) : Nat :=
  scope.entries.length

/-- The scope with a further variable, or the one that has the name already. -/
def declare (scope : Scope) (new : Variable) : Except Variable Scope :=
  match scope.find? new.name with
  | some first => .error first
  | none => .ok ⟨scope.entries ++ [new]⟩

/-- The declared names that are close to a name. -/
def similarNames (scope : Scope) (name : String) : List String :=
  Text.closeWords name scope.names

end Scope

end StackCompiler
