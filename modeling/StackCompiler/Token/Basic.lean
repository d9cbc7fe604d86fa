import StackCompiler.Number.Shortest
import StackCompiler.Text.Quoted
import StackCompiler.Token.Kind

/-!
# Tokens

A token is a piece of source text with its kind, the number that it stands for if it is a literal,
and the place where it starts. Lines and columns count from one; tokens that no scan produced may
hold any integers there.
-/

set_option autoImplicit false
set_option relaxedAutoImplicit false

namespace StackCompiler

/-- A place in a source file. -/
structure Location where
  file : String
  line : Int
  column : Int
  deriving DecidableEq, Repr

def Location.text (place : Location) : String :=
  s!"{place.file}:{place.line}:{place.column}"

/-- The number that a literal stands for. -/
inductive Literal where
  | int (value : Int)
  | float (value : Binary64)
  deriving DecidableEq, Repr

/-- The number of digits, leading zeros included, up to which an integer is converted, be it read
from digits or written with them. -/
def integerDigitLimit : Nat := 4300

namespace Literal

/-- Whether the number can be written: an integer needs no more digits than are converted. -/
def isWritable : Literal → Bool
  | int value => value.natAbs < Nat.pow 10 integerDigitLimit
  | float _ => true

/-- The number as it is written, if it can be. -/
def text : Literal → String
  | int value => toString value
  | float value => value.text

end Literal

structure Token where
  kind : TokenKind
  lexeme : String
  literal : Option Literal
  location : Location
  deriving DecidableEq, Repr

namespace Token

/-- What a listing shows between the kind and the place: the number of a literal, otherwise the
source text if there is any. -/
def content (token : Token) : List String :=
  match token.literal with
  | some number => [number.text]
  | none => if token.lexeme.isEmpty then [] else [Text.quoted token.lexeme]

/-- The token as it is listed. -/
def listing (token : Token) : String :=
  let place := s!"{token.location.line}:{token.location.column}"
  let parts := ", ".intercalate (token.kind.name :: token.content ++ [place])
  s!"Token({parts})"

end Token

end StackCompiler
