import StackCompiler.Token.Basic

/-!
# Diagnostics

What can be wrong with a source program. A `Cause` says what is wrong, a `Diagnostic` adds the
place and the source line. The wording of every cause is in `Cause.text` and `Cause.hint`;
`Diagnostic.message` sets it out with the place in front, the source line and a caret under the
column, and the hint.
-/

set_option autoImplicit false
set_option relaxedAutoImplicit false

namespace StackCompiler

/-- The three families of failure. -/
inductive Family where
  | lexical
  | grammar
  | context
  deriving DecidableEq, Repr

def Family.name : Family → String
  | lexical => "lexical"
  | grammar => "syntax"
  | context => "context"

/-- How closely a diagnostic without a cause of its own is classed. -/
inductive Rank where
  | unranked
  | ranked (family : Family)
  deriving DecidableEq, Repr

inductive Cause where
  /-- A cause in words only. -/
  | stated (rank : Rank) (words : String) (advice : Option String)
  /-- A character that begins no token. -/
  | strayCharacter (character : Char)
  /-- An integer literal with more digits than are converted. -/
  | oversizedInteger (digits : Nat)
  /-- A token that the grammar does not allow where it stands. -/
  | unexpectedToken (expected found : String) (advice : Option String)
  /-- A construct that can be scanned but not compiled. -/
  | unsupported (feature : String) (alternative : Option String)
  | nestedTooDeeply
  | duplicateDeclaration (name : String) (first : Option Location)
  | undeclared (name : String) (similar : List String)
  | assignmentType (name expected actual : String)
  | conditionType (statement actual : String)
  | operandTypes (operator requirement left right : String)
  deriving DecidableEq, Repr

namespace Cause

def family : Cause → Family
  | stated .unranked _ _ => .grammar
  | stated (.ranked family) _ _ => family
  | strayCharacter _ | oversizedInteger _ => .lexical
  | unexpectedToken .. | unsupported .. | nestedTooDeeply => .grammar
  | duplicateDeclaration .. | undeclared .. | assignmentType .. | conditionType ..
  | operandTypes .. => .context

/-- At least two hexadecimal digits, in capitals. -/
def characterCode (c : Char) : String :=
  let digits := (Nat.toDigits 16 c.toNat).map Char.toUpper
  String.ofList (if digits.length < 2 then '0' :: digits else digits)

/-- The description of the cause; some name the line, if it is known. -/
def text (cause : Cause) (place : Option Location) : String :=
  let line := match place with
    | some place => toString place.line
    | none => "?"
  match cause with
  | stated _ words _ => words
  | strayCharacter c => s!"unrecognized character '{c}' (0x{characterCode c})"
  | oversizedInteger digits => s!"integer literal too large ({digits} digits)"
  | unexpectedToken expected found _ => s!"expected {expected} but found {found} at line {line}"
  | unsupported feature _ => s!"{feature} is not supported"
  | nestedTooDeeply => "program nested too deeply"
  | duplicateDeclaration name _ => s!"duplicate declaration of '{name}'"
  | undeclared name _ => s!"undeclared identifier '{name}' at line {line}"
  | assignmentType name _ _ => s!"type mismatch in assignment to '{name}' at line {line}"
  | conditionType statement actual =>
    s!"'{statement}' condition must be boolean, got '{actual}'"
  | operandTypes operator requirement _ _ =>
    s!"operator '{operator}' requires {requirement} (line {line})"

/-- Advice on how to mend the fault. Of the similar names at most three are proposed. -/
def hint : Cause → Option String
  | stated _ _ advice | unexpectedToken _ _ advice | unsupported _ advice => advice
  | nestedTooDeeply => some "reduce the nesting of parentheses or statements"
  | duplicateDeclaration name first =>
    first.map fun place => s!"'{name}' was first declared at {place.text}"
  | undeclared _ similar =>
    if similar.isEmpty then none
    else
      let names := ", ".intercalate ((similar.take 3).map fun name => s!"'{name}'")
      some s!"did you mean {names}?"
  | assignmentType _ expected actual => some s!"expected '{expected}', got '{actual}'"
  | operandTypes _ _ left right => some s!"got '{left}' and '{right}'"
  | strayCharacter _ | oversizedInteger _ | conditionType .. => none

/-- The cause for a text that was to be one character; otherwise how long the text is. -/
def ofCharacterText (text : String) : Except Nat Cause :=
  match text.toList with
  | [c] => .ok (strayCharacter c)
  | characters => .error characters.length

end Cause

structure Diagnostic where
  cause : Cause
  location : Option Location
  sourceLine : Option String
  deriving DecidableEq, Repr

namespace Diagnostic

def family (diagnostic : Diagnostic) : Family :=
  diagnostic.cause.family

def text (diagnostic : Diagnostic) : String :=
  diagnostic.cause.text diagnostic.location

def hint (diagnostic : Diagnostic) : Option String :=
  diagnostic.cause.hint

def line (diagnostic : Diagnostic) : Option Int :=
  diagnostic.location.map (·.line)

def headline (diagnostic : Diagnostic) : String :=
  match diagnostic.location with
  | some place => s!"{place.text}: error: {diagnostic.text}"
  | none => s!"error: {diagnostic.text}"

/-- The source line, indented by four, and under it the caret, unless the column lies before the
line. A line without a place is not shown. -/
def excerpt (diagnostic : Diagnostic) : List String :=
  match diagnostic.sourceLine, diagnostic.location with
  | some line, some place =>
    let shown := "    " ++ line
    if place.column > 0 then
      [shown, String.ofList (List.replicate (place.column + 3).toNat ' ' ++ ['^'])]
    else [shown]
  | _, _ => []

/-- The advice, unless it is empty. -/
def advice (diagnostic : Diagnostic) : List String :=
  (diagnostic.hint.toList.filter (!·.isEmpty)).map ("hint: " ++ ·)

/-- The whole message, over several lines. -/
def message (diagnostic : Diagnostic) : String :=
  "\n".intercalate (diagnostic.headline :: diagnostic.excerpt ++ diagnostic.advice)

/-- The messages of several diagnostics, closed by their number. -/
def report (diagnostics : List Diagnostic) : String :=
  let count := diagnostics.length
  let unit := if count == 1 then "error" else "errors"
  "\n".intercalate (diagnostics.map message ++ [s!"{count} {unit}"])

end Diagnostic

end StackCompiler
