import StackCompiler.Text.Printable

/-!
# Quoted text

A text in quotes, on one line and with every character visible. Single quotes are used unless the
text holds a single quote and no double quote. The quote in use and the backslash are escaped, as
are the characters that cannot be shown: `\n`, `\r` and `\t` by name, the others by their number
in two, four or eight hexadecimal digits.
-/

set_option autoImplicit false
set_option relaxedAutoImplicit false

namespace StackCompiler.Text

/-- The lowest `width` hexadecimal digits of a number, in small letters. -/
def hexDigits : Nat → Nat → List Char
  | 0, _ => []
  | width + 1, n => hexDigits width (n / 16) ++ [Nat.digitChar (n % 16)]

/-- A character by its number. -/
def numericEscape (c : Char) : List Char :=
  let n := c.toNat
  if n < 0x100 then '\\' :: 'x' :: hexDigits 2 n
  else if n < 0x10000 then '\\' :: 'u' :: hexDigits 4 n
  else '\\' :: 'U' :: hexDigits 8 n

/-- A character inside the given quotes. -/
def quotedChar (quote c : Char) : List Char :=
  if c == quote || c == '\\' then ['\\', c]
  else if c == '\n' then ['\\', 'n']
  else if c == '\r' then ['\\', 'r']
  else if c == '\t' then ['\\', 't']
  else if isPrintable c then [c]
  else numericEscape c

/-- The quotes that need the fewest escapes, single quotes if there is nothing to choose. -/
def quoteFor (text : List Char) : Char :=
  if text.contains '\'' && !text.contains '"' then '"' else '\''

/-- The text in quotes. -/
def quoted (text : String) : String :=
  let quote := quoteFor text.toList
  String.ofList (quote :: text.toList.flatMap (quotedChar quote) ++ [quote])

end StackCompiler.Text
