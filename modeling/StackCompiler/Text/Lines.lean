/-!
# Lines of a text

Three ways to cut a text into lines. `lineFeedLines` cuts at line feeds only, which is how line
numbers are counted. `breakLines` also cuts at every other line boundary of the Unicode standard
and at the information separators. `unifyNewlines` turns the three common line ends into one line
feed, as a text file is read.

A text is a list of characters here: a column is an index into such a list.
-/

set_option autoImplicit false
set_option relaxedAutoImplicit false

namespace StackCompiler.Text

/-- Puts a character in front of the first line. -/
def consLine (c : Char) : List (List Char) → List (List Char)
  | [] => [[c]]
  | line :: more => (c :: line) :: more

/-- Cuts before and after every character of a class and drops the characters of the class: `n`
of them give `n + 1` lines. -/
def cutAt (stop : Char → Bool) (text : List Char) : List (List Char) :=
  text.foldr (fun c lines => if stop c then [] :: lines else consLine c lines) [[]]

theorem cutAt_ne_nil (stop : Char → Bool) (text : List Char) : cutAt stop text ≠ [] := by
  cases text with
  | nil => simp [cutAt]
  | cons c rest =>
    simp only [cutAt, List.foldr_cons]
    split
    · simp
    · cases List.foldr _ _ rest <;> simp [consLine]

/-- The lines of a text as line numbers count them. -/
def lineFeedLines (text : List Char) : List (List Char) :=
  cutAt (· == '\n') text

/-- The characters that end a line: line feed, vertical tab, form feed, carriage return, the file,
group and record separators, next line, line separator and paragraph separator. -/
def isLineBreak (c : Char) : Bool :=
  let n := c.toNat
  (0x0A ≤ n && n ≤ 0x0D) || (0x1C ≤ n && n ≤ 0x1E) || n == 0x85 || n == 0x2028 || n == 0x2029

/-- A carriage return and the line feed after it become one line feed. -/
def joinPairs : List Char → List Char
  | '\r' :: '\n' :: rest => '\n' :: joinPairs rest
  | c :: rest => c :: joinPairs rest
  | [] => []

/-- The lines between line boundaries. A boundary that ends the text opens no further line, so the
empty text has none. -/
def breakLines (text : List Char) : List (List Char) :=
  let lines := cutAt isLineBreak (joinPairs text)
  match lines.getLast? with
  | some [] => lines.dropLast
  | _ => lines

/-- Every line end becomes a line feed. -/
def unifyNewlines (text : List Char) : List Char :=
  (joinPairs text).map fun c => if c == '\r' then '\n' else c

/-- The lines of a text, each with the line feed that ends it. -/
def terminatedLines (text : List Char) : List (List Char) :=
  let lines := lineFeedLines text
  lines.dropLast.map (· ++ ['\n']) ++ lines.getLast?.toList.filter (!·.isEmpty)

end StackCompiler.Text
