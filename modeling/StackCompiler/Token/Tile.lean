import StackCompiler.Token.Basic

/-!
# Tiles

The pieces of a source text: blanks, comments, tokens and the pieces that are none of these. A text
is the concatenation of its tiles (`flatMap_text_tiles`), so nothing of it is lost, and `tileAt`
says which tile stands at the front of a text: the longest token that starts there, where one does.

A comment runs from two slashes up to the end of the line. An integer literal takes all the digits
that follow, and a point if a digit stands behind it, with the digits after the point; an integer
with more than `integerDigitLimit` digits is no token.
-/

set_option autoImplicit false
set_option relaxedAutoImplicit false

namespace StackCompiler

def isBlank (c : Char) : Bool :=
  c == ' ' || c == '\t' || c == '\r' || c == '\n'

/-- ASCII letters and the underscore. -/
def isIdentStart (c : Char) : Bool :=
  c.isAlpha || c == '_'

def isIdentChar (c : Char) : Bool :=
  isIdentStart c || c.isDigit

/-- What a piece of source text is. -/
inductive TileShape where
  | blank
  | comment
  | token (kind : TokenKind) (literal : Option Literal)
  | strayCharacter (character : Char)
  | oversizedInteger (digits : Nat)
  deriving DecidableEq, Repr

structure Tile where
  shape : TileShape
  text : List Char
  deriving DecidableEq, Repr

namespace Tile

/-- An identifier or, if it is one, a keyword. -/
def word (text : List Char) : Tile :=
  let kind := (TokenKind.keyword? (String.ofList text)).getD .ident
  ⟨.token kind none, text⟩

/-- An integer literal. -/
def integer (digits : List Char) : Tile :=
  if integerDigitLimit < digits.length then ⟨.oversizedInteger digits.length, digits⟩
  else ⟨.token .intLit (some (.int (natOfDigits digits))), digits⟩

/-- A floating-point literal, from the digits before and after the point. -/
def decimal (whole fraction : List Char) : Tile :=
  let value := Binary64.ofDecimal false (natOfDigits (whole ++ fraction))
    (-(fraction.length : Int))
  ⟨.token .floatLit (some (.float value)), whole ++ '.' :: fraction⟩

/-- A number, from its first digits and the text behind them. -/
def number (digits rest : List Char) : Tile :=
  match rest with
  | '.' :: c :: more =>
    if c.isDigit then decimal digits (c :: more.takeWhile Char.isDigit) else integer digits
  | _ => integer digits

/-- A tile of punctuation, or a character that begins no token. -/
def symbol (c : Char) (rest : List Char) : Tile :=
  match c, rest with
  | ':', '=' :: _ => ⟨.token .assign none, [':', '=']⟩
  | ':', _ => ⟨.token .colon none, [':']⟩
  | _, _ => match TokenKind.ofSymbol? c with
    | some kind => ⟨.token kind none, [c]⟩
    | none => ⟨.strayCharacter c, [c]⟩

/-- The tile at the front of the text `c :: rest`. -/
def tileAt (c : Char) (rest : List Char) : Tile :=
  if isBlank c then ⟨.blank, [c]⟩
  else if c == '/' && rest.head? == some '/' then ⟨.comment, c :: rest.takeWhile (· != '\n')⟩
  else if isIdentStart c then word (c :: rest.takeWhile isIdentChar)
  else if c.isDigit then
    number (c :: rest.takeWhile Char.isDigit) (rest.dropWhile Char.isDigit)
  else symbol c rest

theorem symbol_text (c : Char) (rest : List Char) :
    ∃ more, (symbol c rest).text = c :: more ∧ more <+: rest := by
  unfold symbol
  split
  · exact ⟨['='], rfl, by simp⟩
  · exact ⟨[], rfl, by simp⟩
  · split <;> exact ⟨[], rfl, by simp⟩

theorem integer_text (digits : List Char) : (integer digits).text = digits := by
  unfold integer
  split <;> rfl

theorem number_text (digits rest : List Char) :
    ∃ more, (number digits rest).text = digits ++ more ∧ more <+: rest := by
  unfold number
  split
  · split
    · exact ⟨_, rfl, by simp [List.takeWhile_prefix]⟩
    · exact ⟨[], by simp [integer_text], by simp⟩
  · exact ⟨[], by simp [integer_text], by simp⟩

/-- A tile takes the character that it was chosen for, and what it takes besides stands right
behind it. -/
theorem tileAt_text (c : Char) (rest : List Char) :
    ∃ more, (tileAt c rest).text = c :: more ∧ more <+: rest := by
  unfold tileAt
  split
  · exact ⟨[], rfl, by simp⟩
  · split
    · exact ⟨_, rfl, List.takeWhile_prefix _⟩
    · split
      · exact ⟨_, rfl, List.takeWhile_prefix _⟩
      · split
        · obtain ⟨more, htext, tail, htail⟩ :=
            number_text (c :: rest.takeWhile Char.isDigit) (rest.dropWhile Char.isDigit)
          refine ⟨rest.takeWhile Char.isDigit ++ more, by simpa using htext, tail, ?_⟩
          rw [List.append_assoc, htail, List.takeWhile_append_dropWhile]
        · exact symbol_text c rest

end Tile

/-- The tiles of a text, each the one at the front of what the tiles before it leave. -/
def tiles : List Char → List Tile
  | [] => []
  | c :: rest =>
    let tile := Tile.tileAt c rest
    tile :: tiles (rest.drop (tile.text.length - 1))
termination_by text => text.length
decreasing_by simp only [List.length_drop, List.length_cons]; omega

theorem flatMap_text_tiles (text : List Char) : (tiles text).flatMap Tile.text = text := by
  fun_induction tiles text with
  | case1 => rfl
  | case2 c rest tile ih =>
    rw [List.flatMap_cons, ih]
    obtain ⟨more, htext, tail, hrest⟩ := Tile.tileAt_text c rest
    have hdrop : rest.drop (tile.text.length - 1) = tail := by
      rw [← hrest, show tile.text = c :: more from htext]
      simp
    rw [hdrop, ← hrest, show tile.text = c :: more from htext, List.cons_append]

end StackCompiler
