import StackCompiler.Diagnostic
import StackCompiler.Text.Lines
import StackCompiler.Token.Stream
import StackCompiler.Token.Tile

/-!
# Scanning

A scan turns the tiles of a source text into tokens and faults. Blanks and comments give nothing,
the other tiles one `Finding` each, placed by the line feeds and characters before it. A `Scanner`
hands the findings out: `next?` one token at a time, `rest` all that are left. Faults are recorded
when the scanner passes them, so none is lost or recorded twice.

The tokens of a scan always end with one of the kind `endOfFile`, which stands at the end of the
text.
-/

set_option autoImplicit false
set_option relaxedAutoImplicit false

namespace StackCompiler

/-- A line and a column, both from one on. -/
structure Place where
  line : Nat
  column : Nat
  deriving DecidableEq, Repr

namespace Place

def start : Place := ⟨1, 1⟩

def step (place : Place) (c : Char) : Place :=
  if c == '\n' then ⟨place.line + 1, 1⟩ else ⟨place.line, place.column + 1⟩

/-- The place behind a text. -/
def behind (place : Place) (text : List Char) : Place :=
  text.foldl step place

theorem behind_append (place : Place) (first second : List Char) :
    place.behind (first ++ second) = (place.behind first).behind second := by
  simp [behind, List.foldl_append]

def location (place : Place) (file : String) : Location :=
  ⟨file, place.line, place.column⟩

end Place

/-- What a tile gives: a token or a fault. -/
inductive Finding where
  | token (token : Token)
  | fault (diagnostic : Diagnostic)
  deriving DecidableEq, Repr

namespace Finding

def token? : Finding → Option Token
  | token found => some found
  | fault _ => none

def fault? : Finding → Option Diagnostic
  | token _ => none
  | fault found => some found

end Finding

/-- A fault at a place; `lines` are the source lines. -/
def Place.fault (file : String) (lines : Array (List Char)) (place : Place) (cause : Cause) :
    Finding :=
  .fault ⟨cause, some (place.location file), lines[place.line - 1]?.map String.ofList⟩

/-- The finding of a tile at a place. -/
def Tile.finding? (file : String) (lines : Array (List Char)) (place : Place) (tile : Tile) :
    Option Finding :=
  match tile.shape with
  | .blank | .comment => none
  | .token kind literal =>
    some (.token ⟨kind, String.ofList tile.text, literal, place.location file⟩)
  | .strayCharacter c => some (place.fault file lines (.strayCharacter c))
  | .oversizedInteger digits => some (place.fault file lines (.oversizedInteger digits))

/-- The findings of tiles that start at a place. -/
def findingsFrom (file : String) (lines : Array (List Char)) : Place → List Tile → List Finding
  | _, [] => []
  | place, tile :: more =>
    let later := findingsFrom file lines (place.behind tile.text) more
    match tile.finding? file lines place with
    | some finding => finding :: later
    | none => later

/-- A scanner has findings still to hand out and the faults that it has passed. Its stream of
single tokens is `exhausted` once it has given the token at the end. -/
structure Scanner where
  pending : List Finding
  faults : List Diagnostic
  final : Location
  exhausted : Bool
  deriving DecidableEq, Repr

namespace Scanner

/-- A scanner in front of a text. -/
def ofText (file text : String) : Scanner :=
  let characters := text.toList
  let lines := (Text.lineFeedLines characters).toArray
  { pending := findingsFrom file lines .start (tiles characters)
    faults := []
    final := (Place.start.behind characters).location file
    exhausted := false }

/-- The findings up to the first token, and those behind it. -/
def splitAtToken : List Finding → List Diagnostic × Option (Token × List Finding)
  | [] => ([], none)
  | .token token :: later => ([], some (token, later))
  | .fault diagnostic :: later =>
    let (faults, found) := splitAtToken later
    (diagnostic :: faults, found)

/-- The next token of the stream of single tokens, which ends with the token at the end. -/
def next? (scanner : Scanner) : Option Token × Scanner :=
  if scanner.exhausted then (none, scanner)
  else
    match splitAtToken scanner.pending with
    | (faults, some (token, later)) =>
      (some token, { scanner with pending := later, faults := scanner.faults ++ faults })
    | (faults, none) =>
      (some (.endOfFile scanner.final),
        { scanner with pending := [], faults := scanner.faults ++ faults, exhausted := true })

/-- All tokens that are left, and the one at the end. -/
def rest (scanner : Scanner) : TokenStream × Scanner :=
  (⟨scanner.pending.filterMap Finding.token?, .endOfFile scanner.final, rfl⟩,
    { scanner with
      pending := []
      faults := scanner.faults ++ scanner.pending.filterMap Finding.fault? })

end Scanner

/-- The tokens of a whole text and its faults. -/
structure Scan where
  stream : TokenStream
  faults : List Diagnostic
  deriving DecidableEq, Repr

def Scan.tokens (scan : Scan) : List Token :=
  scan.stream.toList

def scan (file text : String) : Scan :=
  let (stream, scanner) := (Scanner.ofText file text).rest
  ⟨stream, scanner.faults⟩

end StackCompiler
