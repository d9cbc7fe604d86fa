import StackCompiler.Text.Lines

/-!
# Text in bytes

A `Codec` reads text from bytes and writes it to bytes. Three encodings of source and output files
are spelled out. `Encoding.decode` reads the bytes of a file; a fault names the encoding, the bytes
at fault and the reason. `Encoding.encode` gives none if the encoding has no form for some
character.

In UTF-8 the fault covers the longest start of a well-formed character: a byte that starts no
character stands alone, a character cut short by another byte ends before that byte, and one cut
short by the end of the file reaches up to the end.
-/

set_option autoImplicit false
set_option relaxedAutoImplicit false

namespace StackCompiler.Text

inductive Encoding where
  | utf8
  | latin1
  | ascii
  deriving DecidableEq, Repr

inductive DecodingReason where
  | invalidStart
  | invalidContinuation
  | unexpectedEnd
  | outOfRange
  deriving DecidableEq, Repr

/-- Bytes that stand for no text: `count` of them from `position` on, the first of them `byte`. -/
structure DecodingFault where
  encoding : Encoding
  byte : UInt8
  position : Nat
  count : Nat
  reason : DecodingReason
  deriving DecidableEq, Repr

namespace Encoding

def name : Encoding → String
  | utf8 => "utf-8"
  | latin1 => "latin-1"
  | ascii => "ascii"

def all : List Encoding := [utf8, latin1, ascii]

/-- The name in the form of `plainName`. -/
def ownName : Encoding → String
  | utf8 => "utf_8"
  | latin1 => "latin_1"
  | ascii => "ascii"

/-- Other names in the form of `plainName`. -/
def aliases : Encoding → List String
  | utf8 => ["cp65001", "u8", "utf", "utf8", "utf8_ucs2", "utf8_ucs4"]
  | latin1 =>
    ["8859", "cp819", "csisolatin1", "ibm819", "iso8859", "iso8859_1", "iso_8859_1",
      "iso_8859_1_1987", "iso_ir_100", "l1", "latin", "latin1"]
  | ascii =>
    ["646", "ansi_x3.4_1968", "ansi_x3.4_1986", "ansi_x3_4_1968", "cp367", "csascii", "ibm367",
      "iso646_us", "iso_646.irv_1991", "iso_ir_6", "us", "us_ascii"]

/-- The runs of ASCII letters, digits and dots in a name, in small letters and with an underscore
between any two of them. -/
def plainName (text : String) : String :=
  let runs := cutAt (fun c => !(c.isAlphanum || c == '.')) text.toList
  "_".intercalate ((runs.filter (!·.isEmpty)).map fun run => String.ofList (run.map Char.toLower))

def withAlias? (plain : String) : Option Encoding :=
  all.find? (·.aliases.contains plain)

/-- The encoding of a name. Neither case nor the choice of separators matters, and in an alias a dot
may stand for an underscore. The encoding of the locale is UTF-8. -/
def ofName? (text : String) : Option Encoding :=
  let plain := plainName text
  let undotted := String.ofList (plain.toList.map fun c => if c == '.' then '_' else c)
  if text == "locale" then some utf8
  else withAlias? plain <|> withAlias? undotted <|> all.find? (·.ownName == plain)

end Encoding

/-- A reason at some distance from the start of a character, or a whole character with the bytes
after it. -/
inductive CharacterRead where
  | character (c : Char) (length : Nat)
  | fault (reason : DecodingReason) (count : Nat)

def isContinuation (b : UInt8) : Bool :=
  0x80 ≤ b && b < 0xC0

def continuationBits (b : UInt8) : Nat :=
  b.toNat % 0x40

/-- Whether a byte can be the second of a character that starts with `lead`: the range excludes
forms longer than needed, surrogates and numbers beyond the last character. -/
def isSecond (lead second : UInt8) : Bool :=
  isContinuation second &&
    !(lead == 0xE0 && second < 0xA0) && !(lead == 0xED && 0xA0 ≤ second) &&
    !(lead == 0xF0 && second < 0x90) && !(lead == 0xF4 && 0x90 ≤ second)

/-- How many bytes a character has that starts with this byte, if one does. -/
def utf8Length (lead : UInt8) : Option Nat :=
  if lead < 0x80 then some 1
  else if lead < 0xC2 then none
  else if lead < 0xE0 then some 2
  else if lead < 0xF0 then some 3
  else if lead < 0xF5 then some 4
  else none

/-- Reads the bytes after the lead of a character; `missing` are due and `count` are read. -/
def readContinuations (lead : UInt8) : Nat → Nat → Nat → List UInt8 → CharacterRead
  | 0, count, value, _ => .character (Char.ofNat value) count
  | _ + 1, count, _, [] => .fault .unexpectedEnd count
  | missing + 1, count, value, b :: rest =>
    if (if count == 1 then isSecond lead b else isContinuation b) then
      readContinuations lead missing (count + 1) (value * 0x40 + continuationBits b) rest
    else .fault .invalidContinuation count

/-- Reads the character that starts with `lead`. -/
def readUtf8 (lead : UInt8) (rest : List UInt8) : CharacterRead :=
  match utf8Length lead with
  | none => .fault .invalidStart 1
  | some 1 => .character (Char.ofNat lead.toNat) 1
  | some 2 => readContinuations lead 1 1 (lead.toNat % 0x20) rest
  | some 3 => readContinuations lead 2 1 (lead.toNat % 0x10) rest
  | some _ => readContinuations lead 3 1 (lead.toNat % 0x08) rest

/-- Decodes UTF-8 from a position on; the bytes of the character being skipped are counted down by
the first argument. -/
def decodeUtf8From : Nat → Nat → List UInt8 → Except DecodingFault (List Char)
  | _, _, [] => .ok []
  | skip + 1, position, _ :: rest => decodeUtf8From skip (position + 1) rest
  | 0, position, lead :: rest =>
    match readUtf8 lead rest with
    | .fault reason count => .error ⟨.utf8, lead, position, count, reason⟩
    | .character c length => do
      let more ← decodeUtf8From (length - 1) (position + 1) rest
      return c :: more

/-- Decodes an encoding of one byte per character that covers the numbers below `limit`. -/
def decodeBytesFrom (encoding : Encoding) (limit : Nat) :
    Nat → List UInt8 → Except DecodingFault (List Char)
  | _, [] => .ok []
  | position, b :: rest =>
    if b.toNat < limit then do
      let more ← decodeBytesFrom encoding limit (position + 1) rest
      return Char.ofNat b.toNat :: more
    else .error ⟨encoding, b, position, 1, .outOfRange⟩

/-- The text that the bytes stand for. -/
def Encoding.decode (encoding : Encoding) (bytes : List UInt8) :
    Except DecodingFault (List Char) :=
  match encoding with
  | utf8 => decodeUtf8From 0 0 bytes
  | latin1 => decodeBytesFrom latin1 0x100 0 bytes
  | ascii => decodeBytesFrom ascii 0x80 0 bytes

/-- The bytes that stand for a text. -/
def Encoding.encode (encoding : Encoding) (text : String) : Option (List UInt8) :=
  let direct (limit : Nat) := text.toList.mapM fun c =>
    if c.toNat < limit then some (UInt8.ofNat c.toNat) else none
  match encoding with
  | utf8 => some text.toUTF8.toList
  | latin1 => direct 0x100
  | ascii => direct 0x80

namespace DecodingFault

def reasonText : DecodingReason → String
  | .invalidStart => "invalid start byte"
  | .invalidContinuation => "invalid continuation byte"
  | .unexpectedEnd => "unexpected end of data"
  | .outOfRange => "ordinal not in range(128)"

/-- The two hexadecimal digits of a byte. -/
def byteText (b : UInt8) : String :=
  String.ofList [Nat.digitChar (b.toNat / 16), Nat.digitChar (b.toNat % 16)]

/-- One byte is shown with its value, several only with their positions. -/
def message (fault : DecodingFault) : String :=
  let place :=
    if fault.count ≤ 1 then s!"byte 0x{byteText fault.byte} in position {fault.position}"
    else s!"bytes in position {fault.position}-{fault.position + fault.count - 1}"
  s!"'{fault.encoding.name}' codec can't decode {place}: {reasonText fault.reason}"

end DecodingFault

/-- How an encoding is read and written: the text that bytes stand for, or in words why they stand
for none; and the bytes of a text, if there is a form for each of its characters. -/
structure Codec where
  name : String
  decode : List UInt8 → Except String (List Char)
  encode : String → Option (List UInt8)

def Encoding.codec (encoding : Encoding) : Codec where
  name := encoding.name
  decode bytes := (encoding.decode bytes).mapError DecodingFault.message
  encode := encoding.encode

end StackCompiler.Text
