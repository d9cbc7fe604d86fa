import StackCompiler.Files.Tree
import StackCompiler.Text.Similarity

/-!
# Command-line arguments

The words of a command line as options and operands. A long option is given with two hyphens, its
value as the next word or behind an equals sign; short options are letters behind one hyphen, and
the value of the last of them is what stands behind it or the next word. Two hyphens alone end the
options, one hyphen alone is an operand, and options and operands may be mixed.

An option counts each time it is given; the last value is the one that holds.
-/

set_option autoImplicit false
set_option relaxedAutoImplicit false

namespace StackCompiler.Command

/-- An option of a command: its long name, its letter if it has one, and whether it has a value. -/
structure OptionSpec where
  long : String
  short : Option Char
  takesValue : Bool
  deriving DecidableEq, Repr

/-- What is wrong with a command line. Its operand is called by `label`. -/
inductive UsageFault where
  | noSuchOption (name : String) (similar : List String)
  | valueMissing (name : String)
  | valueRefused (name : String)
  | operandMissing (label : String)
  | operandsLeft (words : List String)
  | fileMissing (label path : String)
  | fileIsDirectory (label path : String)
  | fileUnreadable (label path : String)
  deriving DecidableEq, Repr

namespace UsageFault

/-- One similar name is proposed, several are listed in order. -/
def proposal : List String → String
  | [] => ""
  | [name] => s!" Did you mean {name}?"
  | names =>
    let listed := ", ".intercalate (names.mergeSort (· ≤ ·))
    s!" (Possible options: {listed})"

def message : UsageFault → String
  | noSuchOption name similar => s!"No such option: {name}{proposal similar}"
  | valueMissing name => s!"Option {Text.quoted name} requires an argument."
  | valueRefused name => s!"Option {Text.quoted name} does not take a value."
  | operandMissing label => s!"Missing argument '{label}'."
  | operandsLeft words =>
    let noun := if words.length == 1 then "argument" else "arguments"
    let listed := " ".intercalate words
    s!"Got unexpected extra {noun} ({listed})"
  | fileMissing label path =>
    s!"Invalid value for {label}: File {Text.quoted path} does not exist."
  | fileIsDirectory label path =>
    s!"Invalid value for {label}: File {Text.quoted path} is a directory."
  | fileUnreadable label path =>
    s!"Invalid value for {label}: File {Text.quoted path} is not readable."

end UsageFault

/-- The options that were given, in order, each with its value if it has one; and the operands. -/
structure Words where
  given : List (String × Option String)
  operands : List String
  deriving DecidableEq, Repr

namespace Words

def has (words : Words) (long : String) : Bool :=
  words.given.any (·.1 == long)

/-- The last value of an option. -/
def value? (words : Words) (long : String) : Option String :=
  (words.given.reverse.lookup long).join

def withOption (words : Words) (long : String) (value : Option String) : Words :=
  { words with given := (long, value) :: words.given }

def withOperand (words : Words) (operand : String) : Words :=
  { words with operands := operand :: words.operands }

end Words

/-- A text before and behind its first equals sign. -/
def splitAtEquals (word : List Char) : List Char × Option (List Char) :=
  match word.dropWhile (· != '=') with
  | _ :: value => (word.takeWhile (· != '='), some value)
  | [] => (word, none)

/-- What the letters of a word of short options ask for: the options, and the one among them whose
value is the next word. -/
structure Letters where
  given : List (String × Option String)
  open? : Option OptionSpec

/-- Reads letters of short options. -/
def readLetters (specs : List OptionSpec) : List Char → Except UsageFault Letters
  | [] => .ok ⟨[], none⟩
  | c :: rest =>
    match specs.find? (·.short == some c) with
    | none => .error (.noSuchOption (String.ofList ['-', c]) [])
    | some spec =>
      if spec.takesValue then
        if rest.isEmpty then .ok ⟨[], some spec⟩
        else .ok ⟨[(spec.long, some (String.ofList rest))], none⟩
      else do
        let later ← readLetters specs rest
        return { later with given := (spec.long, none) :: later.given }

/-- The short name of an option. -/
def OptionSpec.shortName (spec : OptionSpec) : String :=
  match spec.short with
  | some c => String.ofList ['-', c]
  | none => spec.long

/-- What a word is that is not the value of the option before it. -/
inductive WordShape where
  | operand
  | endOfOptions
  | long (name : String) (value : Option String)
  | letters (letters : List Char)

def wordShape (word : String) : WordShape :=
  match word.toList with
  | ['-', '-'] => .endOfOptions
  | '-' :: '-' :: _ =>
    let (name, value) := splitAtEquals word.toList
    .long (String.ofList name) (value.map String.ofList)
  | '-' :: c :: rest => .letters (c :: rest)
  | _ => .operand

/-- Reads the words of a command line. -/
def readWords (specs : List OptionSpec) : List String → Except UsageFault Words
  | [] => .ok ⟨[], []⟩
  | word :: rest =>
    match wordShape word with
    | .endOfOptions => .ok ⟨[], rest⟩
    | .operand => return (← readWords specs rest).withOperand word
    | .long name value =>
      match specs.find? (·.long == name) with
      | none => .error (.noSuchOption name (Text.closeWords name (specs.map OptionSpec.long)))
      | some spec =>
        if spec.takesValue then
          match value, rest with
          | some value, rest => return (← readWords specs rest).withOption name (some value)
          | none, value :: rest => return (← readWords specs rest).withOption name (some value)
          | none, [] => .error (.valueMissing name)
        else if value.isSome then .error (.valueRefused name)
        else return (← readWords specs rest).withOption name none
    | .letters letters => do
      let found ← readLetters specs letters
      match found.open?, rest with
      | none, rest =>
        let words ← readWords specs rest
        return { words with given := found.given ++ words.given }
      | some spec, value :: rest =>
        let words ← readWords specs rest
        return { words with given := found.given ++ (spec.long, some value) :: words.given }
      | some spec, [] => .error (.valueMissing spec.shortName)

/-- A value that names a file, which is no directory and can be read; `mustExist` says whether there
has to be such a file. -/
def checkFile (tree : FileTree) (mustExist : Bool) (label path : String) :
    Except UsageFault Unit :=
  match tree.findText path with
  | .ok (.directory _) => .error (.fileIsDirectory label path)
  | .ok entry => if entry.rights.read then .ok () else .error (.fileUnreadable label path)
  | .error _ => if mustExist then .error (.fileMissing label path) else .ok ()

end StackCompiler.Command
