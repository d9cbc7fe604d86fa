import StackCompiler.Compilation.Basic
import StackCompiler.Compilation.Options
import StackCompiler.Files.Tree
import StackCompiler.Text.Encoding

/-!
# Compiling files

Source text is read from a file tree and code is written to it, both in the encoding of the
options. Every way in which this can fail is a `Failure`, with its words and with the status that a
command ends with.

A file to be written is opened before the encoding is looked up, so it is emptied even if there is
no such encoding.

Which encodings there are is up to the machine, like the depth that the passes reach, so both are
parameters, the `Platform`. That of `compileFile` has the standard passes and the encodings that are
spelled out.
-/

set_option autoImplicit false
set_option relaxedAutoImplicit false

namespace StackCompiler

/-- How a command ends. -/
inductive ExitStatus where
  | success
  | buildError
  | invalidArguments
  | internalError
  deriving DecidableEq, Repr

namespace ExitStatus

def all : List ExitStatus :=
  [success, buildError, invalidArguments, internalError]

def name : ExitStatus → String
  | success => "SUCCESS"
  | buildError => "BUILD_ERROR"
  | invalidArguments => "INVALID_ARGS"
  | internalError => "INTERNAL_ERROR"

def code : ExitStatus → Nat
  | success => 0
  | buildError => 1
  | invalidArguments => 2
  | internalError => 3

/-- The words of a failure as they are shown when a command ends with the status. The message of a
diagnostic says of itself that it is an error. -/
def announce (status : ExitStatus) (message : String) : String :=
  match status with
  | success | buildError => message
  | invalidArguments => "Error: " ++ message
  | internalError => "Internal error: " ++ message

end ExitStatus

/-- The words for a breakdown in a pass. -/
def Breakdown.message (pass : String) : Breakdown → String
  | hole (.foreign name) => s!"{pass} does not handle {name}"
  | hole .tooDeep => "program nested too deeply"
  | unknownOperator kind => s!"unknown binary operator {kind.name}"
  | noInstruction kind => s!"no instruction for {kind.name}"
  | unwritableLiteral =>
    s!"Exceeds the limit ({integerDigitLimit} digits) for integer string conversion; " ++
      "use sys.set_int_max_str_digits() to increase the limit"
  | notTypeName kind => s!"{kind.name} is not a type name"
  | noFirstToken object => s!"'{object}' object has no attribute 'value'"

/-- What a command tells apart among the errors that are no diagnostics. -/
inductive ErrorClass where
  | badParameter
  | missingFile
  | forbidden
  | other
  deriving DecidableEq, Repr

def ErrorClass.status : ErrorClass → ExitStatus
  | badParameter | missingFile | forbidden => .invalidArguments
  | other => .internalError

inductive Failure where
  /-- An error in words only. -/
  | stated (error : ErrorClass) (words : String)
  | diagnostic (found : Diagnostic)
  | missingSource (path : String)
  | file (fault : FileFault) (path : String)
  | unknownEncoding (name : String)
  | undecodable (words : String)
  | unencodable (encoding : String)
  | failedCompilation
  | unknownLevel (name : String)
  | suffix (fault : SuffixFault)
  | breakdown (found : Breakdown)
  deriving DecidableEq, Repr

namespace Failure

def message : Failure → String
  | stated _ words => words
  | diagnostic found => found.message
  | missingSource path => s!"Source file not found: {path}"
  | file fault path => fault.message path
  | unknownEncoding name => s!"unknown encoding: {name}"
  | undecodable words => words
  | unencodable encoding => s!"'{encoding}' codec can't encode the code"
  | failedCompilation => "cannot write code for a failed compilation"
  | unknownLevel name => Options.unknownLevelText name
  | suffix fault => fault.message
  | breakdown found => found.message "compiler"

/-- The error of a failure that is no diagnostic. -/
def error? : Failure → Option ErrorClass
  | stated error _ => some error
  | diagnostic _ => none
  | missingSource _ | file .notFound _ => some .missingFile
  | file .forbidden _ => some .forbidden
  | _ => some .other

def status (failure : Failure) : ExitStatus :=
  match failure.error? with
  | none => .buildError
  | some error => error.status

end Failure

/-- What the machine and its libraries give: how far the passes get, and the encodings by name. -/
structure Platform where
  passes : Passes
  codec? : String → Option Text.Codec

namespace Platform

def standard : Platform where
  passes := .standard
  codec? name := (Text.Encoding.ofName? name).map Text.Encoding.codec

/-- The encoding of a name. -/
def codec (platform : Platform) (name : String) : Except Failure Text.Codec :=
  match platform.codec? name with
  | some codec => .ok codec
  | none => .error (.unknownEncoding name)

/-- The text of a file, with one line feed for every line end. -/
def readText (platform : Platform) (tree : FileTree) (encoding : String) (path : Path) :
    Except Failure String := do
  let bytes ← (tree.read path).mapError (.file · path.text)
  let codec ← platform.codec encoding
  let characters ← (codec.decode bytes).mapError .undecodable
  return String.ofList (Text.unifyNewlines characters)

/-- Writes a text to a file. The tree is as the attempt leaves it. -/
def writeText (platform : Platform) (tree : FileTree) (encoding : String) (path : Path)
    (text : String) : Except Failure Unit × FileTree :=
  match tree.target path with
  | .error fault => (.error (.file fault path.text), tree)
  | .ok (names, entry) =>
    let opened := tree.set names (entry.write [])
    match platform.codec encoding with
    | .error failure => (.error failure, opened)
    | .ok codec =>
      match codec.encode text with
      | none => (.error (.unencodable codec.name), opened)
      | some bytes => (.ok (), tree.set names (entry.write bytes))

/-- Compiles a source text. -/
def compileText (platform : Platform) (options : Options) (file text : String) :
    Except Failure Run :=
  (compileWith platform.passes options.keepsOutline file text).mapError .breakdown

/-- Compiles a source file. A path that leads nowhere has no source; one that is too long, or leads
through a forbidden directory, cannot even be followed. -/
def compileFile (platform : Platform) (options : Options) (tree : FileTree) (source : String) :
    Except Failure Run := do
  let path := Path.ofText source
  match tree.find path with
  | .error fault =>
    .error (if fault.isAbsence then .missingSource source else .file fault path.text)
  | .ok _ =>
    let text ← platform.readText tree options.encoding path
    platform.compileText options path.text text

/-- Writes the code of a compilation, which must have succeeded. -/
def writeCode (platform : Platform) (options : Options) (tree : FileTree) (result : Compilation)
    (path : Path) : Except Failure Event × FileTree :=
  match result.verdict with
  | .failed .. => (.error .failedCompilation, tree)
  | .compiled code =>
    let (written, tree) := platform.writeText tree options.encoding path (codeText code)
    (written.map fun _ => .wrote code.length path.text, tree)

end Platform

/-- Compiles a source text. -/
def compileText : Options → String → String → Except Failure Run :=
  Platform.standard.compileText

/-- Compiles a source file. -/
def compileFile : Options → FileTree → String → Except Failure Run :=
  Platform.standard.compileFile

/-- The path of the code that belongs to a source path. -/
def outputPath (options : Options) (source : Path) : Except Failure Path :=
  (source.withSuffix options.outputSuffix).mapError .suffix

/-- Writes the code of a compilation, which must have succeeded. -/
def writeCode : Options → FileTree → Compilation → Path → Except Failure Event × FileTree :=
  Platform.standard.writeCode

/-- Compiles a source file and gives the code, which is also written if there is an output path. -/
def buildFile (options : Options) (tree : FileTree) (source : String) (output : Option String) :
    Except Failure (List Instr) × FileTree :=
  match compileFile options tree source with
  | .error failure => (.error failure, tree)
  | .ok run =>
    match run.result.verdict with
    | .failed first _ => (.error (.diagnostic first), tree)
    | .compiled code =>
      match output.filter (!·.isEmpty) with
      | none => (.ok code, tree)
      | some path =>
        let (written, tree) := writeCode options tree run.result (.ofText path)
        (written.map fun _ => code, tree)

end StackCompiler
