import StackCompiler.Command.Arguments
import StackCompiler.Compilation.Files
import StackCompiler.Text.Plain

/-!
# The two commands

`tamc` compiles a source file, `tamlex` lists the tokens of a file or of standard input. Both are
functions of the words of the command line, the environment, the files and standard input. They
give the status, what is shown on the two output streams, and the files as they are afterwards; or
what is wrong with the command line. How far the passes get and which encodings there are is taken
from a `Platform`.

What a command says is plain text, without orders to a terminal. Events go to the error stream as
they are: those of at least the severity of a warning as bare text, unless a higher level is set;
all of them, with level and channel, if the run is verbose.

A stream can refuse a text, say because its encoding has no form for a name in it. What the streams
of the compiler refuse is up to its `Outlet`. Nothing of such a text is shown; a refusal is a
failure like any other, and the run ends there. The streams of the lister take every text, and so
does the logger.
-/

set_option autoImplicit false
set_option relaxedAutoImplicit false

namespace StackCompiler

def version : String := "1.0.0"

namespace Command

/-- What a command is run on. -/
structure Surroundings where
  words : List String
  environment : List (String × String)
  files : FileTree
  standardInput : String
  deriving Repr

/-- The two output streams. -/
inductive Stream where
  | out
  | err
  deriving DecidableEq, Repr

/-- The refusal of a stream to take a text: an error, with its words. -/
structure Refusal where
  error : ErrorClass
  words : String
  deriving DecidableEq, Repr

def Refusal.failure (refusal : Refusal) : Failure :=
  .stated refusal.error refusal.words

/-- Whether a stream refuses a text behind what it has shown so far. -/
structure Outlet where
  refusal? (stream : Stream) (shown text : String) : Option Refusal

/-- The streams take every text. -/
def Outlet.free : Outlet := ⟨fun _ _ _ => none⟩

/-- A line as it is shown. -/
def lineText (line : String) : String :=
  Text.plain line ++ "\n"

/-- What a run has shown so far, and the files. -/
structure Console where
  out : String
  err : String
  files : FileTree
  deriving Repr

structure Outcome where
  status : ExitStatus
  console : Console
  deriving Repr

namespace Console

def start (files : FileTree) : Console := ⟨"", "", files⟩

/-- What a stream has shown. -/
def shown (console : Console) : Stream → String
  | .out => console.out
  | .err => console.err

/-- Shows a text on a stream. -/
def print (console : Console) (stream : Stream) (text : String) : Console :=
  match stream with
  | .out => { console with out := console.out ++ text }
  | .err => { console with err := console.err ++ text }

def say (console : Console) (line : String) : Console :=
  console.print .out (lineText line)

def sayAll (console : Console) (lines : List String) : Console :=
  lines.foldl say console

def warn (console : Console) (line : String) : Console :=
  console.print .err (lineText line)

def ends (console : Console) (status : ExitStatus) : Outcome := ⟨status, console⟩

/-- Shows lines on the error stream as they are. -/
def log (console : Console) (lines : List String) : Console :=
  { console with err := lines.foldl (fun shown line => shown ++ line ++ "\n") console.err }

/-- Ends the run at a failure. -/
def failWith (console : Console) (outlet : Outlet) (failure : Failure) : Outcome :=
  let line := failure.status.announce failure.message
  match outlet.refusal? .err console.err (lineText line) with
  | none => (console.warn line).ends failure.status
  -- Nothing handles this error, and a program that breaks off ends with the code of `buildError`.
  | some _ => console.ends .buildError

/-- Shows a text and goes on, unless the stream refuses it. -/
def tell (console : Console) (outlet : Outlet) (stream : Stream) (text : String)
    (next : Console → Outcome) : Outcome :=
  match outlet.refusal? stream (console.shown stream) text with
  | none => next (console.print stream text)
  | some refusal => console.failWith outlet refusal.failure

/-- Shows lines and goes on, unless the stream refuses one of them. -/
def tellLines (console : Console) (outlet : Outlet) (stream : Stream) (lines : List String)
    (next : Console → Outcome) : Outcome :=
  match lines with
  | [] => next console
  | line :: more =>
    console.tell outlet stream (lineText line) fun console =>
      console.tellLines outlet stream more next

end Console

/-- The lines that show events. -/
def eventLines (verbose : Bool) (level : Level) (events : List Event) : List String :=
  if verbose then events.map Event.detailed
  else
    let least := max level.threshold Level.warning.severity
    (events.filter (·.passes least)).map Event.text

def versionOption : OptionSpec := ⟨"--version", none, false⟩

def helpOption : OptionSpec := ⟨"--help", none, false⟩

/-- Options that end the run before all else: the one that was given first. -/
def informs? (tool usage : String) (words : Words) : Option String :=
  words.given.findSome? fun (long, _) =>
    if long == versionOption.long then some s!"{tool}, version {version}"
    else if long == helpOption.long then some s!"Usage: {tool} {usage}"
    else none

/-! ### The compiler -/

namespace Compiler

def operandLabel : String := "INPUT_FILE"

def usage : String := s!"[OPTIONS] {operandLabel}"

def specs : List OptionSpec :=
  [⟨"--output", some 'o', true⟩, ⟨"--ast", none, false⟩, ⟨"--stdout", none, false⟩,
    ⟨"--verbose", some 'v', false⟩, versionOption, helpOption]

/-- A checked command line of the compiler. -/
structure Request where
  source : String
  output : Option Path
  showsOutline : Bool
  toOutput : Bool
  verbose : Bool
  deriving DecidableEq, Repr

/-- Checks the words: first the output file, then the source file, then that nothing is left. -/
def Request.ofWords (files : FileTree) (words : Words) : Except UsageFault Request := do
  let output := words.value? "--output"
  match output with
  | some path => checkFile files false "'-o' / '--output'" path
  | none => pure ()
  match words.operands with
  | [] => .error (.operandMissing operandLabel)
  | source :: more =>
    checkFile files true s!"'{operandLabel}'" source
    if more.isEmpty then
      return {
        source
        output := output.map Path.ofText
        showsOutline := words.has "--ast"
        toOutput := words.has "--stdout"
        verbose := words.has "--verbose" }
    else .error (.operandsLeft more)

/-- The path that the code goes to: the one that was given, or that of the code of the source. -/
def Request.target (request : Request) (options : Options) : Except Failure Path :=
  match request.output with
  | some path => .ok path
  | none => outputPath options (.ofText request.source)

/-- Writes the code of a compilation and says so. -/
def deliver (platform : Platform) (outlet : Outlet) (request : Request) (options : Options)
    (result : Compilation) (console : Console) : Outcome :=
  match request.target options with
  | .error failure => console.failWith outlet failure
  | .ok path =>
    let (written, files) := platform.writeCode options console.files result path
    let console := { console with files }
    match written with
    | .error failure => console.failWith outlet failure
    | .ok event =>
      let console := console.log (eventLines request.verbose options.level [event])
      let details := if request.verbose then
          [s!"Tokenized: {result.tokens.length} tokens",
            s!"Declared: {(result.scope.getD .empty).size} variables",
            s!"Wrote {result.code.length} lines to {path.text}"]
        else []
      let source := Path.ofText request.source
      console.tellLines outlet .out (details ++ [s!"Compiled {source.text} -> {path.text}"])
        (·.ends .success)

/-- Shows the diagnostics of a compilation, or its code, or goes on to write the code. -/
def settle (platform : Platform) (outlet : Outlet) (request : Request) (options : Options)
    (result : Compilation) (console : Console) : Outcome :=
  if !result.succeeded then
    console.tellLines outlet .err (result.diagnostics.map Diagnostic.message) (·.ends .buildError)
  else if request.showsOutline then console.ends .success
  else if request.toOutput then
    console.tell outlet .out (codeText result.code) (·.ends .success)
  else deliver platform outlet request options result console

/-- Shows the events of a compilation and its outline, if it is to be shown, and goes on. -/
def present (platform : Platform) (outlet : Outlet) (request : Request) (options : Options)
    (run : Run) (console : Console) : Outcome :=
  let console := console.log (eventLines request.verbose options.level run.events)
  console.tellLines outlet .out (if request.showsOutline then run.result.outline.toList else [])
    (settle platform outlet request options run.result)

/-- The options for a request: those of the environment, with the outline if it is to be shown. -/
def Request.options (request : Request) (environment : List (String × String)) :
    Except Failure Options := do
  let chosen ← (Options.ofEnvironment environment).mapError .unknownLevel
  return { chosen with keepsOutline := request.showsOutline }

def serve (platform : Platform) (outlet : Outlet) (request : Request)
    (environment : List (String × String)) (files : FileTree) : Outcome :=
  let console := Console.start files
  match request.options environment with
  | .error failure => console.failWith outlet failure
  | .ok options =>
    let source := (Path.ofText request.source).text
    console.tellLines outlet .out (if request.verbose then [s!"Compiling {source}..."] else [])
      fun console =>
        match platform.compileFile options files source with
        | .error failure => console.failWith outlet failure
        | .ok run => present platform outlet request options run console

/-- The paths that a command line may read or write: those that it names, and that of the code of
the source file. -/
def paths (words : Words) (environment : List (String × String)) : List Path :=
  let named := (words.operands ++ (words.value? "--output").toList).map Path.ofText
  match Options.ofEnvironment environment with
  | .error _ => named
  | .ok options => named ++ named.filterMap fun path => (outputPath options path).toOption

def runWith (platform : Platform) (outlet : Outlet) (given : Surroundings) :
    Except UsageFault Outcome := do
  let words ← readWords specs given.words
  let console := Console.start given.files
  match informs? "tamc" usage words with
  | some line =>
    match outlet.refusal? .out console.out (lineText line) with
    | none => return (console.say line).ends .success
    | some _ => return console.ends .buildError
  | none =>
    let request ← Request.ofWords given.files words
    return serve platform outlet request given.environment given.files

def run : Surroundings → Except UsageFault Outcome :=
  runWith .standard .free

end Compiler

/-! ### The token lister -/

namespace Lister

def operandLabel : String := "[INPUT_FILE]"

def standardInputName : String := "<stdin>"

def specs : List OptionSpec :=
  [⟨"--interactive", some 'i', false⟩, versionOption, helpOption]

/-- Lists the tokens of a text, with its faults on the error stream. -/
def list (file text : String) (console : Console) : Console × Bool :=
  let scanned := scan file text
  let console := console.log (eventLines false .warning (scanned.events file))
  let console := console.sayAll (scanned.tokens.map Token.listing)
  if scanned.faults.isEmpty then (console, true)
  else (console.warn (Diagnostic.report scanned.faults), false)

/-- Lists the tokens of several texts, each on its own. -/
def listEach (file : String) (texts : List String) (console : Console) : Console × Bool :=
  texts.foldl
    (fun state text =>
      let (console, clean) := list file text state.1
      (console, clean && state.2))
    (console, true)

def conclude (listed : Console × Bool) : Outcome :=
  listed.1.ends (if listed.2 then .success else .buildError)

/-- Standard input with one line feed for every line end. -/
def inputText (given : Surroundings) : List Char :=
  Text.unifyNewlines given.standardInput.toList

def serve (platform : Platform) (interactive : Bool) (source : Option String)
    (given : Surroundings) : Outcome :=
  let console := Console.start given.files
  if interactive then
    let lines := (Text.terminatedLines (inputText given)).map String.ofList
    conclude (listEach standardInputName lines console)
  else
    match source with
    | none => conclude (list standardInputName (String.ofList (inputText given)) console)
    | some source =>
      let path := Path.ofText source
      match Options.ofEnvironment given.environment with
      | .error name => console.failWith .free (.unknownLevel name)
      | .ok options =>
        match platform.readText given.files options.encoding path with
        | .error failure => console.failWith .free failure
        | .ok text => conclude (list path.text text console)

def runWith (platform : Platform) (given : Surroundings) : Except UsageFault Outcome := do
  let words ← readWords specs given.words
  match informs? "tamlex" s!"[OPTIONS] {operandLabel}" words with
  | some line => return ((Console.start given.files).say line).ends .success
  | none =>
    let interactive := words.has "--interactive"
    match words.operands with
    | [] => return serve platform interactive none given
    | source :: more =>
      checkFile given.files true s!"'{operandLabel}'" source
      if more.isEmpty then return serve platform interactive (some source) given
      else .error (.operandsLeft more)

def run : Surroundings → Except UsageFault Outcome :=
  runWith .standard

end Lister

end Command

end StackCompiler
