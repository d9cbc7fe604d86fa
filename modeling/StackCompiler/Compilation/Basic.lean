import StackCompiler.Compilation.Event
import StackCompiler.Grammar.Reading
import StackCompiler.Tree.Nesting
import StackCompiler.Tree.Outline

/-!
# Compilations

From source text to machine code: scan, read the program, check it, generate code. `compile` runs
the four stages in order. What each gives is kept in the `Artifacts`, and the `Verdict` is the code
or what was wrong. Any lexical fault fails the compilation before the program is read, with all
lexical faults as its diagnostics; every later failure has one diagnostic.

How deep the passes behind the scan look is up to the machine that runs them, so they are a
parameter, `Passes`. Those of `compile` read programs up to `nestingLimit`, and make outline, check
and code of the tree cut off at this limit. A hole that this leaves is reported as nesting without a
place. No other hole can be in a program that was read, so the remaining breakdowns are kept apart
as a result of their own.
-/

set_option autoImplicit false
set_option relaxedAutoImplicit false

namespace StackCompiler

inductive Verdict where
  | failed (first : Diagnostic) (others : List Diagnostic)
  | compiled (code : List Instr)
  deriving DecidableEq, Repr

/-- What the stages of a compilation have given. -/
structure Artifacts where
  file : String
  tokens : List Token
  /-- The program, if it could be read. -/
  program : Option Program
  /-- The outline, if it was asked for and the program could be read. -/
  outline : Option String
  /-- The declared variables, if the check succeeded. -/
  scope : Option Scope
  deriving Repr

structure Compilation extends Artifacts where
  verdict : Verdict
  deriving Repr

namespace Compilation

def diagnostics (result : Compilation) : List Diagnostic :=
  match result.verdict with
  | .failed first others => first :: others
  | .compiled _ => []

def first? (result : Compilation) : Option Diagnostic :=
  result.diagnostics.head?

def succeeded (result : Compilation) : Bool :=
  match result.verdict with
  | .failed .. => false
  | .compiled _ => true

/-- The generated code; a failed compilation has none. -/
def code (result : Compilation) : List Instr :=
  match result.verdict with
  | .failed .. => []
  | .compiled code => code

def family? (result : Compilation) : Option Family :=
  result.first?.map Diagnostic.family

def message? (result : Compilation) : Option String :=
  result.first?.map Diagnostic.message

def line? (result : Compilation) : Option Int :=
  result.first?.bind Diagnostic.line

/-- The code, or what was wrong first. -/
def outcome (result : Compilation) : Except Diagnostic (List Instr) :=
  match result.verdict with
  | .failed first _ => .error first
  | .compiled code => .ok code

end Compilation

/-- A finished compilation and what was reported on the way. -/
structure Run where
  result : Compilation
  events : List Event
  deriving Repr

/-- What stops a stage that works on a tree. -/
inductive StageFault where
  | diagnostic (diagnostic : Diagnostic)
  | tooDeep
  | breakdown (breakdown : Breakdown)
  deriving DecidableEq, Repr

namespace StageFault

def ofBreakdown : Breakdown → StageFault
  | .hole .tooDeep => tooDeep
  | other => breakdown other

def ofCheckFault (lines : List String) : CheckFault → StageFault
  | .violation found => diagnostic (found.token.diagnostic lines found.cause)
  | .breakdown found => ofBreakdown found

end StageFault

/-- The passes behind the scan, each as far as the machine lets it go. -/
structure Passes where
  read : TokenStream → List String → Except Diagnostic Program
  outline : Node → Except Hole Outline
  check : Node → Except CheckFault (Option Ty) × Scope
  code : Node → Except Breakdown (List Instr × Label)

namespace Passes

/-- The passes that read so many levels of nesting and look at so many levels of a tree. -/
def within (reading looking : Nat) : Passes where
  read stream lines := (stream.readProgramWithin reading lines).1
  outline tree := (tree.prune looking).outline
  check tree := (tree.prune looking).check .empty
  code tree := (tree.prune looking).code

def standard : Passes :=
  within nestingLimit nestingLimit

end Passes

namespace Artifacts

/-- Ends a compilation at a fault. -/
def stopAt (artifacts : Artifacts) (events : List Event) : StageFault → Except Breakdown Run
  | .diagnostic found =>
    .ok ⟨⟨artifacts, .failed found []⟩, events ++ [.failure artifacts.file found]⟩
  | .tooDeep =>
    .ok ⟨⟨artifacts, .failed ⟨.nestedTooDeeply, none, none⟩ []⟩,
      events ++ [.nestedTooDeeply artifacts.file]⟩
  | .breakdown found => .error found

/-- The last stage: code. -/
def generate (artifacts : Artifacts) (passes : Passes) (events : List Event) (tree : Node) :
    Except Breakdown Run :=
  match passes.code tree with
  | .error found => artifacts.stopAt events (.ofBreakdown found)
  | .ok (code, labels) =>
    .ok ⟨⟨artifacts, .compiled code⟩,
      events ++ [.generated code.length labels, .compiled artifacts.file code.length]⟩

/-- The stages from the check on. -/
def check (artifacts : Artifacts) (passes : Passes) (events : List Event) (lines : List String)
    (tree : Node) : Except Breakdown Run :=
  let (outcome, scope) := passes.check tree
  let events := events ++ scope.entries.map .declared
  match outcome with
  | .error fault => artifacts.stopAt events (.ofCheckFault lines fault)
  | .ok _ =>
    { artifacts with scope := some scope }.generate passes (events ++ [Event.checked scope.size])
      tree

/-- The stages from the outline on. -/
def sketch (artifacts : Artifacts) (passes : Passes) (events : List Event) (lines : List String)
    (keepsOutline : Bool) (tree : Node) : Except Breakdown Run :=
  if keepsOutline then
    match passes.outline tree with
    | .error gap => artifacts.stopAt events (.ofBreakdown (.hole gap))
    | .ok outline => { artifacts with outline := some outline.text }.check passes events lines tree
  else artifacts.check passes events lines tree

end Artifacts

def Program.parsedEvent (program : Program) : Event :=
  .parsed program.name.lexeme program.declarations.length program.statements.length

/-- The lines from which diagnostics of the later stages quote. -/
def sourceLines (text : String) : List String :=
  (Text.breakLines text.toList).map String.ofList

/-- Compiles a source text with the given passes. -/
def compileWith (passes : Passes) (keepsOutline : Bool) (file text : String) :
    Except Breakdown Run :=
  let scanned := scan file text
  let artifacts : Artifacts := ⟨file, scanned.tokens, none, none, none⟩
  let events := scanned.events file
  match scanned.faults with
  | first :: others =>
    .ok ⟨⟨artifacts, .failed first others⟩,
      events ++ [.lexicalFailure file scanned.faults.length]⟩
  | [] =>
    let lines := sourceLines text
    match passes.read scanned.stream lines with
    | .error found => artifacts.stopAt events (.diagnostic found)
    | .ok program =>
      { artifacts with program := some program }.sketch passes (events ++ [program.parsedEvent])
        lines keepsOutline program.node

/-- Compiles a source text. -/
def compile (keepsOutline : Bool) (file text : String) : Except Breakdown Run :=
  compileWith .standard keepsOutline file text

/-- The code of a source text, or what is wrong with it first. -/
def codeWith (passes : Passes) (file text : String) :
    Except Breakdown (Except Diagnostic (List Instr)) :=
  (compileWith passes false file text).map (·.result.outcome)

/-- Reads the program of a source text. The diagnostic is the first one of a compilation. -/
def readSourceWith (passes : Passes) (file text : String) : Except Diagnostic Program :=
  let scanned := scan file text
  match scanned.faults with
  | first :: _ => .error first
  | [] => passes.read scanned.stream (sourceLines text)

def readSource (file text : String) : Except Diagnostic Program :=
  readSourceWith .standard file text

end StackCompiler
