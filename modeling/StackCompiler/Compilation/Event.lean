import StackCompiler.Diagnostic
import StackCompiler.Machine.Emit
import StackCompiler.Token.Scan
import StackCompiler.Typing.Check

/-!
# Events

What a compilation reports while it runs, beside its result. Every event has a level, a channel
named for the part of the compiler that it comes from, and a text.
-/

set_option autoImplicit false
set_option relaxedAutoImplicit false

namespace StackCompiler

/-- The names of the levels of severity. Some levels have two names. -/
inductive Level where
  | critical
  | fatal
  | error
  | warning
  | warn
  | info
  | debug
  | unset
  deriving DecidableEq, Repr

namespace Level

def all : List Level :=
  [critical, fatal, error, warning, warn, info, debug, unset]

def name : Level → String
  | critical => "CRITICAL"
  | fatal => "FATAL"
  | error => "ERROR"
  | warning => "WARNING"
  | warn => "WARN"
  | info => "INFO"
  | debug => "DEBUG"
  | unset => "NOTSET"

def severity : Level → Nat
  | critical | fatal => 50
  | error => 40
  | warning | warn => 30
  | info => 20
  | debug => 10
  | unset => 0

def ofName? (text : String) : Option Level :=
  all.find? (·.name == text)

/-- The least severity that is shown at a level. The unset level leaves it at that of a warning. -/
def threshold (level : Level) : Nat :=
  if level.severity == 0 then warning.severity else level.severity

end Level

inductive Event where
  | lexicalFault (fault : Diagnostic)
  | scanned (file : String) (tokens faults : Nat)
  | parsed (name : String) (declarations statements : Nat)
  | declared (entry : Variable)
  | checked (count : Nat)
  | generated (lines labels : Nat)
  | compiled (file : String) (lines : Nat)
  | lexicalFailure (file : String) (faults : Nat)
  | failure (file : String) (diagnostic : Diagnostic)
  | nestedTooDeeply (file : String)
  | wrote (lines : Nat) (path : String)
  deriving DecidableEq, Repr

namespace Event

def level : Event → Level
  | lexicalFault _ => .warning
  | lexicalFailure .. | failure .. | nestedTooDeeply _ => .info
  | _ => .debug

def channel : Event → String
  | lexicalFault _ | scanned .. => "tamc.lexer"
  | parsed .. => "tamc.parser"
  | declared _ | checked _ => "tamc.checker"
  | generated .. => "tamc.codegen"
  | _ => "tamc.compiler"

/-- The line of a diagnostic in words. -/
def lineText (diagnostic : Diagnostic) : String :=
  match diagnostic.line with
  | some line => toString line
  | none => "None"

def text : Event → String
  | lexicalFault fault => s!"{fault.text} at line {lineText fault}"
  | scanned file tokens faults => s!"Scanned {tokens} tokens from {file} ({faults} lexical errors)"
  | parsed name declarations statements =>
    s!"Parsed program '{name}': {declarations} declarations, {statements} top-level statements"
  | declared entry => s!"Declared {entry.name} : {entry.type.name}"
  | checked count => s!"Context check passed: {count} variables declared"
  | generated lines labels => s!"Generated {lines} lines using {labels} labels"
  | compiled file lines => s!"{file}: compiled to {lines} lines"
  | lexicalFailure file faults => s!"{file}: {faults} lexical errors"
  | failure file diagnostic =>
    s!"{file}: {diagnostic.family.name} error at line {lineText diagnostic}"
  | nestedTooDeeply file => s!"{file}: program nested too deeply"
  | wrote lines path => s!"Wrote {lines} lines to {path}"

/-- The text with level and channel in front. -/
def detailed (event : Event) : String :=
  s!"{event.level.name}:{event.channel}:{event.text}"

/-- Whether a severity lets the event through. -/
def passes (least : Nat) (event : Event) : Bool :=
  least ≤ event.level.severity

end Event

/-- The events of a scan. -/
def Scan.events (scan : Scan) (file : String) : List Event :=
  scan.faults.map .lexicalFault ++ [.scanned file scan.tokens.length scan.faults.length]

end StackCompiler
