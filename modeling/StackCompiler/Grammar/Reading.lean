import StackCompiler.Diagnostic
import StackCompiler.Grammar.Rules
import StackCompiler.Token.Stream
import StackCompiler.Tree.Nesting

/-!
# Reading programs

Programs are read off the front of a token stream one after another: a program that is read is
gone, and a fault leaves the stream in front of the token at fault.
-/

set_option autoImplicit false
set_option relaxedAutoImplicit false

namespace StackCompiler

/-- The line that a token stands on, if there is such a line. -/
def sourceLineAt (lines : List String) (location : Location) : Option String :=
  if 0 < location.line then lines[(location.line - 1).toNat]? else none

/-- A diagnostic at the place of a token. -/
def Token.diagnostic (token : Token) (lines : List String) (cause : Cause) : Diagnostic :=
  ⟨cause, some token.location, sourceLineAt lines token.location⟩

namespace Grammar

/-- The cause to report for a refusal in front of a token. -/
def Refusal.cause (refusal : Refusal) (token : Token) : Cause :=
  match refusal with
  | unexpected .typeName =>
    .unexpectedToken Expected.typeName.name token.kind.name
      (some "declare variables as 'integer' or 'boolean'")
  | unexpected expected => .unexpectedToken expected.name token.kind.name none
  | floatLiteral =>
    .unsupported s!"floating-point literal '{token.lexeme}'"
      (some "only integer and boolean values can be compiled")
  | tooDeep => .nestedTooDeeply

/-- The diagnostic for a refusal; nesting has no one line to show. -/
def Refusal.diagnostic (refusal : Refusal) (token : Token) (lines : List String) : Diagnostic :=
  match refusal with
  | tooDeep => ⟨.nestedTooDeeply, some token.location, none⟩
  | refusal => token.diagnostic lines (refusal.cause token)

end Grammar

/-- Reads a program that nests less than `depth` levels off the front of a stream. The source lines
go into the diagnostic. -/
def TokenStream.readProgramWithin (stream : TokenStream) (depth : Nat) (lines : List String) :
    Except Diagnostic Program × TokenStream :=
  match Grammar.program depth stream.pending with
  | .ok (program, rest) => (.ok program, { stream with pending := rest })
  | .error stop =>
    let stopped := { stream with pending := stop.pending }
    (.error (stop.refusal.diagnostic stopped.next lines), stopped)

/-- Reads a program off the front of a stream. -/
def TokenStream.readProgram (stream : TokenStream) (lines : List String) :
    Except Diagnostic Program × TokenStream :=
  stream.readProgramWithin nestingLimit lines

end StackCompiler
