import StackCompiler.Compilation.Event
import StackCompiler.Text.Capitals

/-!
# Options

The choices that a compilation depends on. The suffix of output files always starts with a dot, and
the name of the log level counts in any letter case. From the environment only the variables that
are set and not empty count.
-/

set_option autoImplicit false
set_option relaxedAutoImplicit false

namespace StackCompiler

structure Options where
  outputSuffix : String
  keepsOutline : Bool
  level : Level
  encoding : String
  deriving DecidableEq, Repr

namespace Options

def defaultSuffix : String := ".tam"

def defaultLevel : String := "WARNING"

def defaultEncoding : String := "utf-8"

def standard : Options := ⟨defaultSuffix, false, .warning, defaultEncoding⟩

/-- The suffix with a dot in front. -/
def dotted (suffix : String) : String :=
  if suffix.startsWith "." then suffix else "." ++ suffix

/-- Options from their texts. The fault is the name of the level, in capitals, if there is no such
level. -/
def ofTexts (suffix : String) (keepsOutline : Bool) (level encoding : String) :
    Except String Options :=
  let name := Text.upperCase level
  match Level.ofName? name with
  | some level => .ok ⟨dotted suffix, keepsOutline, level, encoding⟩
  | none => .error name

/-- The words for a level that does not exist. -/
def unknownLevelText (name : String) : String :=
  s!"unknown log level '{name}'"

/-- A variable of the environment, unless it is empty. -/
def setting? (environment : List (String × String)) (name : String) : Option String :=
  (environment.lookup name).filter (!·.isEmpty)

def ofEnvironment (environment : List (String × String)) : Except String Options :=
  ofTexts ((setting? environment "TAMC_OUTPUT_SUFFIX").getD defaultSuffix) false
    ((setting? environment "TAMC_LOG_LEVEL").getD defaultLevel)
    ((setting? environment "TAMC_ENCODING").getD defaultEncoding)

end Options

end StackCompiler
