import StackCompiler.Text.Lines
import StackCompiler.Text.Quoted

/-!
# Paths

A path is a root and the names that lead on from it. Reading a path drops empty names and the name
`.`; two slashes in front are a root of their own, any other number of them is one. The name `..`
stays, since what it leads to depends on the files.

The suffix of a name starts at its last dot, unless that dot is its first or last character.
-/

set_option autoImplicit false
set_option relaxedAutoImplicit false

namespace StackCompiler

inductive PathRoot where
  | working
  | single
  | double
  deriving DecidableEq, Repr

structure Path where
  root : PathRoot
  names : List String
  deriving DecidableEq, Repr

/-- Why a path cannot get another suffix. -/
inductive SuffixFault where
  | invalidSuffix (suffix : String)
  | emptyName (path : Path)
  deriving DecidableEq, Repr

namespace Path

/-- The pieces of a text between slashes. -/
def segments (text : String) : List String :=
  (Text.cutAt (· == '/') text.toList).map String.ofList

/-- The names in a text that lead from one directory to the next. -/
def stepNames (text : String) : List String :=
  (segments text).filter fun name => !name.isEmpty && name != "."

def rootOf (text : String) : PathRoot :=
  match (text.toList.takeWhile (· == '/')).length with
  | 0 => .working
  | 2 => .double
  | _ => .single

def ofText (text : String) : Path :=
  ⟨rootOf text, stepNames text⟩

def rootText : PathRoot → String
  | .working => ""
  | .single => "/"
  | .double => "//"

def text (path : Path) : String :=
  let steps := rootText path.root ++ "/".intercalate path.names
  if steps.isEmpty then "." else steps

/-- A name without its suffix. -/
def stem (name : String) : String :=
  let characters := name.toList.reverse
  let suffix := characters.takeWhile (· != '.')
  match characters.dropWhile (· != '.') with
  | _ :: c :: before =>
    if suffix.isEmpty then name else String.ofList (c :: before).reverse
  | _ => name

/-- A suffix has a dot in front and something behind it, and leads to no other directory. -/
def isSuffix (suffix : String) : Bool :=
  suffix.startsWith "." && suffix != "." && !suffix.toList.contains '/'

/-- The path with another suffix for its last name. -/
def withSuffix (path : Path) (suffix : String) : Except SuffixFault Path :=
  if !isSuffix suffix then .error (.invalidSuffix suffix)
  else
    match path.names.getLast? with
    | some name => .ok { path with names := path.names.dropLast ++ [stem name ++ suffix] }
    | none => .error (.emptyName path)

end Path

def SuffixFault.message : SuffixFault → String
  | invalidSuffix suffix => s!"Invalid suffix {Text.quoted suffix}"
  | emptyName path => s!"PosixPath({Text.quoted path.text}) has an empty name"

end StackCompiler
