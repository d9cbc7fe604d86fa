import StackCompiler.Tree.Node

/-!
# Outlines

The structure of a tree as indented text, one line for each construct and one for each part of a
construct that has a title. `outline` gives the lines as a tree of their own, an `Outline`, and
`Outline.lines` indents each by two spaces more than the line it belongs to.
-/

set_option autoImplicit false
set_option relaxedAutoImplicit false

namespace StackCompiler

/-- A line of text and what belongs to it. -/
inductive Outline where
  | entry (line : String) (parts : List Outline)
  deriving Repr

namespace Outline

def leaf (line : String) : Outline :=
  entry line []

/-- Two spaces for each level. -/
def indented (level : Nat) (line : String) : String :=
  String.ofList (List.replicate (2 * level) ' ') ++ line

mutual

/-- The lines of an outline that stands at a level. -/
def lines (level : Nat) : Outline → List String
  | entry line parts => indented level line :: linesOfParts (level + 1) parts

def linesOfParts (level : Nat) : List Outline → List String
  | [] => []
  | part :: more => part.lines level ++ linesOfParts level more

end

def text (outline : Outline) : String :=
  "\n".intercalate (outline.lines 0)

end Outline

/-- A construct with the source text that tells it from others of its kind. -/
def NodeKind.heading (kind : NodeKind) (detail : String) : String :=
  s!"{kind.name}: {detail}"

mutual

def Node.outline : Node → Except Hole Outline
  | .program name declarations body => do
    let declarations ← Node.outlines declarations
    let body ← body.outline
    return .entry (NodeKind.program.heading name.lexeme)
      [.entry "Declarations:" declarations, .entry "Compound Statement:" [body]]
  | .varDecl name type =>
    return .leaf (NodeKind.varDecl.heading s!"{name.lexeme} : {type.lexeme}")
  | .block statements => do
    let parts ← Node.outlines statements
    return .entry NodeKind.block.name parts
  | .assign target value => do
    let value ← value.outline
    return .entry (NodeKind.assign.heading target.lexeme) [.entry "Expression:" [value]]
  | .ifThen condition body => do
    let condition ← condition.outline
    let body ← body.outline
    return .entry NodeKind.cond.name
      [.entry "Condition:" [condition], .entry "Then Branch:" [body]]
  | .ifElse condition body alternative => do
    let condition ← condition.outline
    let body ← body.outline
    let alternative ← alternative.outline
    return .entry NodeKind.cond.name
      [.entry "Condition:" [condition], .entry "Then Branch:" [body],
        .entry "Else Branch:" [alternative]]
  | .loop condition body => do
    let condition ← condition.outline
    let body ← body.outline
    return .entry NodeKind.loop.name [.entry "Condition:" [condition], .entry "Do:" [body]]
  | .binary left operator right => do
    let left ← left.outline
    let right ← right.outline
    return .entry (NodeKind.binary.heading s!"'{operator.lexeme}'")
      [.entry "Left:" [left], .entry "Right:" [right]]
  | .intLit token => return .leaf (NodeKind.intLit.heading token.lexeme)
  | .boolLit token => return .leaf (NodeKind.boolLit.heading token.lexeme)
  | .use name => return .leaf (NodeKind.use.heading name.lexeme)
  | .hole gap => .error gap

def Node.outlines : List Node → Except Hole (List Outline)
  | [] => return []
  | node :: more => do
    let first ← node.outline
    let later ← Node.outlines more
    return first :: later

end

end StackCompiler
