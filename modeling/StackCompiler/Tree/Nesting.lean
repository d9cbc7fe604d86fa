import StackCompiler.Tree.Node

/-!
# Nesting

How deeply programs may nest. Source text may nest parentheses and statements up to
`nestingLimit`; a chain of operators has no parentheses but makes a deep tree, and what lies below
the limit in a tree is cut off by `prune`, which leaves holes. A tree within the limit stays as it
is.
-/

set_option autoImplicit false
set_option relaxedAutoImplicit false

namespace StackCompiler

/-- The number of levels of constructs within constructs that are looked at. -/
def nestingLimit : Nat := 400

/-- The tree with all that lies too deep in it cut off. -/
def Node.prune : Nat → Node → Node
  | 0, _ => .hole .tooDeep
  | depth + 1, .program name declarations body =>
    .program name (declarations.map (Node.prune depth)) (body.prune depth)
  | depth + 1, .block statements => .block (statements.map (Node.prune depth))
  | depth + 1, .assign target value => .assign target (value.prune depth)
  | depth + 1, .ifThen condition body => .ifThen (condition.prune depth) (body.prune depth)
  | depth + 1, .ifElse condition body alternative =>
    .ifElse (condition.prune depth) (body.prune depth) (alternative.prune depth)
  | depth + 1, .loop condition body => .loop (condition.prune depth) (body.prune depth)
  | depth + 1, .binary left operator right =>
    .binary (left.prune depth) operator (right.prune depth)
  | _ + 1, leaf => leaf

end StackCompiler
