import StackCompiler.Token.Basic

/-!
# Program trees

A program has a name, variable declarations and a body; statements and expressions nest in it. The
trees hold tokens, so every construct knows the place where it stands. They are the trees of the
grammar: in each place stands a construct of the sort that the grammar has there, and only the kind
of a token is left open.
-/

set_option autoImplicit false
set_option relaxedAutoImplicit false

namespace StackCompiler

inductive Expr where
  | binary (left : Expr) (operator : Token) (right : Expr)
  | intLit (token : Token)
  | boolLit (token : Token)
  | use (name : Token)
  deriving DecidableEq, Repr

inductive Stmt where
  | assign (target : Token) (value : Expr)
  | ifThen (condition : Expr) (body : Stmt)
  | ifElse (condition : Expr) (body alternative : Stmt)
  | loop (condition : Expr) (body : Stmt)
  | block (statements : List Stmt)
  deriving Repr

/-- Induction on statements, with the hypothesis at hand for every statement of a block. -/
@[elab_as_elim, induction_eliminator]
theorem Stmt.induct {motive : Stmt → Prop}
    (assign : ∀ target value, motive (.assign target value))
    (ifThen : ∀ condition body, motive body → motive (.ifThen condition body))
    (ifElse : ∀ condition body alternative, motive body → motive alternative →
      motive (.ifElse condition body alternative))
    (loop : ∀ condition body, motive body → motive (.loop condition body))
    (block : ∀ statements, (∀ statement ∈ statements, motive statement) →
      motive (.block statements)) :
    ∀ statement, motive statement
  | .assign target value => assign target value
  | .ifThen condition body =>
    ifThen condition body (Stmt.induct assign ifThen ifElse loop block body)
  | .ifElse condition body alternative =>
    ifElse condition body alternative (Stmt.induct assign ifThen ifElse loop block body)
      (Stmt.induct assign ifThen ifElse loop block alternative)
  | .loop condition body => loop condition body (Stmt.induct assign ifThen ifElse loop block body)
  | .block statements =>
    block statements fun statement _ => Stmt.induct assign ifThen ifElse loop block statement

/-- A variable and the keyword of its type. -/
structure Decl where
  name : Token
  type : Token
  deriving DecidableEq, Repr

/-- A program; the body is a block. -/
structure Program where
  name : Token
  declarations : List Decl
  statements : List Stmt
  deriving Repr

/-- The truth value of a Boolean literal. -/
def Token.truth (token : Token) : Bool :=
  token.kind == .trueKw

end StackCompiler
