import StackCompiler.Tree.Basic

/-!
# Grammar rules

The rules of the grammar as functions on the pending tokens. A rule gives the tree of what it
derives and leaves the tokens behind it, or it stops in front of the first token that does not fit.
The end of the list counts as a token of the kind `endOfFile`, which no rule takes.

    program   = "program" ID ";" declaration* block
    declaration = "var" ID ":" ("integer" | "boolean") ";"
    block     = "begin" (statement ";")* "end"
    statement = ID ":=" expression
              | "if" expression "then" statement ("else" statement)?
              | "while" expression "do" statement
              | block
    operand   = INT | "true" | "false" | ID | "(" expression ")"

An expression is a tree of three tiers over its operands: the operators `<` `>` `=` bind loosest,
then `+` `-` `or`, then `*` `/` `and`, and each tier groups from the left. An `else` goes to the
nearest `if` that can take it.

Expressions and statements take the depth to which they may nest further. A loop counts its turns
off on the tokens that are pending when it starts: each turn takes a token, so it never runs out of
them.
-/

set_option autoImplicit false
set_option relaxedAutoImplicit false

namespace StackCompiler.Grammar

/-- What a rule would accept. -/
inductive Expected where
  | token (kind : TokenKind)
  | typeName
  | statement
  | expression
  deriving DecidableEq, Repr

def Expected.name : Expected → String
  | token kind => kind.name
  | typeName => "type name"
  | statement => "statement"
  | expression => "expression"

/-- Why a rule stops. -/
inductive Refusal where
  | unexpected (expected : Expected)
  | floatLiteral
  | tooDeep
  deriving DecidableEq, Repr

/-- A rule stops in front of the pending tokens. -/
structure Stop where
  refusal : Refusal
  pending : List Token
  deriving DecidableEq, Repr

/-- A rule takes the pending tokens to a value and the tokens behind it. -/
abbrev Rule := StateT (List Token) (Except Stop)

/-- The kind of the next token. -/
def kindOfNext : List Token → TokenKind
  | [] => .endOfFile
  | token :: _ => token.kind

def refuse {α : Type} (refusal : Refusal) : Rule α :=
  fun pending => .error ⟨refusal, pending⟩

/-- Takes the next token if its kind is in a class. -/
def accept? (member : TokenKind → Bool) : Rule (Option Token) :=
  fun pending => match pending with
    | token :: rest => if member token.kind then .ok (some token, rest) else .ok (none, pending)
    | [] => .ok (none, [])

/-- Takes a token of the given kind. -/
def expect (kind : TokenKind) : Rule Token := do
  match ← accept? (· == kind) with
  | some token => return token
  | none => refuse (.unexpected (.token kind))

/-! ### Expressions -/

/-- An operand, given the rule for what stands in parentheses. -/
def operand (inner : Rule Expr) : Rule Expr := do
  match kindOfNext (← get) with
  | .intLit => return .intLit (← expect .intLit)
  | .trueKw => return .boolLit (← expect .trueKw)
  | .falseKw => return .boolLit (← expect .falseKw)
  | .ident => return .use (← expect .ident)
  | .lparen =>
    let _ ← expect .lparen
    let e ← inner
    let _ ← expect .rparen
    return e
  | .floatLit => refuse .floatLiteral
  | _ => refuse (.unexpected .expression)

/-- Further operators of a tier and their right operands, joined to what stands left of them. -/
def joinRight (member : TokenKind → Bool) (next : Rule Expr) : List Token → Expr → Rule Expr
  | [], left => return left
  | _ :: turns, left => do
    match ← accept? member with
    | some operator =>
      let right ← next
      joinRight member next turns (.binary left operator right)
    | none => return left

/-- A tier of operators over the rule for its operands. -/
def tier (member : TokenKind → Bool) (next : Rule Expr) : Rule Expr := do
  let left ← next
  joinRight member next (← get) left

/-- An expression in which parentheses nest less than `depth` levels. -/
def expression : Nat → Rule Expr
  | 0 => refuse .tooDeep
  | depth + 1 =>
    tier TokenKind.isComparison <| tier TokenKind.isAdditive <|
      tier TokenKind.isMultiplicative <| operand (expression depth)

/-! ### Statements -/

def assignment (value : Rule Expr) : Rule Stmt := do
  let target ← expect .ident
  let _ ← expect .assign
  return .assign target (← value)

def conditional (condition : Rule Expr) (inner : Rule Stmt) : Rule Stmt := do
  let _ ← expect .ifKw
  let e ← condition
  let _ ← expect .thenKw
  let body ← inner
  match ← accept? (· == .elseKw) with
  | some _ => return .ifElse e body (← inner)
  | none => return .ifThen e body

def loop (condition : Rule Expr) (inner : Rule Stmt) : Rule Stmt := do
  let _ ← expect .whileKw
  let e ← condition
  let _ ← expect .doKw
  return .loop e (← inner)

/-- Statements, each closed by a semicolon, up to `end` or the end of the tokens. -/
def statements (inner : Rule Stmt) : List Token → Rule (List Stmt)
  | [] => return []
  | _ :: turns => do
    let kind := kindOfNext (← get)
    if kind == .endKw || kind == .endOfFile then return []
    else
      let first ← inner
      let _ ← expect .semicolon
      return first :: (← statements inner turns)

def block (inner : Rule Stmt) : Rule (List Stmt) := do
  let _ ← expect .beginKw
  let body ← statements inner (← get)
  let _ ← expect .endKw
  return body

/-- A statement in which statements and parentheses nest less than `depth` levels. -/
def statement : Nat → Rule Stmt
  | 0 => refuse .tooDeep
  | depth + 1 => do
    match kindOfNext (← get) with
    | .ident => assignment (expression depth)
    | .ifKw => conditional (expression depth) (statement depth)
    | .whileKw => loop (expression depth) (statement depth)
    | .beginKw => return .block (← block (statement depth))
    | _ => refuse (.unexpected .statement)

/-! ### Programs -/

def typeName : Rule Token := do
  match ← accept? fun kind => kind == .integerKw || kind == .booleanKw with
  | some token => return token
  | none => refuse (.unexpected .typeName)

/-- What stands behind the word that opens a declaration. -/
def declaration : Rule Decl := do
  let name ← expect .ident
  let _ ← expect .colon
  let type ← typeName
  let _ ← expect .semicolon
  return ⟨name, type⟩

def declarations : List Token → Rule (List Decl)
  | [] => return []
  | _ :: turns => do
    match ← accept? (· == .varKw) with
    | some _ => return (← declaration) :: (← declarations turns)
    | none => return []

/-- A program whose body nests less than `depth` levels. -/
def program (depth : Nat) : Rule Program := do
  let _ ← expect .programKw
  let name ← expect .ident
  let _ ← expect .semicolon
  let decls ← declarations (← get)
  let body ← block (statement depth)
  return ⟨name, decls, body⟩

end StackCompiler.Grammar
