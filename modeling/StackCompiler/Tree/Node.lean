import StackCompiler.Tree.Basic

/-!
# Nodes

The trees on which the passes work. A tree need not come from source text: it can be put together by
hand, with any construct in any place, with a token of any kind where an operator, a type or a
literal should be, and with a `Hole` where there is no construct at all. The trees of the grammar
are the nodes that `Program.node`, `Decl.node`, `Stmt.node` and `Expr.node` give.

No pass gets over a hole; what else can stop a pass is listed by `Breakdown`.
-/

set_option autoImplicit false
set_option relaxedAutoImplicit false

namespace StackCompiler

/-- A place in a tree without a construct of the language: an object of some other sort, or a
subtree that nests too deeply to be looked at. -/
inductive Hole where
  | foreign (name : String)
  | tooDeep
  deriving DecidableEq, Repr

inductive Node where
  | program (name : Token) (declarations : List Node) (body : Node)
  | varDecl (name type : Token)
  | block (statements : List Node)
  | assign (target : Token) (value : Node)
  | ifThen (condition body : Node)
  | ifElse (condition body alternative : Node)
  | loop (condition body : Node)
  | binary (left : Node) (operator : Token) (right : Node)
  | intLit (token : Token)
  | boolLit (token : Token)
  | use (name : Token)
  | hole (hole : Hole)
  deriving Repr

/-! ### The trees of the grammar as nodes -/

def Expr.node : Expr → Node
  | binary left operator right => .binary left.node operator right.node
  | intLit token => .intLit token
  | boolLit token => .boolLit token
  | use name => .use name

mutual

def Stmt.node : Stmt → Node
  | .assign target value => .assign target value.node
  | .ifThen condition body => .ifThen condition.node body.node
  | .ifElse condition body alternative => .ifElse condition.node body.node alternative.node
  | .loop condition body => .loop condition.node body.node
  | .block statements => .block (Stmt.nodes statements)

def Stmt.nodes : List Stmt → List Node
  | [] => []
  | statement :: more => statement.node :: Stmt.nodes more

end

def Decl.node (decl : Decl) : Node :=
  .varDecl decl.name decl.type

def Program.node (program : Program) : Node :=
  .program program.name (program.declarations.map Decl.node)
    (.block (Stmt.nodes program.statements))

/-! ### Kinds of construct -/

/-- The kinds of construct, in their fixed order. -/
inductive NodeKind where
  | program | varDecl | block | assign | cond | loop
  | binary | intLit | boolLit | use
  deriving DecidableEq, Repr

namespace NodeKind

def all : List NodeKind :=
  [program, varDecl, block, assign, cond, loop, binary, intLit, boolLit, use]

theorem mem_all (kind : NodeKind) : kind ∈ all := by
  cases kind <;> simp [all]

/-- The name under which outlines show the kind. -/
def name : NodeKind → String
  | program => "ProgramNode"
  | varDecl => "VarDeclNode"
  | block => "BeginEndNode"
  | assign => "AssignNode"
  | cond => "IfNode"
  | loop => "WhileNode"
  | binary => "BinaryOpNode"
  | intLit => "IntLitNode"
  | boolLit => "BooleanLitNode"
  | use => "VariableUseNode"

end NodeKind

/-- The name of the kind of a node; a hole has that of the object in it. -/
def Node.kindName : Node → String
  | program .. => NodeKind.program.name
  | varDecl .. => NodeKind.varDecl.name
  | block _ => NodeKind.block.name
  | assign .. => NodeKind.assign.name
  | ifThen .. | ifElse .. => NodeKind.cond.name
  | loop .. => NodeKind.loop.name
  | binary .. => NodeKind.binary.name
  | intLit _ => NodeKind.intLit.name
  | boolLit _ => NodeKind.boolLit.name
  | use _ => NodeKind.use.name
  | hole (.foreign name) => name
  | hole .tooDeep => ""

theorem Node.exists_kindName {node : Node} (h : ∀ gap, node ≠ .hole gap) :
    ∃ kind : NodeKind, node.kindName = kind.name := by
  cases node with
  | program => exact ⟨.program, rfl⟩
  | varDecl => exact ⟨.varDecl, rfl⟩
  | block => exact ⟨.block, rfl⟩
  | assign => exact ⟨.assign, rfl⟩
  | ifThen | ifElse => exact ⟨.cond, rfl⟩
  | loop => exact ⟨.loop, rfl⟩
  | binary => exact ⟨.binary, rfl⟩
  | intLit => exact ⟨.intLit, rfl⟩
  | boolLit => exact ⟨.boolLit, rfl⟩
  | use => exact ⟨.use, rfl⟩
  | hole gap => exact absurd rfl (h gap)

/-- What stops a pass although it is no fault of a source program: a hole, a token of the wrong kind
for an operator or for a type, a literal that cannot be written, or an object of a named kind whose
first token is asked for though it is no expression. -/
inductive Breakdown where
  | hole (hole : Hole)
  | unknownOperator (kind : TokenKind)
  | noInstruction (kind : TokenKind)
  | unwritableLiteral
  | notTypeName (kind : TokenKind)
  | noFirstToken (object : String)
  deriving DecidableEq, Repr

end StackCompiler
