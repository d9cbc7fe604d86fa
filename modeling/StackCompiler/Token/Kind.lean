/-!
# Kinds of token

The kinds of token of the source language, in their fixed order, and the tables that give the kind
of a keyword and of a single character. `endOfFile` closes every token list and has no text.
-/

set_option autoImplicit false
set_option relaxedAutoImplicit false

namespace StackCompiler

inductive TokenKind where
  | lparen | rparen | semicolon
  | plus | minus | times | divide
  | less | greater | equal
  | colon | assign
  | ident | intLit | floatLit
  | programKw | varKw | beginKw | endKw
  | ifKw | thenKw | elseKw | whileKw | doKw
  | integerKw | booleanKw | trueKw | falseKw | orKw | andKw
  | endOfFile
  deriving DecidableEq, Repr, Inhabited

namespace TokenKind

def all : List TokenKind :=
  [lparen, rparen, semicolon, plus, minus, times, divide, less, greater, equal, colon, assign,
    ident, intLit, floatLit, programKw, varKw, beginKw, endKw, ifKw, thenKw, elseKw, whileKw,
    doKw, integerKw, booleanKw, trueKw, falseKw, orKw, andKw, endOfFile]

theorem mem_all (kind : TokenKind) : kind ∈ all := by
  cases kind <;> simp [all]

/-- The name under which messages and token listings show the kind. -/
def name : TokenKind → String
  | lparen => "LPAREN"
  | rparen => "RPAREN"
  | semicolon => "SEMICOLON"
  | plus => "PLUS"
  | minus => "MINUS"
  | times => "TIMES"
  | divide => "DIV"
  | less => "LT"
  | greater => "GT"
  | equal => "EQ"
  | colon => "COLON"
  | assign => "ASSIGN"
  | ident => "ID"
  | intLit => "INT_LIT"
  | floatLit => "FLOAT_LIT"
  | programKw => "PROGRAM"
  | varKw => "VAR"
  | beginKw => "BEGIN"
  | endKw => "END"
  | ifKw => "IF"
  | thenKw => "THEN"
  | elseKw => "ELSE"
  | whileKw => "WHILE"
  | doKw => "DO"
  | integerKw => "INTEGER"
  | booleanKw => "BOOLEAN"
  | trueKw => "TRUE"
  | falseKw => "FALSE"
  | orKw => "OR"
  | andKw => "AND"
  | endOfFile => "EOF"

/-- The place of the kind in the fixed order, from one on. -/
def ordinal (kind : TokenKind) : Nat :=
  all.idxOf kind + 1

def ofName? (text : String) : Option TokenKind :=
  all.find? (·.name == text)

/-- The fifteen keywords. -/
def keywords : List (String × TokenKind) :=
  [("program", programKw), ("var", varKw), ("begin", beginKw), ("end", endKw), ("if", ifKw),
    ("then", thenKw), ("else", elseKw), ("while", whileKw), ("do", doKw),
    ("integer", integerKw), ("boolean", booleanKw), ("true", trueKw), ("false", falseKw),
    ("or", orKw), ("and", andKw)]

/-- The keyword that a word is, letter case included. -/
def keyword? (word : String) : Option TokenKind :=
  keywords.lookup word

/-- The tokens of one character that begin no longer token. -/
def ofSymbol? : Char → Option TokenKind
  | '(' => some lparen
  | ')' => some rparen
  | ';' => some semicolon
  | '+' => some plus
  | '-' => some minus
  | '*' => some times
  | '/' => some divide
  | '<' => some less
  | '>' => some greater
  | '=' => some equal
  | _ => none

/-- The binary operators by what they ask of their operands. -/
def isArithmetic (kind : TokenKind) : Bool :=
  kind == plus || kind == minus || kind == times || kind == divide

def isLogical (kind : TokenKind) : Bool :=
  kind == andKw || kind == orKw

def isComparison (kind : TokenKind) : Bool :=
  kind == less || kind == greater || kind == equal

/-- The operators that bind tightest. -/
def isMultiplicative (kind : TokenKind) : Bool :=
  kind == times || kind == divide || kind == andKw

def isAdditive (kind : TokenKind) : Bool :=
  kind == plus || kind == minus || kind == orKw

end TokenKind

end StackCompiler
