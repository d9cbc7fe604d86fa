import StackCompiler.Tree.Basic

/-!
# The language of the grammar

The grammar as a relation between token lists and trees, without a word about how a tree is found:

    program     = "program" ID ";" declaration* block
    declaration = "var" ID ":" ("integer" | "boolean") ";"
    block       = "begin" (statement ";")* "end"
    statement   = ID ":=" expression
                | "if" expression "then" statement ("else" statement)?
                | "while" expression "do" statement
                | block
    expression  = simple (("<" | ">" | "=") simple)*
    simple      = term (("+" | "-" | "or") term)*
    term        = factor (("*" | "/" | "and") factor)*
    factor      = INT | "true" | "false" | ID | "(" expression ")"

Parentheses leave nothing in the tree, and a repetition of operators groups from the left
(`DerivesExpr`). The relation is ambiguous in one place: it leaves open to which `if` an `else`
belongs. `Stmt.ElsesNearest` singles out the trees in which each `else` belongs to the nearest `if`
that can take it. A statement can take an `else` behind it if it is open (`Stmt.isOpen`), so these
are the trees in which no open statement stands between an `if` and its own `else`.

`Program.tokens` are the tokens that a tree holds, from left to right. Whatever tree a token list
derives, they are the tokens of the list that are neither punctuation nor words that only give
structure (`DerivesProgram.tokens_eq`).
-/

set_option autoImplicit false
set_option relaxedAutoImplicit false

namespace StackCompiler

/-- A token of which only the kind matters. -/
def Token.ofKind (kind : TokenKind) : Token :=
  ⟨kind, "", none, ⟨"", 1, 1⟩⟩

namespace Grammar

/-! ### Expressions -/

/-- The four levels of an expression, from the tightest on. -/
inductive Tier where
  | factor
  | term
  | simple
  | expression
  deriving DecidableEq, Repr

namespace Tier

/-- The operators that are repeated on a level. -/
def operators : Tier → List TokenKind
  | factor => []
  | term => [.times, .divide, .andKw]
  | simple => [.plus, .minus, .orKw]
  | expression => [.less, .greater, .equal]

/-- The level of the operands between the operators of a level. -/
def operandTier : Tier → Tier
  | factor | term => factor
  | simple => term
  | expression => simple

end Tier

/-- The expressions that a token list derives on a level. -/
inductive DerivesExpr : Tier → List Token → Expr → Prop
  | intLit {token : Token} (hkind : token.kind = .intLit) :
      DerivesExpr .factor [token] (.intLit token)
  | boolLit {token : Token} (hkind : token.kind = .trueKw ∨ token.kind = .falseKw) :
      DerivesExpr .factor [token] (.boolLit token)
  | use {token : Token} (hkind : token.kind = .ident) : DerivesExpr .factor [token] (.use token)
  | parentheses {opening closing : Token} {tokens : List Token} {e : Expr}
      (hopening : opening.kind = .lparen) (hinner : DerivesExpr .expression tokens e)
      (hclosing : closing.kind = .rparen) : DerivesExpr .factor (opening :: tokens ++ [closing]) e
  | operand {tier : Tier} {tokens : List Token} {e : Expr}
      (h : DerivesExpr tier.operandTier tokens e) : DerivesExpr tier tokens e
  | join {tier : Tier} {first second : List Token} {operator : Token} {left right : Expr}
      (hleft : DerivesExpr tier first left) (hoperator : operator.kind ∈ tier.operators)
      (hright : DerivesExpr tier.operandTier second right) :
      DerivesExpr tier (first ++ operator :: second) (.binary left operator right)

/-! ### Statements -/

mutual

/-- The statements that a token list derives. -/
inductive DerivesStmt : List Token → Stmt → Prop
  | assign {target sign : Token} {tokens : List Token} {value : Expr}
      (htarget : target.kind = .ident) (hsign : sign.kind = .assign)
      (hvalue : DerivesExpr .expression tokens value) :
      DerivesStmt (target :: sign :: tokens) (.assign target value)
  | ifThen {ifWord thenWord : Token} {first second : List Token} {condition : Expr} {body : Stmt}
      (hif : ifWord.kind = .ifKw) (hcondition : DerivesExpr .expression first condition)
      (hthen : thenWord.kind = .thenKw) (hbody : DerivesStmt second body) :
      DerivesStmt (ifWord :: first ++ thenWord :: second) (.ifThen condition body)
  | ifElse {ifWord thenWord elseWord : Token} {first second third : List Token}
      {condition : Expr} {body alternative : Stmt} (hif : ifWord.kind = .ifKw)
      (hcondition : DerivesExpr .expression first condition) (hthen : thenWord.kind = .thenKw)
      (hbody : DerivesStmt second body) (helse : elseWord.kind = .elseKw)
      (halternative : DerivesStmt third alternative) :
      DerivesStmt (ifWord :: first ++ thenWord :: second ++ elseWord :: third)
        (.ifElse condition body alternative)
  | loop {whileWord doWord : Token} {first second : List Token} {condition : Expr} {body : Stmt}
      (hwhile : whileWord.kind = .whileKw) (hcondition : DerivesExpr .expression first condition)
      (hdo : doWord.kind = .doKw) (hbody : DerivesStmt second body) :
      DerivesStmt (whileWord :: first ++ doWord :: second) (.loop condition body)
  | block {opening closing : Token} {tokens : List Token} {statements : List Stmt}
      (hopening : opening.kind = .beginKw) (hinner : DerivesStmts tokens statements)
      (hclosing : closing.kind = .endKw) :
      DerivesStmt (opening :: tokens ++ [closing]) (.block statements)

/-- The sequences of statements, each closed by a semicolon, that a token list derives. -/
inductive DerivesStmts : List Token → List Stmt → Prop
  | nil : DerivesStmts [] []
  | cons {semicolon : Token} {first later : List Token} {statement : Stmt} {more : List Stmt}
      (hstatement : DerivesStmt first statement) (hsemicolon : semicolon.kind = .semicolon)
      (hmore : DerivesStmts later more) :
      DerivesStmts (first ++ semicolon :: later) (statement :: more)

end

/-! ### Programs -/

/-- The declarations that a token list derives. -/
inductive DerivesDecls : List Token → List Decl → Prop
  | nil : DerivesDecls [] []
  | cons {varWord name colon type semicolon : Token} {later : List Token} {more : List Decl}
      (hvar : varWord.kind = .varKw) (hname : name.kind = .ident) (hcolon : colon.kind = .colon)
      (htype : type.kind = .integerKw ∨ type.kind = .booleanKw)
      (hsemicolon : semicolon.kind = .semicolon) (hmore : DerivesDecls later more) :
      DerivesDecls (varWord :: name :: colon :: type :: semicolon :: later) (⟨name, type⟩ :: more)

/-- The programs that a token list derives. -/
inductive DerivesProgram : List Token → Program → Prop
  | intro {programWord name semicolon : Token} {first second : List Token}
      {declarations : List Decl} {statements : List Stmt}
      (hprogram : programWord.kind = .programKw) (hname : name.kind = .ident)
      (hsemicolon : semicolon.kind = .semicolon) (hdeclarations : DerivesDecls first declarations)
      (hbody : DerivesStmt second (.block statements)) :
      DerivesProgram (programWord :: name :: semicolon :: first ++ second)
        ⟨name, declarations, statements⟩

end Grammar

/-! ### The nearest `if` -/

/-- Whether a statement ends with a condition that can take an `else`. -/
def Stmt.isOpen : Stmt → Bool
  | .ifThen .. => true
  | .ifElse _ _ alternative => alternative.isOpen
  | .loop _ body => body.isOpen
  | .assign .. | .block _ => false

/-- Every `else` of a statement belongs to the nearest `if` that can take it. -/
inductive Stmt.ElsesNearest : Stmt → Prop
  | assign (target : Token) (value : Expr) : ElsesNearest (.assign target value)
  | ifThen {condition : Expr} {body : Stmt} (hbody : body.ElsesNearest) :
      ElsesNearest (.ifThen condition body)
  | ifElse {condition : Expr} {body alternative : Stmt} (hbody : body.ElsesNearest)
      (hclosed : body.isOpen = false) (halternative : alternative.ElsesNearest) :
      ElsesNearest (.ifElse condition body alternative)
  | loop {condition : Expr} {body : Stmt} (hbody : body.ElsesNearest) :
      ElsesNearest (.loop condition body)
  | block {statements : List Stmt} (h : ∀ statement ∈ statements, statement.ElsesNearest) :
      ElsesNearest (.block statements)

def Program.ElsesNearest (program : Program) : Prop :=
  ∀ statement ∈ program.statements, statement.ElsesNearest

/-! ### The tokens of a tree -/

/-- The kinds of token that trees hold: names, literals, operators and the names of types. -/
def TokenKind.isContent : TokenKind → Bool
  | .ident | .intLit | .trueKw | .falseKw | .integerKw | .booleanKw => true
  | .times | .divide | .andKw | .plus | .minus | .orKw | .less | .greater | .equal => true
  | _ => false

def Expr.tokens : Expr → List Token
  | binary left operator right => left.tokens ++ operator :: right.tokens
  | intLit token | boolLit token | use token => [token]

mutual

def Stmt.tokens : Stmt → List Token
  | .assign target value => target :: value.tokens
  | .ifThen condition body | .loop condition body => condition.tokens ++ body.tokens
  | .ifElse condition body alternative =>
    condition.tokens ++ body.tokens ++ alternative.tokens
  | .block statements => Stmt.tokensOfAll statements

def Stmt.tokensOfAll : List Stmt → List Token
  | [] => []
  | statement :: more => statement.tokens ++ Stmt.tokensOfAll more

end

def Decl.tokens (decl : Decl) : List Token :=
  [decl.name, decl.type]

/-- The tokens that a program holds, from left to right. -/
def Program.tokens (program : Program) : List Token :=
  program.name :: program.declarations.flatMap Decl.tokens ++
    Stmt.tokensOfAll program.statements

/-- The tokens of a list that a tree can hold. -/
def contentOf (tokens : List Token) : List Token :=
  tokens.filter (·.kind.isContent)

@[simp] theorem contentOf_nil : contentOf [] = [] :=
  rfl

@[simp] theorem contentOf_append (first second : List Token) :
    contentOf (first ++ second) = contentOf first ++ contentOf second :=
  List.filter_append ..

theorem contentOf_cons_of_kind {token : Token} {kind : TokenKind} (hkind : token.kind = kind)
    (tokens : List Token) :
    contentOf (token :: tokens) =
      if kind.isContent then token :: contentOf tokens else contentOf tokens := by
  simp [contentOf, List.filter_cons, hkind]

namespace Grammar

theorem Tier.isContent_of_mem {tier : Tier} {kind : TokenKind} (h : kind ∈ tier.operators) :
    kind.isContent = true := by
  cases tier <;> simp only [operators, List.mem_cons, List.not_mem_nil, or_false] at h
  all_goals rcases h with rfl | rfl | rfl <;> rfl

theorem DerivesExpr.tokens_eq {tier : Tier} {tokens : List Token} {e : Expr}
    (h : DerivesExpr tier tokens e) : e.tokens = contentOf tokens := by
  induction h with
  | intLit hkind => simp [Expr.tokens, contentOf_cons_of_kind hkind, TokenKind.isContent]
  | boolLit hkind =>
    rcases hkind with hkind | hkind <;>
      simp [Expr.tokens, contentOf_cons_of_kind hkind, TokenKind.isContent]
  | use hkind => simp [Expr.tokens, contentOf_cons_of_kind hkind, TokenKind.isContent]
  | parentheses hopening _ hclosing ih =>
    simp [ih, contentOf_cons_of_kind hopening, contentOf_cons_of_kind hclosing,
      TokenKind.isContent]
  | operand _ ih => exact ih
  | join _ hoperator _ ihleft ihright =>
    simp [Expr.tokens, ihleft, ihright, contentOf_cons_of_kind rfl,
      Tier.isContent_of_mem hoperator]

theorem DerivesStmts.tokensOfAll_eq {statements : List Stmt}
    (ih : ∀ statement ∈ statements, ∀ tokens, DerivesStmt tokens statement →
      statement.tokens = contentOf tokens) {tokens : List Token}
    (h : DerivesStmts tokens statements) : Stmt.tokensOfAll statements = contentOf tokens := by
  induction statements generalizing tokens with
  | nil => cases h; simp [Stmt.tokensOfAll]
  | cons statement more ihmore =>
    cases h with
    | cons hstatement hsemicolon hmore =>
      have hfirst := ih statement (by simp) _ hstatement
      have hlater := ihmore (fun s hs ↦ ih s (by simp [hs])) hmore
      simp [Stmt.tokensOfAll, hfirst, hlater, contentOf_cons_of_kind hsemicolon,
        TokenKind.isContent]

theorem DerivesStmt.tokens_eq {statement : Stmt} :
    ∀ {tokens : List Token}, DerivesStmt tokens statement →
      statement.tokens = contentOf tokens := by
  induction statement with
  | assign target value =>
    intro tokens h
    cases h with
    | assign htarget hsign hvalue =>
      simp [Stmt.tokens, hvalue.tokens_eq, contentOf_cons_of_kind htarget,
        contentOf_cons_of_kind hsign, TokenKind.isContent]
  | ifThen condition body ih =>
    intro tokens h
    cases h with
    | ifThen hif hcondition hthen hbody =>
      simp [Stmt.tokens, hcondition.tokens_eq, ih hbody, contentOf_cons_of_kind hif,
        contentOf_cons_of_kind hthen, TokenKind.isContent]
  | ifElse condition body alternative ihbody ihalternative =>
    intro tokens h
    cases h with
    | ifElse hif hcondition hthen hbody helse halternative =>
      simp [Stmt.tokens, hcondition.tokens_eq, ihbody hbody, ihalternative halternative,
        contentOf_cons_of_kind hif, contentOf_cons_of_kind hthen, contentOf_cons_of_kind helse,
        TokenKind.isContent]
  | loop condition body ih =>
    intro tokens h
    cases h with
    | loop hwhile hcondition hdo hbody =>
      simp [Stmt.tokens, hcondition.tokens_eq, ih hbody, contentOf_cons_of_kind hwhile,
        contentOf_cons_of_kind hdo, TokenKind.isContent]
  | block statements ih =>
    intro tokens h
    cases h with
    | block hopening hinner hclosing =>
      simp [Stmt.tokens, hinner.tokensOfAll_eq fun s hs tokens ↦ ih s hs,
        contentOf_cons_of_kind hopening, contentOf_cons_of_kind hclosing, TokenKind.isContent]

theorem DerivesDecls.flatMap_tokens_eq {tokens : List Token} {declarations : List Decl}
    (h : DerivesDecls tokens declarations) :
    declarations.flatMap Decl.tokens = contentOf tokens := by
  induction h with
  | nil => rfl
  | cons hvar hname hcolon htype hsemicolon _ ih =>
    rcases htype with htype | htype <;>
      simp [Decl.tokens, ih, contentOf_cons_of_kind hvar, contentOf_cons_of_kind hname,
        contentOf_cons_of_kind hcolon, contentOf_cons_of_kind htype,
        contentOf_cons_of_kind hsemicolon, TokenKind.isContent]

/-- A tree holds all names, literals, operators and types of the tokens that derive it, once each
and in their order. -/
theorem DerivesProgram.tokens_eq {tokens : List Token} {program : Program}
    (h : DerivesProgram tokens program) : program.tokens = contentOf tokens := by
  cases h with
  | intro hprogram hname hsemicolon hdeclarations hbody =>
    have hstatements := hbody.tokens_eq
    simp only [Stmt.tokens] at hstatements
    simp [Program.tokens, hdeclarations.flatMap_tokens_eq, hstatements,
      contentOf_cons_of_kind hprogram, contentOf_cons_of_kind hname,
      contentOf_cons_of_kind hsemicolon, TokenKind.isContent]

end Grammar

end StackCompiler
