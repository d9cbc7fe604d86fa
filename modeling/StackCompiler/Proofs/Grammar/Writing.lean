import Mathlib.Data.List.Forall2
import StackCompiler.Proofs.Grammar.Acceptance

/-!
# Writing programs and reading them again

A program tree that has tokens of the right kind in its places, and no open statement between an
`if` and its own `else`, is well formed (`Program.WellFormed`). `Program.written` writes a tree out
with as few parentheses as the tiers of operators allow: around a left operand whose operator binds
looser than the one it belongs to, and around a right operand whose operator does not bind tighter.
The marks that a tree does not hold may be any tokens of their kinds (`Spells`).

`TokenStream.readProgramWithin_written` is the main statement: what is written of a well-formed
program is read as this program, and every program that is read from any tokens is well formed. So
the well-formed programs are exactly those that reading can give. The way goes through the grammar:
tokens that spell what is written of a tree derive it (`Program.WellFormed.derives`), and a tree
that tokens derive has tokens of the right kinds (`DerivesProgram.wellFormed`).
-/

set_option autoImplicit false
set_option relaxedAutoImplicit false

namespace StackCompiler

open Grammar

/-! ### Well-formed trees -/

/-- The nine operators. -/
def TokenKind.operators : List TokenKind :=
  [times, divide, andKw, plus, minus, orKw, less, greater, equal]

inductive Expr.WellFormed : Expr → Prop
  | binary {left right : Expr} {operator : Token} (hleft : left.WellFormed)
      (hoperator : operator.kind ∈ TokenKind.operators) (hright : right.WellFormed) :
      WellFormed (.binary left operator right)
  | intLit {token : Token} (hkind : token.kind = .intLit) : WellFormed (.intLit token)
  | boolLit {token : Token} (hkind : token.kind = .trueKw ∨ token.kind = .falseKw) :
      WellFormed (.boolLit token)
  | use {name : Token} (hkind : name.kind = .ident) : WellFormed (.use name)

inductive Stmt.WellFormed : Stmt → Prop
  | assign {target : Token} {value : Expr} (htarget : target.kind = .ident)
      (hvalue : value.WellFormed) : WellFormed (.assign target value)
  | ifThen {condition : Expr} {body : Stmt} (hcondition : condition.WellFormed)
      (hbody : body.WellFormed) : WellFormed (.ifThen condition body)
  | ifElse {condition : Expr} {body alternative : Stmt} (hcondition : condition.WellFormed)
      (hbody : body.WellFormed) (hclosed : body.isOpen = false)
      (halternative : alternative.WellFormed) : WellFormed (.ifElse condition body alternative)
  | loop {condition : Expr} {body : Stmt} (hcondition : condition.WellFormed)
      (hbody : body.WellFormed) : WellFormed (.loop condition body)
  | block {statements : List Stmt} (h : ∀ statement ∈ statements, statement.WellFormed) :
      WellFormed (.block statements)

structure Decl.WellFormed (decl : Decl) : Prop where
  name : decl.name.kind = .ident
  type : decl.type.kind = .integerKw ∨ decl.type.kind = .booleanKw

structure Program.WellFormed (program : Program) : Prop where
  name : program.name.kind = .ident
  declarations : ∀ decl ∈ program.declarations, decl.WellFormed
  statements : ∀ statement ∈ program.statements, statement.WellFormed

theorem Stmt.WellFormed.elsesNearest {statement : Stmt} (h : statement.WellFormed) :
    statement.ElsesNearest := by
  induction statement with
  | assign target value => exact .assign target value
  | ifThen condition body ih =>
    cases h with
    | ifThen _ hbody => exact .ifThen (ih hbody)
  | ifElse condition body alternative ihbody ihalternative =>
    cases h with
    | ifElse _ hbody hclosed halternative =>
      exact .ifElse (ihbody hbody) hclosed (ihalternative halternative)
  | loop condition body ih =>
    cases h with
    | loop _ hbody => exact .loop (ih hbody)
  | block statements ih =>
    cases h with
    | block h => exact .block fun statement hmem ↦ ih statement hmem (h statement hmem)

/-! ### What is written of a tree -/

/-- A piece of what is written: a token that the tree holds, or a mark of a kind. -/
inductive Piece where
  | held (token : Token)
  | mark (kind : TokenKind)

/-- The tier of the outermost operator; an expression without one stands anywhere. -/
def Expr.tier : Expr → Tier
  | binary _ operator _ =>
    if operator.kind.isMultiplicative then .term
    else if operator.kind.isAdditive then .simple
    else .expression
  | intLit _ | boolLit _ | use _ => .factor

/-- How loosely the operators of a tier bind. -/
def Grammar.Tier.looseness : Tier → Nat
  | factor => 0
  | term => 1
  | simple => 2
  | expression => 3

/-- Pieces with parentheses around them if there is need for them. -/
def parenthesizedIf (needed : Prop) [Decidable needed] (pieces : List Piece) : List Piece :=
  if needed then .mark .lparen :: pieces ++ [.mark .rparen] else pieces

def Expr.written : Expr → List Piece
  | binary left operator right =>
    let own := (binary left operator right).tier.looseness
    parenthesizedIf (own < left.tier.looseness) left.written ++ .held operator ::
      parenthesizedIf (own ≤ right.tier.looseness) right.written
  | intLit token | boolLit token | use token => [.held token]

mutual

def Stmt.written : Stmt → List Piece
  | .assign target value => .held target :: .mark .assign :: value.written
  | .ifThen condition body =>
    .mark .ifKw :: condition.written ++ .mark .thenKw :: body.written
  | .ifElse condition body alternative =>
    .mark .ifKw :: condition.written ++ .mark .thenKw :: body.written ++
      .mark .elseKw :: alternative.written
  | .loop condition body => .mark .whileKw :: condition.written ++ .mark .doKw :: body.written
  | .block statements => .mark .beginKw :: Stmt.writtenAll statements ++ [.mark .endKw]

def Stmt.writtenAll : List Stmt → List Piece
  | [] => []
  | statement :: more => statement.written ++ .mark .semicolon :: Stmt.writtenAll more

end

def Decl.written (decl : Decl) : List Piece :=
  [.mark .varKw, .held decl.name, .mark .colon, .held decl.type, .mark .semicolon]

def Program.written (program : Program) : List Piece :=
  .mark .programKw :: .held program.name :: .mark .semicolon ::
    program.declarations.flatMap Decl.written ++ Stmt.written (.block program.statements) ++
      [.mark .endOfFile]

def Piece.IsSpelled : Piece → Token → Prop
  | held own, token => token = own
  | mark kind, token => token.kind = kind

/-- The tokens of a list stand for the pieces, one for each. -/
def Spells (pieces : List Piece) (tokens : List Token) : Prop :=
  List.Forall₂ Piece.IsSpelled pieces tokens

/-! ### Spelling -/

@[simp] theorem spells_nil {tokens : List Token} : Spells [] tokens ↔ tokens = [] :=
  List.forall₂_nil_left_iff

@[simp] theorem spells_held_cons {own : Token} {pieces : List Piece} {tokens : List Token} :
    Spells (.held own :: pieces) tokens ↔ ∃ later, tokens = own :: later ∧ Spells pieces later := by
  simp only [Spells, List.forall₂_cons_left_iff, Piece.IsSpelled]
  constructor
  · rintro ⟨token, later, rfl, hlater, rfl⟩
    exact ⟨later, rfl, hlater⟩
  · rintro ⟨later, rfl, hlater⟩
    exact ⟨own, later, rfl, hlater, rfl⟩

@[simp] theorem spells_mark_cons {kind : TokenKind} {pieces : List Piece} {tokens : List Token} :
    Spells (.mark kind :: pieces) tokens ↔
      ∃ token later, tokens = token :: later ∧ token.kind = kind ∧ Spells pieces later := by
  simp only [Spells, List.forall₂_cons_left_iff, Piece.IsSpelled]
  constructor
  · rintro ⟨token, later, hkind, hlater, rfl⟩
    exact ⟨token, later, rfl, hkind, hlater⟩
  · rintro ⟨token, later, rfl, hkind, hlater⟩
    exact ⟨token, later, hkind, hlater, rfl⟩

@[simp] theorem spells_append {first second : List Piece} {tokens : List Token} :
    Spells (first ++ second) tokens ↔
      ∃ front later, tokens = front ++ later ∧ Spells first front ∧ Spells second later := by
  constructor
  · intro h
    refine ⟨tokens.take first.length, tokens.drop first.length, by simp, ?_, ?_⟩
    · simpa [Spells] using List.forall₂_take first.length h
    · simpa [Spells] using List.forall₂_drop first.length h
  · rintro ⟨front, later, rfl, hfront, hlater⟩
    exact List.rel_append hfront hlater

/-! ### What is written derives the tree -/

namespace Grammar

theorem Tier.looseness_operandTier (tier : Tier) :
    tier.operandTier.looseness = tier.looseness - 1 := by
  cases tier <;> rfl

/-- What derives on a tier derives on every looser one. -/
theorem DerivesExpr.loosen {tight loose : Tier} (h : tight.looseness ≤ loose.looseness)
    {tokens : List Token} {e : Expr} (hderives : DerivesExpr tight tokens e) :
    DerivesExpr loose tokens e := by
  have hterm : DerivesExpr .factor tokens e → DerivesExpr .term tokens e := fun h ↦ .operand h
  have hsimple : DerivesExpr .term tokens e → DerivesExpr .simple tokens e := fun h ↦ .operand h
  have hexpression : DerivesExpr .simple tokens e → DerivesExpr .expression tokens e := fun h ↦
    .operand h
  cases tight <;> cases loose <;> simp_all [Tier.looseness]

/-- In parentheses an expression stands on any tier, and without them on those that are no tighter
than its own. -/
theorem DerivesExpr.of_parenthesizedIf {e : Expr} {needed : Prop} [Decidable needed] {tier : Tier}
    (htier : ¬ needed → e.tier.looseness ≤ tier.looseness) {tokens : List Token}
    (hspells : Spells (parenthesizedIf needed e.written) tokens)
    (hderives : ∀ tokens, Spells e.written tokens → DerivesExpr e.tier tokens e) :
    DerivesExpr tier tokens e := by
  unfold parenthesizedIf at hspells
  split at hspells
  · simp only [List.cons_append, spells_mark_cons, spells_append, spells_nil] at hspells
    obtain ⟨opening, later, rfl, hopening, inner, last, rfl, hinner, closing, rest, rfl, hclosing,
      rfl⟩ := hspells
    have hinside : DerivesExpr .expression inner e :=
      (hderives inner hinner).loosen (by cases e.tier <;> decide)
    exact (DerivesExpr.parentheses hopening hinside hclosing).loosen (by cases tier <;> decide)
  · exact (hderives tokens hspells).loosen (htier ‹_›)

end Grammar

theorem Expr.mem_operators_tier (left right : Expr) {operator : Token}
    (h : operator.kind ∈ TokenKind.operators) :
    operator.kind ∈ (binary left operator right).tier.operators := by
  simp only [TokenKind.operators, List.mem_cons, List.not_mem_nil, or_false] at h
  rcases h with h | h | h | h | h | h | h | h | h <;> simp only [tier, h] <;> decide

/-- Tokens that spell what is written of a well-formed expression derive it on the tier of its
operator. -/
theorem Expr.WellFormed.derives {e : Expr} (h : e.WellFormed) :
    ∀ tokens, Spells e.written tokens → DerivesExpr e.tier tokens e := by
  induction h with
  | @binary left right operator _ hoperator _ ihleft ihright =>
    intro tokens hspells
    simp only [written, spells_append, spells_held_cons] at hspells
    obtain ⟨first, last, rfl, hfirst, second, rfl, hsecond⟩ := hspells
    have htier := Expr.mem_operators_tier left right hoperator
    have hleft : DerivesExpr (Expr.binary left operator right).tier first left :=
      .of_parenthesizedIf (fun hnot ↦ by omega) hfirst ihleft
    have hright : DerivesExpr (Expr.binary left operator right).tier.operandTier second right :=
      .of_parenthesizedIf (fun hnot ↦ by rw [Tier.looseness_operandTier]; omega) hsecond ihright
    exact .join hleft htier hright
  | intLit hkind =>
    intro tokens hspells
    simp only [written, spells_held_cons, spells_nil] at hspells
    obtain ⟨rest, rfl, rfl⟩ := hspells
    exact .intLit hkind
  | boolLit hkind =>
    intro tokens hspells
    simp only [written, spells_held_cons, spells_nil] at hspells
    obtain ⟨rest, rfl, rfl⟩ := hspells
    exact .boolLit hkind
  | use hkind =>
    intro tokens hspells
    simp only [written, spells_held_cons, spells_nil] at hspells
    obtain ⟨rest, rfl, rfl⟩ := hspells
    exact .use hkind

theorem Expr.WellFormed.derivesExpression {e : Expr} (h : e.WellFormed) {tokens : List Token}
    (hspells : Spells e.written tokens) : DerivesExpr .expression tokens e :=
  (h.derives tokens hspells).loosen (by cases e.tier <;> decide)

theorem Stmt.derives_of_spells_writtenAll {statements : List Stmt}
    (ih : ∀ statement ∈ statements, ∀ tokens, Spells statement.written tokens →
      DerivesStmt tokens statement) {tokens : List Token}
    (hspells : Spells (Stmt.writtenAll statements) tokens) : DerivesStmts tokens statements := by
  induction statements generalizing tokens with
  | nil =>
    simp only [writtenAll, spells_nil] at hspells
    exact hspells ▸ .nil
  | cons statement more ihmore =>
    simp only [writtenAll, spells_append, spells_mark_cons] at hspells
    obtain ⟨first, last, rfl, hfirst, semicolon, later, rfl, hsemicolon, hlater⟩ := hspells
    exact .cons (ih statement (by simp) first hfirst) hsemicolon
      (ihmore (fun s hs ↦ ih s (by simp [hs])) hlater)

theorem Stmt.WellFormed.derives {statement : Stmt} (h : statement.WellFormed) :
    ∀ tokens, Spells statement.written tokens → DerivesStmt tokens statement := by
  induction statement with
  | assign target value =>
    intro tokens hspells
    cases h with
    | assign htarget hvalue =>
      simp only [written, spells_held_cons, spells_mark_cons] at hspells
      obtain ⟨later, rfl, sign, tokens, rfl, hsign, hvalueSpells⟩ := hspells
      exact .assign htarget hsign (hvalue.derivesExpression hvalueSpells)
  | ifThen condition body ih =>
    intro tokens hspells
    cases h with
    | ifThen hcondition hbody =>
      simp only [written, List.cons_append, spells_mark_cons, spells_append] at hspells
      obtain ⟨ifWord, later, rfl, hif, first, last, rfl, hfirst, thenWord, second, rfl, hthen,
        hsecond⟩ := hspells
      exact .ifThen hif (hcondition.derivesExpression hfirst) hthen (ih hbody second hsecond)
  | ifElse condition body alternative ihbody ihalternative =>
    intro tokens hspells
    cases h with
    | ifElse hcondition hbody _ halternative =>
      simp only [written, List.cons_append, List.append_assoc, spells_mark_cons,
        spells_append] at hspells
      obtain ⟨ifWord, later, rfl, hif, first, last, rfl, hfirst, thenWord, inside, rfl, hthen,
        second, outside, rfl, hsecond, elseWord, third, rfl, helse, hthird⟩ := hspells
      simpa using DerivesStmt.ifElse hif (hcondition.derivesExpression hfirst) hthen
        (ihbody hbody second hsecond) helse (ihalternative halternative third hthird)
  | loop condition body ih =>
    intro tokens hspells
    cases h with
    | loop hcondition hbody =>
      simp only [written, List.cons_append, spells_mark_cons, spells_append] at hspells
      obtain ⟨whileWord, later, rfl, hwhile, first, last, rfl, hfirst, doWord, second, rfl, hdo,
        hsecond⟩ := hspells
      exact .loop hwhile (hcondition.derivesExpression hfirst) hdo (ih hbody second hsecond)
  | block statements ih =>
    intro tokens hspells
    cases h with
    | block h =>
      simp only [written, List.cons_append, spells_mark_cons, spells_append,
        spells_nil] at hspells
      obtain ⟨opening, later, rfl, hopening, inner, last, rfl, hinner, closing, rest, rfl,
        hclosing, rfl⟩ := hspells
      exact .block hopening (derives_of_spells_writtenAll
        (fun statement hmem ↦ ih statement hmem (h statement hmem)) hinner) hclosing

theorem Decl.derives_of_spells_written {declarations : List Decl}
    (h : ∀ decl ∈ declarations, decl.WellFormed) {tokens : List Token}
    (hspells : Spells (declarations.flatMap Decl.written) tokens) :
    DerivesDecls tokens declarations := by
  induction declarations generalizing tokens with
  | nil =>
    simp only [List.flatMap_nil, spells_nil] at hspells
    exact hspells ▸ .nil
  | cons decl more ih =>
    obtain ⟨hname, htype⟩ := h decl (by simp)
    simp only [List.flatMap_cons, written, List.cons_append, List.nil_append, spells_mark_cons,
      spells_held_cons] at hspells
    obtain ⟨varWord, _, rfl, hvar, _, rfl, colon, _, rfl, hcolon, _, rfl, semicolon, later, rfl,
      hsemicolon, hlater⟩ := hspells
    exact .cons hvar hname hcolon htype hsemicolon
      (ih (fun other hmem ↦ h other (by simp [hmem])) hlater)

/-- Tokens that spell what is written of a well-formed program derive it, up to the one that ends
them. -/
theorem Program.WellFormed.derives {program : Program} (h : program.WellFormed)
    {tokens : List Token} (hspells : Spells program.written tokens) :
    ∃ others final, tokens = others ++ [final] ∧ DerivesProgram others program := by
  simp only [written, List.cons_append, List.append_assoc, spells_mark_cons, spells_held_cons,
    spells_append, spells_nil] at hspells
  obtain ⟨programWord, _, rfl, hprogram, _, rfl, semicolon, _, rfl, hsemicolon, first, _, rfl,
    hfirst, second, _, rfl, hsecond, final, _, rfl, -, rfl⟩ := hspells
  have hbody : Stmt.WellFormed (.block program.statements) := .block h.statements
  exact ⟨programWord :: program.name :: semicolon :: first ++ second, final, by simp,
    .intro hprogram h.name hsemicolon (Decl.derives_of_spells_written h.declarations hfirst)
      (hbody.derives second hsecond)⟩

/-! ### What derives is well formed -/

namespace Grammar

theorem DerivesExpr.wellFormed {tier : Tier} {tokens : List Token} {e : Expr}
    (h : DerivesExpr tier tokens e) : e.WellFormed := by
  induction h with
  | intLit hkind => exact .intLit hkind
  | boolLit hkind => exact .boolLit hkind
  | use hkind => exact .use hkind
  | parentheses _ _ _ ih => exact ih
  | operand _ ih => exact ih
  | @join tier _ _ _ _ _ _ hoperator _ ihleft ihright =>
    have hsubset : tier.operators ⊆ TokenKind.operators := by cases tier <;> decide
    exact .binary ihleft (hsubset hoperator) ihright

theorem DerivesStmts.exists_derives {tokens : List Token} {statements : List Stmt}
    (h : DerivesStmts tokens statements) {statement : Stmt} (hmem : statement ∈ statements) :
    ∃ part, DerivesStmt part statement := by
  induction statements generalizing tokens with
  | nil => simp at hmem
  | cons first more ih =>
    cases h with
    | cons hstatement _ hmore =>
      rcases List.mem_cons.mp hmem with rfl | hmem
      · exact ⟨_, hstatement⟩
      · exact ih hmore hmem

theorem DerivesStmt.wellFormed (statement : Stmt) :
    ∀ tokens, DerivesStmt tokens statement → statement.ElsesNearest → statement.WellFormed := by
  induction statement with
  | assign target value =>
    intro tokens h _
    cases h with
    | assign htarget _ hvalue => exact .assign htarget hvalue.wellFormed
  | ifThen condition body ih =>
    intro tokens h hnearest
    cases hnearest with
    | ifThen hnearest =>
    cases h with
    | ifThen _ hcondition _ hbody => exact .ifThen hcondition.wellFormed (ih _ hbody hnearest)
  | ifElse condition body alternative ihbody ihalternative =>
    intro tokens h hnearest
    cases hnearest with
    | ifElse hnearestBody hclosed hnearestAlternative =>
    cases h with
    | ifElse _ hcondition _ hbody _ halternative =>
      exact .ifElse hcondition.wellFormed (ihbody _ hbody hnearestBody) hclosed
        (ihalternative _ halternative hnearestAlternative)
  | loop condition body ih =>
    intro tokens h hnearest
    cases hnearest with
    | loop hnearest =>
    cases h with
    | loop _ hcondition _ hbody => exact .loop hcondition.wellFormed (ih _ hbody hnearest)
  | block statements ih =>
    intro tokens h hnearest
    cases hnearest with
    | block hnearest =>
    cases h with
    | block _ hinner _ =>
      refine .block fun statement hmem ↦ ?_
      obtain ⟨part, hpart⟩ := hinner.exists_derives hmem
      exact ih statement hmem part hpart (hnearest statement hmem)

theorem DerivesDecls.wellFormed {tokens : List Token} {declarations : List Decl}
    (h : DerivesDecls tokens declarations) : ∀ decl ∈ declarations, decl.WellFormed := by
  induction h with
  | nil => simp
  | cons _ hname _ htype _ _ ih =>
    simp only [List.mem_cons, forall_eq_or_imp]
    exact ⟨⟨hname, htype⟩, ih⟩

theorem DerivesProgram.wellFormed {tokens : List Token} {found : Program}
    (h : DerivesProgram tokens found) (hnearest : found.ElsesNearest) : found.WellFormed := by
  cases h with
  | intro _ hname _ hdeclarations hbody =>
    cases hbody.wellFormed _ _ (.block hnearest) with
    | block hstatements => exact ⟨hname, hdeclarations.wellFormed, hstatements⟩

end Grammar

/-! ### Streams -/

/-- A token for a piece. -/
def Piece.token : Piece → Token
  | held own => own
  | mark kind => .ofKind kind

theorem spells_map_token (pieces : List Piece) : Spells pieces (pieces.map Piece.token) := by
  induction pieces with
  | nil => exact .nil
  | cons piece more ih =>
    cases piece with
    | held own => exact .cons rfl ih
    | mark kind => exact .cons rfl ih

/-- A stream of what is written of a program. -/
def Program.stream (program : Program) : TokenStream :=
  ⟨program.written.dropLast.map Piece.token, (Piece.mark .endOfFile).token, rfl⟩

theorem Program.spells_stream (program : Program) :
    Spells program.written program.stream.toList := by
  have hlast : program.written = program.written.dropLast ++ [.mark .endOfFile] := by
    rw [written, List.dropLast_concat]
  have hstream : program.stream.toList = program.written.map Piece.token := by
    rw [hlast, List.map_append]
    rfl
  exact hstream ▸ spells_map_token program.written

namespace TokenStream

/-- However its marks are spelled, what is written of a well-formed program is read as this program
and up to the end, unless the depth of nesting is used up, which more depth than there are tokens
never is. Every program that is read, from whatever tokens, is well formed. -/
theorem readProgramWithin_written (depth : Nat) (lines : List String) :
    (∀ program : Program, program.WellFormed →
      Spells program.written program.stream.toList ∧
      ∀ stream : TokenStream, Spells program.written stream.toList →
        (stream.NestsTooDeeply depth lines → depth ≤ stream.pending.length) ∧
        (¬ stream.NestsTooDeeply depth lines →
          stream.readProgramWithin depth lines = (.ok program, { stream with pending := [] }))) ∧
    ∀ (stream rest : TokenStream) (found : Program),
      stream.readProgramWithin depth lines = (.ok found, rest) → found.WellFormed := by
  refine ⟨fun program hprogram ↦ ⟨program.spells_stream, fun stream hspells ↦ ⟨?_, ?_⟩⟩, ?_⟩
  · rw [stream.nestsTooDeeply_iff]
    intro hdeep
    refine Nat.le_of_not_lt fun hmore ↦ ?_
    exact program_within depth stream.pending.length hmore _ (Nat.le_refl _) hdeep
  · intro hdepth
    obtain ⟨others, final, htokens, hderives⟩ := hprogram.derives hspells
    have hparts : stream.pending = others ∧ [stream.final] = [final] :=
      List.append_inj' htokens rfl
    refine readProgramWithin_of_derives hdepth ?_ hderives
      fun statement hmem ↦ (hprogram.statements statement hmem).elsesNearest
    rw [← hparts.1]
    rfl
  · intro stream rest found hread
    obtain ⟨tokens, -, hderives, hnearest⟩ := derives_of_readProgramWithin hread
    exact hderives.wellFormed hnearest

/-- The program `program p; begin x := a - (b - c) * d; end`. -/
def scaledDifference : Program :=
  let token (kind : TokenKind) (lexeme : String) : Token := ⟨kind, lexeme, none, ⟨"", 1, 1⟩⟩
  let name (lexeme : String) : Token := token .ident lexeme
  let minus := token .minus "-"
  { name := name "p"
    declarations := []
    statements := [.assign (name "x") (.binary (.use (name "a")) minus
      (.binary (.binary (.use (name "b")) minus (.use (name "c"))) (token .times "*")
        (.use (name "d"))))] }

theorem scaledDifference_wellFormed : scaledDifference.WellFormed where
  name := rfl
  declarations := by simp [scaledDifference]
  statements := by
    simp only [scaledDifference, List.mem_singleton, forall_eq]
    exact .assign rfl (.binary (.use rfl) (by decide)
      (.binary (.binary (.use rfl) (by decide) (.use rfl)) (by decide) (.use rfl)))

/-- It is read back from seventeen tokens and the one that ends them: only the inner difference is
written in parentheses. -/
theorem readProgramWithin_scaledDifference :
    scaledDifference.WellFormed ∧ scaledDifference.stream.pending.length = 17 ∧
      scaledDifference.stream.readProgramWithin nestingLimit [] =
        (.ok scaledDifference, { scaledDifference.stream with pending := [] }) := by
  have hlength : scaledDifference.stream.pending.length = 17 := rfl
  obtain ⟨hspells, hread⟩ :=
    (readProgramWithin_written nestingLimit []).1 _ scaledDifference_wellFormed
  obtain ⟨henough, hsame⟩ := hread _ hspells
  refine ⟨scaledDifference_wellFormed, hlength, hsame fun hdeep ↦ ?_⟩
  exact absurd (hlength ▸ henough hdeep) (by decide)

end TokenStream

end StackCompiler
