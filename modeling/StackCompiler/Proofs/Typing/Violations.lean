import StackCompiler.Proofs.Grammar.Writing
import StackCompiler.Proofs.Typing.Check

/-!
# What stops a check of a program

A check of a well-formed program is stopped by nothing but a rule of the context that the program
breaks, and stands at a token of the program, the one that the cause names
(`Program.WellFormed.check_eq_error`). The breakdowns are for trees that no source text has: a hole,
a token that is no operator or no type, a condition that is no expression.
-/

set_option autoImplicit false
set_option relaxedAutoImplicit false

namespace StackCompiler

/-! ### Causes and their tokens -/

/-- A cause names the token that it is about. The one for a condition does not, and those for
characters and for nesting are about no token. -/
def Cause.IsAbout (token : Token) : Cause → Prop
  | unexpectedToken _ found _ => found = token.kind.name
  | unsupported feature _ => feature = s!"floating-point literal '{token.lexeme}'"
  | duplicateDeclaration name _ | undeclared name _ | assignmentType name _ _ =>
    name = token.lexeme
  | operandTypes operator _ _ _ => operator = token.lexeme
  | conditionType _ _ => True
  | stated .. | strayCharacter _ | oversizedInteger _ | nestedTooDeeply => False

/-- A violation of a rule of the context that stands at one of the tokens and is about it. -/
structure Violation.Within (tokens : List Token) (found : Violation) : Prop where
  family : found.cause.family = .context
  token_mem : found.token ∈ tokens
  isAbout : found.cause.IsAbout found.token

/-! ### Laws of checks -/

/-- Whatever the scope, a check is stopped by nothing but a violation at one of the tokens. -/
def Check.OnlyViolates {α : Type} (tokens : List Token) (check : Check α) : Prop :=
  ∀ before fault, (check.run.run before).run.1 = .error fault →
    ∃ found, fault = .violation found ∧ found.Within tokens

section Laws

variable {α β : Type} {tokens : List Token}

theorem Check.OnlyViolates.pure (a : α) : (Pure.pure a : Check α).OnlyViolates tokens :=
  fun _ _ h ↦ nomatch h

theorem Check.OnlyViolates.get : (MonadState.get : Check Scope).OnlyViolates tokens :=
  fun _ _ h ↦ nomatch h

theorem Check.OnlyViolates.set (larger : Scope) :
    (MonadStateOf.set larger : Check PUnit).OnlyViolates tokens :=
  fun _ _ h ↦ nomatch h

theorem Check.OnlyViolates.violate {cause : Cause} {token : Token}
    (hfamily : cause.family = .context) (habout : cause.IsAbout token) (htoken : token ∈ tokens) :
    (StackCompiler.violate cause token : Check α).OnlyViolates tokens := by
  intro before fault h
  cases h
  exact ⟨_, rfl, hfamily, htoken, habout⟩

theorem Check.OnlyViolates.bind {check : Check α} {next : α → Check β}
    (h : check.OnlyViolates tokens) (hnext : ∀ a, (next a).OnlyViolates tokens) :
    (check >>= next).OnlyViolates tokens := by
  intro before fault hfault
  rw [Check.run_bind] at hfault
  rcases hrun : (check.run.run before).run with ⟨found | a, after⟩ <;> rw [hrun] at hfault
  · cases hfault
    exact h before fault (by rw [hrun])
  · exact hnext a after fault hfault

end Laws

/-! ### Expressions -/

variable {tokens : List Token}

theorem requireVariable_onlyViolates {name : Token} (h : name ∈ tokens) :
    (requireVariable name).OnlyViolates tokens := by
  refine .bind .get fun scope ↦ ?_
  cases scope.find? name.lexeme with
  | none => exact .violate rfl rfl h
  | some found => exact .pure found

theorem OperatorRule.exists_of_mem_operators {kind : TokenKind}
    (h : kind ∈ TokenKind.operators) : ∃ rule, OperatorRule.ofKind? kind = some rule := by
  simp only [TokenKind.operators, List.mem_cons, List.not_mem_nil, or_false] at h
  rcases h with rfl | rfl | rfl | rfl | rfl | rfl | rfl | rfl | rfl <;> exact ⟨_, rfl⟩

theorem operationType_onlyViolates {operator : Token}
    (h : operator.kind ∈ TokenKind.operators) (hmem : operator ∈ tokens)
    (left right : Option Ty) : (operationType operator left right).OnlyViolates tokens := by
  obtain ⟨rule, hrule⟩ := OperatorRule.exists_of_mem_operators h
  simp only [operationType, hrule]
  split
  · exact .pure _
  · exact .violate rfl rfl hmem

/-- An expression has a first token. -/
theorem Expr.exists_firstToken (e : Expr) :
    ∃ token, e.tokens.head? = some token ∧ e.node.firstToken = Pure.pure token := by
  induction e with
  | binary left operator right ih _ =>
    obtain ⟨token, hhead, hfirst⟩ := ih
    exact ⟨token, by simp [tokens, hhead], hfirst⟩
  | intLit token | boolLit token | use token => exact ⟨token, rfl, rfl⟩

theorem Expr.requireBoolean_onlyViolates (statement : String) {e : Expr} (h : e.tokens ⊆ tokens)
    (type : Option Ty) : (requireBoolean statement e.node type).OnlyViolates tokens := by
  obtain ⟨first, hhead, hfirst⟩ := e.exists_firstToken
  unfold requireBoolean
  split
  · exact .pure _
  · rw [hfirst, pure_bind]
    exact .violate rfl trivial (h (List.mem_of_mem_head? hhead))

theorem Expr.WellFormed.findType_onlyViolates {e : Expr} (h : e.WellFormed)
    (htokens : e.tokens ⊆ tokens) : e.node.findType.OnlyViolates tokens := by
  induction h with
  | binary _ hoperator _ ihleft ihright =>
    simp only [Expr.tokens, List.append_subset, List.cons_subset] at htokens
    obtain ⟨hleft, hmem, hright⟩ := htokens
    exact .bind (ihleft hleft) fun _ ↦ .bind (ihright hright) fun _ ↦
      .bind (operationType_onlyViolates hoperator hmem _ _) fun _ ↦ .pure _
  | intLit | boolLit => exact .pure _
  | use => exact .bind (requireVariable_onlyViolates (htokens (by simp [Expr.tokens]))) fun _ ↦
      .pure _

/-! ### Statements -/

theorem findTypes_stmts_onlyViolates {statements : List Stmt}
    (htokens : Stmt.tokensOfAll statements ⊆ tokens)
    (h : ∀ statement ∈ statements, statement.tokens ⊆ tokens →
      statement.node.findType.OnlyViolates tokens) :
    (Node.findTypes (Stmt.nodes statements)).OnlyViolates tokens := by
  induction statements with
  | nil => exact .pure _
  | cons statement more ih =>
    rw [Stmt.tokensOfAll, List.append_subset] at htokens
    exact .bind (h statement (by simp) htokens.1) fun _ ↦
      ih htokens.2 fun other hmem ↦ h other (by simp [hmem])

theorem Stmt.WellFormed.findType_onlyViolates {statement : Stmt} (h : statement.WellFormed)
    (htokens : statement.tokens ⊆ tokens) : statement.node.findType.OnlyViolates tokens := by
  induction statement with
  | assign target value =>
    simp only [Stmt.tokens, List.cons_subset] at htokens
    cases h with
    | assign _ hvalue =>
      refine .bind (requireVariable_onlyViolates htokens.1) fun declared ↦
        .bind (hvalue.findType_onlyViolates htokens.2) fun type ↦ ?_
      split
      · exact .pure _
      · exact .violate rfl rfl htokens.1
  | ifThen condition body ih =>
    simp only [Stmt.tokens, List.append_subset] at htokens
    cases h with
    | ifThen hcondition hbody =>
      exact .bind (hcondition.findType_onlyViolates htokens.1) fun _ ↦
        .bind (Expr.requireBoolean_onlyViolates _ htokens.1 _) fun _ ↦
        .bind (ih hbody htokens.2) fun _ ↦ .pure _
  | ifElse condition body alternative ihbody ihalternative =>
    simp only [Stmt.tokens, List.append_subset] at htokens
    cases h with
    | ifElse hcondition hbody _ halternative =>
      exact .bind (hcondition.findType_onlyViolates htokens.1.1) fun _ ↦
        .bind (Expr.requireBoolean_onlyViolates _ htokens.1.1 _) fun _ ↦
        .bind (ihbody hbody htokens.1.2) fun _ ↦
        .bind (ihalternative halternative htokens.2) fun _ ↦ .pure _
  | loop condition body ih =>
    simp only [Stmt.tokens, List.append_subset] at htokens
    cases h with
    | loop hcondition hbody =>
      exact .bind (hcondition.findType_onlyViolates htokens.1) fun _ ↦
        .bind (Expr.requireBoolean_onlyViolates _ htokens.1 _) fun _ ↦
        .bind (ih hbody htokens.2) fun _ ↦ .pure _
  | block statements ih =>
    cases h with
    | block h =>
      exact .bind (findTypes_stmts_onlyViolates (by rwa [Stmt.tokens] at htokens)
        fun statement hmem ↦ ih statement hmem (h statement hmem)) fun _ ↦ .pure _

/-! ### Programs -/

theorem Decl.WellFormed.findType_onlyViolates {decl : Decl} (h : decl.WellFormed)
    (hmem : decl.name ∈ tokens) : decl.node.findType.OnlyViolates tokens := by
  obtain ⟨type, htype⟩ : ∃ type, decl.type.type = .ok type := by
    rcases h.type with hkind | hkind <;> exact ⟨_, by rw [Token.type, hkind]; rfl⟩
  refine .bind ?_ fun _ ↦ .pure _
  unfold enter
  rw [htype]
  refine .bind .get fun scope ↦ ?_
  cases scope.declare ⟨decl.name, type⟩ with
  | ok larger => exact .set larger
  | error first => exact .violate rfl rfl hmem

theorem findTypes_decls_onlyViolates {declarations : List Decl}
    (h : ∀ decl ∈ declarations, decl.WellFormed)
    (htokens : declarations.flatMap Decl.tokens ⊆ tokens) :
    (Node.findTypes (declarations.map Decl.node)).OnlyViolates tokens := by
  induction declarations with
  | nil => exact .pure _
  | cons decl more ih =>
    simp only [List.flatMap_cons, List.append_subset, Decl.tokens, List.cons_subset] at htokens
    exact .bind ((h decl (by simp)).findType_onlyViolates htokens.1.1) fun _ ↦
      ih (fun other hmem ↦ h other (by simp [hmem])) htokens.2

/-- What stops the check of a well-formed program is a rule of the context that it breaks at one of
its tokens. -/
theorem Program.WellFormed.check_eq_error {program : Program} (h : program.WellFormed)
    {fault : CheckFault} {scope : Scope} (hfault : (program.node.check scope).1 = .error fault) :
    ∃ found, fault = .violation found ∧ found.Within program.tokens := by
  have hbody : Stmt.WellFormed (.block program.statements) := .block h.statements
  have hdeclared : program.declarations.flatMap Decl.tokens ⊆ program.tokens := by
    simp [Program.tokens]
  have hheld : (Stmt.block program.statements).tokens ⊆ program.tokens := by
    simp [Program.tokens, Stmt.tokens]
  have hprogram : program.node.findType.OnlyViolates program.tokens :=
    .bind (findTypes_decls_onlyViolates h.declarations hdeclared) fun _ ↦
      .bind (hbody.findType_onlyViolates hheld) fun _ ↦ .pure _
  exact hprogram scope fault hfault

end StackCompiler
