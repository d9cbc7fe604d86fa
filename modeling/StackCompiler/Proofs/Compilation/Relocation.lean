import StackCompiler.Proofs.Execution.Layout
import StackCompiler.Proofs.Grammar.Mapping
import StackCompiler.Proofs.Typing.Check
import StackCompiler.Tree.Outline

/-!
# Trees with their tokens moved

Where the tokens of a program stand decides nothing behind the reading. If all tokens are moved, a
check does the same as before, on a scope with its tokens moved, and stops at the same token with
the same cause (`Program.check_relocate`). Outline and code do not change at all
(`Program.outline_relocate`, `Program.code_relocate`).

`Check.Moves` compares the runs of two checks, and has one law for each way to put checks together.
-/

set_option autoImplicit false
set_option relaxedAutoImplicit false

namespace StackCompiler

/-! ### Moving tokens -/

section Definitions

variable (move : Location → Location)

def Token.relocate (token : Token) : Token :=
  { token with location := move token.location }

/-- Of all causes only a duplicate declaration names a place, that of the first one. -/
def Cause.relocate : Cause → Cause
  | duplicateDeclaration name first => duplicateDeclaration name (first.map move)
  | other => other

def Violation.relocate (found : Violation) : Violation :=
  ⟨found.cause.relocate move, found.token.relocate move⟩

def CheckFault.relocate : CheckFault → CheckFault
  | violation found => violation (found.relocate move)
  | breakdown found => breakdown found

def Variable.relocate (declared : Variable) : Variable :=
  { declared with token := declared.token.relocate move }

def Scope.relocate (scope : Scope) : Scope :=
  ⟨scope.entries.map (Variable.relocate move)⟩

end Definitions

variable {move : Location → Location}

@[simp] theorem Token.kind_relocate (token : Token) : (token.relocate move).kind = token.kind :=
  rfl

@[simp] theorem Token.lexeme_relocate (token : Token) :
    (token.relocate move).lexeme = token.lexeme :=
  rfl

@[simp] theorem Token.literal_relocate (token : Token) :
    (token.relocate move).literal = token.literal :=
  rfl

@[simp] theorem Token.truth_relocate (token : Token) : (token.relocate move).truth = token.truth :=
  rfl

theorem Token.relocate_keepsKinds : Grammar.KeepsKinds (Token.relocate move) :=
  fun _ ↦ rfl

@[simp] theorem Variable.name_relocate (declared : Variable) :
    (declared.relocate move).name = declared.name :=
  rfl

@[simp] theorem Variable.type_relocate (declared : Variable) :
    (declared.relocate move).type = declared.type :=
  rfl

@[simp] theorem Scope.names_relocate (scope : Scope) :
    (scope.relocate move).names = scope.names := by
  simp [names, relocate, Function.comp_def]

theorem Scope.find?_relocate (scope : Scope) (name : String) :
    (scope.relocate move).find? name = (scope.find? name).map (Variable.relocate move) := by
  simp [find?, relocate, List.find?_map, Function.comp_def]

theorem Scope.similarNames_relocate (scope : Scope) (name : String) :
    (scope.relocate move).similarNames name = scope.similarNames name := by
  rw [similarNames, names_relocate, similarNames]

theorem Scope.declare_relocate (scope : Scope) (new : Variable) :
    (scope.relocate move).declare (new.relocate move) = match scope.declare new with
      | .ok larger => .ok (larger.relocate move)
      | .error first => .error (first.relocate move) := by
  unfold declare
  rw [Variable.name_relocate, find?_relocate]
  cases scope.find? new.name with
  | none => simp [relocate]
  | some first => rfl

/-! ### Outline and code -/

theorem Expr.outline_relocate (e : Expr) :
    (e.mapTokens (Token.relocate move)).node.outline = e.node.outline := by
  induction e with
  | binary left operator right ihleft ihright =>
    simp only [mapTokens, node, Node.outline, ihleft, ihright, Token.lexeme_relocate]
  | intLit token | boolLit token | use token => rfl

theorem Stmt.outlines_relocate {statements : List Stmt}
    (h : ∀ statement ∈ statements,
      (statement.mapTokens (Token.relocate move)).node.outline = statement.node.outline) :
    Node.outlines (Stmt.nodes (Stmt.mapTokensOfAll (Token.relocate move) statements)) =
      Node.outlines (Stmt.nodes statements) := by
  induction statements with
  | nil => rfl
  | cons statement more ih =>
    simp only [mapTokensOfAll, nodes, Node.outlines, h statement (by simp),
      ih fun other hmem ↦ h other (by simp [hmem])]

theorem Stmt.outline_relocate (statement : Stmt) :
    (statement.mapTokens (Token.relocate move)).node.outline = statement.node.outline := by
  induction statement with
  | assign target value =>
    simp only [mapTokens, node, Node.outline, value.outline_relocate, Token.lexeme_relocate]
  | ifThen condition body ih | loop condition body ih =>
    simp only [mapTokens, node, Node.outline, condition.outline_relocate, ih]
  | ifElse condition body alternative ihbody ihalternative =>
    simp only [mapTokens, node, Node.outline, condition.outline_relocate, ihbody, ihalternative]
  | block statements ih => simp only [mapTokens, node, Node.outline, Stmt.outlines_relocate ih]

theorem Decl.outlines_relocate (declarations : List Decl) :
    Node.outlines ((declarations.map (Decl.mapTokens (Token.relocate move))).map Decl.node) =
      Node.outlines (declarations.map Decl.node) := by
  induction declarations with
  | nil => rfl
  | cons decl more ih =>
    simp only [List.map_cons, Node.outlines, ih]
    rfl

theorem Program.outline_relocate (program : Program) :
    (program.mapTokens (Token.relocate move)).node.outline = program.node.outline := by
  have hbody : Node.outlines (Stmt.nodes
      (Stmt.mapTokensOfAll (Token.relocate move) program.statements)) =
      Node.outlines (Stmt.nodes program.statements) :=
    Stmt.outlines_relocate fun statement _ ↦ statement.outline_relocate
  simp only [node, mapTokens, Node.outline, Decl.outlines_relocate, hbody, Token.lexeme_relocate]

theorem Expr.code_relocate (e : Expr) : (e.mapTokens (Token.relocate move)).code = e.code := by
  induction e with
  | binary left operator right ihleft ihright =>
    simp only [mapTokens, code, ihleft, ihright, Token.kind_relocate]
  | intLit token | boolLit token | use token => rfl

theorem Stmt.code_relocateOfAll {statements : List Stmt}
    (h : ∀ statement ∈ statements,
      (statement.mapTokens (Token.relocate move)).labelCount = statement.labelCount ∧
        ∀ first, (statement.mapTokens (Token.relocate move)).code first = statement.code first) :
    Stmt.labelCountOfAll (Stmt.mapTokensOfAll (Token.relocate move) statements) =
        Stmt.labelCountOfAll statements ∧
      ∀ first, Stmt.codeOfAll (Stmt.mapTokensOfAll (Token.relocate move) statements) first =
        Stmt.codeOfAll statements first := by
  induction statements with
  | nil => exact ⟨rfl, fun _ ↦ rfl⟩
  | cons statement more ih =>
    obtain ⟨hcount, hcode⟩ := h statement (by simp)
    obtain ⟨hcounts, hcodes⟩ := ih fun other hmem ↦ h other (by simp [hmem])
    simp [mapTokensOfAll, labelCountOfAll, codeOfAll, hcount, hcode, hcounts, hcodes]

/-- A statement keeps its code, and uses as many labels. -/
theorem Stmt.code_relocate (statement : Stmt) :
    (statement.mapTokens (Token.relocate move)).labelCount = statement.labelCount ∧
      ∀ first, (statement.mapTokens (Token.relocate move)).code first = statement.code first := by
  induction statement with
  | assign target value =>
    simp [mapTokens, labelCount, code, value.code_relocate, Token.lexeme_relocate]
  | ifThen condition body ih | loop condition body ih =>
    simp [mapTokens, labelCount, code, condition.code_relocate, ih]
  | ifElse condition body alternative ihbody ihalternative =>
    simp [mapTokens, labelCount, code, condition.code_relocate, ihbody, ihalternative]
  | block statements ih =>
    simpa only [mapTokens, labelCount, code] using Stmt.code_relocateOfAll ih

theorem Program.code_relocate (program : Program) :
    (program.mapTokens (Token.relocate move)).code = program.code := by
  have hbody : (Stmt.block (Stmt.mapTokensOfAll (Token.relocate move) program.statements)).code 0 =
      (Stmt.block program.statements).code 0 :=
    (Stmt.code_relocate (.block program.statements)).2 0
  rw [code, code, ← hbody]
  rfl

/-! ### The check -/

/-- What a check does, the other does on the scope with its tokens moved: it gives the value that
belongs to the former one, or it is stopped by the same fault at the token moved. -/
def Check.Moves {α β : Type} (move : Location → Location) (replace : α → β) (check : Check α)
    (other : Check β) : Prop :=
  ∀ before, (other.run.run (before.relocate move)).run =
    match (check.run.run before).run with
    | (.ok a, after) => (.ok (replace a), after.relocate move)
    | (.error fault, after) => (.error (fault.relocate move), after.relocate move)

section Laws

variable {α β γ δ : Type} {replace : α → β} {check : Check α} {other : Check β}

theorem Check.Moves.pure (replace : α → β) (a : α) :
    Check.Moves move replace (Pure.pure a) (Pure.pure (replace a)) :=
  fun _ ↦ rfl

theorem Check.Moves.violate (replace : α → β) (cause : Cause) (token : Token) :
    Check.Moves move replace (StackCompiler.violate cause token)
      (StackCompiler.violate (cause.relocate move) (token.relocate move)) :=
  fun _ ↦ rfl

theorem Check.Moves.breakDown (replace : α → β) (breakdown : Breakdown) :
    Check.Moves move replace (StackCompiler.breakDown breakdown)
      (StackCompiler.breakDown breakdown) :=
  fun _ ↦ rfl

theorem Check.Moves.set (larger : Scope) :
    Check.Moves move id (MonadStateOf.set larger : Check PUnit)
      (MonadStateOf.set (larger.relocate move)) :=
  fun _ ↦ rfl

theorem Check.Moves.bind {replaceNext : γ → δ} {next : α → Check γ} {otherNext : β → Check δ}
    (h : Check.Moves move replace check other)
    (hnext : ∀ a, Check.Moves move replaceNext (next a) (otherNext (replace a))) :
    Check.Moves move replaceNext (check >>= next) (other >>= otherNext) := by
  intro before
  rw [Check.run_bind, Check.run_bind, h before]
  rcases (check.run.run before).run with ⟨fault | a, after⟩
  · rfl
  · exact hnext a after

theorem Check.Moves.get_bind {next : Scope → Check α} {otherNext : Scope → Check β}
    (h : ∀ scope, Check.Moves move replace (next scope) (otherNext (scope.relocate move))) :
    Check.Moves move replace (get >>= next) (get >>= otherNext) := by
  intro before
  exact h before before

end Laws

theorem requireVariable_moves (name : Token) :
    Check.Moves move (Variable.relocate move) (requireVariable name)
      (requireVariable (name.relocate move)) := by
  refine .get_bind fun scope ↦ ?_
  rw [Scope.find?_relocate, Token.lexeme_relocate, Scope.similarNames_relocate]
  cases scope.find? name.lexeme with
  | none => exact .violate _ (.undeclared name.lexeme _) name
  | some found => exact .pure _ found

theorem operationType_moves (operator : Token) (left right : Option Ty) :
    Check.Moves move id (operationType operator left right)
      (operationType (operator.relocate move) left right) := by
  unfold operationType
  rw [Token.kind_relocate, Token.lexeme_relocate]
  cases OperatorRule.ofKind? operator.kind with
  | none => exact .breakDown _ _
  | some rule =>
    dsimp only
    split
    · exact .pure id rule.result
    · exact .violate id (.operandTypes operator.lexeme _ _ _) operator

theorem Expr.firstToken_moves (e : Expr) :
    Check.Moves move (Token.relocate move) e.node.firstToken
      (e.mapTokens (Token.relocate move)).node.firstToken := by
  induction e with
  | binary left operator right ih _ => exact ih
  | intLit token | boolLit token | use token => exact .pure _ token

theorem Expr.requireBoolean_moves (statement : String) (e : Expr) (type : Option Ty) :
    Check.Moves move id (requireBoolean statement e.node type)
      (requireBoolean statement (e.mapTokens (Token.relocate move)).node type) := by
  unfold requireBoolean
  split
  · exact .pure id ()
  · exact .bind e.firstToken_moves fun first ↦ .violate id (.conditionType _ _) first

theorem Expr.findType_moves (e : Expr) :
    Check.Moves move id e.node.findType (e.mapTokens (Token.relocate move)).node.findType := by
  induction e with
  | binary left operator right ihleft ihright =>
    exact .bind ihleft fun first ↦ .bind ihright fun second ↦
      .bind (operationType_moves operator first second) fun type ↦ .pure id (some type)
  | intLit token => exact .pure id (some Ty.integer)
  | boolLit token => exact .pure id (some Ty.boolean)
  | use name => exact .bind (requireVariable_moves name) fun found ↦ .pure id (some found.type)

theorem Stmt.findTypes_moves {statements : List Stmt}
    (h : ∀ statement ∈ statements, Check.Moves move id statement.node.findType
      (statement.mapTokens (Token.relocate move)).node.findType) :
    Check.Moves move id (Node.findTypes (Stmt.nodes statements))
      (Node.findTypes (Stmt.nodes (Stmt.mapTokensOfAll (Token.relocate move) statements))) := by
  induction statements with
  | nil => exact .pure id ()
  | cons statement more ih =>
    exact .bind (h statement (by simp)) fun _ ↦ ih fun other hmem ↦ h other (by simp [hmem])

theorem Stmt.findType_moves (statement : Stmt) :
    Check.Moves move id statement.node.findType
      (statement.mapTokens (Token.relocate move)).node.findType := by
  induction statement with
  | assign target value =>
    refine .bind (requireVariable_moves target) fun declared ↦ .bind value.findType_moves fun type ↦
      ?_
    cases htype : type == some declared.type with
    | true =>
      simp only [id_eq, Variable.type_relocate, htype, if_true]
      exact .pure id none
    | false =>
      simp only [id_eq, Variable.type_relocate, htype, Bool.false_eq_true, if_false]
      exact .violate id (.assignmentType target.lexeme _ _) target
  | ifThen condition body ih =>
    exact .bind condition.findType_moves fun type ↦
      .bind (condition.requireBoolean_moves _ type) fun _ ↦ .bind ih fun _ ↦ .pure id none
  | ifElse condition body alternative ihbody ihalternative =>
    exact .bind condition.findType_moves fun type ↦
      .bind (condition.requireBoolean_moves _ type) fun _ ↦ .bind ihbody fun _ ↦
      .bind ihalternative fun _ ↦ .pure id none
  | loop condition body ih =>
    exact .bind condition.findType_moves fun type ↦
      .bind (condition.requireBoolean_moves _ type) fun _ ↦ .bind ih fun _ ↦ .pure id none
  | block statements ih => exact .bind (Stmt.findTypes_moves ih) fun _ ↦ .pure id none

theorem enter_moves (name type : Token) :
    Check.Moves move id (enter name type) (enter (name.relocate move) (type.relocate move)) := by
  have htype : (type.relocate move).type = type.type := rfl
  unfold enter
  rw [htype]
  cases type.type with
  | error found => exact .breakDown id found
  | ok type =>
    refine .get_bind fun scope ↦ ?_
    have hdeclare : (scope.relocate move).declare ⟨name.relocate move, type⟩ =
        match scope.declare ⟨name, type⟩ with
        | .ok larger => .ok (larger.relocate move)
        | .error first => .error (first.relocate move) :=
      scope.declare_relocate ⟨name, type⟩
    rw [hdeclare]
    cases scope.declare ⟨name, type⟩ with
    | ok larger => exact .set larger
    | error first => exact .violate id (.duplicateDeclaration name.lexeme _) name

theorem Decl.findTypes_moves (declarations : List Decl) :
    Check.Moves move id (Node.findTypes (declarations.map Decl.node))
      (Node.findTypes
        ((declarations.map (Decl.mapTokens (Token.relocate move))).map Decl.node)) := by
  induction declarations with
  | nil => exact .pure id ()
  | cons decl more ih =>
    exact .bind (.bind (enter_moves decl.name decl.type) fun _ ↦ .pure id none) fun _ ↦ ih

/-- Moving its tokens moves what stops the check of a program, and the scope. -/
theorem Program.check_relocate (move : Location → Location) (program : Program)
    (before : Scope) :
    (program.mapTokens (Token.relocate move)).node.check (before.relocate move) =
      match program.node.check before with
      | (.ok type, after) => (.ok type, after.relocate move)
      | (.error fault, after) => (.error (fault.relocate move), after.relocate move) := by
  have hprogram : Check.Moves move id program.node.findType
      (program.mapTokens (Token.relocate move)).node.findType :=
    .bind (Decl.findTypes_moves program.declarations) fun _ ↦
      .bind (Stmt.findType_moves (.block program.statements)) fun _ ↦ .pure id none
  have hrun := hprogram before
  unfold Node.check
  rcases hbefore : (program.node.findType.run.run before).run with ⟨fault | type, after⟩
  all_goals
    rw [hbefore] at hrun
    change (program.node.findType.run.run before) = _ at hbefore
    rw [hbefore]
    exact hrun

end StackCompiler
