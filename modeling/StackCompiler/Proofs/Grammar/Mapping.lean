import StackCompiler.Proofs.Grammar.Language
import StackCompiler.Proofs.Grammar.Rule

/-!
# Reading other tokens of the same kinds

A rule decides on the kinds of tokens alone. If every token is replaced by another of its kind, then
the rules do the same as before: the program that is read is the former one with its tokens replaced
(`program_follows`), and where reading stops it stops in front of the replacement of the former
token. `Follows` compares the runs of two rules in this way, and has one law for each way to put
rules together.
-/

set_option autoImplicit false
set_option relaxedAutoImplicit false

namespace StackCompiler

/-! ### Replacing the tokens of a tree -/

section Trees

variable (f : Token → Token)

def Expr.mapTokens : Expr → Expr
  | binary left operator right => .binary left.mapTokens (f operator) right.mapTokens
  | intLit token => .intLit (f token)
  | boolLit token => .boolLit (f token)
  | use name => .use (f name)

mutual

def Stmt.mapTokens : Stmt → Stmt
  | .assign target value => .assign (f target) (value.mapTokens f)
  | .ifThen condition body => .ifThen (condition.mapTokens f) body.mapTokens
  | .ifElse condition body alternative =>
    .ifElse (condition.mapTokens f) body.mapTokens alternative.mapTokens
  | .loop condition body => .loop (condition.mapTokens f) body.mapTokens
  | .block statements => .block (Stmt.mapTokensOfAll statements)

def Stmt.mapTokensOfAll : List Stmt → List Stmt
  | [] => []
  | statement :: more => statement.mapTokens :: Stmt.mapTokensOfAll more

end

def Decl.mapTokens (decl : Decl) : Decl :=
  ⟨f decl.name, f decl.type⟩

def Program.mapTokens (program : Program) : Program :=
  ⟨f program.name, program.declarations.map (Decl.mapTokens f),
    Stmt.mapTokensOfAll f program.statements⟩

end Trees

namespace Grammar

variable {α β γ δ : Type} {f : Token → Token}

/-! ### Rules on replaced tokens -/

/-- What a rule does to tokens, the other does to their replacements: it gives the replacement of
the value and leaves the replacements of the rest, or it stops there for the same reason. -/
def Follows (f : Token → Token) (replace : α → β) (rule : Rule α) (other : Rule β) : Prop :=
  ∀ pending, other (pending.map f) = match rule pending with
    | .ok (a, rest) => .ok (replace a, rest.map f)
    | .error stop => .error ⟨stop.refusal, stop.pending.map f⟩

section Laws

variable {replace : α → β} {rule : Rule α} {other : Rule β}

theorem Follows.ok (h : Follows f replace rule other) {pending rest : List Token} {a : α}
    (hrule : rule pending = .ok (a, rest)) :
    other (pending.map f) = .ok (replace a, rest.map f) := by
  rw [h pending, hrule]

theorem Follows.error (h : Follows f replace rule other) {pending : List Token} {stop : Stop}
    (hrule : rule pending = .error stop) :
    other (pending.map f) = .error ⟨stop.refusal, stop.pending.map f⟩ := by
  rw [h pending, hrule]

theorem Follows.pure (replace : α → β) (a : α) :
    Follows f replace (Pure.pure a) (Pure.pure (replace a)) :=
  fun _ ↦ rfl

theorem Follows.refuse (replace : α → β) (refusal : Refusal) :
    Follows f replace (Grammar.refuse refusal) (Grammar.refuse refusal) :=
  fun _ ↦ rfl

theorem Follows.bind {replaceNext : γ → δ} {next : α → Rule γ} {otherNext : β → Rule δ}
    (h : Follows f replace rule other)
    (hnext : ∀ a, Follows f replaceNext (next a) (otherNext (replace a))) :
    Follows f replaceNext (rule >>= next) (other >>= otherNext) := by
  intro pending
  cases hrule : rule pending with
  | error stop => rw [bind_of_error (h.error hrule), bind_of_error hrule]
  | ok result => rw [bind_of_ok (h.ok hrule), bind_of_ok hrule, hnext result.1 result.2]

theorem Follows.get_bind {next : List Token → Rule α} {otherNext : List Token → Rule β}
    (h : ∀ pending, Follows f replace (next pending) (otherNext (pending.map f))) :
    Follows f replace (get >>= next) (get >>= otherNext) := by
  intro pending
  rw [get_bind_apply, get_bind_apply]
  exact h pending pending

end Laws

/-- A token is replaced by one of its kind. -/
def KeepsKinds (f : Token → Token) : Prop :=
  ∀ token, (f token).kind = token.kind

section Rules

variable (hf : KeepsKinds f)
include hf

theorem kindOfNext_map (pending : List Token) :
    kindOfNext (pending.map f) = kindOfNext pending := by
  cases pending with
  | nil => rfl
  | cons token rest => exact hf token

theorem accept?_follows (member : TokenKind → Bool) :
    Follows f (Option.map f) (accept? member) (accept? member) := by
  intro pending
  cases pending with
  | nil => rfl
  | cons token rest =>
    simp only [accept?, List.map_cons, hf token]
    split <;> rfl

theorem expect_follows (kind : TokenKind) : Follows f f (expect kind) (expect kind) := by
  refine .bind (accept?_follows hf _) fun found ↦ ?_
  cases found with
  | none => exact .refuse f _
  | some token => exact .pure f token

/-! ### Expressions -/

theorem operand_follows {inner : Rule Expr}
    (hinner : Follows f (Expr.mapTokens f) inner inner) :
    Follows f (Expr.mapTokens f) (operand inner) (operand inner) := by
  refine .get_bind fun pending ↦ ?_
  rw [kindOfNext_map hf]
  have hexpect := expect_follows hf
  split
  · exact .bind (hexpect _) fun token ↦ .pure _ (Expr.intLit token)
  · exact .bind (hexpect _) fun token ↦ .pure _ (Expr.boolLit token)
  · exact .bind (hexpect _) fun token ↦ .pure _ (Expr.boolLit token)
  · exact .bind (hexpect _) fun token ↦ .pure _ (Expr.use token)
  · exact .bind (hexpect _) fun _ ↦ .bind hinner fun e ↦ .bind (hexpect _) fun _ ↦ .pure _ e
  · exact .refuse _ _
  · exact .refuse _ _

theorem joinRight_follows (member : TokenKind → Bool) {next : Rule Expr}
    (hnext : Follows f (Expr.mapTokens f) next next) (turns : List Token) (left : Expr) :
    Follows f (Expr.mapTokens f) (joinRight member next turns left)
      (joinRight member next (turns.map f) (left.mapTokens f)) := by
  induction turns generalizing left with
  | nil => exact .pure _ left
  | cons turn turns ih =>
    refine .bind (accept?_follows hf member) fun found ↦ ?_
    cases found with
    | none => exact .pure _ left
    | some operator => exact .bind hnext fun right ↦ ih (.binary left operator right)

theorem tier_follows (member : TokenKind → Bool) {next : Rule Expr}
    (hnext : Follows f (Expr.mapTokens f) next next) :
    Follows f (Expr.mapTokens f) (tier member next) (tier member next) :=
  .bind hnext fun left ↦ .get_bind fun pending ↦ joinRight_follows hf member hnext pending left

theorem expression_follows (depth : Nat) :
    Follows f (Expr.mapTokens f) (expression depth) (expression depth) := by
  induction depth with
  | zero => exact .refuse _ _
  | succ depth ih =>
    exact tier_follows hf _ <| tier_follows hf _ <| tier_follows hf _ <| operand_follows hf ih

/-! ### Statements -/

section Statements

variable {value : Rule Expr} {inner : Rule Stmt}
  (hvalue : Follows f (Expr.mapTokens f) value value)
  (hinner : Follows f (Stmt.mapTokens f) inner inner)

include hvalue in
theorem assignment_follows :
    Follows f (Stmt.mapTokens f) (assignment value) (assignment value) :=
  .bind (expect_follows hf _) fun target ↦ .bind (expect_follows hf _) fun _ ↦
    .bind hvalue fun e ↦ .pure _ (Stmt.assign target e)

include hvalue hinner

theorem conditional_follows :
    Follows f (Stmt.mapTokens f) (conditional value inner) (conditional value inner) := by
  refine .bind (expect_follows hf _) fun _ ↦ .bind hvalue fun e ↦
    .bind (expect_follows hf _) fun _ ↦ .bind hinner fun body ↦
    .bind (accept?_follows hf _) fun found ↦ ?_
  cases found with
  | none => exact .pure _ (Stmt.ifThen e body)
  | some word => exact .bind hinner fun alternative ↦ .pure _ (Stmt.ifElse e body alternative)

theorem loop_follows : Follows f (Stmt.mapTokens f) (loop value inner) (loop value inner) :=
  .bind (expect_follows hf _) fun _ ↦ .bind hvalue fun e ↦ .bind (expect_follows hf _) fun _ ↦
    .bind hinner fun body ↦ .pure _ (Stmt.loop e body)

omit hvalue

theorem statements_follows (turns : List Token) :
    Follows f (Stmt.mapTokensOfAll f) (statements inner turns)
      (statements inner (turns.map f)) := by
  induction turns with
  | nil => exact .pure _ []
  | cons turn turns ih =>
    refine .get_bind fun pending ↦ ?_
    rw [kindOfNext_map hf]
    dsimp only
    split
    · exact .pure _ []
    · exact .bind hinner fun first ↦ .bind (expect_follows hf _) fun _ ↦ .bind ih fun later ↦
        .pure _ (first :: later)

theorem block_follows : Follows f (Stmt.mapTokensOfAll f) (block inner) (block inner) :=
  .bind (expect_follows hf _) fun _ ↦ .get_bind fun pending ↦
    .bind (statements_follows hf hinner pending) fun body ↦ .bind (expect_follows hf _) fun _ ↦
    .pure _ body

end Statements

theorem statement_follows (depth : Nat) :
    Follows f (Stmt.mapTokens f) (statement depth) (statement depth) := by
  induction depth with
  | zero => exact .refuse _ _
  | succ depth ih =>
    refine .get_bind fun pending ↦ ?_
    rw [kindOfNext_map hf]
    have hvalue := expression_follows hf depth
    split
    · exact assignment_follows hf hvalue
    · exact conditional_follows hf hvalue ih
    · exact loop_follows hf hvalue ih
    · exact .bind (block_follows hf ih) fun body ↦ .pure _ (Stmt.block body)
    · exact .refuse _ _

/-! ### Programs -/

theorem typeName_follows : Follows f f typeName typeName := by
  refine .bind (accept?_follows hf _) fun found ↦ ?_
  cases found with
  | none => exact .refuse f _
  | some token => exact .pure f token

theorem declaration_follows : Follows f (Decl.mapTokens f) declaration declaration :=
  .bind (expect_follows hf _) fun name ↦ .bind (expect_follows hf _) fun _ ↦
    .bind (typeName_follows hf) fun type ↦ .bind (expect_follows hf _) fun _ ↦
    .pure _ (⟨name, type⟩ : Decl)

theorem declarations_follows (turns : List Token) :
    Follows f (List.map (Decl.mapTokens f)) (declarations turns) (declarations (turns.map f)) := by
  induction turns with
  | nil => exact .pure _ []
  | cons turn turns ih =>
    refine .bind (accept?_follows hf _) fun found ↦ ?_
    cases found with
    | none => exact .pure _ []
    | some word =>
      exact .bind (declaration_follows hf) fun decl ↦ .bind ih fun later ↦ .pure _ (decl :: later)

/-- From tokens of the same kinds the same program is read, with its tokens replaced. -/
theorem program_follows (depth : Nat) :
    Follows f (Program.mapTokens f) (program depth) (program depth) :=
  .bind (expect_follows hf _) fun _ ↦ .bind (expect_follows hf _) fun name ↦
    .bind (expect_follows hf _) fun _ ↦ .get_bind fun pending ↦
    .bind (declarations_follows hf pending) fun decls ↦
    .bind (block_follows hf (statement_follows hf depth)) fun body ↦
    .pure _ (⟨name, decls, body⟩ : Program)

end Rules

end Grammar

end StackCompiler
