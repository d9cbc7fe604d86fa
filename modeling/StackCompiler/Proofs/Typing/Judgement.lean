import StackCompiler.Typing.Scope
import StackCompiler.Tree.Basic

/-!
# The type system

The rules for declarations and types as judgements, without an order in which a tree is looked at
and without a scope that grows on the way. `Expr.HasType` and `Stmt.WellTyped` are relative to the
types of the variables; `Program.WellTyped` takes these from the declarations of the program, whose
names have to be distinct.

An expression has at most one type (`Expr.HasType.unique`), and in a well-typed program every
expression has one (`Program.WellTyped.exists_hasType`), the parts of larger expressions included.
-/

set_option autoImplicit false
set_option relaxedAutoImplicit false

namespace StackCompiler

/-- The types of the variables that are declared. -/
abbrev TypeEnv := String → Option Ty

/-! ### Expressions -/

/-- An operator of a kind joins a value of the first type and one of the second type to a value of
the third. -/
inductive TokenKind.Joins : TokenKind → Ty → Ty → Ty → Prop
  | arithmetic {kind : TokenKind}
      (h : kind = plus ∨ kind = minus ∨ kind = times ∨ kind = divide) :
      Joins kind .integer .integer .integer
  | logical {kind : TokenKind} (h : kind = andKw ∨ kind = orKw) :
      Joins kind .boolean .boolean .boolean
  | comparison {kind : TokenKind} (type : Ty) (h : kind = less ∨ kind = greater ∨ kind = equal) :
      Joins kind type type .boolean

namespace Expr

/-- An expression has a type. -/
inductive HasType (types : TypeEnv) : Expr → Ty → Prop
  | intLit (token : Token) : HasType types (.intLit token) .integer
  | boolLit (token : Token) : HasType types (.boolLit token) .boolean
  | use {name : Token} {type : Ty} (hname : types name.lexeme = some type) :
      HasType types (.use name) type
  | binary {left right : Expr} {operator : Token} {first second result : Ty}
      (hleft : HasType types left first) (hright : HasType types right second)
      (hoperator : operator.kind.Joins first second result) :
      HasType types (.binary left operator right) result

/-- An expression and the expressions in it. -/
def parts : Expr → List Expr
  | binary left operator right => binary left operator right :: (left.parts ++ right.parts)
  | simple => [simple]

end Expr

theorem Expr.self_mem_parts (e : Expr) : e ∈ e.parts := by
  cases e <;> exact List.mem_cons_self

theorem Expr.parts_subset_of_mem_parts {part e : Expr} (h : part ∈ e.parts) :
    part.parts ⊆ e.parts := by
  induction e with
  | intLit _ | boolLit _ | use _ =>
    cases List.mem_singleton.mp h
    exact List.Subset.refl _
  | binary left operator right ihleft ihright =>
    simp only [parts, List.mem_cons, List.mem_append] at h
    rcases h with rfl | h | h
    · exact List.Subset.refl _
    · exact List.Subset.trans (ihleft h) (by simp [parts])
    · exact List.Subset.trans (ihright h) (by simp [parts])

theorem TokenKind.Joins.unique {kind : TokenKind} {first second result other : Ty}
    (h : kind.Joins first second result) (hother : kind.Joins first second other) :
    result = other := by
  cases h with
  | arithmetic h =>
    cases hother with
    | arithmetic _ => rfl
    | comparison _ hother => cases kind <;> simp at h hother
  | logical _ => cases hother <;> rfl
  | comparison _ h =>
    cases hother with
    | arithmetic hother => cases kind <;> simp at h hother
    | logical _ => rfl
    | comparison _ _ => rfl

/-- An expression has at most one type. -/
theorem Expr.HasType.unique {types : TypeEnv} {e : Expr} {type other : Ty}
    (h : e.HasType types type) (hother : e.HasType types other) : type = other := by
  induction h generalizing other with
  | intLit token => cases hother; rfl
  | boolLit token => cases hother; rfl
  | use hname =>
    cases hother with
    | use hsame => rw [hname] at hsame; exact Option.some.inj hsame
  | binary _ _ hoperator ihleft ihright =>
    cases hother with
    | binary hleft hright hsame =>
      cases ihleft hleft
      cases ihright hright
      exact hoperator.unique hsame

/-- The parts of an expression with a type have types. -/
theorem Expr.HasType.exists_of_mem_parts {types : TypeEnv} {e : Expr} {type : Ty}
    (h : e.HasType types type) : ∀ part ∈ e.parts, ∃ found, part.HasType types found := by
  induction h with
  | intLit token => simpa [parts] using ⟨_, HasType.intLit token⟩
  | boolLit token => simpa [parts] using ⟨_, HasType.boolLit token⟩
  | use hname => simpa [parts] using ⟨_, HasType.use hname⟩
  | binary hleft hright hoperator ihleft ihright =>
    intro part hpart
    simp only [parts, List.mem_cons, List.mem_append] at hpart
    rcases hpart with rfl | hpart | hpart
    · exact ⟨_, .binary hleft hright hoperator⟩
    · exact ihleft part hpart
    · exact ihright part hpart

/-! ### Statements -/

namespace Stmt

/-- A statement keeps the rules for types. -/
inductive WellTyped (types : TypeEnv) : Stmt → Prop
  | assign {target : Token} {value : Expr} {type : Ty} (htarget : types target.lexeme = some type)
      (hvalue : value.HasType types type) : WellTyped types (.assign target value)
  | ifThen {condition : Expr} {body : Stmt} (hcondition : condition.HasType types .boolean)
      (hbody : WellTyped types body) : WellTyped types (.ifThen condition body)
  | ifElse {condition : Expr} {body alternative : Stmt}
      (hcondition : condition.HasType types .boolean) (hbody : WellTyped types body)
      (halternative : WellTyped types alternative) :
      WellTyped types (.ifElse condition body alternative)
  | loop {condition : Expr} {body : Stmt} (hcondition : condition.HasType types .boolean)
      (hbody : WellTyped types body) : WellTyped types (.loop condition body)
  | block {statements : List Stmt} (h : ∀ statement ∈ statements, WellTyped types statement) :
      WellTyped types (.block statements)

mutual

/-- All expressions of a statement. -/
def expressions : Stmt → List Expr
  | .assign _ value => value.parts
  | .ifThen condition body | .loop condition body => condition.parts ++ body.expressions
  | .ifElse condition body alternative =>
    condition.parts ++ body.expressions ++ alternative.expressions
  | .block statements => expressionsOfAll statements

def expressionsOfAll : List Stmt → List Expr
  | [] => []
  | statement :: more => statement.expressions ++ expressionsOfAll more

end

theorem mem_expressionsOfAll {statements : List Stmt} {e : Expr} :
    e ∈ expressionsOfAll statements ↔ ∃ statement ∈ statements, e ∈ statement.expressions := by
  induction statements with
  | nil => simp [expressionsOfAll]
  | cons statement more ih => simp [expressionsOfAll, ih]

theorem parts_subset_of_mem_expressions {e : Expr} {statement : Stmt}
    (h : e ∈ statement.expressions) : e.parts ⊆ statement.expressions := by
  induction statement with
  | assign target value => exact Expr.parts_subset_of_mem_parts h
  | ifThen condition body ih | loop condition body ih =>
    rcases List.mem_append.mp h with h | h
    · exact List.subset_append_of_subset_left _ (Expr.parts_subset_of_mem_parts h)
    · exact List.subset_append_of_subset_right _ (ih h)
  | ifElse condition body alternative ihbody ihalternative =>
    simp only [expressions, List.mem_append] at h
    rcases h with (h | h) | h
    · exact List.Subset.trans (Expr.parts_subset_of_mem_parts h) (by simp [expressions])
    · exact List.Subset.trans (ihbody h) (by simp [expressions])
    · exact List.Subset.trans (ihalternative h) (by simp [expressions])
  | block statements ih =>
    obtain ⟨statement, hstatement, h⟩ := mem_expressionsOfAll.mp h
    exact fun part hpart ↦
      mem_expressionsOfAll.mpr ⟨statement, hstatement, ih statement hstatement h hpart⟩

theorem WellTyped.exists_hasType {types : TypeEnv} {statement : Stmt}
    (h : statement.WellTyped types) :
    ∀ e ∈ statement.expressions, ∃ type, e.HasType types type := by
  induction h with
  | assign _ hvalue => exact hvalue.exists_of_mem_parts
  | ifThen hcondition _ ih | loop hcondition _ ih =>
    intro e he
    rcases List.mem_append.mp he with he | he
    · exact hcondition.exists_of_mem_parts e he
    · exact ih e he
  | ifElse hcondition _ _ ihbody ihalternative =>
    intro e he
    simp only [expressions, List.mem_append] at he
    rcases he with (he | he) | he
    · exact hcondition.exists_of_mem_parts e he
    · exact ihbody e he
    · exact ihalternative e he
  | block _ ih =>
    intro e he
    obtain ⟨statement, hstatement, he⟩ := mem_expressionsOfAll.mp he
    exact ih statement hstatement e he

end Stmt

/-! ### Programs -/

/-- A declaration declares a variable: it holds the token of the variable and names its type. -/
def Decl.Declares (decl : Decl) (declared : Variable) : Prop :=
  declared.token = decl.name ∧ Ty.ofKind? decl.type.kind = some declared.type

namespace Program

/-- The types that the declarations of a program give to names. -/
def types (program : Program) : TypeEnv := fun name ↦
  (program.declarations.find? (·.name.lexeme == name)).bind fun decl ↦ Ty.ofKind? decl.type.kind

/-- A program keeps the rules for declarations and types. -/
structure WellTyped (program : Program) : Prop where
  distinct : (program.declarations.map (·.name.lexeme)).Nodup
  body : ∀ statement ∈ program.statements, statement.WellTyped program.types

/-- All expressions of a program. -/
def expressions (program : Program) : List Expr :=
  Stmt.expressionsOfAll program.statements

theorem WellTyped.exists_hasType {program : Program} (h : program.WellTyped) :
    ∀ e ∈ program.expressions, ∃ type, e.HasType program.types type := by
  intro e he
  obtain ⟨statement, hstatement, he⟩ := Stmt.mem_expressionsOfAll.mp he
  exact (h.body statement hstatement).exists_hasType e he

end Program

end StackCompiler
