import Mathlib.Data.List.Find
import Mathlib.Data.Set.Function
import StackCompiler.Proofs.Typing.FirstViolation

/-!
# Renamed variables

A renaming gives other names to the variables of a program, where they are declared, assigned and
used, and leaves all else as it is (`Program.rename`). A review of the renamed program has the
violations of the original one, in the same order, with the same causes and at the same places,
if no two variables get the same name (`Program.violations_rename`). Only the names in the causes
are new, and so are the names that are proposed for one that is not declared, since these go by the
spelling (`Cause.Renames`).

The two reviews are compared by what they know of the variables. It is enough that one has of the
new name of each variable in a tree what the other has of its name (`TypeEnv.Carries`), so the
violations of a body stay the same too if the declarations in front of it change their order.
-/

set_option autoImplicit false
set_option relaxedAutoImplicit false

namespace StackCompiler

open Grammar

/-! ### Renaming -/

section Definitions

variable (f : String → String)

/-- The token of a variable under its other name. -/
def Token.rename (token : Token) : Token :=
  { token with lexeme := f token.lexeme }

def Expr.rename : Expr → Expr
  | binary left operator right => .binary left.rename operator right.rename
  | intLit token => .intLit token
  | boolLit token => .boolLit token
  | use name => .use (name.rename f)

mutual

def Stmt.rename : Stmt → Stmt
  | .assign target value => .assign (target.rename f) (value.rename f)
  | .ifThen condition body => .ifThen (condition.rename f) body.rename
  | .ifElse condition body alternative =>
    .ifElse (condition.rename f) body.rename alternative.rename
  | .loop condition body => .loop (condition.rename f) body.rename
  | .block statements => .block (Stmt.renameAll statements)

def Stmt.renameAll : List Stmt → List Stmt
  | [] => []
  | statement :: more => statement.rename :: Stmt.renameAll more

end

def Decl.rename (decl : Decl) : Decl :=
  { decl with name := decl.name.rename f }

/-- The program with its variables renamed. Its own name is that of no variable. -/
def Program.rename (program : Program) : Program :=
  { program with
    declarations := program.declarations.map (Decl.rename f)
    statements := Stmt.renameAll f program.statements }

/-- Causes of one class, about the same thing under its new name. -/
inductive Cause.Renames : Cause → Cause → Prop
  | duplicateDeclaration (name : String) (first : Option Location) :
      Renames (.duplicateDeclaration name first) (.duplicateDeclaration (f name) first)
  | undeclared (name : String) (similar others : List String) :
      Renames (.undeclared name similar) (.undeclared (f name) others)
  | assignmentType (name expected actual : String) :
      Renames (.assignmentType name expected actual) (.assignmentType (f name) expected actual)
  | conditionType (statement actual : String) :
      Renames (.conditionType statement actual) (.conditionType statement actual)
  | operandTypes (operator requirement left right : String) :
      Renames (.operandTypes operator requirement left right)
        (.operandTypes operator requirement left right)

/-- The same violation of a renamed program. -/
structure Violation.Renames (found other : Violation) : Prop where
  cause : found.cause.Renames f other.cause
  location : other.token.location = found.token.location

end Definitions

/-! ### The names of variables -/

/-- The names of the variables that an expression uses. -/
def Expr.variableNames : Expr → List String
  | binary left _ right => left.variableNames ++ right.variableNames
  | intLit _ | boolLit _ => []
  | use name => [name.lexeme]

mutual

/-- The names of the variables that a statement assigns or uses. -/
def Stmt.variableNames : Stmt → List String
  | .assign target value => target.lexeme :: value.variableNames
  | .ifThen condition body | .loop condition body => condition.variableNames ++ body.variableNames
  | .ifElse condition body alternative =>
    condition.variableNames ++ (body.variableNames ++ alternative.variableNames)
  | .block statements => Stmt.variableNamesOfAll statements

def Stmt.variableNamesOfAll : List Stmt → List String
  | [] => []
  | statement :: more => statement.variableNames ++ Stmt.variableNamesOfAll more

end

/-- The names of the variables that a program declares, assigns or uses. -/
def Program.variableNames (program : Program) : List String :=
  program.declarations.map (·.name.lexeme) ++ Stmt.variableNamesOfAll program.statements

variable {f : String → String}

/-! ### Well-formed trees -/

theorem Expr.WellFormed.rename {e : Expr} (h : e.WellFormed) : (e.rename f).WellFormed := by
  induction h with
  | binary _ hoperator _ ihleft ihright => exact .binary ihleft hoperator ihright
  | intLit hkind => exact .intLit hkind
  | boolLit hkind => exact .boolLit hkind
  | use hkind => exact .use hkind

/-- A renamed statement takes an `else` behind it exactly if the original one does. -/
theorem Stmt.isOpen_rename (statement : Stmt) :
    (statement.rename f).isOpen = statement.isOpen := by
  induction statement with
  | assign target value | ifThen condition body | block statements => rfl
  | ifElse condition body alternative _ ihalternative => exact ihalternative
  | loop condition body ih => exact ih

theorem Stmt.mem_renameAll {statements : List Stmt} {renamed : Stmt} :
    renamed ∈ Stmt.renameAll f statements ↔
      ∃ statement ∈ statements, statement.rename f = renamed := by
  induction statements with
  | nil => simp [renameAll]
  | cons statement more ih => simp [renameAll, ih, eq_comm]

theorem Stmt.WellFormed.rename {statement : Stmt} (h : statement.WellFormed) :
    (statement.rename f).WellFormed := by
  induction h with
  | assign htarget hvalue => exact .assign htarget hvalue.rename
  | ifThen hcondition _ ih => exact .ifThen hcondition.rename ih
  | ifElse hcondition _ hclosed _ ihbody ihalternative =>
    exact .ifElse hcondition.rename ihbody ((isOpen_rename _).trans hclosed) ihalternative
  | loop hcondition _ ih => exact .loop hcondition.rename ih
  | block _ ih =>
    refine .block fun renamed hmem ↦ ?_
    obtain ⟨statement, hstatement, rfl⟩ := mem_renameAll.mp hmem
    exact ih statement hstatement

theorem Program.WellFormed.rename {program : Program} (h : program.WellFormed) :
    (program.rename f).WellFormed where
  name := h.name
  declarations renamed hmem := by
    obtain ⟨decl, hdecl, rfl⟩ := List.mem_map.mp hmem
    exact ⟨(h.declarations decl hdecl).name, (h.declarations decl hdecl).type⟩
  statements renamed hmem := by
    obtain ⟨statement, hstatement, rfl⟩ := Stmt.mem_renameAll.mp hmem
    exact (h.statements statement hstatement).rename

/-! ### The violations in a body -/

/-- What some types have of the names in a list, others have of the new names. -/
def TypeEnv.Carries (f : String → String) (names : List String) (types others : TypeEnv) : Prop :=
  ∀ name ∈ names, others (f name) = types name

section Bodies

variable {types others : TypeEnv} {names candidates otherCandidates : List String}

theorem TypeEnv.Carries.mono {part : List String} (h : TypeEnv.Carries f names types others)
    (hpart : part ⊆ names) : TypeEnv.Carries f part types others :=
  fun name hname ↦ h name (hpart hname)

theorem TypeEnv.Carries.left {more : List String}
    (h : TypeEnv.Carries f (names ++ more) types others) : TypeEnv.Carries f names types others :=
  h.mono (List.subset_append_left names more)

theorem TypeEnv.Carries.right {more : List String}
    (h : TypeEnv.Carries f (names ++ more) types others) : TypeEnv.Carries f more types others :=
  h.mono (List.subset_append_right names more)

theorem Expr.type?_rename {e : Expr} (h : TypeEnv.Carries f e.variableNames types others) :
    (e.rename f).type? others = e.type? types := by
  induction e with
  | intLit token | boolLit token => rfl
  | use name => exact h name.lexeme List.mem_cons_self
  | binary left operator right ihleft ihright =>
    rw [rename, type?, ihleft h.left, ihright h.right, type?]

theorem Token.undeclared_rename {name : Token}
    (h : others (f name.lexeme) = types name.lexeme) :
    List.Forall₂ (Violation.Renames f) (name.undeclared types candidates)
      ((name.rename f).undeclared others otherCandidates) := by
  have hlexeme : (name.rename f).lexeme = f name.lexeme := rfl
  rw [undeclared, undeclared, hlexeme, h]
  cases types name.lexeme with
  | some type => exact .nil
  | none => exact .cons ⟨.undeclared name.lexeme _ _, rfl⟩ .nil

/-- An operator is about no variable. -/
theorem Token.unjoined_renames (operator : Token) (first second : Option Ty) :
    List.Forall₂ (Violation.Renames f) (operator.unjoined first second)
      (operator.unjoined first second) := by
  unfold unjoined
  split
  · split
    · exact .nil
    · exact .cons ⟨.operandTypes .., rfl⟩ .nil
  · exact .nil

theorem Token.unassigned_rename (target : Token) (expected actual : Option Ty) :
    List.Forall₂ (Violation.Renames f) (target.unassigned expected actual)
      ((target.rename f).unassigned expected actual) := by
  unfold unassigned
  split
  · split
    · exact .nil
    · exact .cons ⟨.assignmentType target.lexeme _ _, rfl⟩ .nil
  · exact .nil

theorem Expr.violations_rename {e : Expr} (h : TypeEnv.Carries f e.variableNames types others) :
    List.Forall₂ (Violation.Renames f) (e.violations types candidates)
      ((e.rename f).violations others otherCandidates) := by
  induction e with
  | intLit token | boolLit token => exact .nil
  | use name => exact Token.undeclared_rename (h name.lexeme List.mem_cons_self)
  | binary left operator right ihleft ihright =>
    rw [rename, violations, violations, type?_rename h.left, type?_rename h.right]
    exact List.rel_append (List.rel_append (ihleft h.left) (ihright h.right))
      (operator.unjoined_renames _ _)

/-- An expression starts where it started. -/
theorem Expr.exists_head_rename (e : Expr) :
    ∃ first other, e.tokens.head? = some first ∧ (e.rename f).tokens.head? = some other ∧
      other.location = first.location := by
  induction e with
  | intLit token | boolLit token => exact ⟨token, token, rfl, rfl, rfl⟩
  | use name => exact ⟨name, name.rename f, rfl, rfl, rfl⟩
  | binary left operator right ihleft _ =>
    obtain ⟨first, other, hfirst, hother, hsame⟩ := ihleft
    exact ⟨first, other, by simp [tokens, hfirst], by simp [rename, tokens, hother], hsame⟩

theorem Expr.conditionViolations_rename {condition : Expr} (statement : String)
    (h : TypeEnv.Carries f condition.variableNames types others) :
    List.Forall₂ (Violation.Renames f) (condition.conditionViolations types candidates statement)
      ((condition.rename f).conditionViolations others otherCandidates statement) := by
  obtain ⟨first, other, hfirst, hother, hsame⟩ := condition.exists_head_rename (f := f)
  rw [conditionViolations, conditionViolations, type?_rename h, hfirst, hother]
  refine List.rel_append (violations_rename h) ?_
  split
  · exact .cons ⟨.conditionType statement _, hsame⟩ .nil
  · exact .nil

theorem Stmt.violationsOfAll_rename {statements : List Stmt}
    (ih : ∀ statement ∈ statements, TypeEnv.Carries f statement.variableNames types others →
      List.Forall₂ (Violation.Renames f) (statement.violations types candidates)
        ((statement.rename f).violations others otherCandidates))
    (h : TypeEnv.Carries f (Stmt.variableNamesOfAll statements) types others) :
    List.Forall₂ (Violation.Renames f) (Stmt.violationsOfAll types candidates statements)
      (Stmt.violationsOfAll others otherCandidates (Stmt.renameAll f statements)) := by
  induction statements with
  | nil => exact .nil
  | cons statement more ihmore =>
    exact List.rel_append (ih statement List.mem_cons_self h.left)
      (ihmore (fun other hother ↦ ih other (List.mem_cons_of_mem _ hother)) h.right)

theorem Stmt.violations_rename {statement : Stmt}
    (h : TypeEnv.Carries f statement.variableNames types others) :
    List.Forall₂ (Violation.Renames f) (statement.violations types candidates)
      ((statement.rename f).violations others otherCandidates) := by
  induction statement with
  | assign target value =>
    have htarget : others (f target.lexeme) = types target.lexeme := h _ List.mem_cons_self
    have hvalue : TypeEnv.Carries f value.variableNames types others :=
      h.mono (List.subset_cons_self _ _)
    have hlexeme : (target.rename f).lexeme = f target.lexeme := rfl
    rw [rename, violations, violations, Expr.type?_rename hvalue, hlexeme, htarget]
    exact List.rel_append (List.rel_append (Token.undeclared_rename htarget)
      (Expr.violations_rename hvalue)) (target.unassigned_rename _ _)
  | ifThen condition body ih | loop condition body ih =>
    exact List.rel_append (condition.conditionViolations_rename _ h.left) (ih h.right)
  | ifElse condition body alternative ihbody ihalternative =>
    exact List.rel_append
      (List.rel_append (condition.conditionViolations_rename _ h.left) (ihbody h.right.left))
      (ihalternative h.right.right)
  | block statements ih => exact violationsOfAll_rename ih h

end Bodies

/-! ### Declarations -/

theorem Decl.map_name_rename (declarations : List Decl) :
    (declarations.map (Decl.rename f)).map (·.name.lexeme) =
      (declarations.map (·.name.lexeme)).map f := by
  rw [List.map_map, List.map_map]
  rfl

section Declarations

variable {names : List String} (hf : Set.InjOn f {name | name ∈ names})
include hf

/-- The new name finds the declaration that the name finds. -/
theorem Decl.find?_rename {declarations : List Decl} {name : String} (hname : name ∈ names)
    (hnames : declarations.map (·.name.lexeme) ⊆ names) :
    (declarations.map (Decl.rename f)).find? (·.name.lexeme == f name) =
      (declarations.find? (·.name.lexeme == name)).map (Decl.rename f) := by
  rw [List.find?_map]
  refine congrArg _ (List.find?_congr fun decl hdecl ↦ ?_)
  have hmem : decl.name.lexeme ∈ names := hnames (List.mem_map_of_mem hdecl)
  rw [Bool.eq_iff_iff, beq_iff_eq, Function.comp_apply, beq_iff_eq]
  exact hf.eq_iff hmem hname

theorem Decl.repeated_rename {earlier : List Decl} {decl : Decl}
    (hdecl : decl.name.lexeme ∈ names) (hearlier : earlier.map (·.name.lexeme) ⊆ names) :
    List.Forall₂ (Violation.Renames f) (decl.repeated earlier)
      ((decl.rename f).repeated (earlier.map (Decl.rename f))) := by
  have hlexeme : (decl.rename f).name.lexeme = f decl.name.lexeme := rfl
  rw [repeated, repeated, hlexeme, find?_rename hf hdecl hearlier]
  cases earlier.find? (·.name.lexeme == decl.name.lexeme) with
  | none => exact .nil
  | some first => exact .cons ⟨.duplicateDeclaration _ _, rfl⟩ .nil

theorem repetitions_rename {earlier declarations : List Decl}
    (hearlier : earlier.map (·.name.lexeme) ⊆ names)
    (hdeclarations : declarations.map (·.name.lexeme) ⊆ names) :
    List.Forall₂ (Violation.Renames f) (repetitions earlier declarations)
      (repetitions (earlier.map (Decl.rename f)) (declarations.map (Decl.rename f))) := by
  induction declarations generalizing earlier with
  | nil => exact .nil
  | cons decl more ih =>
    rw [List.map_cons, List.cons_subset] at hdeclarations
    have hlarger : (earlier ++ [decl]).map (·.name.lexeme) ⊆ names := by
      rw [List.map_append, List.append_subset]
      exact ⟨hearlier, List.cons_subset.mpr ⟨hdeclarations.1, List.nil_subset _⟩⟩
    have hmore := ih hlarger hdeclarations.2
    rw [List.map_append] at hmore
    exact List.rel_append (Decl.repeated_rename hf hdeclarations.1 hearlier) hmore

end Declarations

/-! ### Programs -/

namespace Program

variable {program : Program} (hf : Set.InjOn f {name | name ∈ program.variableNames})
include hf

theorem carries_types_rename : TypeEnv.Carries f program.variableNames program.types
    (program.rename f).types := by
  intro name hname
  have hdeclared : program.declarations.map (·.name.lexeme) ⊆ program.variableNames :=
    List.subset_append_left _ _
  have hfound : (program.rename f).declarations.find? (·.name.lexeme == f name) =
      (program.declarations.find? (·.name.lexeme == name)).map (Decl.rename f) :=
    Decl.find?_rename hf hname hdeclared
  rw [types, types, hfound]
  cases program.declarations.find? (·.name.lexeme == name) <;> rfl

/-- A review of the renamed program has the same violations, under the new names. -/
theorem violations_rename :
    List.Forall₂ (Violation.Renames f) program.violations (program.rename f).violations := by
  have hbody : TypeEnv.Carries f (Stmt.block program.statements).variableNames program.types
      (program.rename f).types :=
    (carries_types_rename hf).right
  exact List.rel_append (repetitions_rename hf (List.nil_subset _) (List.subset_append_left _ _))
    (Stmt.violations_rename hbody)

end Program

end StackCompiler
