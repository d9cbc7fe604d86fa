import Mathlib.Data.List.Forall2
import StackCompiler.Proofs.Typing.Judgement
import StackCompiler.Typing.Check

/-!
# The check decides the type system

A check of a tree of the grammar succeeds exactly if the judgements of the type system hold in the
scope that the declarations have built. `Check.Yields` says how a check ends that is not stopped,
and has one law for each way to put checks together; `Expr.findType_yields`,
`Stmt.findType_yields` and `findTypes_decls_yields` are the results for the three sorts of tree,
and `Program.check_eq_ok` puts them together for programs.
-/

set_option autoImplicit false
set_option relaxedAutoImplicit false

namespace StackCompiler

/-! ### Laws of checks -/

/-- On top of a scope, a check is not stopped, gives a value and leaves a scope. -/
def Check.Yields {α : Type} (check : Check α) (before : Scope) (value : α) (after : Scope) : Prop :=
  (check.run.run before).run = (.ok value, after)

section Laws

variable {α β : Type} {before after : Scope}

@[simp] theorem Check.yields_pure {a b : α} :
    (pure a : Check α).Yields before b after ↔ b = a ∧ after = before := by
  change (Except.ok a, before) = (.ok b, after) ↔ _
  simp [eq_comm]

@[simp] theorem Check.yields_get {scope : Scope} :
    (get : Check Scope).Yields before scope after ↔ scope = before ∧ after = before := by
  change (Except.ok before, before) = (.ok scope, after) ↔ _
  simp [eq_comm]

@[simp] theorem Check.yields_set {larger : Scope} {result : PUnit} :
    (set larger : Check PUnit).Yields before result after ↔ after = larger := by
  change (Except.ok PUnit.unit, larger) = (.ok result, after) ↔ _
  simp [eq_comm]

@[simp] theorem Check.yields_violate {cause : Cause} {token : Token} {a : α} :
    ¬ (violate cause token : Check α).Yields before a after := by
  change ¬ (Except.error _, before) = (.ok a, after)
  simp

@[simp] theorem Check.yields_breakDown {breakdown : Breakdown} {a : α} :
    ¬ (breakDown breakdown : Check α).Yields before a after := by
  change ¬ (Except.error _, before) = (.ok a, after)
  simp

/-- A check that is stopped stops what would come behind it, and leaves its scope. -/
theorem Check.run_bind (check : Check α) (next : α → Check β) (before : Scope) :
    ((check >>= next).run.run before).run = match (check.run.run before).run with
      | (.ok a, middle) => ((next a).run.run middle).run
      | (.error fault, middle) => (.error fault, middle) := by
  change (StateT.run (ExceptT.bindCont next (check.run.run before).run.1)
    (check.run.run before).run.2).run = _
  rcases (check.run.run before).run with ⟨_ | _, middle⟩ <;> rfl

@[simp] theorem Check.yields_bind {check : Check α} {next : α → Check β} {b : β} :
    (check >>= next).Yields before b after ↔
      ∃ a middle, check.Yields before a middle ∧ (next a).Yields middle b after := by
  unfold Yields
  rw [Check.run_bind]
  rcases (check.run.run before).run with ⟨_ | a, middle⟩
  · simp
  · simp only [Prod.mk.injEq, Except.ok.injEq]
    constructor
    · intro h
      exact ⟨a, middle, ⟨rfl, rfl⟩, h⟩
    · rintro ⟨_, _, ⟨rfl, rfl⟩, h⟩
      exact h

end Laws

/-! ### Expressions -/

variable {before after : Scope}

/-- The types of the variables in a scope. -/
def Scope.types (scope : Scope) : TypeEnv := fun name ↦
  (scope.find? name).map Variable.type

theorem requireVariable_yields {name : Token} {declared : Variable} :
    (requireVariable name).Yields before declared after ↔
      before.find? name.lexeme = some declared ∧ after = before := by
  unfold requireVariable
  simp only [Check.yields_bind, Check.yields_get]
  constructor
  · rintro ⟨scope, middle, ⟨rfl, rfl⟩, h⟩
    split at h
    · rename_i found hfound
      obtain ⟨rfl, rfl⟩ := Check.yields_pure.mp h
      exact ⟨hfound, rfl⟩
    · exact absurd h Check.yields_violate
  · rintro ⟨hfound, rfl⟩
    refine ⟨_, _, ⟨rfl, rfl⟩, ?_⟩
    rw [hfound]
    exact Check.yields_pure.mpr ⟨rfl, rfl⟩

/-- The rule for the operators of a kind accepts what an operator of the kind joins. -/
theorem OperatorRule.exists_of_joins {kind : TokenKind} {first second result : Ty}
    (h : kind.Joins first second result) :
    ∃ rule, OperatorRule.ofKind? kind = some rule ∧
      rule.accepts (some first) (some second) = true ∧ rule.result = result := by
  cases h with
  | arithmetic h | logical h | comparison type h =>
    rcases h with rfl | rfl | rfl | rfl <;> exact ⟨_, rfl, by simp, rfl⟩

/-- An operator joins what the rule for its kind accepts. -/
theorem OperatorRule.joins_of_accepts {kind : TokenKind} {rule : OperatorRule} {first second : Ty}
    (hrule : OperatorRule.ofKind? kind = some rule)
    (haccepts : rule.accepts (some first) (some second) = true) :
    kind.Joins first second rule.result := by
  unfold OperatorRule.ofKind? at hrule
  split at hrule
  · rename_i hkind
    cases hrule
    simp only [Bool.and_eq_true, beq_iff_eq, Option.some.injEq] at haccepts
    obtain ⟨rfl, rfl⟩ := haccepts
    exact .arithmetic (by simpa [TokenKind.isArithmetic, or_assoc] using hkind)
  · split at hrule
    · rename_i hkind
      cases hrule
      simp only [Bool.and_eq_true, beq_iff_eq, Option.some.injEq] at haccepts
      obtain ⟨rfl, rfl⟩ := haccepts
      exact .logical (by simpa [TokenKind.isLogical] using hkind)
    · split at hrule
      · rename_i hkind
        cases hrule
        simp only [beq_iff_eq, Option.some.injEq] at haccepts
        cases haccepts
        exact .comparison first (by simpa [TokenKind.isComparison, or_assoc] using hkind)
      · cases hrule

theorem operationType_yields {operator : Token} {first second type : Ty} :
    (operationType operator (some first) (some second)).Yields before type after ↔
      operator.kind.Joins first second type ∧ after = before := by
  unfold operationType
  constructor
  · intro h
    split at h
    · rename_i rule hrule
      split at h
      · rename_i haccepts
        obtain ⟨rfl, rfl⟩ := Check.yields_pure.mp h
        exact ⟨OperatorRule.joins_of_accepts hrule haccepts, rfl⟩
      · exact absurd h Check.yields_violate
    · exact absurd h Check.yields_breakDown
  · rintro ⟨hjoins, rfl⟩
    obtain ⟨rule, hrule, haccepts, rfl⟩ := OperatorRule.exists_of_joins hjoins
    simp [hrule, haccepts]

/-- The check of an expression gives its type, and leaves the scope as it was. -/
theorem Expr.findType_yields {e : Expr} {found : Option Ty} :
    e.node.findType.Yields before found after ↔
      ∃ type, found = some type ∧ after = before ∧ e.HasType before.types type := by
  induction e generalizing before after found with
  | intLit token =>
    simp only [node, Node.findType, Check.yields_pure]
    constructor
    · rintro ⟨rfl, rfl⟩
      exact ⟨_, rfl, rfl, .intLit token⟩
    · rintro ⟨type, rfl, rfl, htype⟩
      cases htype
      exact ⟨rfl, rfl⟩
  | boolLit token =>
    simp only [node, Node.findType, Check.yields_pure]
    constructor
    · rintro ⟨rfl, rfl⟩
      exact ⟨_, rfl, rfl, .boolLit token⟩
    · rintro ⟨type, rfl, rfl, htype⟩
      cases htype
      exact ⟨rfl, rfl⟩
  | use name =>
    simp only [node, Node.findType, Check.yields_bind, Check.yields_pure, requireVariable_yields]
    constructor
    · rintro ⟨declared, middle, ⟨hdeclared, rfl⟩, rfl, rfl⟩
      exact ⟨_, rfl, rfl, .use (by simp [Scope.types, hdeclared])⟩
    · rintro ⟨type, rfl, rfl, htype⟩
      cases htype with
      | use hname =>
        obtain ⟨declared, hdeclared, rfl⟩ := Option.map_eq_some_iff.mp hname
        exact ⟨declared, _, ⟨hdeclared, rfl⟩, rfl, rfl⟩
  | binary left operator right ihleft ihright =>
    simp only [node, Node.findType, Check.yields_bind, Check.yields_pure, ihleft, ihright]
    constructor
    · rintro ⟨_, _, ⟨first, rfl, rfl, hleft⟩, _, _, ⟨second, rfl, rfl, hright⟩, type, _, htype,
        rfl, rfl⟩
      obtain ⟨hjoins, rfl⟩ := operationType_yields.mp htype
      exact ⟨type, rfl, rfl, .binary hleft hright hjoins⟩
    · rintro ⟨type, rfl, rfl, htype⟩
      cases htype with
      | binary hleft hright hjoins =>
        exact ⟨_, _, ⟨_, rfl, rfl, hleft⟩, _, _, ⟨_, rfl, rfl, hright⟩, type, _,
          operationType_yields.mpr ⟨hjoins, rfl⟩, rfl, rfl⟩

/-! ### Statements -/

theorem requireBoolean_yields {statement : String} {condition : Node} {type : Option Ty}
    {result : Unit} :
    (requireBoolean statement condition type).Yields before result after ↔
      type = some .boolean ∧ after = before := by
  unfold requireBoolean
  by_cases htype : type = some .boolean
  · simp [htype]
  · simp [htype]

/-- The check of a condition asks for a Boolean, and leaves the scope as it was. -/
theorem condition_yields {α : Type} {statement : String} {condition : Expr} {next : Check α}
    {a : α} :
    (condition.node.findType >>= fun type ↦ requireBoolean statement condition.node type >>=
      fun _ ↦ next).Yields before a after ↔
        condition.HasType before.types .boolean ∧ next.Yields before a after := by
  simp only [Check.yields_bind, Expr.findType_yields, requireBoolean_yields]
  constructor
  · rintro ⟨_, _, ⟨type, rfl, rfl, htype⟩, _, _, ⟨hboolean, rfl⟩, hnext⟩
    cases hboolean
    exact ⟨htype, hnext⟩
  · rintro ⟨htype, hnext⟩
    exact ⟨_, _, ⟨_, rfl, rfl, htype⟩, (), _, ⟨rfl, rfl⟩, hnext⟩

/-- The check of a statement gives no type, and leaves the scope as it was. -/
def Stmt.ChecksByType (statement : Stmt) : Prop :=
  ∀ before after found, statement.node.findType.Yields before found after ↔
    found = none ∧ after = before ∧ statement.WellTyped before.types

theorem findTypes_stmts_yields {statements : List Stmt}
    (ih : ∀ statement ∈ statements, statement.ChecksByType) {result : Unit} :
    (Node.findTypes (Stmt.nodes statements)).Yields before result after ↔
      after = before ∧ ∀ statement ∈ statements, statement.WellTyped before.types := by
  induction statements with
  | nil => simp [Stmt.nodes, Node.findTypes]
  | cons statement more ihmore =>
    have hfirst := ih statement List.mem_cons_self
    have hmore := ihmore fun other hother ↦ ih other (List.mem_cons_of_mem _ hother)
    simp only [Stmt.nodes, Node.findTypes, Check.yields_bind, List.forall_mem_cons]
    constructor
    · rintro ⟨_, _, hstatement, hlater⟩
      obtain ⟨rfl, rfl, htyped⟩ := (hfirst _ _ _).mp hstatement
      obtain ⟨rfl, htypedMore⟩ := hmore.mp hlater
      exact ⟨rfl, htyped, htypedMore⟩
    · rintro ⟨rfl, htyped, htypedMore⟩
      have hstatement := (hfirst after after none).mpr ⟨rfl, rfl, htyped⟩
      exact ⟨none, after, hstatement, hmore.mpr ⟨rfl, htypedMore⟩⟩

theorem Stmt.findType_yields (statement : Stmt) : statement.ChecksByType := by
  induction statement with
  | assign target value =>
    intro before after found
    simp only [node, Node.findType, Check.yields_bind, requireVariable_yields,
      Expr.findType_yields]
    constructor
    · rintro ⟨declared, _, ⟨hdeclared, rfl⟩, _, _, ⟨type, rfl, rfl, hvalue⟩, h⟩
      split at h
      · rename_i hsame
        obtain ⟨rfl, rfl⟩ := Check.yields_pure.mp h
        rw [beq_iff_eq, Option.some.injEq] at hsame
        subst hsame
        exact ⟨rfl, rfl, .assign (by simp [Scope.types, hdeclared]) hvalue⟩
      · exact absurd h Check.yields_violate
    · rintro ⟨rfl, rfl, htyped⟩
      cases htyped with
      | assign htarget hvalue =>
        obtain ⟨declared, hdeclared, rfl⟩ := Option.map_eq_some_iff.mp htarget
        exact ⟨declared, _, ⟨hdeclared, rfl⟩, _, _, ⟨_, rfl, rfl, hvalue⟩, by simp⟩
  | ifThen condition body ih =>
    intro before after found
    simp only [node, Node.findType]
    rw [condition_yields]
    simp only [Check.yields_bind, Check.yields_pure]
    constructor
    · rintro ⟨hcondition, _, _, hbody, rfl, rfl⟩
      obtain ⟨rfl, rfl, htyped⟩ := (ih _ _ _).mp hbody
      exact ⟨rfl, rfl, .ifThen hcondition htyped⟩
    · rintro ⟨rfl, rfl, htyped⟩
      cases htyped with
      | ifThen hcondition hbody =>
        have hchecked := (ih after after none).mpr ⟨rfl, rfl, hbody⟩
        exact ⟨hcondition, none, _, hchecked, rfl, rfl⟩
  | ifElse condition body alternative ihbody ihalternative =>
    intro before after found
    simp only [node, Node.findType]
    rw [condition_yields]
    simp only [Check.yields_bind, Check.yields_pure]
    constructor
    · rintro ⟨hcondition, _, _, hbody, _, _, halternative, rfl, rfl⟩
      obtain ⟨rfl, rfl, htyped⟩ := (ihbody _ _ _).mp hbody
      obtain ⟨rfl, rfl, htypedAlternative⟩ := (ihalternative _ _ _).mp halternative
      exact ⟨rfl, rfl, .ifElse hcondition htyped htypedAlternative⟩
    · rintro ⟨rfl, rfl, htyped⟩
      cases htyped with
      | ifElse hcondition hbody halternative =>
        have hchecked := (ihbody after after none).mpr ⟨rfl, rfl, hbody⟩
        have hcheckedAlternative := (ihalternative after after none).mpr ⟨rfl, rfl, halternative⟩
        exact ⟨hcondition, none, _, hchecked, none, _, hcheckedAlternative, rfl, rfl⟩
  | loop condition body ih =>
    intro before after found
    simp only [node, Node.findType]
    rw [condition_yields]
    simp only [Check.yields_bind, Check.yields_pure]
    constructor
    · rintro ⟨hcondition, _, _, hbody, rfl, rfl⟩
      obtain ⟨rfl, rfl, htyped⟩ := (ih _ _ _).mp hbody
      exact ⟨rfl, rfl, .loop hcondition htyped⟩
    · rintro ⟨rfl, rfl, htyped⟩
      cases htyped with
      | loop hcondition hbody =>
        have hchecked := (ih after after none).mpr ⟨rfl, rfl, hbody⟩
        exact ⟨hcondition, none, _, hchecked, rfl, rfl⟩
  | block statements ih =>
    intro before after found
    simp only [node, Node.findType, Check.yields_bind, Check.yields_pure,
      findTypes_stmts_yields ih]
    constructor
    · rintro ⟨_, _, ⟨rfl, htyped⟩, rfl, rfl⟩
      exact ⟨rfl, rfl, .block htyped⟩
    · rintro ⟨rfl, rfl, htyped⟩
      cases htyped with
      | block h => exact ⟨(), _, ⟨rfl, h⟩, rfl, rfl⟩

/-! ### Declarations -/

theorem Scope.find?_eq_none {scope : Scope} {name : String} :
    scope.find? name = none ↔ name ∉ scope.names := by
  simp [find?, names]

theorem Scope.nodup_names_concat {scope : Scope} {declared : Variable} :
    (Scope.mk (scope.entries ++ [declared])).names.Nodup ↔
      scope.names.Nodup ∧ declared.name ∉ scope.names := by
  simp only [names, List.map_append, List.map_cons, List.map_nil, List.nodup_append]
  constructor
  · rintro ⟨hdistinct, -, hdifferent⟩
    exact ⟨hdistinct, fun hmem ↦ hdifferent _ hmem _ List.mem_cons_self rfl⟩
  · rintro ⟨hdistinct, hnew⟩
    refine ⟨hdistinct, by simp, fun name hname other hother hsame ↦ ?_⟩
    cases List.mem_singleton.mp hother
    exact hnew (hsame ▸ hname)

/-- A declaration of a new name enters its variable. -/
theorem Decl.findType_yields {decl : Decl} {found : Option Ty} :
    decl.node.findType.Yields before found after ↔
      found = none ∧ ∃ declared, decl.Declares declared ∧ declared.name ∉ before.names ∧
        after = ⟨before.entries ++ [declared]⟩ := by
  unfold node
  simp only [Node.findType, enter, Token.type, Check.yields_bind, Check.yields_pure]
  cases htype : Ty.ofKind? decl.type.kind with
  | none => simp [Declares, htype]
  | some type =>
    simp only [Check.yields_bind, Check.yields_get, Scope.declare]
    constructor
    · rintro ⟨_, _, ⟨_, _, ⟨rfl, rfl⟩, h⟩, rfl, rfl⟩
      split at h
      · rename_i larger hlarger
        rw [Check.yields_set] at h
        split at hlarger
        · cases hlarger
        · rename_i hnew
          cases hlarger
          exact ⟨rfl, _, ⟨rfl, htype⟩, Scope.find?_eq_none.mp hnew, h⟩
      · exact absurd h Check.yields_violate
    · rintro ⟨rfl, ⟨token, other⟩, ⟨rfl, hsame⟩, hnew, rfl⟩
      cases htype.symm.trans hsame
      refine ⟨(), _, ⟨_, _, ⟨rfl, rfl⟩, ?_⟩, rfl, rfl⟩
      simp [Scope.find?_eq_none.mpr hnew]

theorem findTypes_decls_yields {declarations : List Decl} {result : Unit}
    (hdistinct : before.names.Nodup) :
    (Node.findTypes (declarations.map Decl.node)).Yields before result after ↔
      ∃ further, List.Forall₂ Decl.Declares declarations further ∧
        after = ⟨before.entries ++ further⟩ ∧ after.names.Nodup := by
  induction declarations generalizing before with
  | nil =>
    simp only [List.map_nil, Node.findTypes, Check.yields_pure, true_and,
      List.forall₂_nil_left_iff, exists_eq_left, List.append_nil]
    exact ⟨fun h ↦ ⟨h, h ▸ hdistinct⟩, fun h ↦ h.1⟩
  | cons decl more ih =>
    simp only [List.map_cons, Node.findTypes, Check.yields_bind, Decl.findType_yields]
    constructor
    · rintro ⟨_, _, ⟨rfl, declared, hdeclares, hnew, rfl⟩, hmore⟩
      have hlarger := Scope.nodup_names_concat.mpr ⟨hdistinct, hnew⟩
      obtain ⟨further, hfurther, rfl, hnames⟩ := (ih hlarger).mp hmore
      exact ⟨declared :: further, .cons hdeclares hfurther, by simp, hnames⟩
    · rintro ⟨_, hfurther, rfl, hnames⟩
      cases hfurther with
      | @cons _ declared _ further hdeclares hfurther =>
        have hassoc : before.entries ++ declared :: further =
            before.entries ++ [declared] ++ further := by simp
        have hlarger : (Scope.mk (before.entries ++ [declared])).names.Nodup := by
          rw [hassoc, Scope.names, List.map_append, List.nodup_append] at hnames
          exact hnames.1
        have hnew := (Scope.nodup_names_concat.mp hlarger).2
        have hmore := (ih hlarger).mpr ⟨further, hfurther, by rw [hassoc], hnames⟩
        exact ⟨_, _, ⟨rfl, declared, hdeclares, hnew, rfl⟩, hmore⟩

/-! ### Programs -/

/-- Variables that declarations declare have their names and their types. -/
theorem names_eq_of_declares {declarations : List Decl} {scope : Scope}
    (h : List.Forall₂ Decl.Declares declarations scope.entries) :
    scope.names = declarations.map (·.name.lexeme) := by
  unfold Scope.names
  generalize scope.entries = entries at h ⊢
  induction h with
  | nil => rfl
  | cons hdeclares _ ih => rw [List.map_cons, List.map_cons, ih, Variable.name, hdeclares.1]

theorem find?_rel_of_declares {declarations : List Decl} {scope : Scope}
    (h : List.Forall₂ Decl.Declares declarations scope.entries) (name : String) :
    Option.Rel Decl.Declares (declarations.find? (·.name.lexeme == name)) (scope.find? name) := by
  unfold Scope.find?
  generalize scope.entries = entries at h ⊢
  induction h with
  | nil => exact .none
  | @cons decl declared _ _ hdeclares _ ih =>
    rw [List.find?_cons, List.find?_cons, Variable.name, hdeclares.1]
    cases decl.name.lexeme == name with
    | false => exact ih
    | true => exact .some hdeclares

theorem types_eq_of_declares {program : Program} {scope : Scope}
    (h : List.Forall₂ Decl.Declares program.declarations scope.entries) :
    scope.types = program.types := by
  funext name
  have hfound := find?_rel_of_declares h name
  unfold Scope.types Program.types
  generalize program.declarations.find? (·.name.lexeme == name) = decl, scope.find? name = declared
    at hfound ⊢
  cases hfound with
  | none => rfl
  | some hdeclares => simp [hdeclares.2]

/-- A program passes the check on top of nothing exactly if it keeps the rules and its
declarations declare the variables of the scope that is left. -/
theorem Program.check_eq_ok {program : Program} {found : Option Ty} {scope : Scope} :
    program.node.check .empty = (.ok found, scope) ↔
      found = none ∧ List.Forall₂ Decl.Declares program.declarations scope.entries ∧
        program.WellTyped := by
  change program.node.findType.Yields .empty found scope ↔ _
  have hdistinct : Scope.empty.names.Nodup := List.nodup_nil
  simp only [node, Node.findType, Check.yields_bind, Check.yields_pure,
    findTypes_decls_yields hdistinct,
    findTypes_stmts_yields fun statement _ ↦ statement.findType_yields]
  constructor
  · rintro ⟨_, entered, ⟨further, hfurther, hentered, hnames⟩, _, _, ⟨_, _, ⟨rfl, htyped⟩, rfl,
      rfl⟩, rfl, rfl⟩
    have hdeclares : List.Forall₂ Decl.Declares program.declarations scope.entries := by
      rw [hentered]
      exact hfurther
    rw [types_eq_of_declares hdeclares] at htyped
    exact ⟨rfl, hdeclares, names_eq_of_declares hdeclares ▸ hnames, htyped⟩
  · rintro ⟨rfl, hdeclares, htyped⟩
    refine ⟨(), scope, ⟨scope.entries, hdeclares, rfl, ?_⟩, none, scope,
      ⟨(), scope, ⟨rfl, ?_⟩, rfl, rfl⟩, rfl, rfl⟩
    · rw [names_eq_of_declares hdeclares]
      exact htyped.distinct
    · rw [types_eq_of_declares hdeclares]
      exact htyped.body

end StackCompiler
