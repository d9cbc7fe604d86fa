import StackCompiler.Proofs.Grammar.Acceptance
import StackCompiler.Proofs.Typing.Review
import StackCompiler.Proofs.Typing.Violations

/-!
# A check reports the first violation

The check of a program that was read is stopped by the first violation that a review of the program
lists, and by nothing if there is none: `check_reports_first` is the main statement. `Check.Reports`
says so of any check and any list of violations. Checks one after another report the violations of
the first in front of those of the second (`Check.Reports.bind`), where nothing has to be known of
the second if the first is stopped. So each sort of tree needs the parts of its review in the order
in which the check comes to them, and no more.
-/

set_option autoImplicit false
set_option relaxedAutoImplicit false

namespace StackCompiler

open Grammar

/-! ### Laws of checks -/

/-- On top of a scope, a check is stopped by the first of some violations. If there are none, it is
not stopped, and something is known of its value and of the scope that is left. -/
def Check.Reports {α : Type} (check : Check α) (before : Scope) (found : List Violation)
    (known : α → Scope → Prop) : Prop :=
  match found with
  | [] => ∃ value after, check.Yields before value after ∧ known value after
  | first :: _ => (check.run.run before).run.1 = .error (.violation first)

section Laws

variable {α β : Type} {before : Scope} {found more : List Violation}

theorem Check.Reports.pure {value : α} {known : α → Scope → Prop} (h : known value before) :
    (Pure.pure value : Check α).Reports before [] known :=
  ⟨value, before, rfl, h⟩

theorem Check.Reports.violate {cause : Cause} {token : Token} {known : α → Scope → Prop} :
    (StackCompiler.violate cause token : Check α).Reports before [⟨cause, token⟩] known :=
  rfl

theorem Check.Reports.bind {check : Check α} {next : α → Check β} {known : α → Scope → Prop}
    {later : β → Scope → Prop} (h : check.Reports before found known)
    (hnext : found = [] → ∀ a middle, known a middle → (next a).Reports middle more later) :
    (check >>= next).Reports before (found ++ more) later := by
  cases found with
  | nil =>
    obtain ⟨a, middle, hrun, hknown⟩ := h
    have hnext := hnext rfl a middle hknown
    cases more with
    | nil =>
      obtain ⟨b, after, hafter, hlater⟩ := hnext
      exact ⟨b, after, Check.yields_bind.mpr ⟨a, middle, hrun, hafter⟩, hlater⟩
    | cons first more =>
      change ((check >>= next).run.run before).run.1 = _
      rw [Check.run_bind, show (check.run.run before).run = (.ok a, middle) from hrun]
      exact hnext
  | cons first found =>
    have hrun : (check.run.run before).run.1 = .error (.violation first) := h
    change ((check >>= next).run.run before).run.1 = _
    rw [Check.run_bind]
    rcases hresult : (check.run.run before).run with ⟨result, middle⟩
    rw [hresult] at hrun
    cases hrun
    rfl

/-- A value that is made of the one of a check adds nothing to what is reported. -/
theorem Check.Reports.map {check : Check α} {f : α → β} {known : α → Scope → Prop}
    {later : β → Scope → Prop} (h : check.Reports before found known)
    (hlater : found = [] → ∀ a after, known a after → later (f a) after) :
    (check >>= fun a ↦ Pure.pure (f a)).Reports before found later := by
  rw [← List.append_nil found]
  exact h.bind fun hnil a middle hknown ↦ .pure (hlater hnil a middle hknown)

/-- Looking at the scope adds nothing to what is reported. -/
theorem Check.Reports.get_bind {next : Scope → Check β} {later : β → Scope → Prop}
    (h : (next before).Reports before found later) :
    ((get : Check Scope) >>= next).Reports before found later := by
  have hget : (get : Check Scope).Reports before []
      fun scope after ↦ scope = before ∧ after = before := ⟨before, before, rfl, rfl, rfl⟩
  refine hget.bind fun _ scope middle hsame ↦ ?_
  obtain ⟨rfl, rfl⟩ := hsame
  exact h

end Laws

/-! ### Expressions -/

variable {scope : Scope}

theorem requireVariable_reports (name : Token) :
    (requireVariable name).Reports scope (name.undeclared scope.types scope.names)
      fun declared after ↦ after = scope ∧ scope.types name.lexeme = some declared.type := by
  refine .get_bind ?_
  unfold Token.undeclared Scope.types
  cases scope.find? name.lexeme with
  | none => exact .violate
  | some declared => exact .pure ⟨rfl, rfl⟩

/-- The rule for an operator accepts the types that the operator joins. -/
theorem OperatorRule.exists_ofKind? {kind : TokenKind} (h : kind ∈ TokenKind.operators) :
    ∃ rule, OperatorRule.ofKind? kind = some rule ∧ rule.requirement = kind.requirement ∧
      ∀ first second, kind.joinTypes? first second =
        if rule.accepts (some first) (some second) then some rule.result else none := by
  simp only [TokenKind.operators, List.mem_cons, List.not_mem_nil, or_false] at h
  rcases h with rfl | rfl | rfl | rfl | rfl | rfl | rfl | rfl | rfl <;>
    exact ⟨_, rfl, rfl, fun first second ↦ by cases first <;> cases second <;> rfl⟩

theorem operationType_reports {operator : Token} (h : operator.kind ∈ TokenKind.operators)
    (first second : Ty) :
    (operationType operator (some first) (some second)).Reports scope
      (operator.unjoined (some first) (some second))
      fun result after ↦ after = scope ∧ operator.kind.joinTypes? first second = some result := by
  obtain ⟨rule, hrule, hrequirement, hjoin⟩ := OperatorRule.exists_ofKind? h
  simp only [operationType, hrule, Token.unjoined, hjoin, hrequirement]
  cases rule.accepts (some first) (some second) with
  | true => exact .pure ⟨rfl, rfl⟩
  | false => exact .violate

theorem Expr.WellFormed.findType_reports {e : Expr} (h : e.WellFormed) :
    e.node.findType.Reports scope (e.violations scope.types scope.names)
      fun found after ↦ after = scope ∧
        ∃ type, found = some type ∧ e.type? scope.types = some type := by
  induction h with
  | intLit | boolLit => exact .pure ⟨rfl, _, rfl, rfl⟩
  | use hkind =>
    refine (requireVariable_reports _).map fun _ declared after hknown ↦ ?_
    exact ⟨hknown.1, _, rfl, hknown.2⟩
  | @binary left right operator _ hoperator _ ihleft ihright =>
    rw [violations, List.append_assoc]
    refine ihleft.bind fun _ found middle hleft ↦ ?_
    obtain ⟨rfl, first, rfl, hfirst⟩ := hleft
    refine ihright.bind fun _ found middle hright ↦ ?_
    obtain ⟨rfl, second, rfl, hsecond⟩ := hright
    rw [hfirst, hsecond]
    refine (operationType_reports hoperator first second).map fun _ result after hresult ↦ ?_
    exact ⟨hresult.1, result, rfl, by simp [type?, hfirst, hsecond, hresult.2]⟩

/-! ### Statements -/

/-- Behind the check of a condition, a check reports its violations behind those in the
condition. -/
theorem condition_reports {α : Type} {statement : String} {condition : Expr} {next : Check α}
    {more : List Violation} {later : α → Scope → Prop} (h : condition.WellFormed)
    (hnext : next.Reports scope more later) :
    (condition.node.findType >>= fun type ↦ requireBoolean statement condition.node type >>=
      fun _ ↦ next).Reports scope
        (condition.conditionViolations scope.types scope.names statement ++ more) later := by
  rw [Expr.conditionViolations, List.append_assoc]
  refine h.findType_reports.bind fun _ found middle hfound ↦ ?_
  obtain ⟨rfl, type, rfl, htype⟩ := hfound
  rw [htype]
  obtain ⟨first, hhead, hfirst⟩ := condition.exists_firstToken
  have hrequire : (requireBoolean statement condition.node (some type)).Reports middle
      (if some type = some .integer then
        condition.tokens.head?.toList.map (⟨.conditionType statement Ty.integer.name, ·⟩) else [])
      fun _ after ↦ after = middle := by
    unfold requireBoolean
    cases type with
    | boolean => exact .pure rfl
    | integer =>
      rw [hhead, hfirst]
      exact .violate
  refine hrequire.bind fun _ _ after hsame ↦ ?_
  exact hsame ▸ hnext

/-- The check of a statement reports the violations that a review of the statement lists. -/
def Stmt.ReportsReview (statement : Stmt) : Prop :=
  ∀ scope : Scope, statement.node.findType.Reports scope
    (statement.violations scope.types scope.names) fun _ after ↦ after = scope

theorem findTypes_stmts_reports {statements : List Stmt}
    (ih : ∀ statement ∈ statements, statement.ReportsReview) :
    (Node.findTypes (Stmt.nodes statements)).Reports scope
      (Stmt.violationsOfAll scope.types scope.names statements) fun _ after ↦ after = scope := by
  induction statements with
  | nil => exact .pure rfl
  | cons statement more ihmore =>
    refine (ih statement List.mem_cons_self scope).bind fun _ _ middle hsame ↦ ?_
    subst hsame
    exact ihmore fun other hother ↦ ih other (List.mem_cons_of_mem _ hother)

theorem Stmt.WellFormed.findType_reports {statement : Stmt} (h : statement.WellFormed) :
    statement.ReportsReview := by
  induction statement with
  | assign target value =>
    intro scope
    cases h with
    | assign _ hvalue =>
      rw [violations, List.append_assoc]
      refine (requireVariable_reports target).bind fun _ declared middle hdeclared ↦ ?_
      obtain ⟨rfl, htarget⟩ := hdeclared
      refine hvalue.findType_reports.bind fun _ found middle hfound ↦ ?_
      obtain ⟨rfl, type, rfl, htype⟩ := hfound
      rw [htarget, htype, Token.unassigned]
      by_cases hsame : type = declared.type
      · rw [if_pos hsame, if_pos (by simp [hsame])]
        exact .pure rfl
      · rw [if_neg hsame, if_neg (by simp [hsame])]
        exact .violate
  | ifThen condition body ih =>
    intro scope
    cases h with
    | ifThen hcondition hbody =>
      exact condition_reports hcondition ((ih hbody scope).map fun _ _ _ hsame ↦ hsame)
  | ifElse condition body alternative ihbody ihalternative =>
    intro scope
    cases h with
    | ifElse hcondition hbody _ halternative =>
      rw [violations, List.append_assoc]
      refine condition_reports hcondition ((ihbody hbody scope).bind fun _ _ middle hsame ↦ ?_)
      subst hsame
      exact (ihalternative halternative middle).map fun _ _ _ hsame ↦ hsame
  | loop condition body ih =>
    intro scope
    cases h with
    | loop hcondition hbody =>
      exact condition_reports hcondition ((ih hbody scope).map fun _ _ _ hsame ↦ hsame)
  | block statements ih =>
    intro scope
    cases h with
    | block h =>
      exact (findTypes_stmts_reports fun statement hmem ↦ ih statement hmem (h statement hmem)).map
        fun _ _ _ hsame ↦ hsame

/-! ### Declarations -/

/-- Behind other declarations, the check of a declaration reports that it is repeated, or enters
its variable. -/
theorem Decl.WellFormed.findType_reports {decl : Decl} (h : decl.WellFormed) {earlier : List Decl}
    (hearlier : List.Forall₂ Decl.Declares earlier scope.entries) :
    decl.node.findType.Reports scope (decl.repeated earlier)
      fun _ after ↦ List.Forall₂ Decl.Declares (earlier ++ [decl]) after.entries := by
  obtain ⟨type, htype⟩ : ∃ type, Ty.ofKind? decl.type.kind = some type := by
    rcases h.type with hkind | hkind <;> exact ⟨_, by rw [hkind]; rfl⟩
  have henter : (enter decl.name decl.type).Reports scope (decl.repeated earlier)
      fun _ after ↦ List.Forall₂ Decl.Declares (earlier ++ [decl]) after.entries := by
    unfold enter Decl.repeated
    simp only [Token.type, htype]
    refine .get_bind ?_
    have hfirst := find?_rel_of_declares hearlier decl.name.lexeme
    simp only [Scope.declare, Variable.name]
    generalize earlier.find? (·.name.lexeme == decl.name.lexeme) = first,
      scope.find? decl.name.lexeme = declared at hfirst ⊢
    cases hfirst with
    | none => exact ⟨_, _, rfl, List.rel_append hearlier (.cons ⟨rfl, htype⟩ .nil)⟩
    | some hdeclares =>
      simp only [← hdeclares.1]
      exact .violate
  exact henter.map fun _ _ _ hentered ↦ hentered

theorem findTypes_decls_reports {earlier declarations : List Decl}
    (h : ∀ decl ∈ declarations, decl.WellFormed)
    (hearlier : List.Forall₂ Decl.Declares earlier scope.entries) :
    (Node.findTypes (declarations.map Decl.node)).Reports scope (repetitions earlier declarations)
      fun _ after ↦ List.Forall₂ Decl.Declares (earlier ++ declarations) after.entries := by
  induction declarations generalizing scope earlier with
  | nil => exact .pure (by simpa using hearlier)
  | cons decl more ih =>
    refine ((h decl List.mem_cons_self).findType_reports hearlier).bind
      fun _ _ middle hentered ↦ ?_
    rw [List.append_cons earlier decl more]
    exact ih (fun other hother ↦ h other (List.mem_cons_of_mem _ hother)) hentered

/-! ### Programs -/

theorem eraseDups_eq_self_of_nodup {α : Type} [BEq α] [LawfulBEq α] {l : List α} (h : l.Nodup) :
    l.eraseDups = l := by
  induction l with
  | nil => rfl
  | cons a l ih =>
    rw [List.nodup_cons] at h
    have hothers : l.filter (fun b ↦ !b == a) = l := by
      rw [List.filter_eq_self]
      rintro b hb
      simpa using fun hsame : b = a ↦ h.1 (hsame ▸ hb)
    rw [List.eraseDups_cons, hothers, ih h.2]

theorem Program.WellFormed.check_reports {program : Program} (h : program.WellFormed) :
    program.node.findType.Reports .empty program.violations fun found _ ↦ found = none := by
  have hempty : List.Forall₂ Decl.Declares [] Scope.empty.entries := .nil
  refine (findTypes_decls_reports h.declarations hempty).bind fun hnone _ scope hentered ↦ ?_
  have hdistinct := Program.repetitions_eq_nil_iff.mp hnone
  have hnames : program.names = scope.names := by
    rw [Program.names, eraseDups_eq_self_of_nodup hdistinct]
    exact (names_eq_of_declares hentered).symm
  rw [hnames, ← types_eq_of_declares hentered]
  have hbody : Stmt.WellFormed (.block program.statements) := .block h.statements
  exact (hbody.findType_reports scope).map fun _ _ _ _ ↦ rfl

/-- The check of a program that was read, on top of nothing, is stopped by the first violation that
a review of the program lists, and succeeds if there is none. A name that is not declared comes with
at most three proposals, which are other, declared names; the violation for a condition stands at
the first token behind `if` or `while` that is no opening parenthesis, the others in the body at
the name, the assigned variable or the operator that they are about. The review finds something in
an expression exactly if the expression has no type. A repeated declaration is reported first,
whatever else is wrong: the first that there is, with the place of the first declaration of its
name. -/
theorem check_reports_first {stream rest : TokenStream} {depth : Nat} {lines : List String}
    {program : Program} (hread : stream.readProgramWithin depth lines = (.ok program, rest)) :
    ((program.node.check .empty).1 = match program.violations with
      | [] => .ok none
      | first :: _ => .error (.violation first)) ∧
    (∀ found ∈ program.violations,
      found.Stands program.types program.names stream.toList ∧
      ∀ name similar, found.cause = .undeclared name similar →
        similar.length ≤ 3 ∧ ∀ close ∈ similar, close ∈ program.names ∧ close ≠ name) ∧
    (∀ e : Expr, e.violations program.types program.names = [] ↔
      ∃ type, e.HasType program.types type) ∧
    (¬ (program.declarations.map (·.name.lexeme)).Nodup →
      ∃ before decl after first, program.declarations = before ++ decl :: after ∧
        (before.map (·.name.lexeme)).Nodup ∧
        before.find? (·.name.lexeme == decl.name.lexeme) = some first ∧
        (program.node.check .empty).1 = .error (.violation
          ⟨.duplicateDeclaration decl.name.lexeme (some first.name.location), decl.name⟩)) := by
  obtain ⟨tokens, htokens, hderives, hnearest⟩ := TokenStream.derives_of_readProgramWithin hread
  have hformed := hderives.wellFormed hnearest
  have hcheck : (program.node.check .empty).1 = match program.violations with
      | [] => .ok none
      | first :: _ => .error (.violation first) := by
    have hreports := hformed.check_reports
    cases hviolations : program.violations with
    | nil =>
      rw [hviolations] at hreports
      obtain ⟨found, scope, hyields, rfl⟩ := hreports
      exact congrArg Prod.fst hyields
    | cons first more =>
      rw [hviolations] at hreports
      exact hreports
  refine ⟨hcheck, fun found hfound ↦ ?_, fun e ↦ ?_, fun hrepeated ↦ ?_⟩
  · have hstands := Program.stands_of_mem_violations hderives hfound
    refine ⟨hstands.mono ⟨[], rest.toList, htokens.symm⟩, fun name similar hcause ↦ ?_⟩
    simp only [Violation.Stands, hcause] at hstands
    obtain ⟨-, hnone, rfl⟩ := hstands
    refine ⟨Text.length_closeWords_le _ _, fun close hclose ↦ ?_⟩
    have hname := Text.mem_of_mem_closeWords hclose
    refine ⟨hname, ?_⟩
    rintro rfl
    obtain ⟨type, htype⟩ := hformed.exists_types_of_mem_names hname
    rw [hnone] at htype
    cases htype
  · exact Expr.violations_eq_nil_iff.trans (exists_congr fun type ↦ Expr.type?_eq_some)
  · rw [← Program.repetitions_eq_nil_iff] at hrepeated
    obtain ⟨found, more, hfirst⟩ := List.exists_cons_of_ne_nil hrepeated
    obtain ⟨before, decl, after, first, hsplit, hdistinct, hearlier, rfl⟩ :=
      exists_of_repetitions_eq_cons (by simp) hfirst
    refine ⟨before, decl, after, first, hsplit, hdistinct, hearlier, ?_⟩
    rw [hcheck, Program.violations, hfirst]
    rfl

/-- The tokens of `program p; var total : integer; begin while ((total)) do totl := total and true;
end`. -/
def misspelling : TokenStream :=
  let token (kind : TokenKind) (lexeme : String) : Token := ⟨kind, lexeme, none, ⟨"", 1, 1⟩⟩
  .endingAt ⟨"", 1, 1⟩ [token .programKw "program", token .ident "p", token .semicolon ";",
    token .varKw "var", token .ident "total", token .colon ":", token .integerKw "integer",
    token .semicolon ";", token .beginKw "begin", token .whileKw "while", token .lparen "(",
    token .lparen "(", ⟨.ident, "total", none, ⟨"", 2, 9⟩⟩, token .rparen ")",
    token .rparen ")", token .doKw "do", ⟨.ident, "totl", none, ⟨"", 2, 20⟩⟩,
    token .assign ":=", token .ident "total", ⟨.andKw, "and", none, ⟨"", 2, 34⟩⟩,
    token .trueKw "true", token .semicolon ";", token .endKw "end"]

/-- There are three violations in the program that is read from these tokens, and the check reports
the first. -/
theorem check_misspelling_eq_error :
    ∃ program rest, misspelling.readProgramWithin nestingLimit [] = (.ok program, rest) ∧
      program.violations = [
        ⟨.conditionType "while" "integer", ⟨.ident, "total", none, ⟨"", 2, 9⟩⟩⟩,
        ⟨.undeclared "totl" ["total"], ⟨.ident, "totl", none, ⟨"", 2, 20⟩⟩⟩,
        ⟨.operandTypes "and" "boolean operands" "integer" "boolean",
          ⟨.andKw, "and", none, ⟨"", 2, 34⟩⟩⟩] ∧
      (program.node.check .empty).1 = .error (.violation
        ⟨.conditionType "while" "integer", ⟨.ident, "total", none, ⟨"", 2, 9⟩⟩⟩) := by
  obtain ⟨program, rest, hread, hviolations⟩ : ∃ program rest,
      misspelling.readProgramWithin nestingLimit [] = (.ok program, rest) ∧
        program.violations = [
          ⟨.conditionType "while" "integer", ⟨.ident, "total", none, ⟨"", 2, 9⟩⟩⟩,
          ⟨.undeclared "totl" ["total"], ⟨.ident, "totl", none, ⟨"", 2, 20⟩⟩⟩,
          ⟨.operandTypes "and" "boolean operands" "integer" "boolean",
            ⟨.andKw, "and", none, ⟨"", 2, 34⟩⟩⟩] :=
    ⟨_, _, rfl, by decide +kernel⟩
  refine ⟨program, rest, hread, hviolations, ?_⟩
  rw [(check_reports_first hread).1, hviolations]

end StackCompiler
