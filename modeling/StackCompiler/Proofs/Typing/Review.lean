import StackCompiler.Proofs.Grammar.Writing
import StackCompiler.Proofs.Typing.Check

/-!
# Reviews

A review lists all violations of the rules for declarations and types in a program
(`Program.violations`), where a check stops at the first one. Repeated declarations come first, then
the body is looked at from left to right, the target of an assignment before its value and an
operation after its operands. An expression has a type if there is no violation in it
(`Expr.violations_eq_nil_iff`), and what has no type is not compared with anything, so no violation
is due to another one. Declarations are repeated exactly if their names are not distinct
(`repetitions_eq_nil_iff`).

A violation stands at a token. The one for a condition stands at the first token behind `if` or
`while` that is no parenthesis, and the one for a name that is not declared at that name
(`Program.stands_of_mem_violations`).
-/

set_option autoImplicit false
set_option relaxedAutoImplicit false

namespace StackCompiler

open Grammar

/-! ### Types -/

/-- The type that an operator makes of two types, if it joins them. -/
def TokenKind.joinTypes? : TokenKind → Ty → Ty → Option Ty
  | plus, .integer, .integer | minus, .integer, .integer => some .integer
  | times, .integer, .integer | divide, .integer, .integer => some .integer
  | andKw, .boolean, .boolean | orKw, .boolean, .boolean => some .boolean
  | less, first, second | greater, first, second | equal, first, second =>
    if first = second then some .boolean else none
  | _, _, _ => none

/-- What an operator asks of its operands, in words. -/
def TokenKind.requirement : TokenKind → String
  | plus | minus | times | divide => "integer operands"
  | andKw | orKw => "boolean operands"
  | _ => "operands of the same type"

/-- The type of an expression, if it has one. -/
def Expr.type? (types : TypeEnv) : Expr → Option Ty
  | binary left operator right => do
    operator.kind.joinTypes? (← left.type? types) (← right.type? types)
  | intLit _ => some .integer
  | boolLit _ => some .boolean
  | use name => types name.lexeme

theorem TokenKind.joinTypes?_eq_some {kind : TokenKind} {first second result : Ty} :
    kind.joinTypes? first second = some result ↔ kind.Joins first second result := by
  constructor
  · intro h
    cases kind <;> cases first <;> cases second <;> cases h
    all_goals
      first
        | exact .arithmetic (by decide)
        | exact .logical (by decide)
        | exact .comparison _ (by decide)
  · intro h
    cases h with
    | arithmetic h | logical h => rcases h with rfl | rfl | rfl | rfl <;> rfl
    | comparison type h => rcases h with rfl | rfl | rfl <;> simp [joinTypes?]

/-- The type of an expression is the one that the type system gives it. -/
theorem Expr.type?_eq_some {types : TypeEnv} {e : Expr} {type : Ty} :
    e.type? types = some type ↔ e.HasType types type := by
  induction e generalizing type with
  | intLit token | boolLit token =>
    refine ⟨fun h ↦ ?_, fun h ↦ ?_⟩
    · cases h
      constructor
    · cases h
      rfl
  | use name =>
    refine ⟨.use, fun h ↦ ?_⟩
    cases h with
    | use hname => exact hname
  | binary left operator right ihleft ihright =>
    simp only [type?, Option.bind_eq_bind, Option.bind_eq_some_iff, ihleft, ihright,
      TokenKind.joinTypes?_eq_some]
    constructor
    · rintro ⟨first, hleft, second, hright, hjoins⟩
      exact .binary hleft hright hjoins
    · intro h
      cases h with
      | binary hleft hright hjoins => exact ⟨_, hleft, _, hright, hjoins⟩

/-! ### Violations -/

section Violations

variable (types : TypeEnv) (names : List String)

/-- The violation at a name that is not declared. -/
def Token.undeclared (name : Token) : List Violation :=
  match types name.lexeme with
  | some _ => []
  | none => [⟨.undeclared name.lexeme (Text.closeWords name.lexeme names), name⟩]

/-- The violation at an operator whose operands have types that it does not join. -/
def Token.unjoined (operator : Token) : Option Ty → Option Ty → List Violation
  | some first, some second =>
    match operator.kind.joinTypes? first second with
    | some _ => []
    | none =>
      [⟨.operandTypes operator.lexeme operator.kind.requirement first.name second.name, operator⟩]
  | _, _ => []

/-- The violation at the target of an assignment that has another type than the value. -/
def Token.unassigned (target : Token) : Option Ty → Option Ty → List Violation
  | some expected, some actual =>
    if actual = expected then []
    else [⟨.assignmentType target.lexeme expected.name actual.name, target⟩]
  | _, _ => []

def Expr.violations : Expr → List Violation
  | binary left operator right =>
    left.violations ++ right.violations ++
      operator.unjoined (left.type? types) (right.type? types)
  | intLit _ | boolLit _ => []
  | use name => name.undeclared types names

/-- The violations in the condition of a statement with the given keyword; an integer is none. -/
def Expr.conditionViolations (statement : String) (condition : Expr) : List Violation :=
  condition.violations types names ++
    if condition.type? types = some .integer then
      condition.tokens.head?.toList.map (⟨.conditionType statement Ty.integer.name, ·⟩)
    else []

mutual

def Stmt.violations : Stmt → List Violation
  | .assign target value =>
    target.undeclared types names ++ value.violations types names ++
      target.unassigned (types target.lexeme) (value.type? types)
  | .ifThen condition body =>
    condition.conditionViolations types names "if" ++ body.violations
  | .ifElse condition body alternative =>
    condition.conditionViolations types names "if" ++ body.violations ++ alternative.violations
  | .loop condition body =>
    condition.conditionViolations types names "while" ++ body.violations
  | .block statements => Stmt.violationsOfAll statements

def Stmt.violationsOfAll : List Stmt → List Violation
  | [] => []
  | statement :: more => statement.violations ++ Stmt.violationsOfAll more

end

end Violations

/-- The violation at a declaration whose name is declared before, with the place where it was
declared first. -/
def Decl.repeated (earlier : List Decl) (decl : Decl) : List Violation :=
  match earlier.find? (·.name.lexeme == decl.name.lexeme) with
  | some first => [⟨.duplicateDeclaration decl.name.lexeme (some first.name.location), decl.name⟩]
  | none => []

/-- The violations at declarations that come behind others. -/
def repetitions : List Decl → List Decl → List Violation
  | _, [] => []
  | earlier, decl :: more => decl.repeated earlier ++ repetitions (earlier ++ [decl]) more

namespace Program

/-- The declared names. -/
def names (program : Program) : List String :=
  (program.declarations.map (·.name.lexeme)).eraseDups

/-- All violations of a program. -/
def violations (program : Program) : List Violation :=
  repetitions [] program.declarations ++
    (Stmt.block program.statements).violations program.types program.names

end Program

/-! ### Nothing to report -/

section Nothing

variable {types : TypeEnv} {names : List String}

theorem Token.undeclared_eq_nil {name : Token} :
    name.undeclared types names = [] ↔ ∃ type, types name.lexeme = some type := by
  unfold undeclared
  cases types name.lexeme <;> simp

theorem Token.unjoined_eq_nil {operator : Token} {first second : Ty} :
    operator.unjoined (some first) (some second) = [] ↔
      ∃ type, operator.kind.joinTypes? first second = some type := by
  simp only [unjoined]
  split
  · rename_i type htype
    exact iff_of_true rfl ⟨type, htype⟩
  · rename_i hnone
    simp [hnone]

/-- An expression has a type exactly if there is no violation in it. -/
theorem Expr.violations_eq_nil_iff {e : Expr} :
    e.violations types names = [] ↔ ∃ type, e.type? types = some type := by
  induction e with
  | intLit token | boolLit token => simp [violations, type?]
  | use name => exact Token.undeclared_eq_nil
  | binary left operator right ihleft ihright =>
    simp only [violations, List.append_eq_nil_iff, ihleft, ihright, type?, Option.bind_eq_bind,
      Option.bind_eq_some_iff]
    constructor
    · rintro ⟨⟨⟨first, hfirst⟩, second, hsecond⟩, hjoined⟩
      rw [hfirst, hsecond] at hjoined
      obtain ⟨type, htype⟩ := Token.unjoined_eq_nil.mp hjoined
      exact ⟨type, first, hfirst, second, hsecond, htype⟩
    · rintro ⟨type, first, hfirst, second, hsecond, htype⟩
      refine ⟨⟨⟨first, hfirst⟩, second, hsecond⟩, ?_⟩
      rw [hfirst, hsecond]
      exact Token.unjoined_eq_nil.mpr ⟨type, htype⟩

end Nothing

theorem Decl.repeated_eq_nil_iff {earlier : List Decl} {decl : Decl} :
    decl.repeated earlier = [] ↔ decl.name.lexeme ∉ earlier.map (·.name.lexeme) := by
  unfold repeated
  cases hfound : earlier.find? (·.name.lexeme == decl.name.lexeme) with
  | none => simpa using hfound
  | some first =>
    have hname : first.name.lexeme = decl.name.lexeme := by simpa using List.find?_some hfound
    have hmem : decl.name.lexeme ∈ earlier.map (·.name.lexeme) :=
      List.mem_map.mpr ⟨first, List.mem_of_find?_eq_some hfound, hname⟩
    exact iff_of_false (by simp) (not_not_intro hmem)

/-- A declaration behind others with distinct names is not repeated exactly if its name is another
one. -/
theorem Decl.nodup_names_concat {earlier : List Decl} {decl : Decl}
    (hdistinct : (earlier.map (·.name.lexeme)).Nodup) :
    ((earlier ++ [decl]).map (·.name.lexeme)).Nodup ↔ decl.repeated earlier = [] := by
  rw [repeated_eq_nil_iff, List.map_append, List.map_singleton,
    (List.perm_append_singleton _ _).nodup_iff, List.nodup_cons]
  exact and_iff_left hdistinct

/-- There is no violation at declarations behind others with distinct names exactly if the names
of all of them are distinct. -/
theorem repetitions_eq_nil_iff {earlier declarations : List Decl}
    (hdistinct : (earlier.map (·.name.lexeme)).Nodup) :
    repetitions earlier declarations = [] ↔
      ((earlier ++ declarations).map (·.name.lexeme)).Nodup := by
  induction declarations generalizing earlier with
  | nil => simpa [repetitions] using hdistinct
  | cons decl more ih =>
    rw [repetitions, List.append_eq_nil_iff, ← Decl.nodup_names_concat hdistinct,
      List.append_cons earlier decl more]
    constructor
    · rintro ⟨hlarger, hmore⟩
      exact (ih hlarger).mp hmore
    · intro hall
      have hlarger := hall.sublist ((List.sublist_append_left _ more).map _)
      exact ⟨hlarger, (ih hlarger).mpr hall⟩

/-- The first violation at declarations is due to the first one that is repeated. -/
theorem exists_of_repetitions_eq_cons {earlier declarations : List Decl}
    (hdistinct : (earlier.map (·.name.lexeme)).Nodup) {found : Violation} {more : List Violation}
    (h : repetitions earlier declarations = found :: more) :
    ∃ before decl after first, declarations = before ++ decl :: after ∧
      ((earlier ++ before).map (·.name.lexeme)).Nodup ∧
      (earlier ++ before).find? (·.name.lexeme == decl.name.lexeme) = some first ∧
      found = ⟨.duplicateDeclaration decl.name.lexeme (some first.name.location), decl.name⟩ := by
  induction declarations generalizing earlier with
  | nil => cases h
  | cons decl later ih =>
    rw [repetitions] at h
    cases hfound : earlier.find? (·.name.lexeme == decl.name.lexeme) with
    | some first =>
      rw [Decl.repeated, hfound] at h
      cases h
      exact ⟨[], decl, later, first, rfl, by simpa using hdistinct, by simpa using hfound, rfl⟩
    | none =>
      have hnew : decl.repeated earlier = [] := by rw [Decl.repeated, hfound]
      rw [hnew, List.nil_append] at h
      obtain ⟨before, other, after, first, rfl, hbefore, hfirst, rfl⟩ :=
        ih ((Decl.nodup_names_concat hdistinct).mpr hnew) h
      rw [← List.append_cons] at hbefore hfirst
      exact ⟨decl :: before, other, after, first, rfl, hbefore, hfirst, rfl⟩

theorem Program.repetitions_eq_nil_iff {program : Program} :
    repetitions [] program.declarations = [] ↔
      (program.declarations.map (·.name.lexeme)).Nodup :=
  StackCompiler.repetitions_eq_nil_iff List.nodup_nil

/-! ### Where violations stand -/

/-- A token is the first one behind a keyword that is no opening parenthesis. -/
def FirstBehind (keyword : TokenKind) (tokens : List Token) (token : Token) : Prop :=
  ∃ word parens, word :: parens ++ [token] <:+: tokens ∧ word.kind = keyword ∧
    (∀ paren ∈ parens, paren.kind = .lparen) ∧ token.kind ≠ .lparen

theorem FirstBehind.mono {keyword : TokenKind} {part tokens : List Token} {token : Token}
    (h : FirstBehind keyword part token) (hpart : part <:+: tokens) :
    FirstBehind keyword tokens token := by
  obtain ⟨word, parens, hinfix, hrest⟩ := h
  exact ⟨word, parens, hinfix.trans hpart, hrest⟩

/-- What the cause of a violation in a body says about its token and about those around it. -/
def Violation.Stands (types : TypeEnv) (names : List String) (tokens : List Token)
    (found : Violation) : Prop :=
  match found.cause with
  | .undeclared name similar =>
    name = found.token.lexeme ∧ types name = none ∧ similar = Text.closeWords name names
  | .assignmentType name _ _ =>
    name = found.token.lexeme ∧ ∃ sign, [found.token, sign] <:+: tokens ∧ sign.kind = .assign
  | .operandTypes operator _ _ _ =>
    operator = found.token.lexeme ∧ found.token.kind ∈ TokenKind.operators
  | .conditionType statement _ =>
    statement = "if" ∧ FirstBehind .ifKw tokens found.token ∨
      statement = "while" ∧ FirstBehind .whileKw tokens found.token
  | _ => True

section Stands

variable {types : TypeEnv} {names : List String} {tokens : List Token} {found : Violation}

theorem Violation.Stands.mono {part : List Token} (h : found.Stands types names part)
    (hpart : part <:+: tokens) : found.Stands types names tokens := by
  obtain ⟨cause, token⟩ := found
  cases cause with
  | assignmentType name expected actual =>
    obtain ⟨hname, sign, hinfix, hsign⟩ := h
    exact ⟨hname, sign, hinfix.trans hpart, hsign⟩
  | conditionType statement actual =>
    exact h.imp (.imp_right fun hfirst ↦ hfirst.mono hpart)
      (.imp_right fun hfirst ↦ hfirst.mono hpart)
  | _ => exact h

theorem Token.stands_of_mem_undeclared {name : Token} (h : found ∈ name.undeclared types names) :
    found.Stands types names tokens := by
  unfold undeclared at h
  split at h
  · cases h
  · rename_i hnone
    cases List.mem_singleton.mp h
    exact ⟨rfl, hnone, rfl⟩

theorem Token.stands_of_mem_unjoined {operator : Token}
    (hoperator : operator.kind ∈ TokenKind.operators) {first second : Option Ty}
    (h : found ∈ operator.unjoined first second) :
    found.Stands types names tokens := by
  unfold unjoined at h
  split at h
  · split at h
    · cases h
    · cases List.mem_singleton.mp h
      exact ⟨rfl, hoperator⟩
  · cases h

theorem Token.stands_of_mem_unassigned {target sign : Token} (hsign : sign.kind = .assign)
    {expected actual : Option Ty} (h : found ∈ target.unassigned expected actual) :
    found.Stands types names (target :: sign :: tokens) := by
  unfold unassigned at h
  split at h
  · split at h
    · cases h
    · cases List.mem_singleton.mp h
      exact ⟨rfl, sign, (List.prefix_append [target, sign] tokens).isInfix, hsign⟩
  · cases h

theorem Expr.WellFormed.stands_of_mem_violations {e : Expr} (h : e.WellFormed)
    (hmem : found ∈ e.violations types names) : found.Stands types names tokens := by
  induction h with
  | intLit | boolLit => cases hmem
  | use => exact Token.stands_of_mem_undeclared hmem
  | binary _ hoperator _ ihleft ihright =>
    rcases List.mem_append.mp hmem with hmem | hmem
    · exact (List.mem_append.mp hmem).elim ihleft ihright
    · exact Token.stands_of_mem_unjoined hoperator hmem

/-- The first token that an expression holds stands behind opening parentheses only. -/
theorem Grammar.DerivesExpr.exists_head {tier : Tier} {e : Expr} (h : DerivesExpr tier tokens e) :
    ∃ parens first after, tokens = parens ++ first :: after ∧
      (∀ paren ∈ parens, paren.kind = .lparen) ∧ first.kind ≠ .lparen ∧
        e.tokens.head? = some first := by
  induction h with
  | intLit hkind => exact ⟨[], _, [], rfl, by simp, by simp [hkind], rfl⟩
  | boolLit hkind =>
    exact ⟨[], _, [], rfl, by simp, by rcases hkind with hkind | hkind <;> simp [hkind], rfl⟩
  | use hkind => exact ⟨[], _, [], rfl, by simp, by simp [hkind], rfl⟩
  | @parentheses opening closing _ _ hopening _ _ ih =>
    obtain ⟨parens, first, after, rfl, hparens, hfirst, hhead⟩ := ih
    exact ⟨opening :: parens, first, after ++ [closing], by simp, by simpa [hopening] using hparens,
      hfirst, hhead⟩
  | operand _ ih => exact ih
  | @join _ _ second operator _ _ _ _ _ ihleft _ =>
    obtain ⟨parens, first, after, rfl, hparens, hfirst, hhead⟩ := ihleft
    exact ⟨parens, first, after ++ operator :: second, by simp, hparens, hfirst, by
      simp [Expr.tokens, hhead]⟩

/-- The violation for a condition stands behind the keyword in front of the condition. -/
theorem Expr.stands_of_mem_conditionViolations {condition : Expr} {keyword : Token}
    {kind : TokenKind} {statement : String} {first : List Token}
    (hderives : DerivesExpr .expression first condition)
    (hkeyword : keyword.kind = kind)
    (hkind : statement = "if" ∧ kind = .ifKw ∨ statement = "while" ∧ kind = .whileKw)
    (h : found ∈ condition.conditionViolations types names statement) :
    found.Stands types names (keyword :: first) := by
  rcases List.mem_append.mp h with h | h
  · exact hderives.wellFormed.stands_of_mem_violations h
  · split at h
    · obtain ⟨parens, token, after, rfl, hparens, htoken, hhead⟩ := hderives.exists_head
      rw [hhead] at h
      cases List.mem_singleton.mp h
      have hfirst : FirstBehind kind (keyword :: (parens ++ token :: after)) token :=
        ⟨keyword, parens, ⟨[], after, by simp⟩, hkeyword, hparens, htoken⟩
      exact hkind.imp (fun ⟨hword, hsame⟩ ↦ ⟨hword, hsame ▸ hfirst⟩)
        fun ⟨hword, hsame⟩ ↦ ⟨hword, hsame ▸ hfirst⟩
    · cases h

theorem Grammar.DerivesStmts.stands_of_mem_violations {statements : List Stmt}
    (ih : ∀ statement ∈ statements, ∀ tokens, DerivesStmt tokens statement →
      ∀ found ∈ statement.violations types names, found.Stands types names tokens)
    (h : DerivesStmts tokens statements)
    (hmem : found ∈ Stmt.violationsOfAll types names statements) :
    found.Stands types names tokens := by
  induction statements generalizing tokens with
  | nil => cases hmem
  | cons statement more ihmore =>
    cases h with
    | cons hstatement _ hmore =>
      rcases List.mem_append.mp hmem with hmem | hmem
      · exact (ih statement List.mem_cons_self _ hstatement found hmem).mono
          (List.prefix_append ..).isInfix
      · have hlater := ihmore (fun other hother ↦ ih other (List.mem_cons_of_mem _ hother)) hmore
          hmem
        exact hlater.mono ((List.suffix_cons ..).trans (List.suffix_append ..)).isInfix

theorem Grammar.DerivesStmt.stands_of_mem_violations (statement : Stmt) :
    ∀ tokens, DerivesStmt tokens statement → ∀ found ∈ statement.violations types names,
      found.Stands types names tokens := by
  induction statement with
  | assign target value =>
    intro tokens h found hmem
    cases h with
    | assign _ hsign hvalue =>
      simp only [Stmt.violations, List.mem_append] at hmem
      rcases hmem with (hmem | hmem) | hmem
      · exact Token.stands_of_mem_undeclared hmem
      · exact hvalue.wellFormed.stands_of_mem_violations hmem
      · exact Token.stands_of_mem_unassigned hsign hmem
  | ifThen condition body ih =>
    intro tokens h found hmem
    cases h with
    | @ifThen ifWord thenWord first second _ _ hif hcondition _ hbody =>
      rcases List.mem_append.mp hmem with hmem | hmem
      · exact (Expr.stands_of_mem_conditionViolations hcondition hif (.inl ⟨rfl, rfl⟩)
          hmem).mono ⟨[], thenWord :: second, by simp⟩
      · exact (ih _ hbody found hmem).mono ⟨ifWord :: first ++ [thenWord], [], by simp⟩
  | ifElse condition body alternative ihbody ihalternative =>
    intro tokens h found hmem
    cases h with
    | @ifElse ifWord thenWord elseWord first second third _ _ _ hif hcondition _ hbody _
        halternative =>
      simp only [Stmt.violations, List.mem_append] at hmem
      rcases hmem with (hmem | hmem) | hmem
      · exact (Expr.stands_of_mem_conditionViolations hcondition hif (.inl ⟨rfl, rfl⟩)
          hmem).mono ⟨[], thenWord :: second ++ elseWord :: third, by simp⟩
      · exact (ihbody _ hbody found hmem).mono
          ⟨ifWord :: first ++ [thenWord], elseWord :: third, by simp⟩
      · exact (ihalternative _ halternative found hmem).mono
          ⟨ifWord :: first ++ thenWord :: second ++ [elseWord], [], by simp⟩
  | loop condition body ih =>
    intro tokens h found hmem
    cases h with
    | @loop whileWord doWord first second _ _ hwhile hcondition _ hbody =>
      rcases List.mem_append.mp hmem with hmem | hmem
      · exact (Expr.stands_of_mem_conditionViolations hcondition hwhile (.inr ⟨rfl, rfl⟩)
          hmem).mono ⟨[], doWord :: second, by simp⟩
      · exact (ih _ hbody found hmem).mono ⟨whileWord :: first ++ [doWord], [], by simp⟩
  | block statements ih =>
    intro tokens h found hmem
    cases h with
    | @block opening closing inner _ _ hinner _ =>
      have hstands := hinner.stands_of_mem_violations (fun s hs ↦ ih s hs) hmem
      exact hstands.mono ⟨[opening], [closing], by simp⟩

theorem Decl.cause_of_mem_repeated {earlier : List Decl} {decl : Decl}
    (h : found ∈ decl.repeated earlier) :
    ∃ place, found.cause = .duplicateDeclaration decl.name.lexeme place := by
  unfold repeated at h
  split at h
  · cases List.mem_singleton.mp h
    exact ⟨_, rfl⟩
  · cases h

theorem cause_of_mem_repetitions {earlier declarations : List Decl}
    (h : found ∈ repetitions earlier declarations) :
    ∃ name place, found.cause = .duplicateDeclaration name place := by
  induction declarations generalizing earlier with
  | nil => cases h
  | cons decl more ih =>
    rcases List.mem_append.mp h with h | h
    · exact ⟨_, Decl.cause_of_mem_repeated h⟩
    · exact ih h

end Stands

theorem Program.stands_of_mem_violations {program : Program} {tokens : List Token}
    (h : DerivesProgram tokens program) {found : Violation} (hmem : found ∈ program.violations) :
    found.Stands program.types program.names tokens := by
  cases h with
  | @intro programWord name semicolon first second _ _ _ _ _ _ hbody =>
    rcases List.mem_append.mp hmem with hmem | hmem
    · obtain ⟨name, place, hcause⟩ := cause_of_mem_repetitions hmem
      simp [Violation.Stands, hcause]
    · have hstands := DerivesStmt.stands_of_mem_violations _ _ hbody found hmem
      exact hstands.mono ⟨programWord :: name :: semicolon :: first, [], by simp⟩

/-! ### Proposed names -/

theorem Text.length_closeWords_le (word : String) (candidates : List String) :
    (closeWords word candidates).length ≤ 3 := by
  rw [closeWords, List.length_map]
  exact List.length_take_le 3 _

theorem Text.mem_of_mem_closeWords {word close : String} {candidates : List String}
    (h : close ∈ closeWords word candidates) : close ∈ candidates := by
  obtain ⟨rated, hrated, rfl⟩ := List.mem_map.mp h
  have hsorted := List.mem_of_mem_take hrated
  have hfiltered := List.mem_of_mem_filter (List.mem_mergeSort.mp hsorted)
  obtain ⟨name, hname, rfl⟩ := List.mem_map.mp hfiltered
  exact hname

/-- A declared name has a type, if the declarations are as the grammar has them. -/
theorem Program.WellFormed.exists_types_of_mem_names {program : Program} (h : program.WellFormed)
    {name : String} (hname : name ∈ program.names) : ∃ type, program.types name = some type := by
  obtain ⟨decl, hdecl, rfl⟩ := List.mem_map.mp (List.mem_eraseDups.mp hname)
  obtain ⟨first, hfirst⟩ : ∃ first, program.declarations.find?
      (·.name.lexeme == decl.name.lexeme) = some first := by
    rw [← Option.isSome_iff_exists, List.find?_isSome]
    exact ⟨decl, hdecl, beq_self_eq_true _⟩
  rw [types, hfirst]
  rcases (h.declarations first (List.mem_of_find?_eq_some hfirst)).type with hkind | hkind
  · exact ⟨.integer, by rw [Option.bind_some, hkind]; rfl⟩
  · exact ⟨.boolean, by rw [Option.bind_some, hkind]; rfl⟩

end StackCompiler
