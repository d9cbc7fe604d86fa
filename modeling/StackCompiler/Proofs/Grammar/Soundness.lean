import StackCompiler.Proofs.Grammar.Language
import StackCompiler.Proofs.Grammar.Rule

/-!
# Rules take what their trees derive from

A rule that succeeds has taken tokens off the front that derive its tree (`Sound`), and in the
statements that it gives every `else` belongs to the nearest `if`: a condition takes an `else`
whenever one is next, so a statement that is still open is never followed by one
(`statement_sound`). The loops of the rules are treated once: `joinRight_sound` extends the
derivation of what stands on the left by one operator a turn, and `statements_sound` adds one
statement a turn.
-/

set_option autoImplicit false
set_option relaxedAutoImplicit false

namespace StackCompiler.Grammar

variable {α : Type}

/-- The tokens that a rule takes and what it gives always stand in a relation. -/
def Sound (rule : Rule α) (derives : List Token → α → Prop) : Prop :=
  ∀ pending a rest, rule pending = .ok (a, rest) →
    ∃ tokens, pending = tokens ++ rest ∧ derives tokens a

/-! ### Expressions -/

theorem operand_sound {inner : Rule Expr} (hinner : Sound inner (DerivesExpr .expression)) :
    Sound (operand inner) (DerivesExpr .factor) := by
  intro pending e rest h
  simp only [operand, get_bind_apply] at h
  generalize kindOfNext pending = kind at h
  split at h
  all_goals simp only [bind_eq_ok, expect_eq_ok, pure_eq_ok, refuse_apply, reduceCtorEq] at h
  · obtain ⟨token, middle, ⟨rfl, hkind⟩, rfl, rfl⟩ := h
    exact ⟨[token], rfl, .intLit hkind⟩
  · obtain ⟨token, middle, ⟨rfl, hkind⟩, rfl, rfl⟩ := h
    exact ⟨[token], rfl, .boolLit (.inl hkind)⟩
  · obtain ⟨token, middle, ⟨rfl, hkind⟩, rfl, rfl⟩ := h
    exact ⟨[token], rfl, .boolLit (.inr hkind)⟩
  · obtain ⟨token, middle, ⟨rfl, hkind⟩, rfl, rfl⟩ := h
    exact ⟨[token], rfl, .use hkind⟩
  · obtain ⟨opening, afterOpening, ⟨rfl, hopening⟩, found, afterInner, hfound, closing,
      afterClosing, ⟨rfl, hclosing⟩, rfl, rfl⟩ := h
    obtain ⟨tokens, rfl, hderives⟩ := hinner _ _ _ hfound
    exact ⟨opening :: tokens ++ [closing], by simp, .parentheses hopening hderives hclosing⟩

/-- What stands left of the operators may have been read from any tokens. -/
theorem joinRight_sound {level : Tier} {member : TokenKind → Bool} {next : Rule Expr}
    (hmember : ∀ kind, member kind = true → kind ∈ level.operators)
    (hnext : Sound next (DerivesExpr level.operandTier)) (turns : List Token) :
    ∀ (left : Expr) (first : List Token), DerivesExpr level first left →
      Sound (joinRight member next turns left) fun tokens e ↦
        DerivesExpr level (first ++ tokens) e := by
  induction turns with
  | nil =>
    intro left first hleft pending e rest h
    obtain ⟨rfl, rfl⟩ := pure_eq_ok.mp h
    exact ⟨[], rfl, by simpa using hleft⟩
  | cons turn turns ih =>
    intro left first hleft pending e rest h
    simp only [joinRight, bind_eq_ok] at h
    obtain ⟨found, middle, hfound, h⟩ := h
    cases found with
    | none =>
      obtain ⟨rfl, -⟩ := eq_of_accept?_eq_none hfound
      obtain ⟨rfl, rfl⟩ := pure_eq_ok.mp h
      exact ⟨[], rfl, by simpa using hleft⟩
    | some operator =>
      simp only [accept?_eq_some, bind_eq_ok] at hfound h
      obtain ⟨rfl, hoperator⟩ := hfound
      obtain ⟨right, afterRight, hright, hturns⟩ := h
      obtain ⟨second, rfl, hsecond⟩ := hnext _ _ _ hright
      have hjoin := DerivesExpr.join hleft (hmember _ hoperator) hsecond
      obtain ⟨third, rfl, hderives⟩ := ih _ _ hjoin _ _ _ hturns
      exact ⟨operator :: second ++ third, by simp, by simpa using hderives⟩

theorem tier_sound {level : Tier} {member : TokenKind → Bool} {next : Rule Expr}
    (hmember : ∀ kind, member kind = true → kind ∈ level.operators)
    (hnext : Sound next (DerivesExpr level.operandTier)) :
    Sound (tier member next) (DerivesExpr level) := by
  intro pending e rest h
  obtain ⟨left, middle, hleft, hturns⟩ := bind_eq_ok.mp h
  rw [get_bind_apply] at hturns
  obtain ⟨first, rfl, hfirst⟩ := hnext _ _ _ hleft
  obtain ⟨second, rfl, hderives⟩ :=
    joinRight_sound hmember hnext _ _ _ (.operand hfirst) _ _ _ hturns
  exact ⟨first ++ second, by simp, hderives⟩

theorem mem_operators_of_isMultiplicative (kind : TokenKind)
    (h : kind.isMultiplicative = true) : kind ∈ Tier.term.operators := by
  cases kind <;> first | decide | cases h

theorem mem_operators_of_isAdditive (kind : TokenKind) (h : kind.isAdditive = true) :
    kind ∈ Tier.simple.operators := by
  cases kind <;> first | decide | cases h

theorem mem_operators_of_isComparison (kind : TokenKind) (h : kind.isComparison = true) :
    kind ∈ Tier.expression.operators := by
  cases kind <;> first | decide | cases h

theorem expression_sound (depth : Nat) : Sound (expression depth) (DerivesExpr .expression) := by
  induction depth with
  | zero => intro pending e rest h; cases h
  | succ depth ih =>
    exact tier_sound mem_operators_of_isComparison
      (tier_sound mem_operators_of_isAdditive
        (tier_sound mem_operators_of_isMultiplicative (operand_sound ih)))

/-! ### Statements -/

/-- The tokens derive the statement and every `else` in it is at its place, also with regard to the
tokens behind the statement. -/
structure ReadsStmt (tokens rest : List Token) (statement : Stmt) : Prop where
  derives : DerivesStmt tokens statement
  elsesNearest : statement.ElsesNearest
  closed_of_else : kindOfNext rest = .elseKw → statement.isOpen = false

/-- A rule for statements reads the front of the pending tokens. -/
def ReadsFront (rule : Rule Stmt) : Prop :=
  ∀ pending statement rest, rule pending = .ok (statement, rest) →
    ∃ tokens, pending = tokens ++ rest ∧ ReadsStmt tokens rest statement

theorem assignment_sound {value : Rule Expr} (hvalue : Sound value (DerivesExpr .expression)) :
    ReadsFront (assignment value) := by
  intro pending statement rest h
  simp only [assignment, bind_eq_ok, expect_eq_ok, pure_eq_ok] at h
  obtain ⟨target, afterTarget, ⟨rfl, htarget⟩, sign, afterSign, ⟨rfl, hsign⟩, e, afterValue,
    hfound, rfl, rfl⟩ := h
  obtain ⟨tokens, rfl, hderives⟩ := hvalue _ _ _ hfound
  exact ⟨target :: sign :: tokens, rfl, .assign htarget hsign hderives, .assign target e,
    fun _ ↦ rfl⟩

/-- The body of a condition that has found its `else` is closed. -/
theorem conditional_sound {condition : Rule Expr} {inner : Rule Stmt}
    (hcondition : Sound condition (DerivesExpr .expression)) (hinner : ReadsFront inner) :
    ReadsFront (conditional condition inner) := by
  intro pending statement rest h
  simp only [conditional, bind_eq_ok, expect_eq_ok] at h
  obtain ⟨ifWord, afterIf, ⟨rfl, hif⟩, e, afterCondition, hfound, thenWord, afterThen,
    ⟨rfl, hthen⟩, body, afterBody, hinside, found, afterElse, helse, h⟩ := h
  obtain ⟨first, rfl, hderives⟩ := hcondition _ _ _ hfound
  obtain ⟨second, rfl, hbody⟩ := hinner _ _ _ hinside
  cases found with
  | none =>
    obtain ⟨rfl, hnone⟩ := eq_of_accept?_eq_none helse
    obtain ⟨rfl, rfl⟩ := pure_eq_ok.mp h
    refine ⟨ifWord :: first ++ thenWord :: second, by simp,
      .ifThen hif hderives hthen hbody.derives, .ifThen hbody.elsesNearest, fun hnext ↦ ?_⟩
    rcases hnone with rfl | hnone
    · cases hnext
    · simp [hnext] at hnone
  | some elseWord =>
    simp only [accept?_eq_some, beq_iff_eq, bind_eq_ok, pure_eq_ok] at helse h
    obtain ⟨rfl, hword⟩ := helse
    obtain ⟨alternative, afterAlternative, houtside, rfl, rfl⟩ := h
    obtain ⟨third, rfl, halternative⟩ := hinner _ _ _ houtside
    exact ⟨ifWord :: first ++ thenWord :: second ++ elseWord :: third, by simp,
      .ifElse hif hderives hthen hbody.derives hword halternative.derives,
      .ifElse hbody.elsesNearest (hbody.closed_of_else hword) halternative.elsesNearest,
      halternative.closed_of_else⟩

theorem loop_sound {condition : Rule Expr} {inner : Rule Stmt}
    (hcondition : Sound condition (DerivesExpr .expression)) (hinner : ReadsFront inner) :
    ReadsFront (loop condition inner) := by
  intro pending statement rest h
  simp only [loop, bind_eq_ok, expect_eq_ok, pure_eq_ok] at h
  obtain ⟨whileWord, afterWhile, ⟨rfl, hwhile⟩, e, afterCondition, hfound, doWord, afterDo,
    ⟨rfl, hdo⟩, body, afterBody, hinside, rfl, rfl⟩ := h
  obtain ⟨first, rfl, hderives⟩ := hcondition _ _ _ hfound
  obtain ⟨second, rfl, hbody⟩ := hinner _ _ _ hinside
  exact ⟨whileWord :: first ++ doWord :: second, by simp,
    .loop hwhile hderives hdo hbody.derives, .loop hbody.elsesNearest, hbody.closed_of_else⟩

theorem statements_sound {inner : Rule Stmt} (hinner : ReadsFront inner) (turns : List Token) :
    Sound (statements inner turns) fun tokens found ↦
      DerivesStmts tokens found ∧ ∀ statement ∈ found, statement.ElsesNearest := by
  induction turns with
  | nil =>
    intro pending found rest h
    obtain ⟨rfl, rfl⟩ := pure_eq_ok.mp h
    exact ⟨[], rfl, .nil, by simp⟩
  | cons turn turns ih =>
    intro pending found rest h
    simp only [statements, get_bind_apply] at h
    generalize kindOfNext pending = kind at h
    split at h
    · obtain ⟨rfl, rfl⟩ := pure_eq_ok.mp h
      exact ⟨[], rfl, .nil, by simp⟩
    · simp only [bind_eq_ok, expect_eq_ok, pure_eq_ok] at h
      obtain ⟨statement, afterFirst, hstatement, semicolon, afterSemicolon, ⟨rfl, hsemicolon⟩,
        more, afterMore, hmore, rfl, rfl⟩ := h
      obtain ⟨first, rfl, hfirst⟩ := hinner _ _ _ hstatement
      obtain ⟨later, rfl, hlater, hnearest⟩ := ih _ _ _ hmore
      refine ⟨first ++ semicolon :: later, by simp, .cons hfirst.derives hsemicolon hlater, ?_⟩
      simpa using ⟨hfirst.elsesNearest, hnearest⟩

theorem block_sound {inner : Rule Stmt} (hinner : ReadsFront inner) :
    Sound (block inner) fun tokens found ↦
      DerivesStmt tokens (.block found) ∧ ∀ statement ∈ found, statement.ElsesNearest := by
  intro pending found rest h
  simp only [block, bind_eq_ok, get_apply, Except.ok.injEq, Prod.mk.injEq, expect_eq_ok,
    pure_eq_ok] at h
  obtain ⟨opening, afterOpening, ⟨rfl, hopening⟩, turns, _, ⟨rfl, rfl⟩, body, afterBody, hbody,
    closing, afterClosing, ⟨rfl, hclosing⟩, rfl, rfl⟩ := h
  obtain ⟨tokens, rfl, hderives, hnearest⟩ := statements_sound hinner _ _ _ _ hbody
  exact ⟨opening :: tokens ++ [closing], by simp, .block hopening hderives hclosing, hnearest⟩

theorem statement_sound (depth : Nat) : ReadsFront (statement depth) := by
  induction depth with
  | zero => intro pending found rest h; cases h
  | succ depth ih =>
    intro pending found rest h
    simp only [statement, get_bind_apply] at h
    generalize kindOfNext pending = kind at h
    split at h
    · exact assignment_sound (expression_sound depth) _ _ _ h
    · exact conditional_sound (expression_sound depth) ih _ _ _ h
    · exact loop_sound (expression_sound depth) ih _ _ _ h
    · simp only [bind_eq_ok, pure_eq_ok] at h
      obtain ⟨body, afterBody, hbody, rfl, rfl⟩ := h
      obtain ⟨tokens, rfl, hderives, hnearest⟩ := block_sound ih _ _ _ hbody
      exact ⟨tokens, rfl, hderives, .block hnearest, fun _ ↦ rfl⟩
    · simp at h

/-! ### Programs -/

theorem typeName_eq_ok {pending rest : List Token} {type : Token} :
    typeName pending = .ok (type, rest) ↔
      pending = type :: rest ∧ (type.kind = .integerKw ∨ type.kind = .booleanKw) := by
  simp only [typeName, bind_eq_ok]
  constructor
  · rintro ⟨found, middle, hfound, h⟩
    cases found with
    | none => cases h
    | some found =>
      obtain ⟨rfl, rfl⟩ := pure_eq_ok.mp h
      simpa using accept?_eq_some.mp hfound
  · rintro ⟨rfl, hkind⟩
    exact ⟨some type, rest, accept?_cons_of_mem (by simpa using hkind) rest, rfl⟩

theorem declarations_sound (turns : List Token) : Sound (declarations turns) DerivesDecls := by
  induction turns with
  | nil =>
    intro pending found rest h
    obtain ⟨rfl, rfl⟩ := pure_eq_ok.mp h
    exact ⟨[], rfl, .nil⟩
  | cons turn turns ih =>
    intro pending found rest h
    simp only [declarations, bind_eq_ok] at h
    obtain ⟨word, afterWord, hword, h⟩ := h
    cases word with
    | none =>
      obtain ⟨rfl, -⟩ := eq_of_accept?_eq_none hword
      obtain ⟨rfl, rfl⟩ := pure_eq_ok.mp h
      exact ⟨[], rfl, .nil⟩
    | some varWord =>
      simp only [accept?_eq_some, beq_iff_eq, declaration, bind_eq_ok, expect_eq_ok,
        typeName_eq_ok, pure_eq_ok] at hword h
      obtain ⟨rfl, hvar⟩ := hword
      obtain ⟨first, afterFirst, ⟨name, afterName, ⟨rfl, hname⟩, colon, afterColon,
        ⟨rfl, hcolon⟩, type, afterType, ⟨rfl, htype⟩, semicolon, afterSemicolon,
        ⟨rfl, hsemicolon⟩, rfl, rfl⟩, more, afterMore, hmore, rfl, rfl⟩ := h
      obtain ⟨later, rfl, hlater⟩ := ih _ _ _ hmore
      exact ⟨varWord :: name :: colon :: type :: semicolon :: later, rfl,
        .cons hvar hname hcolon htype hsemicolon hlater⟩

theorem program_sound (depth : Nat) :
    Sound (program depth) fun tokens found ↦
      DerivesProgram tokens found ∧ found.ElsesNearest := by
  intro pending found rest h
  simp only [program, bind_eq_ok, get_apply, Except.ok.injEq, Prod.mk.injEq, expect_eq_ok,
    pure_eq_ok] at h
  obtain ⟨programWord, afterProgram, ⟨rfl, hprogram⟩, name, afterName, ⟨rfl, hname⟩, semicolon,
    afterSemicolon, ⟨rfl, hsemicolon⟩, turns, _, ⟨rfl, rfl⟩, decls, afterDecls, hdecls, body,
    afterBody, hbody, rfl, rfl⟩ := h
  obtain ⟨first, rfl, hfirst⟩ := declarations_sound _ _ _ _ hdecls
  obtain ⟨second, rfl, hsecond, hnearest⟩ := block_sound (statement_sound depth) _ _ _ hbody
  exact ⟨programWord :: name :: semicolon :: first ++ second, by simp,
    .intro hprogram hname hsemicolon hfirst hsecond, hnearest⟩

end StackCompiler.Grammar
