import StackCompiler.Proofs.Grammar.Language
import StackCompiler.Proofs.Grammar.Rule

/-!
# Rules find what the grammar derives

If tokens derive a tree in which every `else` belongs to the nearest `if`, the rule for it takes
exactly these tokens and gives this tree, whatever stands behind them that cannot go on with it: no
operator behind an expression, and no `else` behind an open statement. The rule needs no more depth
than there are tokens.

An expression is derived with its operators grouped from the left, while the rule for a level takes
one operator a turn. The two meet in `tierRule_eq_joinRight`: behind the tokens of an expression the
rule stands in the loop of its level with that expression on its left.
-/

set_option autoImplicit false
set_option relaxedAutoImplicit false

namespace StackCompiler.Grammar

/-! ### Levels and their rules -/

namespace Tier

def member : Tier → TokenKind → Bool
  | factor => fun _ ↦ false
  | term => TokenKind.isMultiplicative
  | simple => TokenKind.isAdditive
  | expression => TokenKind.isComparison

theorem member_eq_true_iff (level : Tier) (kind : TokenKind) :
    level.member kind = true ↔ kind ∈ level.operators := by
  cases level <;> simp [member, operators, TokenKind.isMultiplicative, TokenKind.isAdditive,
    TokenKind.isComparison, or_assoc]

/-- The operators that an expression of a level can go on with: those of the level and of all
tighter ones. -/
def inside : Tier → List TokenKind
  | factor => []
  | term => term.operators
  | simple => simple.operators ++ term.operators
  | expression => expression.operators ++ simple.operators ++ term.operators

theorem operators_subset_inside (level : Tier) : level.operators ⊆ level.inside := by
  cases level <;> decide

theorem inside_operandTier_subset (level : Tier) : level.operandTier.inside ⊆ level.inside := by
  cases level <;> decide

/-- No operator belongs to a level and to its operands. -/
theorem not_mem_inside_operandTier {level : Tier} :
    ∀ kind ∈ level.operators, kind ∉ level.operandTier.inside := by
  cases level <;> decide

end Tier

/-- The rule for the expressions of a level in which parentheses nest at most `depth` levels. -/
def tierRule (depth : Nat) : Tier → Rule Expr
  | .factor => operand (expression depth)
  | .term => tier Tier.term.member (operand (expression depth))
  | .simple => tier Tier.simple.member (tier Tier.term.member (operand (expression depth)))
  | .expression => expression (depth + 1)

theorem tierRule_eq_tier (depth : Nat) {level : Tier} (h : level ≠ .factor) :
    tierRule depth level = tier level.member (tierRule depth level.operandTier) := by
  cases level with
  | factor => exact absurd rfl h
  | term | simple | expression => rfl

/-! ### Expressions -/

theorem joinRight_of_not_mem {member : TokenKind → Bool} {next : Rule Expr} {rest : List Token}
    (h : member (kindOfNext rest) = false) (turns : List Token) (left : Expr) :
    joinRight member next turns left rest = .ok (left, rest) := by
  cases turns with
  | nil => rfl
  | cons turn turns =>
    unfold joinRight
    rw [bind_of_ok (accept?_of_not_mem h)]
    rfl

/-- A turn of the loop of a level takes an operator and the operand behind it. -/
theorem joinRight_cons {member : TokenKind → Bool} {next : Rule Expr} {operator : Token}
    (hoperator : member operator.kind = true) {second rest : List Token} {right : Expr}
    (hnext : next (second ++ rest) = .ok (right, rest)) (turn : Token) (turns : List Token)
    (left : Expr) :
    joinRight member next (turn :: turns) left (operator :: second ++ rest) =
      joinRight member next turns (.binary left operator right) rest := by
  rw [joinRight, List.cons_append, bind_of_ok (accept?_cons_of_mem hoperator _)]
  exact bind_of_ok hnext

/-- A loop form that ends is the rule itself. -/
theorem tierRule_eq_ok_of_eq_joinRight {depth : Nat} {level : Tier} {tokens rest turns : List Token}
    {e : Expr} (h : tierRule depth level (tokens ++ rest) =
      joinRight level.member (tierRule depth level.operandTier) turns e rest)
    (hrest : kindOfNext rest ∉ level.inside) :
    tierRule depth level (tokens ++ rest) = .ok (e, rest) := by
  have hmember : level.member (kindOfNext rest) = false := by
    rw [Bool.eq_false_iff, Ne, level.member_eq_true_iff]
    exact fun hkind ↦ hrest (level.operators_subset_inside hkind)
  rw [h, joinRight_of_not_mem hmember]

/-- An operand that is one token. -/
theorem operand_of_kind {inner : Rule Expr} {token : Token} {make : Token → Expr}
    (hrule : ∀ rest, operand inner (token :: rest) =
      (expect token.kind >>= fun found ↦ pure (make found)) (token :: rest))
    (rest : List Token) : operand inner (token :: rest) = .ok (make token, rest) := by
  rw [hrule, bind_of_ok (expect_cons rfl rest)]
  rfl

theorem tierRule_eq_joinRight {level : Tier} {tokens : List Token} {e : Expr}
    (h : DerivesExpr level tokens e) :
    ∀ (depth : Nat) (rest : List Token), tokens.length ≤ depth →
      kindOfNext rest ∉ level.operandTier.inside →
        ∃ turns : List Token, rest.length ≤ turns.length ∧
          tierRule depth level (tokens ++ rest) =
            joinRight level.member (tierRule depth level.operandTier) turns e rest := by
  induction h with
  | intLit hkind =>
    intro depth rest _ _
    refine ⟨rest, Nat.le_refl _, ?_⟩
    rw [joinRight_of_not_mem rfl]
    exact operand_of_kind (fun rest ↦ by simp [operand, hkind]) rest
  | boolLit hkind =>
    intro depth rest _ _
    refine ⟨rest, Nat.le_refl _, ?_⟩
    rw [joinRight_of_not_mem rfl]
    rcases hkind with hkind | hkind <;>
      exact operand_of_kind (fun rest ↦ by simp [operand, hkind]) rest
  | use hkind =>
    intro depth rest _ _
    refine ⟨rest, Nat.le_refl _, ?_⟩
    rw [joinRight_of_not_mem rfl]
    exact operand_of_kind (fun rest ↦ by simp [operand, hkind]) rest
  | @parentheses opening closing tokens e hopening _ hclosing ih =>
    intro depth rest hdepth _
    refine ⟨rest, Nat.le_refl _, ?_⟩
    rw [joinRight_of_not_mem rfl]
    simp only [List.cons_append, List.length_cons, List.length_append, List.length_nil] at hdepth
    obtain ⟨depth, rfl⟩ : ∃ smaller, depth = smaller + 1 := ⟨depth - 1, by omega⟩
    have hclosed : kindOfNext (closing :: rest) ∉ Tier.expression.inside := by
      rw [kindOfNext_cons, hclosing]
      decide
    obtain ⟨turns, -, hloop⟩ := ih depth (closing :: rest) (by omega)
      fun hkind ↦ hclosed (Tier.inside_operandTier_subset _ hkind)
    have hinner : expression (depth + 1) (tokens ++ closing :: rest) = .ok (e, closing :: rest) :=
      tierRule_eq_ok_of_eq_joinRight hloop hclosed
    simp only [tierRule, operand, List.cons_append, List.append_assoc, List.nil_append,
      get_bind_apply, kindOfNext_cons, hopening]
    rw [bind_of_ok (expect_cons hopening _), bind_of_ok hinner,
      bind_of_ok (expect_cons hclosing _)]
    rfl
  | @operand level tokens e _ ih =>
    intro depth rest hdepth hrest
    obtain ⟨turns, hturns, hloop⟩ := ih depth rest hdepth fun hkind ↦
      hrest (Tier.inside_operandTier_subset _ hkind)
    by_cases hlevel : level = .factor
    · subst hlevel
      exact ⟨turns, hturns, hloop⟩
    · refine ⟨rest, Nat.le_refl _, ?_⟩
      rw [tierRule_eq_tier depth hlevel]
      exact bind_of_ok (tierRule_eq_ok_of_eq_joinRight hloop hrest)
  | @join level first second operator left right _ hoperator _ ihleft ihright =>
    intro depth rest hdepth hrest
    simp only [List.length_append, List.length_cons] at hdepth
    obtain ⟨turns, hturns, hleft⟩ := ihleft depth (operator :: second ++ rest) (by omega)
      (Tier.not_mem_inside_operandTier _ hoperator)
    obtain ⟨_, -, hright⟩ := ihright depth rest (by omega) fun hkind ↦
      hrest (Tier.inside_operandTier_subset _ hkind)
    have hoperand := tierRule_eq_ok_of_eq_joinRight hright hrest
    cases turns with
    | nil => simp at hturns
    | cons turn turns =>
      refine ⟨turns, ?_, ?_⟩
      · simp only [List.cons_append, List.length_cons, List.length_append] at hturns
        omega
      · rw [List.append_assoc, hleft]
        exact joinRight_cons ((level.member_eq_true_iff _).mpr hoperator) hoperand turn turns left

theorem expression_complete {tokens : List Token} {e : Expr}
    (h : DerivesExpr .expression tokens e) {depth : Nat} (hdepth : tokens.length < depth)
    {rest : List Token} (hrest : kindOfNext rest ∉ Tier.expression.inside) :
    expression depth (tokens ++ rest) = .ok (e, rest) := by
  obtain ⟨depth, rfl⟩ : ∃ smaller, depth = smaller + 1 := ⟨depth - 1, by omega⟩
  obtain ⟨turns, -, hloop⟩ := tierRule_eq_joinRight h depth rest (by omega) fun hkind ↦
    hrest (Tier.inside_operandTier_subset _ hkind)
  exact tierRule_eq_ok_of_eq_joinRight hloop hrest

theorem expression_complete_cons {tokens : List Token} {e : Expr}
    (h : DerivesExpr .expression tokens e) {depth : Nat} (hdepth : tokens.length < depth)
    {token : Token} {kind : TokenKind} (hkind : token.kind = kind)
    (hclosed : kind ∉ Tier.expression.inside) (rest : List Token) :
    expression depth (tokens ++ token :: rest) = .ok (e, token :: rest) :=
  expression_complete h hdepth (by rwa [kindOfNext_cons, hkind])

/-! ### Statements -/

/-- Nothing in front of the pending tokens can go on with a statement. -/
structure Ends (statement : Stmt) (rest : List Token) : Prop where
  notOperator : kindOfNext rest ∉ Tier.expression.inside
  notElse : statement.isOpen = true → kindOfNext rest ≠ .elseKw

theorem Ends.of_semicolon {token : Token} (hkind : token.kind = .semicolon) (statement : Stmt)
    (rest : List Token) : Ends statement (token :: rest) where
  notOperator := by rw [kindOfNext_cons, hkind]; decide
  notElse _ := by rw [kindOfNext_cons, hkind]; decide

/-- A rule reads a statement off the front of any tokens behind which it ends. -/
def Finds (rule : Rule Stmt) (tokens : List Token) (statement : Stmt) : Prop :=
  ∀ rest, Ends statement rest → rule (tokens ++ rest) = .ok (statement, rest)

theorem DerivesStmt.exists_cons {tokens : List Token} {statement : Stmt}
    (h : DerivesStmt tokens statement) :
    ∃ token later, tokens = token :: later ∧
      token.kind ∈ [TokenKind.ident, .ifKw, .whileKw, .beginKw] := by
  cases h with
  | assign htarget => exact ⟨_, _, rfl, by simp [htarget]⟩
  | ifThen hif => exact ⟨_, _, rfl, by simp [hif]⟩
  | ifElse hif => exact ⟨_, _, by simp only [List.cons_append]; rfl, by simp [hif]⟩
  | loop hwhile => exact ⟨_, _, rfl, by simp [hwhile]⟩
  | block hopening => exact ⟨_, _, rfl, by simp [hopening]⟩

theorem DerivesStmts.length_le {tokens : List Token} {found : List Stmt}
    (h : DerivesStmts tokens found) : found.length ≤ tokens.length := by
  induction found generalizing tokens with
  | nil => simp
  | cons statement more ih =>
    cases h with
    | cons hstatement hsemicolon hmore =>
      have hlength := ih hmore
      simp only [List.length_cons, List.length_append]
      omega

/-- The loop for the statements of a block has a turn for each and one for the end. -/
theorem statements_complete {inner : Rule Stmt} {tokens : List Token} {found : List Stmt}
    (h : DerivesStmts tokens found)
    (hinner : ∀ statement ∈ found, ∀ part, DerivesStmt part statement →
      part.length < tokens.length → Finds inner part statement)
    {rest : List Token} (hrest : kindOfNext rest = .endKw) (turns : List Token)
    (hturns : found.length < turns.length) :
    statements inner turns (tokens ++ rest) = .ok (found, rest) := by
  induction found generalizing tokens turns with
  | nil =>
    cases h
    cases turns with
    | nil => simp at hturns
    | cons turn turns => simp [statements, hrest]
  | cons statement more ih =>
    cases h with
    | @cons semicolon first later _ _ hstatement hsemicolon hmore =>
      cases turns with
      | nil => simp at hturns
      | cons turn turns =>
        obtain ⟨token, others, rfl, hkind⟩ := hstatement.exists_cons
        have hfirst := hinner statement (by simp) _ hstatement (by simp) _
          (.of_semicolon hsemicolon statement (later ++ rest))
        have hlater : statements inner turns (later ++ rest) = .ok (more, rest) := by
          refine ih hmore (fun s hs part hpart hlength ↦ hinner s (by simp [hs]) part hpart ?_)
            turns (by simpa using hturns)
          simp only [List.length_append, List.length_cons]
          omega
        have hgoesOn : (token.kind == .endKw || token.kind == .endOfFile) = false := by
          simp only [List.mem_cons, List.not_mem_nil, or_false] at hkind
          rcases hkind with hkind | hkind | hkind | hkind <;> rw [hkind] <;> rfl
        simp only [statements, List.append_assoc, List.cons_append, get_bind_apply,
          kindOfNext_cons, hgoesOn, Bool.false_eq_true, if_false]
        simp only [List.cons_append] at hfirst
        rw [bind_of_ok hfirst, bind_of_ok (expect_cons hsemicolon _), bind_of_ok hlater]
        rfl

theorem block_complete {inner : Rule Stmt} {tokens : List Token} {found : List Stmt}
    (h : DerivesStmt tokens (.block found))
    (hinner : ∀ statement ∈ found, ∀ part, DerivesStmt part statement →
      part.length < tokens.length → Finds inner part statement) (rest : List Token) :
    block inner (tokens ++ rest) = .ok (found, rest) := by
  cases h with
  | @block opening closing tokens _ hopening hstatements hclosing =>
    have hbody : statements inner (tokens ++ closing :: rest) (tokens ++ closing :: rest) =
        .ok (found, closing :: rest) := by
      refine statements_complete hstatements
        (fun s hs part hpart hlength ↦ hinner s hs part hpart ?_)
        ((kindOfNext_cons closing rest).trans hclosing) _ ?_
      · simp only [List.length_append, List.length_cons]
        omega
      · have hlength := hstatements.length_le
        simp only [List.length_append, List.length_cons]
        omega
    simp only [block, List.cons_append, List.append_assoc, List.nil_append]
    rw [bind_of_ok (expect_cons hopening _), get_bind_apply, bind_of_ok hbody,
      bind_of_ok (expect_cons hclosing _)]
    rfl

theorem conditional_eq_inner {condition : Rule Expr} {inner : Rule Stmt} {ifWord thenWord : Token}
    (hif : ifWord.kind = .ifKw) (hthen : thenWord.kind = .thenKw) {first second rest : List Token}
    {e : Expr} {body : Stmt}
    (hcondition : condition (first ++ thenWord :: (second ++ rest)) =
      .ok (e, thenWord :: (second ++ rest)))
    (hbody : inner (second ++ rest) = .ok (body, rest)) :
    conditional condition inner (ifWord :: first ++ thenWord :: second ++ rest) =
      (accept? (· == .elseKw) >>= fun found ↦ match found with
        | some _ => inner >>= fun alternative ↦ pure (.ifElse e body alternative)
        | none => pure (.ifThen e body)) rest := by
  simp only [conditional, List.cons_append, List.append_assoc]
  rw [bind_of_ok (expect_cons hif _), bind_of_ok hcondition, bind_of_ok (expect_cons hthen _)]
  exact bind_of_ok hbody

theorem statement_complete (found : Stmt) :
    ∀ (tokens : List Token) (depth : Nat), DerivesStmt tokens found → found.ElsesNearest →
      tokens.length < depth → Finds (statement depth) tokens found := by
  induction found with
  | assign target value =>
    intro tokens depth h _ hdepth rest hrest
    obtain ⟨depth, rfl⟩ : ∃ smaller, depth = smaller + 1 := ⟨depth - 1, by omega⟩
    cases h with
    | @assign _ sign tokens _ htarget hsign hvalue =>
      simp only [List.length_cons] at hdepth
      have hfound := expression_complete hvalue (by omega : tokens.length < depth)
        hrest.notOperator
      simp only [statement, get_bind_apply, List.cons_append, kindOfNext_cons, htarget, assignment]
      rw [bind_of_ok (expect_cons htarget _), bind_of_ok (expect_cons hsign _),
        bind_of_ok hfound]
      rfl
  | ifThen condition body ih =>
    intro tokens depth h hnearest hdepth rest hrest
    obtain ⟨depth, rfl⟩ : ∃ smaller, depth = smaller + 1 := ⟨depth - 1, by omega⟩
    cases hnearest with
    | ifThen hnearest =>
    cases h with
    | @ifThen ifWord thenWord first second _ _ hif hcondition hthen hbody =>
      simp only [List.length_cons, List.length_append] at hdepth
      have hnotElse := hrest.notElse rfl
      have hends : Ends body rest := ⟨hrest.notOperator, fun _ ↦ hnotElse⟩
      have hfound := expression_complete_cons hcondition (by omega : first.length < depth) hthen
        (by decide) (second ++ rest)
      have hinside := ih second depth hbody hnearest (by omega) rest hends
      simp only [statement, get_bind_apply, List.cons_append, kindOfNext_cons, hif]
      rw [← List.cons_append, ← List.cons_append, conditional_eq_inner hif hthen hfound hinside,
        bind_of_ok (accept?_of_not_mem (by simpa using hnotElse))]
      rfl
  | ifElse condition body alternative ihbody ihalternative =>
    intro tokens depth h hnearest hdepth rest hrest
    obtain ⟨depth, rfl⟩ : ∃ smaller, depth = smaller + 1 := ⟨depth - 1, by omega⟩
    cases hnearest with
    | ifElse hnearestBody hclosed hnearestAlternative =>
    cases h with
    | @ifElse ifWord thenWord elseWord first second third _ _ _ hif hcondition hthen hbody helse
        halternative =>
      simp only [List.length_cons, List.length_append] at hdepth
      -- The body is closed, so that an `else` ends it as well as any other word would.
      have hends : Ends body (elseWord :: (third ++ rest)) :=
        ⟨by rw [kindOfNext_cons, helse]; decide, fun hopen ↦ by simp [hclosed] at hopen⟩
      have hfound := expression_complete_cons hcondition (by omega : first.length < depth) hthen
        (by decide) (second ++ (elseWord :: (third ++ rest)))
      have hinside := ihbody second depth hbody hnearestBody (by omega) _ hends
      have houtside := ihalternative third depth halternative hnearestAlternative (by omega) rest
        ⟨hrest.notOperator, hrest.notElse⟩
      simp only [statement, get_bind_apply, List.append_assoc, List.cons_append, kindOfNext_cons,
        hif]
      have hstart := conditional_eq_inner hif hthen hfound hinside
      simp only [List.append_assoc, List.cons_append] at hstart
      rw [hstart, bind_of_ok (accept?_cons_of_mem (by simp [helse]) _)]
      exact bind_of_ok houtside
  | loop condition body ih =>
    intro tokens depth h hnearest hdepth rest hrest
    obtain ⟨depth, rfl⟩ : ∃ smaller, depth = smaller + 1 := ⟨depth - 1, by omega⟩
    cases hnearest with
    | loop hnearest =>
    cases h with
    | @loop whileWord doWord first second _ _ hwhile hcondition hdo hbody =>
      simp only [List.length_cons, List.length_append] at hdepth
      have hfound := expression_complete_cons hcondition (by omega : first.length < depth) hdo
        (by decide) (second ++ rest)
      have hinside := ih second depth hbody hnearest (by omega) rest
        ⟨hrest.notOperator, hrest.notElse⟩
      simp only [statement, get_bind_apply, List.append_assoc, List.cons_append, kindOfNext_cons,
        hwhile, loop]
      rw [bind_of_ok (expect_cons hwhile _), bind_of_ok hfound, bind_of_ok (expect_cons hdo _),
        bind_of_ok hinside]
      rfl
  | block found ih =>
    intro tokens depth h hnearest hdepth rest _
    obtain ⟨depth, rfl⟩ : ∃ smaller, depth = smaller + 1 := ⟨depth - 1, by omega⟩
    cases hnearest with
    | block hnearest =>
      have hbody := block_complete h (fun s hs part hpart hlength ↦
        ih s hs part depth hpart (hnearest s hs) (by omega)) rest
      obtain ⟨opening, later, rfl, -⟩ := h.exists_cons
      have hopening : opening.kind = .beginKw := by cases h; assumption
      simp only [statement, get_bind_apply, List.cons_append, kindOfNext_cons, hopening]
      rw [List.cons_append] at hbody
      exact bind_of_ok hbody

/-! ### Programs -/

theorem DerivesDecls.length_le {tokens : List Token} {found : List Decl}
    (h : DerivesDecls tokens found) : found.length ≤ tokens.length := by
  induction h with
  | nil => simp
  | cons _ _ _ _ _ _ ih =>
    simp only [List.length_cons]
    omega

theorem declarations_complete {tokens : List Token} {found : List Decl}
    (h : DerivesDecls tokens found) {rest : List Token} (hrest : kindOfNext rest ≠ .varKw)
    (turns : List Token) (hturns : found.length < turns.length) :
    declarations turns (tokens ++ rest) = .ok (found, rest) := by
  induction h generalizing turns with
  | nil =>
    cases turns with
    | nil => simp at hturns
    | cons turn turns =>
      rw [declarations, List.nil_append, bind_of_ok (accept?_of_not_mem (by simpa using hrest))]
      rfl
  | @cons varWord name colon type semicolon later more hvar hname hcolon htype hsemicolon _ ih =>
    cases turns with
    | nil => simp at hturns
    | cons turn turns =>
      have hlater := ih turns (by simpa using hturns)
      have htaken : typeName (type :: semicolon :: (later ++ rest)) =
          .ok (type, semicolon :: (later ++ rest)) := by
        rw [typeName, bind_of_ok (accept?_cons_of_mem (by simpa using htype) _)]
        rfl
      have hfirst : declaration (name :: colon :: type :: semicolon :: (later ++ rest)) =
          .ok (⟨name, type⟩, later ++ rest) := by
        rw [declaration, bind_of_ok (expect_cons hname _), bind_of_ok (expect_cons hcolon _),
          bind_of_ok htaken, bind_of_ok (expect_cons hsemicolon _)]
        rfl
      simp only [declarations, List.cons_append]
      rw [bind_of_ok (accept?_cons_of_mem (by simp [hvar]) _)]
      exact (bind_of_ok hfirst).trans ((bind_of_ok hlater).trans rfl)

theorem program_complete {tokens : List Token} {found : Program} (h : DerivesProgram tokens found)
    (hnearest : found.ElsesNearest) {depth : Nat} (hdepth : tokens.length < depth)
    (rest : List Token) : program depth (tokens ++ rest) = .ok (found, rest) := by
  cases h with
  | @intro programWord name semicolon first second declarations statements hprogram hname
      hsemicolon hdeclarations hbody =>
    simp only [List.length_cons, List.length_append] at hdepth
    have hblock := block_complete hbody (fun s hs part hpart hlength ↦
      statement_complete s part depth hpart (hnearest s hs) (by omega)) rest
    obtain ⟨opening, later, rfl, -⟩ := hbody.exists_cons
    have hopening : opening.kind = .beginKw := by cases hbody; assumption
    have hdecls : Grammar.declarations (first ++ (opening :: later ++ rest))
        (first ++ (opening :: later ++ rest)) = .ok (declarations, opening :: later ++ rest) := by
      refine declarations_complete hdeclarations ?_ _ ?_
      · rw [List.cons_append, kindOfNext_cons, hopening]
        decide
      · have hlength := hdeclarations.length_le
        simp only [List.length_append, List.length_cons]
        omega
    simp only [program, List.cons_append, List.append_assoc]
    simp only [List.cons_append] at hdecls hblock
    rw [bind_of_ok (expect_cons hprogram _), bind_of_ok (expect_cons hname _),
      bind_of_ok (expect_cons hsemicolon _), get_bind_apply, bind_of_ok hdecls,
      bind_of_ok hblock]
    rfl

end StackCompiler.Grammar
