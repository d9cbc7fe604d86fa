import StackCompiler.Proofs.Grammar.Language

/-!
# Where a program ends

A program ends with its main block, and no token behind it plays a part in that: `begin` and `end`
match in every statement (`DerivesStmt.balanced`), so a program is over at the first `end` that
leaves no block open (`DerivesProgram.eq_of_prefix`). Of the tokens in front of a text, therefore,
at most one beginning is a program.
-/

set_option autoImplicit false
set_option relaxedAutoImplicit false

namespace StackCompiler.Grammar

/-! ### Open blocks -/

/-- How many blocks more are open behind a token than in front of it. -/
def blockStep : TokenKind → Int
  | .beginKw => 1
  | .endKw => -1
  | _ => 0

/-- How many more blocks are opened than closed by tokens. -/
def openBlocks : List Token → Int
  | [] => 0
  | token :: more => blockStep token.kind + openBlocks more

@[simp] theorem openBlocks_nil : openBlocks [] = 0 :=
  rfl

@[simp] theorem openBlocks_cons (token : Token) (tokens : List Token) :
    openBlocks (token :: tokens) = blockStep token.kind + openBlocks tokens :=
  rfl

@[simp] theorem openBlocks_append (first second : List Token) :
    openBlocks (first ++ second) = openBlocks first + openBlocks second := by
  induction first with
  | nil => simp
  | cons token more ih => simp [ih, Int.add_assoc]

/-- A beginning of a concatenation ends in the first part or goes on into the second. -/
theorem prefix_append_cases {front first second : List Token} (h : front <+: first ++ second) :
    front <+: first ∨ ∃ more, more <+: second ∧ front = first ++ more := by
  rcases List.prefix_or_prefix_of_prefix h (List.prefix_append first second) with hfirst | hfirst
  · exact .inl hfirst
  · obtain ⟨more, rfl⟩ := hfirst
    exact .inr ⟨more, (List.prefix_append_right_inj first).mp h, rfl⟩

/-- Each `end` closes a block that is open, and none is left open. -/
structure Balanced (tokens : List Token) : Prop where
  settled : openBlocks tokens = 0
  nonneg (front : List Token) : front <+: tokens → 0 ≤ openBlocks front

theorem Balanced.nil : Balanced [] where
  settled := rfl
  nonneg front h := by simp [List.prefix_nil.mp h]

theorem Balanced.cons {token : Token} {tokens : List Token} (htoken : blockStep token.kind = 0)
    (h : Balanced tokens) : Balanced (token :: tokens) where
  settled := by simp [htoken, h.settled]
  nonneg front hfront := by
    rcases List.prefix_cons_iff.mp hfront with rfl | ⟨more, rfl, hmore⟩
    · simp
    · simpa [htoken] using h.nonneg more hmore

theorem Balanced.append {first second : List Token} (hfirst : Balanced first)
    (hsecond : Balanced second) : Balanced (first ++ second) where
  settled := by simp [hfirst.settled, hsecond.settled]
  nonneg front hfront := by
    rcases prefix_append_cases hfront with hfront | ⟨more, hmore, rfl⟩
    · exact hfirst.nonneg front hfront
    · simpa [hfirst.settled] using hsecond.nonneg more hmore

section Block

variable {opening closing : Token} {inner : List Token}

/-- Inside a block it is open. -/
theorem openBlocks_of_prefix_block (hopening : opening.kind = .beginKw) (hinner : Balanced inner)
    {front : List Token} (hfront : front <+: opening :: inner ++ [closing]) (hne : front ≠ [])
    (hproper : front ≠ opening :: inner ++ [closing]) : 0 < openBlocks front := by
  rcases List.prefix_concat_iff.mp hfront with rfl | hfront
  · exact absurd rfl hproper
  · rcases List.prefix_cons_iff.mp hfront with rfl | ⟨more, rfl, hmore⟩
    · exact absurd rfl hne
    · have hnonneg := hinner.nonneg more hmore
      simp only [openBlocks_cons, hopening, blockStep]
      omega

theorem openBlocks_block (hopening : opening.kind = .beginKw) (hclosing : closing.kind = .endKw)
    (hinner : Balanced inner) : openBlocks (opening :: inner ++ [closing]) = 0 := by
  simp [hopening, hclosing, blockStep, hinner.settled]

theorem Balanced.block (hopening : opening.kind = .beginKw) (hclosing : closing.kind = .endKw)
    (hinner : Balanced inner) : Balanced (opening :: inner ++ [closing]) where
  settled := openBlocks_block hopening hclosing hinner
  nonneg front hfront := by
    by_cases hne : front = []
    · simp [hne]
    · by_cases hproper : front = opening :: inner ++ [closing]
      · exact hproper ▸ Int.le_of_eq (openBlocks_block hopening hclosing hinner).symm
      · exact Int.le_of_lt (openBlocks_of_prefix_block hopening hinner hfront hne hproper)

end Block

/-! ### The constructs -/

theorem blockStep_of_mem_operators {tier : Tier} {kind : TokenKind} (h : kind ∈ tier.operators) :
    blockStep kind = 0 := by
  cases tier <;> simp only [Tier.operators, List.mem_cons, List.not_mem_nil, or_false] at h
  all_goals rcases h with rfl | rfl | rfl <;> rfl

theorem DerivesExpr.balanced {tier : Tier} {tokens : List Token} {e : Expr}
    (h : DerivesExpr tier tokens e) : Balanced tokens := by
  induction h with
  | intLit hkind | use hkind => exact .cons (by rw [hkind]; rfl) .nil
  | boolLit hkind => exact .cons (by rcases hkind with h | h <;> rw [h] <;> rfl) .nil
  | parentheses hopening _ hclosing ih =>
    exact .append (.cons (by rw [hopening]; rfl) ih) (.cons (by rw [hclosing]; rfl) .nil)
  | operand _ ih => exact ih
  | join _ hoperator _ ihleft ihright =>
    exact .append ihleft (.cons (blockStep_of_mem_operators hoperator) ihright)

theorem DerivesStmts.balanced {statements : List Stmt}
    (ih : ∀ statement ∈ statements, ∀ tokens, DerivesStmt tokens statement → Balanced tokens)
    {tokens : List Token} (h : DerivesStmts tokens statements) : Balanced tokens := by
  induction statements generalizing tokens with
  | nil =>
    cases h
    exact .nil
  | cons statement more ihmore =>
    cases h with
    | cons hstatement hsemicolon hmore =>
      have hlater := ihmore (fun other hmem ↦ ih other (by simp [hmem])) hmore
      exact .append (ih statement (by simp) _ hstatement)
        (.cons (by rw [hsemicolon]; rfl) hlater)

/-- In a statement `begin` and `end` match. -/
theorem DerivesStmt.balanced {statement : Stmt} :
    ∀ {tokens : List Token}, DerivesStmt tokens statement → Balanced tokens := by
  induction statement with
  | assign target value =>
    intro tokens h
    cases h with
    | assign htarget hsign hvalue =>
      exact .cons (by rw [htarget]; rfl) (.cons (by rw [hsign]; rfl) hvalue.balanced)
  | ifThen condition body ih =>
    intro tokens h
    cases h with
    | ifThen hif hcondition hthen hbody =>
      exact .append (.cons (by rw [hif]; rfl) hcondition.balanced)
        (.cons (by rw [hthen]; rfl) (ih hbody))
  | ifElse condition body alternative ihbody ihalternative =>
    intro tokens h
    cases h with
    | ifElse hif hcondition hthen hbody helse halternative =>
      exact .append (.append (.cons (by rw [hif]; rfl) hcondition.balanced)
        (.cons (by rw [hthen]; rfl) (ihbody hbody)))
        (.cons (by rw [helse]; rfl) (ihalternative halternative))
  | loop condition body ih =>
    intro tokens h
    cases h with
    | loop hwhile hcondition hdo hbody =>
      exact .append (.cons (by rw [hwhile]; rfl) hcondition.balanced)
        (.cons (by rw [hdo]; rfl) (ih hbody))
  | block statements ih =>
    intro tokens h
    cases h with
    | block hopening hinner hclosing =>
      exact .block hopening hclosing (hinner.balanced fun s hs tokens ↦ ih s hs)

/-- Declarations neither open nor close a block. -/
theorem DerivesDecls.no_blocks {tokens : List Token} {declarations : List Decl}
    (h : DerivesDecls tokens declarations) : ∀ token ∈ tokens, blockStep token.kind = 0 := by
  induction h with
  | nil => simp
  | cons hvar hname hcolon htype hsemicolon _ ih =>
    rcases htype with htype | htype <;>
      simp [hvar, hname, hcolon, htype, hsemicolon, blockStep] <;> exact ih

/-! ### Programs -/

/-- The tokens open a block, and leave none open. -/
def ClosesBlock (tokens : List Token) : Prop :=
  (∃ token ∈ tokens, token.kind = .beginKw) ∧ openBlocks tokens = 0

theorem openBlocks_of_no_blocks {tokens : List Token}
    (h : ∀ token ∈ tokens, blockStep token.kind = 0) : openBlocks tokens = 0 := by
  induction tokens with
  | nil => rfl
  | cons token more ih => simp_all

/-- A program ends where its main block is closed, and not before. -/
theorem DerivesProgram.closesBlock {tokens : List Token} {program : Program}
    (h : DerivesProgram tokens program) :
    ClosesBlock tokens ∧ ∀ front, front <+: tokens → ClosesBlock front → front = tokens := by
  cases h with
  | @intro programWord name semicolon first second declarations statements hprogram hname
      hsemicolon hdeclarations hbody =>
    cases hbody with
    | @block opening closing inner _ hopening hinner hclosing =>
      have hbalanced : Balanced inner := hinner.balanced fun _ _ _ ↦ DerivesStmt.balanced
      have hheader : ∀ token ∈ programWord :: name :: semicolon :: first,
          blockStep token.kind = 0 := by
        simpa [hprogram, hname, hsemicolon, blockStep] using hdeclarations.no_blocks
      have hopens := openBlocks_of_no_blocks hheader
      refine ⟨⟨⟨opening, by simp, hopening⟩, ?_⟩, fun front hfront hcloses ↦ ?_⟩
      · rw [openBlocks_append, hopens, openBlocks_block hopening hclosing hbalanced]
        rfl
      · obtain ⟨⟨token, hmem, htoken⟩, hsettled⟩ := hcloses
        rcases prefix_append_cases hfront with hfront | ⟨more, hmore, rfl⟩
        · have hstep := hheader token (hfront.subset hmem)
          rw [htoken] at hstep
          cases hstep
        · rw [openBlocks_append, hopens, Int.zero_add] at hsettled
          have hne : more ≠ [] := by
            rintro rfl
            have hstep := hheader token (by simpa using hmem)
            rw [htoken] at hstep
            cases hstep
          rcases Decidable.em (more = opening :: inner ++ [closing]) with rfl | hproper
          · rfl
          · have hopen := openBlocks_of_prefix_block hopening hbalanced hmore hne hproper
            omega

/-- What closes a block in front of a program and what follows it is no shorter than the program. -/
theorem DerivesProgram.prefix_of_closesBlock {tokens front : List Token} {program : Program}
    (h : DerivesProgram tokens program) {more : List Token} (hfront : front <+: tokens ++ more)
    (hcloses : ClosesBlock front) : tokens <+: front := by
  rcases prefix_append_cases hfront with hshort | ⟨later, -, rfl⟩
  · have hsame := h.closesBlock.2 front hshort hcloses
    exact ⟨[], by rw [List.append_nil, hsame]⟩
  · exact List.prefix_append tokens later

/-- Of the beginnings of a token list at most one is a program. -/
theorem DerivesProgram.eq_of_prefix {tokens first second : List Token} {program other : Program}
    (hfirst : first <+: tokens) (hsecond : second <+: tokens)
    (hprogram : DerivesProgram first program) (hother : DerivesProgram second other) :
    first = second := by
  rcases List.prefix_or_prefix_of_prefix hfirst hsecond with h | h
  · exact hother.closesBlock.2 first h hprogram.closesBlock.1
  · exact (hprogram.closesBlock.2 second h hother.closesBlock.1).symm

end StackCompiler.Grammar
