import StackCompiler.Proofs.Grammar.Soundness

/-!
# The depth of nesting

Rules take the depth to which expressions and statements may nest, and stop when it is used up
(`TooDeep`). The depth has no other effect: a rule with more depth gives the same answer unless the
one with less has stopped for it (`program_refines`), and a depth greater than the number of pending
tokens is never used up (`program_within`), since every level of nesting takes a token.
-/

set_option autoImplicit false
set_option relaxedAutoImplicit false

namespace StackCompiler.Grammar

variable {α β : Type}

/-- A rule has stopped because the depth was used up. -/
def TooDeep (outcome : Except Stop (α × List Token)) : Prop :=
  ∃ pending, outcome = .error ⟨.tooDeep, pending⟩

/-! ### More depth -/

/-- The second rule answers as the first one does, unless that has used up its depth. -/
def Refines (rule deeper : Rule α) : Prop :=
  ∀ pending, TooDeep (rule pending) ∨ rule pending = deeper pending

theorem Refines.refl (rule : Rule α) : Refines rule rule :=
  fun _ ↦ .inr rfl

theorem Refines.bind {rule deeper : Rule α} {next deeperNext : α → Rule β}
    (hrule : Refines rule deeper) (hnext : ∀ a, Refines (next a) (deeperNext a)) :
    Refines (rule >>= next) (deeper >>= deeperNext) := by
  intro pending
  rcases hrule pending with ⟨stopped, hstop⟩ | hsame
  · exact .inl ⟨stopped, bind_of_error hstop⟩
  · cases hresult : rule pending with
    | error stop =>
      rw [bind_of_error hresult, bind_of_error (hsame ▸ hresult)]
      exact .inr rfl
    | ok result =>
      rw [bind_of_ok hresult, bind_of_ok (hsame ▸ hresult)]
      exact hnext result.1 result.2

theorem operand_refines {inner deeper : Rule Expr} (h : Refines inner deeper) :
    Refines (operand inner) (operand deeper) := by
  refine Refines.bind (.refl _) fun pending ↦ ?_
  generalize kindOfNext pending = kind
  cases kind with
  | lparen => exact .bind (.refl _) fun _ ↦ .bind h fun _ ↦ .refl _
  | _ => exact .refl _

theorem joinRight_refines {member : TokenKind → Bool} {next deeper : Rule Expr}
    (h : Refines next deeper) (turns : List Token) (left : Expr) :
    Refines (joinRight member next turns left) (joinRight member deeper turns left) := by
  induction turns generalizing left with
  | nil => exact .refl _
  | cons turn turns ih =>
    refine Refines.bind (.refl _) fun found ↦ ?_
    cases found with
    | none => exact .refl _
    | some operator => exact .bind h fun right ↦ ih _

theorem tier_refines {member : TokenKind → Bool} {next deeper : Rule Expr}
    (h : Refines next deeper) : Refines (tier member next) (tier member deeper) :=
  .bind h fun left ↦ .bind (.refl _) fun turns ↦ joinRight_refines h turns left

theorem expression_refines {depth deeper : Nat} (h : depth ≤ deeper) :
    Refines (expression depth) (expression deeper) := by
  induction depth generalizing deeper with
  | zero => exact fun pending ↦ .inl ⟨pending, rfl⟩
  | succ depth ih =>
    obtain ⟨deeper, rfl⟩ : ∃ smaller, deeper = smaller + 1 := ⟨deeper - 1, by omega⟩
    exact tier_refines (tier_refines (tier_refines (operand_refines (ih (by omega)))))

theorem statements_refines {inner deeper : Rule Stmt} (h : Refines inner deeper)
    (turns : List Token) : Refines (statements inner turns) (statements deeper turns) := by
  induction turns with
  | nil => exact .refl _
  | cons turn turns ih =>
    refine Refines.bind (.refl _) fun pending ↦ ?_
    dsimp only
    split
    · exact .refl _
    · exact .bind h fun first ↦ .bind (.refl _) fun _ ↦ .bind ih fun _ ↦ .refl _

theorem block_refines {inner deeper : Rule Stmt} (h : Refines inner deeper) :
    Refines (block inner) (block deeper) :=
  .bind (.refl _) fun _ ↦ .bind (.refl _) fun turns ↦ .bind (statements_refines h turns)
    fun _ ↦ .refl _

theorem assignment_refines {value deeper : Rule Expr} (h : Refines value deeper) :
    Refines (assignment value) (assignment deeper) :=
  .bind (.refl _) fun _ ↦ .bind (.refl _) fun _ ↦ .bind h fun _ ↦ .refl _

theorem conditional_refines {condition deeperCondition : Rule Expr} {inner deeper : Rule Stmt}
    (hcondition : Refines condition deeperCondition) (h : Refines inner deeper) :
    Refines (conditional condition inner) (conditional deeperCondition deeper) := by
  refine .bind (.refl _) fun _ ↦ .bind hcondition fun e ↦ .bind (.refl _) fun _ ↦ .bind h
    fun body ↦ .bind (.refl _) fun found ↦ ?_
  cases found with
  | none => exact .refl _
  | some word => exact .bind h fun _ ↦ .refl _

theorem loop_refines {condition deeperCondition : Rule Expr} {inner deeper : Rule Stmt}
    (hcondition : Refines condition deeperCondition) (h : Refines inner deeper) :
    Refines (loop condition inner) (loop deeperCondition deeper) :=
  .bind (.refl _) fun _ ↦ .bind hcondition fun _ ↦ .bind (.refl _) fun _ ↦ .bind h fun _ ↦ .refl _

theorem statement_refines {depth deeper : Nat} (h : depth ≤ deeper) :
    Refines (statement depth) (statement deeper) := by
  induction depth generalizing deeper with
  | zero => exact fun pending ↦ .inl ⟨pending, rfl⟩
  | succ depth ih =>
    obtain ⟨deeper, rfl⟩ : ∃ smaller, deeper = smaller + 1 := ⟨deeper - 1, by omega⟩
    have hexpression : Refines (expression depth) (expression deeper) :=
      expression_refines (by omega)
    have hinner := ih (by omega : depth ≤ deeper)
    refine Refines.bind (.refl _) fun pending ↦ ?_
    generalize kindOfNext pending = kind
    cases kind with
    | ident => exact assignment_refines hexpression
    | ifKw => exact conditional_refines hexpression hinner
    | whileKw => exact loop_refines hexpression hinner
    | beginKw => exact .bind (block_refines hinner) fun _ ↦ .refl _
    | _ => exact .refl _

theorem program_refines {depth deeper : Nat} (h : depth ≤ deeper) :
    Refines (program depth) (program deeper) :=
  .bind (.refl _) fun _ ↦ .bind (.refl _) fun _ ↦ .bind (.refl _) fun _ ↦ .bind (.refl _)
    fun _ ↦ .bind (.refl _) fun _ ↦ .bind (block_refines (statement_refines h)) fun _ ↦ .refl _

/-! ### Depth enough -/

/-- A rule never uses up its depth on so few tokens. -/
def Within (size : Nat) (rule : Rule α) : Prop :=
  ∀ pending, pending.length ≤ size → ¬ TooDeep (rule pending)

/-- A rule leaves no more tokens than there were. -/
def Shortens (rule : Rule α) : Prop :=
  ∀ pending a rest, rule pending = .ok (a, rest) → rest.length ≤ pending.length

theorem Sound.shortens {rule : Rule α} {derives : List Token → α → Prop}
    (h : Sound rule derives) : Shortens rule := by
  intro pending a rest hrun
  obtain ⟨tokens, rfl, -⟩ := h _ _ _ hrun
  simp

theorem ReadsFront.shortens {rule : Rule Stmt} (h : ReadsFront rule) : Shortens rule := by
  intro pending a rest hrun
  obtain ⟨tokens, rfl, -⟩ := h _ _ _ hrun
  simp

theorem Within.of_never {rule : Rule α} (h : ∀ pending, ¬ TooDeep (rule pending)) (size : Nat) :
    Within size rule :=
  fun pending _ ↦ h pending

theorem Within.mono {size smaller : Nat} {rule : Rule α} (h : Within size rule)
    (hle : smaller ≤ size) : Within smaller rule :=
  fun pending hlength ↦ h pending (Nat.le_trans hlength hle)

theorem Within.pure (a : α) (size : Nat) : Within size (Pure.pure a : Rule α) :=
  .of_never (fun _ ⟨_, h⟩ ↦ by cases h) size

theorem Within.refuse {refusal : Refusal} (h : refusal ≠ .tooDeep) (size : Nat) :
    Within size (Grammar.refuse refusal : Rule α) :=
  .of_never (fun _ ⟨_, hstop⟩ ↦ by cases hstop; exact h rfl) size

theorem Within.bind {size : Nat} {rule : Rule α} {next : α → Rule β} (hrule : Within size rule)
    (hshortens : Shortens rule) (hnext : ∀ a, Within size (next a)) :
    Within size (rule >>= next) := by
  intro pending hlength
  cases hresult : rule pending with
  | error stop =>
    rw [bind_of_error hresult]
    rintro ⟨stopped, hstop⟩
    cases hstop
    exact hrule pending hlength ⟨stopped, hresult⟩
  | ok result =>
    rw [bind_of_ok hresult]
    exact hnext result.1 result.2 (Nat.le_trans (hshortens _ _ _ hresult) hlength)

theorem Within.get_bind {size : Nat} {next : List Token → Rule β}
    (h : ∀ pending, Within size (next pending)) : Within size (get >>= next) := by
  intro pending hlength
  rw [get_bind_apply]
  exact h pending pending hlength

/-- What comes behind an optional token has no more tokens to deal with, and one less if the token
was there. -/
theorem Within.accept_bind {size : Nat} {member : TokenKind → Bool}
    {next : Option Token → Rule β} (hnone : Within size (next none))
    (hsome : ∀ token, ∀ smaller < size, Within smaller (next (some token))) :
    Within size (accept? member >>= next) := by
  intro pending hlength
  cases pending with
  | nil => exact hnone [] hlength
  | cons token rest =>
    by_cases hmember : member token.kind = true
    · rw [bind_of_ok (accept?_cons_of_mem hmember rest)]
      exact hsome token rest.length hlength rest (Nat.le_refl _)
    · rw [bind_of_ok (accept?_of_not_mem (by simpa using hmember))]
      exact hnone _ hlength

theorem expect_within (kind : TokenKind) (size : Nat) : Within size (expect kind) :=
  .accept_bind (.refuse (by simp) size) fun token smaller _ ↦ .pure token smaller

theorem Within.expect_bind {size : Nat} {kind : TokenKind} {next : Token → Rule β}
    (h : ∀ token, ∀ smaller < size, Within smaller (next token)) :
    Within size (expect kind >>= next) := by
  intro pending hlength
  cases hresult : expect kind pending with
  | error stop =>
    rw [bind_of_error hresult]
    rintro ⟨stopped, hstop⟩
    cases hstop
    exact expect_within kind size pending hlength ⟨stopped, hresult⟩
  | ok result =>
    obtain ⟨token, rest⟩ := result
    rw [bind_of_ok hresult]
    obtain ⟨rfl, -⟩ := expect_eq_ok.mp hresult
    exact h token rest.length hlength rest (Nat.le_refl _)

/-! ### The rules -/

theorem operand_within {size : Nat} {inner : Rule Expr}
    (hinner : ∀ smaller < size, Within smaller inner) (hshortens : Shortens inner) :
    Within size (operand inner) := by
  refine .get_bind fun pending ↦ ?_
  generalize kindOfNext pending = kind
  cases kind with
  | intLit | trueKw | falseKw | ident => exact .expect_bind fun _ smaller _ ↦ .pure _ smaller
  | lparen =>
    exact .expect_bind fun _ smaller hsmaller ↦ .bind (hinner smaller hsmaller) hshortens
      fun _ ↦ .expect_bind fun _ least _ ↦ .pure _ least
  | _ => exact .refuse (by simp) size

theorem joinRight_within {size : Nat} {member : TokenKind → Bool} {next : Rule Expr}
    (hnext : Within size next) (hshortens : Shortens next) (turns : List Token) (left : Expr) :
    Within size (joinRight member next turns left) := by
  induction turns generalizing left with
  | nil => exact .pure left size
  | cons turn turns ih =>
    refine .accept_bind (.pure left size) fun operator smaller hsmaller ↦ ?_
    exact .bind (hnext.mono (Nat.le_of_lt hsmaller)) hshortens fun right ↦
      (ih _).mono (Nat.le_of_lt hsmaller)

theorem tier_within {size : Nat} {member : TokenKind → Bool} {next : Rule Expr}
    (hnext : Within size next) (hshortens : Shortens next) : Within size (tier member next) :=
  .bind hnext hshortens fun left ↦ .get_bind fun turns ↦ joinRight_within hnext hshortens turns left

theorem expression_within (depth : Nat) : ∀ size < depth, Within size (expression depth) := by
  induction depth with
  | zero => intro size hsize; omega
  | succ depth ih =>
    intro size hsize
    have hinner : ∀ smaller < size, Within smaller (expression depth) :=
      fun smaller hsmaller ↦ ih smaller (by omega)
    have hfactor := operand_sound (expression_sound depth)
    have hterm := tier_sound mem_operators_of_isMultiplicative hfactor
    have hsimple := tier_sound mem_operators_of_isAdditive hterm
    exact tier_within (tier_within (tier_within
      (operand_within hinner (expression_sound depth).shortens) hfactor.shortens)
      hterm.shortens) hsimple.shortens

theorem assignment_within {size : Nat} {value : Rule Expr}
    (hvalue : ∀ smaller < size, Within smaller value) (hshortens : Shortens value) :
    Within size (assignment value) :=
  .expect_bind fun _ smaller hsmaller ↦ .expect_bind fun _ least hleast ↦
    .bind (hvalue least (by omega)) hshortens fun _ ↦ .pure _ least

theorem conditional_within {size : Nat} {condition : Rule Expr} {inner : Rule Stmt}
    (hcondition : ∀ smaller < size, Within smaller condition) (hshortens : Shortens condition)
    (hinner : ∀ smaller < size, Within smaller inner) (hinnerShortens : Shortens inner) :
    Within size (conditional condition inner) := by
  refine .expect_bind fun _ smaller hsmaller ↦ .bind (hcondition smaller hsmaller) hshortens
    fun _ ↦ .expect_bind fun _ less hless ↦ .bind (hinner less (by omega)) hinnerShortens
    fun _ ↦ .accept_bind (.pure _ less) fun _ least hleast ↦ ?_
  exact .bind (hinner least (by omega)) hinnerShortens fun _ ↦ .pure _ least

theorem loop_within {size : Nat} {condition : Rule Expr} {inner : Rule Stmt}
    (hcondition : ∀ smaller < size, Within smaller condition) (hshortens : Shortens condition)
    (hinner : ∀ smaller < size, Within smaller inner) (hinnerShortens : Shortens inner) :
    Within size (loop condition inner) :=
  .expect_bind fun _ smaller hsmaller ↦ .bind (hcondition smaller hsmaller) hshortens
    fun _ ↦ .expect_bind fun _ less hless ↦ .bind (hinner less (by omega)) hinnerShortens
    fun _ ↦ .pure _ less

theorem statements_within {size : Nat} {inner : Rule Stmt} (hinner : Within size inner)
    (hreads : ReadsFront inner) (turns : List Token) : Within size (statements inner turns) := by
  induction turns with
  | nil => exact .pure [] size
  | cons turn turns ih =>
    refine .get_bind fun pending ↦ ?_
    dsimp only
    split
    · exact .pure [] size
    · refine .bind hinner hreads.shortens fun _ ↦ .expect_bind fun _ smaller hsmaller ↦ ?_
      exact .bind (ih.mono (Nat.le_of_lt hsmaller)) (statements_sound hreads turns).shortens
        fun _ ↦ .pure _ smaller

theorem block_within {size : Nat} {inner : Rule Stmt}
    (hinner : ∀ smaller < size, Within smaller inner) (hreads : ReadsFront inner) :
    Within size (block inner) :=
  .expect_bind fun _ smaller hsmaller ↦ .get_bind fun turns ↦
    .bind (statements_within (hinner smaller hsmaller) hreads turns)
      (statements_sound hreads turns).shortens fun _ ↦ .expect_bind fun _ least _ ↦ .pure _ least

theorem statement_within (depth : Nat) : ∀ size < depth, Within size (statement depth) := by
  induction depth with
  | zero => intro size hsize; omega
  | succ depth ih =>
    intro size hsize
    have hexpression : ∀ smaller < size, Within smaller (expression depth) :=
      fun smaller hsmaller ↦ expression_within depth smaller (by omega)
    have hinner : ∀ smaller < size, Within smaller (statement depth) :=
      fun smaller hsmaller ↦ ih smaller (by omega)
    have hshortens := (expression_sound depth).shortens
    have hreads := statement_sound depth
    refine .get_bind fun pending ↦ ?_
    generalize kindOfNext pending = kind
    cases kind with
    | ident => exact assignment_within hexpression hshortens
    | ifKw => exact conditional_within hexpression hshortens hinner hreads.shortens
    | whileKw => exact loop_within hexpression hshortens hinner hreads.shortens
    | beginKw =>
      exact .bind (block_within hinner hreads) (block_sound hreads).shortens
        fun _ ↦ .pure _ size
    | _ => exact .refuse (by simp) size

theorem declaration_within (size : Nat) : Within size declaration := by
  refine .expect_bind fun _ first _ ↦ .expect_bind fun _ second _ ↦ .bind ?_ ?_
    fun _ ↦ .expect_bind fun _ third _ ↦ .pure _ third
  · exact .accept_bind (.refuse (by simp) second) fun _ third _ ↦ .pure _ third
  · intro pending type rest h
    obtain ⟨rfl, -⟩ := typeName_eq_ok.mp h
    simp

theorem declaration_shortens : Shortens declaration := by
  intro pending found rest h
  simp only [declaration, bind_eq_ok, expect_eq_ok, typeName_eq_ok, pure_eq_ok] at h
  obtain ⟨name, _, ⟨rfl, -⟩, colon, _, ⟨rfl, -⟩, type, _, ⟨rfl, -⟩, semicolon, _, ⟨rfl, -⟩, -,
    rfl⟩ := h
  simp only [List.length_cons]
  omega

theorem declarations_within (turns : List Token) (size : Nat) :
    Within size (declarations turns) := by
  induction turns generalizing size with
  | nil => exact .pure [] size
  | cons turn turns ih =>
    exact .accept_bind (.pure [] size) fun _ smaller _ ↦
      .bind (declaration_within smaller) declaration_shortens fun _ ↦
        .bind (ih smaller) (declarations_sound turns).shortens fun _ ↦ .pure _ smaller

/-- On fewer tokens than its depth the rule for programs never uses the depth up. -/
theorem program_within (depth : Nat) : ∀ size < depth, Within size (program depth) := by
  intro size hsize
  refine .expect_bind fun _ first hfirst ↦ .expect_bind fun _ second hsecond ↦
    .expect_bind fun _ third hthird ↦ .get_bind fun turns ↦
    .bind (declarations_within turns third) (declarations_sound turns).shortens fun _ ↦
    .bind (block_within (fun smaller hsmaller ↦ statement_within depth smaller (by omega))
      (statement_sound depth)) (block_sound (statement_sound depth)).shortens fun _ ↦
    .pure _ third

end StackCompiler.Grammar
