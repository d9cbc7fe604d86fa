import StackCompiler.Proofs.Grammar.Depth

/-!
# Rules look one token ahead

A rule decides on the kind of the next token, so what it does in front of some pending tokens
depends on nothing behind the first of them (`Foresees`): if it leaves them, or stops in front of
them, it would do the same in front of other tokens that start with the same kind. A number with a
fraction is no part of any construct, and no rule but the one for operands treats it otherwise than
an integer; with that exception the rules do the same in front of an integer as in front of a number
with a fraction (`Alike`).

A loop takes its turns off the tokens that are pending when it starts, and these do reach to the
end. It has turns to spare, however: with as many turns as there are tokens it does what it does
with more (`SameUpTo`).
-/

set_option autoImplicit false
set_option relaxedAutoImplicit false

namespace StackCompiler.Grammar

variable {α β : Type}

/-! ### Turns to spare -/

/-- The rules do the same on so few tokens. -/
def SameUpTo (size : Nat) (rule other : Rule α) : Prop :=
  ∀ pending, pending.length ≤ size → rule pending = other pending

theorem SameUpTo.refl (size : Nat) (rule : Rule α) : SameUpTo size rule rule :=
  fun _ _ ↦ rfl

theorem SameUpTo.bind {size : Nat} {rule other : Rule α} {next otherNext : α → Rule β}
    (hrule : SameUpTo size rule other) (hshortens : Shortens rule)
    (hnext : ∀ a, SameUpTo size (next a) (otherNext a)) :
    SameUpTo size (rule >>= next) (other >>= otherNext) := by
  intro pending hlength
  have hsame := hrule pending hlength
  cases hresult : rule pending with
  | error stop => rw [bind_of_error hresult, bind_of_error (hsame ▸ hresult)]
  | ok result =>
    rw [bind_of_ok hresult, bind_of_ok (hsame ▸ hresult)]
    exact hnext result.1 result.2 (Nat.le_trans (hshortens _ _ _ hresult) hlength)

theorem SameUpTo.accept_bind {size : Nat} {member : TokenKind → Bool}
    {next other : Option Token → Rule β} (hnone : SameUpTo size (next none) (other none))
    (hsome : ∀ token, ∀ smaller < size, SameUpTo smaller (next (some token)) (other (some token))) :
    SameUpTo size (accept? member >>= next) (accept? member >>= other) := by
  intro pending hlength
  cases hresult : accept? member pending with
  | error stop => rw [bind_of_error hresult, bind_of_error hresult]
  | ok result =>
    obtain ⟨found, rest⟩ := result
    rw [bind_of_ok hresult, bind_of_ok hresult]
    cases found with
    | none => exact hnone _ ((eq_of_accept?_eq_none hresult).1 ▸ hlength)
    | some token =>
      obtain ⟨rfl, -⟩ := accept?_eq_some.mp hresult
      exact hsome token rest.length hlength rest (Nat.le_refl _)

theorem SameUpTo.get_bind {size : Nat} {next other : List Token → Rule β}
    (h : ∀ pending, SameUpTo size (next pending) (other pending)) :
    SameUpTo size (get >>= next) (get >>= other) := by
  intro pending hlength
  rw [get_bind_apply, get_bind_apply]
  exact h pending pending hlength

theorem SameUpTo.expect_bind {size : Nat} {kind : TokenKind} {next other : Token → Rule β}
    (h : ∀ token, ∀ smaller < size, SameUpTo smaller (next token) (other token)) :
    SameUpTo size (expect kind >>= next) (expect kind >>= other) := by
  intro pending hlength
  cases hresult : expect kind pending with
  | error stop => rw [bind_of_error hresult, bind_of_error hresult]
  | ok result =>
    obtain ⟨token, rest⟩ := result
    rw [bind_of_ok hresult, bind_of_ok hresult]
    obtain ⟨rfl, -⟩ := expect_eq_ok.mp hresult
    exact h token rest.length hlength rest (Nat.le_refl _)

/-- A loop does the same with any turns, if there are as many of them as tokens. -/
def TurnsToSpare (loop : List Token → Rule α) : Prop :=
  ∀ turns more size, size ≤ turns.length → size ≤ more.length →
    SameUpTo size (loop turns) (loop more)

theorem TurnsToSpare.eq_of_le {loop : List Token → Rule α} (h : TurnsToSpare loop)
    {pending turns : List Token} (hle : pending.length ≤ turns.length) :
    loop pending pending = loop turns pending :=
  h pending turns _ (Nat.le_refl _) hle pending (Nat.le_refl _)

/-- A loop has turns to spare if it does nothing at the end of the tokens and each of its turns but
the last takes a token. -/
theorem TurnsToSpare.of_step {ι : Type} {loop : ι → List Token → Rule α}
    (hend : ∀ i turns, loop i turns [] = loop i [] [])
    (hstep : ∀ turn turns other more size,
      (∀ i, ∀ smaller < size, SameUpTo smaller (loop i turns) (loop i more)) →
        ∀ i, SameUpTo size (loop i (turn :: turns)) (loop i (other :: more))) (i : ι) :
    TurnsToSpare (loop i) := by
  intro turns
  induction turns generalizing i with
  | nil =>
    intro more size hturns _ pending hlength
    obtain rfl : pending = [] := by simpa using Nat.le_trans hlength hturns
    exact (hend i more).symm
  | cons turn turns ih =>
    intro more size hturns hmore
    cases more with
    | nil =>
      intro pending hlength
      obtain rfl : pending = [] := by simpa using Nat.le_trans hlength hmore
      exact hend i (turn :: turns)
    | cons other more =>
      simp only [List.length_cons] at hturns hmore
      exact hstep turn turns other more size
        (fun i smaller hsmaller ↦ ih i more smaller (by omega) (by omega)) i

theorem joinRight_turnsToSpare {member : TokenKind → Bool} {next : Rule Expr}
    (hnext : Shortens next) (left : Expr) :
    TurnsToSpare fun turns ↦ joinRight member next turns left := by
  refine @TurnsToSpare.of_step _ _ (fun left turns ↦ joinRight member next turns left)
    (fun left turns ↦ by cases turns <;> rfl) (fun _ turns _ more size hturns left ↦ ?_) left
  exact .accept_bind (.refl size _) fun operator smaller hsmaller ↦
    .bind (.refl smaller _) hnext fun right ↦ hturns _ smaller hsmaller

theorem statements_turnsToSpare {inner : Rule Stmt} (hinner : ReadsFront inner) :
    TurnsToSpare (statements inner) := by
  refine @TurnsToSpare.of_step _ Unit (fun _ ↦ statements inner)
    (fun _ turns ↦ by cases turns <;> rfl) (fun _ turns _ more size hturns _ ↦ ?_) ()
  refine .get_bind fun pending ↦ ?_
  dsimp only
  split
  · exact .refl size _
  · exact .bind (.refl size _) hinner.shortens fun statement ↦
      .expect_bind fun _ smaller hsmaller ↦ .bind (hturns () smaller hsmaller)
        (statements_sound hinner turns).shortens fun later ↦ .refl smaller _

theorem declarations_turnsToSpare : TurnsToSpare declarations := by
  refine @TurnsToSpare.of_step _ Unit (fun _ ↦ declarations)
    (fun _ turns ↦ by cases turns <;> rfl) (fun _ turns _ more size hturns _ ↦ ?_) ()
  exact .accept_bind (.refl size _) fun word smaller hsmaller ↦
    .bind (.refl smaller _) declaration_shortens fun decl ↦ .bind (hturns () smaller hsmaller)
      (declarations_sound turns).shortens fun later ↦ .refl smaller _

/-! ### Looking ahead -/

/-- The pending tokens start with the same kind; or some with a number with a fraction and the
others with an integer. -/
def Alike (pending other : List Token) : Prop :=
  kindOfNext other = kindOfNext pending ∨
    kindOfNext pending = .floatLit ∧ kindOfNext other = .intLit

theorem Alike.append {pending other : List Token} (h : Alike pending other) (front : List Token) :
    Alike (front ++ pending) (front ++ other) := by
  cases front with
  | nil => exact h
  | cons token more => exact .inl rfl

/-- What a rule does in front of pending tokens it does in front of others that are alike, as long
as it starts in front of a kind of a class. -/
structure ForeseesFrom (first : TokenKind → Prop) (rule : Rule α) : Prop where
  suffix_of_ok {pending rest : List Token} {a : α} :
    rule pending = .ok (a, rest) → rest <:+ pending
  suffix_of_stop {pending : List Token} {stop : Stop} :
    rule pending = .error stop → stop.pending <:+ pending
  ok {front rest other : List Token} {a : α} :
    first (kindOfNext (front ++ rest)) → first (kindOfNext (front ++ other)) → Alike rest other →
      rule (front ++ rest) = .ok (a, rest) → rule (front ++ other) = .ok (a, other)
  stop {front rest other : List Token} {refusal : Refusal} :
    first (kindOfNext (front ++ rest)) → first (kindOfNext (front ++ other)) → Alike rest other →
      (refusal = .floatLiteral → kindOfNext other = .floatLit) →
      rule (front ++ rest) = .error ⟨refusal, rest⟩ →
      rule (front ++ other) = .error ⟨refusal, other⟩
  float_of_stop {pending rest : List Token} :
    first (kindOfNext pending) → rule pending = .error ⟨.floatLiteral, rest⟩ →
      kindOfNext rest = .floatLit

/-- What a rule does in front of pending tokens it does in front of others that are alike. -/
abbrev Foresees (rule : Rule α) : Prop :=
  ForeseesFrom (fun _ ↦ True) rule

theorem Foresees.startingFrom {rule : Rule α} (h : Foresees rule) (first : TokenKind → Prop) :
    ForeseesFrom first rule where
  suffix_of_ok := h.suffix_of_ok
  suffix_of_stop := h.suffix_of_stop
  ok _ _ := h.ok trivial trivial
  stop _ _ := h.stop trivial trivial
  float_of_stop _ := h.float_of_stop trivial

theorem Foresees.pure (a : α) : Foresees (Pure.pure a : Rule α) where
  suffix_of_ok h := by
    obtain ⟨-, rfl⟩ := pure_eq_ok.mp h
    exact List.suffix_rfl
  suffix_of_stop h := by cases h
  ok _ _ _ h := by
    obtain ⟨rfl, hrest⟩ := pure_eq_ok.mp h
    obtain rfl := List.append_left_eq_self.mp hrest
    rfl
  stop _ _ _ _ h := by cases h
  float_of_stop _ h := by cases h

theorem ForeseesFrom.refuse {first : TokenKind → Prop} {refusal : Refusal}
    (h : refusal = .floatLiteral → ∀ kind, first kind → kind = .floatLit) :
    ForeseesFrom first (Grammar.refuse refusal : Rule α) where
  suffix_of_ok h := by cases h
  suffix_of_stop h := by
    cases h
    exact List.suffix_rfl
  ok _ _ _ h := by cases h
  stop _ _ _ _ h := by
    simp only [refuse_apply, Except.error.injEq, Stop.mk.injEq, List.append_left_eq_self] at h
    obtain ⟨rfl, rfl⟩ := h
    rfl
  float_of_stop hfirst hstop := by
    cases hstop
    exact h rfl _ hfirst

/-- What is left behind a rule and the next one stands behind what each of them has taken. -/
theorem exists_split {front middle rest : List Token} (hmiddle : middle <:+ front ++ rest)
    (hrest : rest <:+ middle) :
    ∃ earlier later, front = earlier ++ later ∧ middle = later ++ rest := by
  obtain ⟨later, rfl⟩ := hrest
  obtain ⟨earlier, h⟩ := hmiddle
  rw [← List.append_assoc, List.append_cancel_right_eq] at h
  exact ⟨earlier, later, h.symm, rfl⟩

theorem bind_eq_error {rule : Rule α} {next : α → Rule β} {pending : List Token} {stop : Stop} :
    (rule >>= next) pending = .error stop ↔
      rule pending = .error stop ∨
        ∃ a middle, rule pending = .ok (a, middle) ∧ next a middle = .error stop := by
  cases hresult : rule pending with
  | error other => simp [bind_of_error hresult]
  | ok result =>
    rw [bind_of_ok hresult]
    constructor
    · exact fun h ↦ .inr ⟨result.1, result.2, rfl, h⟩
    · rintro (h | ⟨a, middle, h, hnext⟩)
      · cases h
      · cases h
        exact hnext

theorem ForeseesFrom.bind {first : TokenKind → Prop} {rule : Rule α} {next : α → Rule β}
    (hrule : ForeseesFrom first rule) (hnext : ∀ a, Foresees (next a)) :
    ForeseesFrom first (rule >>= next) where
  suffix_of_ok h := by
    obtain ⟨a, middle, hmiddle, hrest⟩ := bind_eq_ok.mp h
    exact ((hnext a).suffix_of_ok hrest).trans (hrule.suffix_of_ok hmiddle)
  suffix_of_stop h := by
    rcases bind_eq_error.mp h with hstop | ⟨a, middle, hmiddle, hstop⟩
    · exact hrule.suffix_of_stop hstop
    · exact ((hnext a).suffix_of_stop hstop).trans (hrule.suffix_of_ok hmiddle)
  ok hfirst hother halike h := by
    obtain ⟨a, middle, hmiddle, hrest⟩ := bind_eq_ok.mp h
    obtain ⟨earlier, later, rfl, rfl⟩ :=
      exists_split (hrule.suffix_of_ok hmiddle) ((hnext a).suffix_of_ok hrest)
    rw [List.append_assoc] at hfirst hother hmiddle ⊢
    rw [bind_of_ok (hrule.ok hfirst hother (halike.append later) hmiddle)]
    exact (hnext a).ok trivial trivial halike hrest
  stop hfirst hother halike hfloat h := by
    rcases bind_eq_error.mp h with hstop | ⟨a, middle, hmiddle, hstop⟩
    · exact bind_of_error (hrule.stop hfirst hother halike hfloat hstop)
    · obtain ⟨earlier, later, rfl, rfl⟩ :=
        exists_split (hrule.suffix_of_ok hmiddle) ((hnext a).suffix_of_stop hstop)
      rw [List.append_assoc] at hfirst hother hmiddle ⊢
      rw [bind_of_ok (hrule.ok hfirst hother (halike.append later) hmiddle)]
      exact (hnext a).stop trivial trivial halike hfloat hstop
  float_of_stop hfirst h := by
    rcases bind_eq_error.mp h with hstop | ⟨a, middle, hmiddle, hstop⟩
    · exact hrule.float_of_stop hfirst hstop
    · exact (hnext a).float_of_stop trivial hstop

theorem accept?_ne_error {member : TokenKind → Bool} {pending : List Token} {stop : Stop} :
    accept? member pending ≠ .error stop := by
  cases pending with
  | nil => exact nofun
  | cons token rest => by_cases h : member token.kind = true <;> simp [accept?, h]

theorem accept?_foreseesFrom {first : TokenKind → Prop} {member : TokenKind → Bool}
    (hfloat : first .floatLit → first .intLit → member .intLit = member .floatLit)
    (hend : first .endOfFile → member .endOfFile = false) :
    ForeseesFrom first (accept? member) where
  suffix_of_ok {pending rest found} h := by
    cases found with
    | none => exact (eq_of_accept?_eq_none h).1 ▸ List.suffix_rfl
    | some token =>
      obtain ⟨rfl, -⟩ := accept?_eq_some.mp h
      exact List.suffix_cons token rest
  suffix_of_stop h := absurd h accept?_ne_error
  ok {front rest other found} hfirst hother halike h := by
    cases found with
    | none =>
      obtain ⟨hrest, hnone⟩ := eq_of_accept?_eq_none h
      obtain rfl := List.append_left_eq_self.mp hrest.symm
      simp only [List.nil_append] at hfirst hother hnone ⊢
      have hmember : member (kindOfNext rest) = false := by
        rcases hnone with rfl | hnone
        · exact hend hfirst
        · exact hnone
      refine accept?_of_not_mem ?_
      rcases halike with hsame | ⟨hnext, hinteger⟩
      · exact hsame ▸ hmember
      · rw [hinteger, hfloat (hnext ▸ hfirst) (hinteger ▸ hother), ← hnext]
        exact hmember
    | some token =>
      obtain ⟨hpending, hmember⟩ := accept?_eq_some.mp h
      obtain rfl : front = [token] := List.append_cancel_right (by simpa using hpending)
      exact accept?_cons_of_mem hmember other
  stop _ _ _ _ h := absurd h accept?_ne_error
  float_of_stop _ h := absurd h accept?_ne_error

theorem expect_foreseesFrom {first : TokenKind → Prop} {kind : TokenKind}
    (hfloat : first .floatLit → first .intLit → kind ≠ .intLit ∧ kind ≠ .floatLit)
    (hend : first .endOfFile → kind ≠ .endOfFile) : ForeseesFrom first (expect kind) := by
  have haccept : ForeseesFrom first (accept? (· == kind)) := by
    refine accept?_foreseesFrom (fun hfirst hother ↦ ?_) fun hfirst ↦ ?_
    · obtain ⟨hinteger, hfraction⟩ := hfloat hfirst hother
      rw [beq_false_of_ne hinteger.symm, beq_false_of_ne hfraction.symm]
    · exact beq_false_of_ne (hend hfirst).symm
  refine haccept.bind fun found ↦ ?_
  cases found with
  | none => exact .refuse nofun
  | some token => exact .pure token

/-- A rule may look at the kind of the next token first, unless it distinguishes an integer from a
number with a fraction otherwise than by refusing the latter. -/
theorem Foresees.get_bind {next : List Token → Rule α}
    (hkind : ∀ pending other, kindOfNext pending = kindOfNext other → next pending = next other)
    (h : ∀ pending, ForeseesFrom (· = kindOfNext pending) (next pending))
    (hfloat : ∀ pending other, kindOfNext pending = .floatLit → kindOfNext other = .intLit →
      next pending = refuse .floatLiteral ∨ next pending = next other ∧ Foresees (next other)) :
    Foresees (get >>= next) where
  suffix_of_ok {pending rest a} hrun := (h pending).suffix_of_ok hrun
  suffix_of_stop {pending stop} hrun := (h pending).suffix_of_stop hrun
  ok {front rest other a} _ _ halike hrun := by
    rw [get_bind_apply] at hrun ⊢
    rcases halike.append front with hsame | ⟨hnext, hinteger⟩
    · rw [hkind _ _ hsame]
      exact (h _).ok rfl hsame halike hrun
    · rcases hfloat _ _ hnext hinteger with hrefuse | ⟨hsame, hforesees⟩
      · rw [hrefuse] at hrun
        cases hrun
      · rw [hsame] at hrun
        exact hforesees.ok trivial trivial halike hrun
  stop {front rest other refusal} _ _ halike hrefusal hrun := by
    rw [get_bind_apply] at hrun ⊢
    rcases halike.append front with hsame | ⟨hnext, hinteger⟩
    · rw [hkind _ _ hsame]
      exact (h _).stop rfl hsame halike hrefusal hrun
    · rcases hfloat _ _ hnext hinteger with hrefuse | ⟨hsame, hforesees⟩
      · rw [hrefuse, refuse_apply, Except.error.injEq, Stop.mk.injEq] at hrun
        obtain rfl := List.append_left_eq_self.mp hrun.2
        have hfraction := hrefusal hrun.1.symm
        rw [List.nil_append] at hinteger
        simp [hinteger] at hfraction
      · rw [hsame] at hrun
        exact hforesees.stop trivial trivial halike hrefusal hrun
  float_of_stop {pending rest} _ hrun := (h pending).float_of_stop rfl hrun

/-- A loop that has a turn for each pending token looks no farther ahead than its turns do. -/
theorem Foresees.turns {loop : List Token → Rule α} (h : ∀ turns, Foresees (loop turns))
    (hspare : TurnsToSpare loop) : Foresees (get >>= loop) where
  suffix_of_ok {pending rest a} hrun := (h pending).suffix_of_ok hrun
  suffix_of_stop {pending stop} hrun := (h pending).suffix_of_stop hrun
  ok {front rest other a} _ _ halike hrun := by
    rw [get_bind_apply] at hrun ⊢
    have henough : (front ++ rest).length ≤ (front ++ rest ++ other).length := by simp
    have hother : (front ++ other).length ≤ (front ++ rest ++ other).length := by simp
    rw [hspare.eq_of_le henough] at hrun
    rw [hspare.eq_of_le hother]
    exact (h _).ok trivial trivial halike hrun
  stop {front rest other refusal} _ _ halike hkind hrun := by
    rw [get_bind_apply] at hrun ⊢
    have henough : (front ++ rest).length ≤ (front ++ rest ++ other).length := by simp
    have hother : (front ++ other).length ≤ (front ++ rest ++ other).length := by simp
    rw [hspare.eq_of_le henough] at hrun
    rw [hspare.eq_of_le hother]
    exact (h _).stop trivial trivial halike hkind hrun
  float_of_stop {pending rest} _ hrun := (h pending).float_of_stop trivial hrun

/-! ### The rules -/

theorem expect_foresees {kind : TokenKind}
    (hkind : kind ≠ .intLit ∧ kind ≠ .floatLit ∧ kind ≠ .endOfFile) : Foresees (expect kind) :=
  expect_foreseesFrom (fun _ _ ↦ ⟨hkind.1, hkind.2.1⟩) fun _ ↦ hkind.2.2

theorem operand_foresees {inner : Rule Expr} (hinner : Foresees inner) :
    Foresees (operand inner) := by
  refine Foresees.get_bind (fun _ _ h ↦ by simp only [h]) (fun pending ↦ ?_)
    fun pending other h _ ↦ .inl (by simp only [h])
  generalize kindOfNext pending = kind
  cases kind with
  | intLit | trueKw | falseKw | ident =>
    exact .bind (expect_foreseesFrom (by simp) (by simp)) fun token ↦ .pure _
  | lparen =>
    exact .bind (expect_foreseesFrom (by simp) (by simp)) fun _ ↦ .bind hinner fun e ↦
      .bind (expect_foresees (by decide)) fun _ ↦ .pure e
  | floatLit => exact .refuse fun _ kind h ↦ h
  | _ => exact .refuse nofun

theorem joinRight_foresees {member : TokenKind → Bool} {next : Rule Expr}
    (hfloat : member .intLit = member .floatLit) (hend : member .endOfFile = false)
    (hnext : Foresees next) (turns : List Token) (left : Expr) :
    Foresees (joinRight member next turns left) := by
  induction turns generalizing left with
  | nil => exact .pure left
  | cons turn turns ih =>
    refine .bind (accept?_foreseesFrom (fun _ _ ↦ hfloat) fun _ ↦ hend) fun found ↦ ?_
    cases found with
    | none => exact .pure left
    | some operator => exact .bind hnext fun right ↦ ih _

theorem tier_foresees {member : TokenKind → Bool} {next : Rule Expr}
    (hfloat : member .intLit = member .floatLit) (hend : member .endOfFile = false)
    (hnext : Foresees next) (hshortens : Shortens next) : Foresees (tier member next) :=
  .bind hnext fun left ↦ .turns (fun turns ↦ joinRight_foresees hfloat hend hnext turns left)
    (joinRight_turnsToSpare hshortens left)

theorem expression_foresees (depth : Nat) : Foresees (expression depth) := by
  induction depth with
  | zero => exact .refuse nofun
  | succ depth ih =>
    have hfactor := operand_sound (expression_sound depth)
    have hterm := tier_sound mem_operators_of_isMultiplicative hfactor
    have hsimple := tier_sound mem_operators_of_isAdditive hterm
    exact tier_foresees rfl rfl (tier_foresees rfl rfl (tier_foresees rfl rfl
      (operand_foresees ih) hfactor.shortens) hterm.shortens) hsimple.shortens

theorem assignment_foresees {value : Rule Expr} (hvalue : Foresees value) :
    Foresees (assignment value) :=
  .bind (expect_foresees (by decide)) fun _ ↦ .bind (expect_foresees (by decide)) fun _ ↦
    .bind hvalue fun _ ↦ .pure _

theorem conditional_foresees {condition : Rule Expr} {inner : Rule Stmt}
    (hcondition : Foresees condition) (hinner : Foresees inner) :
    Foresees (conditional condition inner) := by
  refine .bind (expect_foresees (by decide)) fun _ ↦ .bind hcondition fun _ ↦
    .bind (expect_foresees (by decide)) fun _ ↦ .bind hinner fun _ ↦
    .bind (accept?_foreseesFrom (fun _ _ ↦ rfl) fun _ ↦ rfl) fun found ↦ ?_
  cases found with
  | none => exact .pure _
  | some word => exact .bind hinner fun _ ↦ .pure _

theorem loop_foresees {condition : Rule Expr} {inner : Rule Stmt}
    (hcondition : Foresees condition) (hinner : Foresees inner) :
    Foresees (loop condition inner) :=
  .bind (expect_foresees (by decide)) fun _ ↦ .bind hcondition fun _ ↦
    .bind (expect_foresees (by decide)) fun _ ↦ .bind hinner fun _ ↦ .pure _

theorem statements_foresees {inner : Rule Stmt} (hinner : Foresees inner) (turns : List Token) :
    Foresees (statements inner turns) := by
  induction turns with
  | nil => exact .pure []
  | cons turn turns ih =>
    have hmore : Foresees (do
        let first ← inner
        let _ ← expect .semicolon
        return first :: (← statements inner turns)) :=
      .bind hinner fun _ ↦ .bind (expect_foresees (by decide)) fun _ ↦ .bind ih fun _ ↦ .pure _
    refine Foresees.get_bind (fun _ _ h ↦ by simp only [h]) (fun pending ↦ ?_)
      fun pending other h hother ↦ .inr ⟨by simp only [h, hother]; rfl, by
        simpa [hother] using hmore⟩
    dsimp only
    split
    · exact Foresees.startingFrom (.pure []) _
    · exact hmore.startingFrom _

theorem block_foresees {inner : Rule Stmt} (hinner : Foresees inner) (hreads : ReadsFront inner) :
    Foresees (block inner) := by
  refine .bind (expect_foresees (by decide)) fun _ ↦ .turns (fun turns ↦ ?_) fun _ _ size h hmore ↦
    .bind (statements_turnsToSpare hreads _ _ size h hmore) (statements_sound hreads _).shortens
      fun body ↦ .refl size _
  exact .bind (statements_foresees hinner turns) fun body ↦
    .bind (expect_foresees (by decide)) fun _ ↦ .pure body

theorem statement_foresees (depth : Nat) : Foresees (statement depth) := by
  induction depth with
  | zero => exact .refuse nofun
  | succ depth ih =>
    have hexpression := expression_foresees depth
    refine Foresees.get_bind (fun _ _ h ↦ by simp only [h]) (fun pending ↦ ?_)
      fun pending other h hother ↦ .inr ⟨by simp only [h, hother], by
        simpa only [hother] using ForeseesFrom.refuse nofun⟩
    generalize kindOfNext pending = kind
    cases kind with
    | ident => exact (assignment_foresees hexpression).startingFrom _
    | ifKw => exact (conditional_foresees hexpression ih).startingFrom _
    | whileKw => exact (loop_foresees hexpression ih).startingFrom _
    | beginKw =>
      exact Foresees.startingFrom
        (.bind (block_foresees ih (statement_sound depth)) fun _ ↦ .pure _) _
    | _ => exact .refuse nofun

theorem typeName_foresees : Foresees typeName := by
  refine .bind (accept?_foreseesFrom (fun _ _ ↦ rfl) fun _ ↦ rfl) fun found ↦ ?_
  cases found with
  | none => exact .refuse nofun
  | some token => exact .pure token

theorem declarations_foresees (turns : List Token) : Foresees (declarations turns) := by
  induction turns with
  | nil => exact .pure []
  | cons turn turns ih =>
    refine .bind (accept?_foreseesFrom (fun _ _ ↦ rfl) fun _ ↦ rfl) fun found ↦ ?_
    cases found with
    | none => exact .pure []
    | some word =>
      have hdeclaration : Foresees declaration :=
        .bind (expect_foresees (by decide)) fun _ ↦ .bind (expect_foresees (by decide)) fun _ ↦
          .bind typeName_foresees fun _ ↦ .bind (expect_foresees (by decide)) fun _ ↦ .pure _
      exact .bind hdeclaration fun _ ↦ .bind ih fun _ ↦ .pure _

theorem program_foresees (depth : Nat) : Foresees (program depth) := by
  refine .bind (expect_foresees (by decide)) fun _ ↦ .bind (expect_foresees (by decide)) fun _ ↦
    .bind (expect_foresees (by decide)) fun _ ↦ .turns (fun turns ↦ ?_) fun _ _ size h hmore ↦
      .bind (declarations_turnsToSpare _ _ size h hmore) (declarations_sound _).shortens
        fun decls ↦ .refl size _
  exact .bind (declarations_foresees turns) fun _ ↦
    .bind (block_foresees (statement_foresees depth) (statement_sound depth)) fun _ ↦ .pure _

end StackCompiler.Grammar
