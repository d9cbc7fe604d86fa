import StackCompiler.Proofs.Grammar.Acceptance
import StackCompiler.Proofs.Grammar.Foresight

/-!
# A fault stands at the first token that cannot go on

`TokenStream.readProgramWithin_fault` is the main statement: if reading stops with a fault other
than that the depth of nesting is used up, the tokens in front of the fault can be completed to ones
that derive a program, and those up to the token at fault cannot. What the fault says was expected
could stand there, and the fault is that a construct is not supported if and only if the token is a
number with a fraction in a place for an operand.

Both halves go by the structure of the rules. A rule that stops has taken tokens that can be
completed in every way that its refusal admits (`Completes`): the law for sequences completes what
is left of the first rule, and then whatever stands behind it. That no completion goes through the
token at fault holds because a rule that stops in front of a token stops in front of it whatever
comes later (`Foresees`), while a rule for tokens that derive a tree does not stop.
-/

set_option autoImplicit false
set_option relaxedAutoImplicit false

namespace StackCompiler

namespace Grammar

variable {α β : Type}

/-! ### Completions -/

/-- The tokens can be completed to ones that derive something. -/
def Viable (derives : List Token → α → Prop) (tokens : List Token) : Prop :=
  ∃ completion a, derives (tokens ++ completion) a

theorem Viable.of_append {derives : List Token → α → Prop} {tokens more : List Token}
    (h : Viable derives (tokens ++ more)) : Viable derives tokens := by
  obtain ⟨completion, a, hderives⟩ := h
  exact ⟨more ++ completion, a, by simpa using hderives⟩

theorem Viable.of_derives {derives : List Token → α → Prop} {tokens : List Token} {a : α}
    (h : derives tokens a) : Viable derives tokens :=
  ⟨[], a, by simpa using h⟩

/-- What can stand where something is expected. -/
def Expected.Fits : Expected → List Token → Prop
  | token kind, tokens => ∃ token, token.kind = kind ∧ tokens = [token]
  | typeName, tokens =>
    ∃ type, (type.kind = .integerKw ∨ type.kind = .booleanKw) ∧ tokens = [type]
  | statement, tokens => ∃ found, DerivesStmt tokens found
  | expression, tokens => ∃ e, DerivesExpr .factor tokens e

/-- What can stand where a rule stops. -/
def Refusal.Admits : Refusal → List Token → Prop
  | unexpected expected, tokens => expected.Fits tokens
  | floatLiteral, tokens => Expected.expression.Fits tokens
  | tooDeep, _ => False

/-- Behind some tokens a rule goes on with what derives something: they can be completed, and where
the rule stops they can be with whatever its refusal admits. -/
structure Completes (before : List Token) (rule : Rule α) (derives : List Token → β → Prop) :
    Prop where
  viable : Viable derives before
  stop {pending rest : List Token} {refusal : Refusal} :
    rule pending = .error ⟨refusal, rest⟩ →
      ∃ front, pending = front ++ rest ∧
        ∀ tokens, refusal.Admits tokens → Viable derives (before ++ front ++ tokens)

theorem Completes.pure {before : List Token} {derives : List Token → α → Prop} {a : α}
    (h : derives before a) : Completes before (Pure.pure a : Rule α) derives where
  viable := .of_derives h
  stop h := by cases h

theorem Completes.refuse {before : List Token} {derives : List Token → α → Prop}
    {refusal : Refusal} (hviable : Viable derives before)
    (h : ∀ tokens, refusal.Admits tokens → Viable derives (before ++ tokens)) :
    Completes before (Grammar.refuse refusal : Rule α) derives where
  viable := hviable
  stop hstop := by
    cases hstop
    exact ⟨[], rfl, by simpa using h⟩

theorem Completes.get_bind {before : List Token} {derives : List Token → β → Prop}
    {next : List Token → Rule α} (h : ∀ pending, Completes before (next pending) derives) :
    Completes before (get >>= next) derives where
  viable := (h []).viable
  stop hstop := (h _).stop hstop

/-- What is left of a rule is completed first, and then what stands behind it. -/
theorem Completes.bind {before : List Token} {derivesFirst : List Token → α → Prop}
    {derives : List Token → β → Prop} {rule : Rule α} {next : α → Rule β}
    (hrule : Completes [] rule derivesFirst) (hsound : Sound rule derivesFirst)
    (hnext : ∀ tokens a, derivesFirst tokens a → Completes (before ++ tokens) (next a) derives) :
    Completes before (rule >>= next) derives where
  viable := by
    obtain ⟨completion, a, hfirst⟩ := hrule.viable
    exact (hnext _ a hfirst).viable.of_append
  stop {pending rest refusal} hrun := by
    rcases bind_eq_error.mp hrun with hstop | ⟨a, middle, hmiddle, hstop⟩
    · obtain ⟨front, rfl, hadmits⟩ := hrule.stop hstop
      refine ⟨front, rfl, fun tokens htokens ↦ ?_⟩
      obtain ⟨completion, a, hfirst⟩ := hadmits tokens htokens
      have hviable := (hnext _ a hfirst).viable
      simp only [List.nil_append, ← List.append_assoc] at hviable
      exact hviable.of_append
    · obtain ⟨first, rfl, hfirst⟩ := hsound _ _ _ hmiddle
      obtain ⟨second, rfl, hadmits⟩ := (hnext first a hfirst).stop hstop
      exact ⟨first ++ second, by simp, by simpa using hadmits⟩

theorem Completes.accept_bind {before : List Token} {derives : List Token → β → Prop}
    {member : TokenKind → Bool} {next : Option Token → Rule β}
    (hnone : Completes before (next none) derives)
    (hsome : ∀ token, member token.kind = true →
      Completes (before ++ [token]) (next (some token)) derives) :
    Completes before (accept? member >>= next) derives where
  viable := hnone.viable
  stop {pending rest refusal} hrun := by
    rcases bind_eq_error.mp hrun with hstop | ⟨found, middle, hfound, hstop⟩
    · exact absurd hstop accept?_ne_error
    · cases found with
      | none =>
        obtain ⟨rfl, -⟩ := eq_of_accept?_eq_none hfound
        exact hnone.stop hstop
      | some token =>
        obtain ⟨rfl, hmember⟩ := accept?_eq_some.mp hfound
        obtain ⟨front, rfl, hadmits⟩ := (hsome token hmember).stop hstop
        exact ⟨token :: front, rfl, by simpa using hadmits⟩

theorem eq_of_expect_eq_error {kind : TokenKind} {pending : List Token} {stop : Stop}
    (h : expect kind pending = .error stop) : stop = ⟨.unexpected (.token kind), pending⟩ := by
  rcases bind_eq_error.mp h with hstop | ⟨found, middle, hfound, hstop⟩
  · exact absurd hstop accept?_ne_error
  · cases found with
    | none =>
      obtain ⟨rfl, -⟩ := eq_of_accept?_eq_none hfound
      cases hstop
      rfl
    | some token => cases hstop

theorem Completes.expect_bind {before : List Token} {derives : List Token → β → Prop}
    {kind : TokenKind} {next : Token → Rule β}
    (h : ∀ token, token.kind = kind → Completes (before ++ [token]) (next token) derives) :
    Completes before (expect kind >>= next) derives where
  viable := (h (.ofKind kind) rfl).viable.of_append
  stop {pending rest refusal} hrun := by
    rcases bind_eq_error.mp hrun with hstop | ⟨token, middle, hfound, hstop⟩
    · cases eq_of_expect_eq_error hstop
      refine ⟨[], rfl, ?_⟩
      rintro _ ⟨token, hkind, rfl⟩
      simpa using (h token hkind).viable
    · obtain ⟨rfl, hkind⟩ := expect_eq_ok.mp hfound
      obtain ⟨front, rfl, hadmits⟩ := (h token hkind).stop hstop
      exact ⟨token :: front, rfl, by simpa using hadmits⟩

/-! ### Expressions -/

theorem operand_completes {inner : Rule Expr}
    (hinner : Completes [] inner (DerivesExpr .expression))
    (hsound : Sound inner (DerivesExpr .expression)) :
    Completes [] (operand inner) (DerivesExpr .factor) := by
  have hviable : Viable (DerivesExpr .factor) [] := ⟨[.ofKind .intLit], _, .intLit rfl⟩
  have hfits : ∀ tokens, Expected.expression.Fits tokens → Viable (DerivesExpr .factor) tokens :=
    fun tokens ⟨e, he⟩ ↦ .of_derives he
  refine .get_bind fun pending ↦ ?_
  generalize kindOfNext pending = kind
  cases kind with
  | intLit => exact .expect_bind fun token hkind ↦ .pure (.intLit hkind)
  | trueKw => exact .expect_bind fun token hkind ↦ .pure (.boolLit (.inl hkind))
  | falseKw => exact .expect_bind fun token hkind ↦ .pure (.boolLit (.inr hkind))
  | ident => exact .expect_bind fun token hkind ↦ .pure (.use hkind)
  | lparen =>
    exact .expect_bind fun opening hopening ↦ .bind hinner hsound fun tokens e he ↦
      .expect_bind fun closing hclosing ↦ .pure (.parentheses hopening he hclosing)
  | _ => exact .refuse hviable hfits

theorem joinRight_completes {level : Tier} {member : TokenKind → Bool} {next : Rule Expr}
    (hmember : ∀ kind, member kind = true → kind ∈ level.operators)
    (hnext : Completes [] next (DerivesExpr level.operandTier))
    (hsound : Sound next (DerivesExpr level.operandTier)) (turns : List Token) :
    ∀ (left : Expr) (first : List Token), DerivesExpr level first left →
      Completes first (joinRight member next turns left) (DerivesExpr level) := by
  induction turns with
  | nil => exact fun left first hleft ↦ .pure hleft
  | cons turn turns ih =>
    intro left first hleft
    refine .accept_bind (.pure hleft) fun operator hoperator ↦ .bind hnext hsound
      fun second right hright ↦ ih _ _ ?_
    simpa using DerivesExpr.join hleft (hmember _ hoperator) hright

theorem tier_completes {level : Tier} {member : TokenKind → Bool} {next : Rule Expr}
    (hmember : ∀ kind, member kind = true → kind ∈ level.operators)
    (hnext : Completes [] next (DerivesExpr level.operandTier))
    (hsound : Sound next (DerivesExpr level.operandTier)) :
    Completes [] (tier member next) (DerivesExpr level) :=
  .bind hnext hsound fun first left hleft ↦ .get_bind fun turns ↦
    joinRight_completes hmember hnext hsound turns left first (.operand hleft)

theorem expression_completes (depth : Nat) :
    Completes [] (expression depth) (DerivesExpr .expression) := by
  induction depth with
  | zero =>
    have hliteral : DerivesExpr .expression [.ofKind .intLit] (.intLit (.ofKind .intLit)) :=
      .operand (.operand (.operand (.intLit rfl)))
    exact .refuse ⟨_, _, hliteral⟩ nofun
  | succ depth ih =>
    have hfactor := operand_sound (expression_sound depth)
    have hterm := tier_sound mem_operators_of_isMultiplicative hfactor
    have hsimple := tier_sound mem_operators_of_isAdditive hterm
    exact tier_completes mem_operators_of_isComparison
      (tier_completes mem_operators_of_isAdditive
        (tier_completes mem_operators_of_isMultiplicative
          (operand_completes ih (expression_sound depth)) hfactor) hterm) hsimple

/-! ### Statements -/

theorem Sound.mono {rule : Rule α} {derives weaker : List Token → α → Prop}
    (h : Sound rule derives) (himp : ∀ tokens a, derives tokens a → weaker tokens a) :
    Sound rule weaker := by
  intro pending a rest hrun
  obtain ⟨tokens, hpending, hderives⟩ := h _ _ _ hrun
  exact ⟨tokens, hpending, himp tokens a hderives⟩

theorem ReadsFront.sound {rule : Rule Stmt} (h : ReadsFront rule) : Sound rule DerivesStmt := by
  intro pending found rest hrun
  obtain ⟨tokens, hpending, hreads⟩ := h _ _ _ hrun
  exact ⟨tokens, hpending, hreads.derives⟩

theorem assignment_completes {value : Rule Expr}
    (hvalue : Completes [] value (DerivesExpr .expression))
    (hsound : Sound value (DerivesExpr .expression)) :
    Completes [] (assignment value) DerivesStmt :=
  .expect_bind fun _ htarget ↦ .expect_bind fun _ hsign ↦
    .bind hvalue hsound fun _ _ he ↦ .pure (.assign htarget hsign he)

theorem conditional_completes {condition : Rule Expr} {inner : Rule Stmt}
    (hcondition : Completes [] condition (DerivesExpr .expression))
    (hsound : Sound condition (DerivesExpr .expression)) (hinner : Completes [] inner DerivesStmt)
    (hreads : ReadsFront inner) : Completes [] (conditional condition inner) DerivesStmt := by
  refine .expect_bind fun ifWord hif ↦ .bind hcondition hsound fun first e he ↦
    .expect_bind fun thenWord hthen ↦ .bind hinner hreads.sound fun second body hbody ↦
    .accept_bind (.pure ?_) fun elseWord helse ↦ .bind hinner hreads.sound
      fun third alternative halternative ↦ .pure ?_
  · simpa using DerivesStmt.ifThen hif he hthen hbody
  · simpa using DerivesStmt.ifElse hif he hthen hbody (by simpa using helse) halternative

theorem loop_completes {condition : Rule Expr} {inner : Rule Stmt}
    (hcondition : Completes [] condition (DerivesExpr .expression))
    (hsound : Sound condition (DerivesExpr .expression)) (hinner : Completes [] inner DerivesStmt)
    (hreads : ReadsFront inner) : Completes [] (loop condition inner) DerivesStmt := by
  refine .expect_bind fun whileWord hwhile ↦ .bind hcondition hsound fun first e he ↦
    .expect_bind fun doWord hdo ↦ .bind hinner hreads.sound fun second body hbody ↦ .pure ?_
  simpa using DerivesStmt.loop hwhile he hdo hbody

theorem statements_completes {inner : Rule Stmt} (hinner : Completes [] inner DerivesStmt)
    (hreads : ReadsFront inner) (turns : List Token) :
    Completes [] (statements inner turns) DerivesStmts := by
  induction turns with
  | nil => exact .pure .nil
  | cons turn turns ih =>
    have hmore : Sound (statements inner turns) DerivesStmts :=
      (statements_sound hreads turns).mono fun _ _ h ↦ h.1
    refine .get_bind fun pending ↦ ?_
    dsimp only
    split
    · exact .pure .nil
    · refine .bind hinner hreads.sound fun first statement hstatement ↦
        .expect_bind fun semicolon hsemicolon ↦ .bind ih hmore fun later more hlater ↦ .pure ?_
      simpa using DerivesStmts.cons hstatement hsemicolon hlater

theorem block_completes {inner : Rule Stmt} (hinner : Completes [] inner DerivesStmt)
    (hreads : ReadsFront inner) :
    Completes [] (block inner) fun tokens found ↦ DerivesStmt tokens (.block found) :=
  .expect_bind fun _ hopening ↦ .get_bind fun turns ↦
    .bind (statements_completes hinner hreads turns)
      ((statements_sound hreads turns).mono fun _ _ h ↦ h.1) fun _ _ hfound ↦
      .expect_bind fun _ hclosing ↦ .pure (.block hopening hfound hclosing)

theorem statement_completes (depth : Nat) : Completes [] (statement depth) DerivesStmt := by
  have hviable : Viable DerivesStmt [] :=
    ⟨[.ofKind .beginKw, .ofKind .endKw], _, .block rfl .nil rfl⟩
  induction depth with
  | zero => exact .refuse hviable nofun
  | succ depth ih =>
    have hexpression := expression_completes depth
    have hsound := expression_sound depth
    have hreads := statement_sound depth
    refine .get_bind fun pending ↦ ?_
    generalize kindOfNext pending = kind
    cases kind with
    | ident => exact assignment_completes hexpression hsound
    | ifKw => exact conditional_completes hexpression hsound ih hreads
    | whileKw => exact loop_completes hexpression hsound ih hreads
    | beginKw =>
      exact .bind (block_completes ih hreads) ((block_sound hreads).mono fun _ _ h ↦ h.1)
        fun _ _ hfound ↦ .pure hfound
    | _ => exact .refuse hviable fun tokens ⟨found, hfound⟩ ↦ .of_derives hfound

/-! ### Programs -/

theorem typeName_completes :
    Completes [] typeName fun tokens type ↦
      (type.kind = .integerKw ∨ type.kind = .booleanKw) ∧ tokens = [type] := by
  refine .accept_bind (.refuse ⟨[.ofKind .integerKw], _, .inl rfl, rfl⟩ ?_) fun type htype ↦
    .pure ⟨by simpa using htype, rfl⟩
  rintro _ ⟨type, htype, rfl⟩
  exact .of_derives ⟨htype, rfl⟩

theorem typeName_sound :
    Sound typeName fun tokens type ↦
      (type.kind = .integerKw ∨ type.kind = .booleanKw) ∧ tokens = [type] := by
  intro pending type rest hrun
  obtain ⟨rfl, htype⟩ := typeName_eq_ok.mp hrun
  exact ⟨[type], rfl, htype, rfl⟩

/-- The declarations that derive from the word that opens the first of them and further tokens. -/
theorem declaration_completes {varWord : Token} (hvar : varWord.kind = .varKw) :
    Completes [] declaration fun tokens decl ↦ DerivesDecls (varWord :: tokens) [decl] := by
  refine .expect_bind fun name hname ↦ .expect_bind fun colon hcolon ↦
    .bind typeName_completes typeName_sound ?_
  rintro _ type ⟨htype, rfl⟩
  exact .expect_bind fun semicolon hsemicolon ↦
    .pure (.cons hvar hname hcolon htype hsemicolon .nil)

theorem declaration_sound {varWord : Token} (hvar : varWord.kind = .varKw) :
    Sound declaration fun tokens decl ↦ DerivesDecls (varWord :: tokens) [decl] := by
  intro pending decl rest h
  simp only [declaration, bind_eq_ok, expect_eq_ok, typeName_eq_ok, pure_eq_ok] at h
  obtain ⟨name, _, ⟨rfl, hname⟩, colon, _, ⟨rfl, hcolon⟩, type, _, ⟨rfl, htype⟩, semicolon, _,
    ⟨rfl, hsemicolon⟩, rfl, rfl⟩ := h
  exact ⟨[name, colon, type, semicolon], rfl, .cons hvar hname hcolon htype hsemicolon .nil⟩

theorem DerivesDecls.append {first second : List Token} {declarations more : List Decl}
    (hfirst : DerivesDecls first declarations) (hsecond : DerivesDecls second more) :
    DerivesDecls (first ++ second) (declarations ++ more) := by
  induction hfirst with
  | nil => exact hsecond
  | cons hvar hname hcolon htype hsemicolon _ ih =>
    exact .cons hvar hname hcolon htype hsemicolon ih

theorem declarations_completes (turns : List Token) :
    Completes [] (declarations turns) DerivesDecls := by
  induction turns with
  | nil => exact .pure .nil
  | cons turn turns ih =>
    refine .accept_bind (.pure .nil) fun varWord hword ↦ ?_
    have hvar : varWord.kind = .varKw := by simpa using hword
    refine .bind (declaration_completes hvar) (declaration_sound hvar) fun first decl hdecl ↦
      .bind ih (declarations_sound turns) fun later more hmore ↦ .pure ?_
    simpa using hdecl.append hmore

theorem program_completes (depth : Nat) : Completes [] (program depth) DerivesProgram := by
  refine .expect_bind fun programWord hprogram ↦ .expect_bind fun name hname ↦
    .expect_bind fun semicolon hsemicolon ↦ .get_bind fun turns ↦
    .bind (declarations_completes turns) (declarations_sound turns) fun first decls hdecls ↦
    .bind (block_completes (statement_completes depth) (statement_sound depth))
      ((block_sound (statement_sound depth)).mono fun _ _ h ↦ h.1) fun second body hbody ↦
    .pure ?_
  simpa using DerivesProgram.intro hprogram hname hsemicolon hdecls hbody

/-- In front of tokens that derive a program the rule for programs stops for the depth only. -/
theorem DerivesProgram.tooDeep_of_stop {tokens : List Token} {found : Program}
    (h : DerivesProgram tokens found) {depth : Nat} {stop : Stop}
    (hstop : program depth tokens = .error stop) : stop.refusal = .tooDeep := by
  obtain ⟨nearest, hderives, hnearest⟩ := h.exists_elsesNearest
  have hdeeper := program_complete hderives hnearest (by omega : tokens.length <
    max depth (tokens.length + 1)) []
  rw [List.append_nil] at hdeeper
  rcases program_refines (by omega : depth ≤ max depth (tokens.length + 1)) tokens with
    ⟨pending, hdeep⟩ | hsame
  · rw [hstop] at hdeep
    cases hdeep
    rfl
  · rw [hstop, hdeeper] at hsame
    cases hsame

/-- Where the rule for programs stops for another reason than the depth, no tokens that are alike
go on with what it has taken. -/
theorem not_viable_of_stop {depth : Nat} {front rest : List Token} {refusal : Refusal}
    (hstop : program depth (front ++ rest) = .error ⟨refusal, rest⟩) (hdeep : refusal ≠ .tooDeep)
    {token : Token} (halike : Alike rest [token])
    (hfloat : refusal = .floatLiteral → token.kind = .floatLit) :
    ¬ Viable DerivesProgram (front ++ [token]) := by
  rintro ⟨completion, found, hderives⟩
  rw [List.append_assoc, List.singleton_append] at hderives
  have hagain : program depth (front ++ token :: completion) =
      .error ⟨refusal, token :: completion⟩ :=
    (program_foresees depth).stop trivial trivial halike hfloat hstop
  exact hdeep (hderives.tooDeep_of_stop hagain)

end Grammar

/-! ### Names of what is expected -/

theorem TokenKind.ofName?_name (kind : TokenKind) : ofName? kind.name = some kind := by
  cases kind <;> rfl

namespace Grammar

/-- What was expected is known by its name. -/
theorem Expected.name_injective : Function.Injective Expected.name := by
  have hname : ∀ what : Expected, TokenKind.ofName? what.name =
      match what with
      | token kind => some kind
      | _ => none := by
    intro what
    cases what with
    | token kind => exact kind.ofName?_name
    | _ => rfl
  intro first second h
  have hsame := (hname first).symm.trans ((congrArg TokenKind.ofName? h).trans (hname second))
  cases first with
  | token kind =>
    cases second with
    | token other => exact congrArg token (Option.some.inj hsame)
    | _ => cases hsame
  | _ =>
    cases second with
    | token other => cases hsame
    | _ => first | rfl | exact absurd h (by decide)

/-! ### What a refusal reports -/

theorem Refusal.exists_admits {refusal : Refusal} (h : refusal ≠ .tooDeep) :
    ∃ tokens, refusal.Admits tokens := by
  have hoperand : ∃ tokens, Expected.expression.Fits tokens :=
    ⟨[.ofKind .intLit], _, .intLit rfl⟩
  cases refusal with
  | tooDeep => exact absurd rfl h
  | floatLiteral => exact hoperand
  | unexpected expected =>
    cases expected with
    | token kind => exact ⟨[.ofKind kind], _, rfl, rfl⟩
    | typeName => exact ⟨[.ofKind .integerKw], _, .inl rfl, rfl⟩
    | statement => exact ⟨[.ofKind .beginKw, .ofKind .endKw], _, .block rfl .nil rfl⟩
    | expression => exact hoperand

theorem Refusal.location_diagnostic (refusal : Refusal) (token : Token) (lines : List String) :
    (refusal.diagnostic token lines).location = some token.location := by
  cases refusal <;> rfl

theorem Expected.exists_cause_eq (expected : Expected) (token : Token) (lines : List String) :
    ∃ advice, (Refusal.diagnostic (.unexpected expected) token lines).cause =
      .unexpectedToken expected.name token.kind.name advice := by
  cases expected <;> exact ⟨_, rfl⟩

end Grammar

namespace TokenStream

open Grammar

theorem kindOfNext_pending (stream : TokenStream) :
    kindOfNext stream.pending = stream.next.kind := by
  obtain ⟨pending, final, hfinal⟩ := stream
  cases pending with
  | nil => exact hfinal.symm
  | cons token rest => rfl

theorem readProgramWithin_eq_error {stream stopped : TokenStream} {depth : Nat}
    {lines : List String} {fault : Diagnostic}
    (h : stream.readProgramWithin depth lines = (.error fault, stopped)) :
    ∃ refusal, program depth stream.pending = .error ⟨refusal, stopped.pending⟩ ∧
      stopped = { stream with pending := stopped.pending } ∧
      fault = refusal.diagnostic stopped.next lines := by
  unfold readProgramWithin at h
  cases hrun : program depth stream.pending with
  | ok result => simp [hrun] at h
  | error stop =>
    simp only [hrun, Prod.mk.injEq, Except.error.injEq] at h
    obtain ⟨hfault, rfl⟩ := h
    exact ⟨stop.refusal, rfl, rfl, hfault.symm⟩

theorem next_mem_toList (stream : TokenStream) : stream.next ∈ stream.toList := by
  obtain ⟨pending, final, hfinal⟩ := stream
  cases pending <;> simp [next, toList]

/-- The token in front of which reading stops is one of the stream. -/
theorem next_mem_of_stop {stream : TokenStream} {depth : Nat} {refusal : Refusal}
    {rest : List Token} (h : program depth stream.pending = .error ⟨refusal, rest⟩) :
    ({ stream with pending := rest } : TokenStream).next ∈ stream.toList := by
  obtain ⟨before, hpending⟩ := (program_foresees depth).suffix_of_stop h
  have htokens : stream.toList = before ++ toList { stream with pending := rest } :=
    toList_eq_append_iff.mpr ⟨hpending.symm, rfl⟩
  exact htokens ▸ List.mem_append_right _ (next_mem_toList _)

/-- Where reading stops with a fault other than that the depth of nesting is used up, the tokens in
front of it can be completed to ones that derive a program, and with the token at fault they cannot
be. The fault tells the place and the kind of this token, and whatever it expects could stand there
instead. It tells that a construct is not supported if and only if the token is a number with a
fraction and every operand could stand there. -/
theorem readProgramWithin_fault {stream stopped : TokenStream} {depth : Nat} {lines : List String}
    {fault : Diagnostic} (hread : stream.readProgramWithin depth lines = (.error fault, stopped))
    (hcause : fault.cause ≠ .nestedTooDeeply) :
    ∃ before, stream.toList = before ++ stopped.toList ∧
      Viable DerivesProgram before ∧
      ¬ Viable DerivesProgram (before ++ [stopped.next]) ∧
      fault.location = some stopped.next.location ∧
      ((∃ expected advice,
          fault.cause = .unexpectedToken expected stopped.next.kind.name advice) ∨
        ∃ feature alternative, fault.cause = .unsupported feature alternative) ∧
      (∀ (what : Expected) found advice, fault.cause = .unexpectedToken what.name found advice →
        ∀ tokens, what.Fits tokens → Viable DerivesProgram (before ++ tokens)) ∧
      ((∃ feature alternative, fault.cause = .unsupported feature alternative) ↔
        stopped.next.kind = .floatLit ∧
          ∀ tokens, Expected.expression.Fits tokens →
            Viable DerivesProgram (before ++ tokens)) := by
  obtain ⟨refusal, hrun, hstopped, rfl⟩ := readProgramWithin_eq_error hread
  obtain ⟨before, hpending, hadmits⟩ := (program_completes depth).stop hrun
  rw [List.nil_append] at hadmits
  rw [hpending] at hrun
  have htokens : stream.toList = before ++ stopped.toList :=
    toList_eq_append_iff.mpr ⟨hpending, hstopped⟩
  have hkind : kindOfNext stopped.pending = stopped.next.kind := stopped.kindOfNext_pending
  have hdeep : refusal ≠ .tooDeep := by
    rintro rfl
    exact hcause rfl
  have hfloat : refusal = .floatLiteral → stopped.next.kind = .floatLit := by
    rintro rfl
    exact hkind.symm.trans ((program_foresees depth).float_of_stop trivial hrun)
  have hviable : Viable DerivesProgram before := by
    obtain ⟨tokens, hsome⟩ := Refusal.exists_admits hdeep
    exact (hadmits tokens hsome).of_append
  have hnot : ¬ Viable DerivesProgram (before ++ [stopped.next]) :=
    not_viable_of_stop hrun hdeep (.inl hkind.symm) hfloat
  refine ⟨before, htokens, hviable, hnot, refusal.location_diagnostic _ _, ?_⟩
  cases refusal with
  | tooDeep => exact absurd rfl hdeep
  | floatLiteral =>
    exact ⟨.inr ⟨_, _, rfl⟩, nofun, fun _ ↦ ⟨hfloat rfl, hadmits⟩, fun _ ↦ ⟨_, _, rfl⟩⟩
  | unexpected expected =>
    obtain ⟨advice, hreports⟩ := expected.exists_cause_eq stopped.next lines
    refine ⟨.inl ⟨_, advice, hreports⟩, fun what found other h ↦ ?_, ?_, ?_⟩
    · rw [hreports, Cause.unexpectedToken.injEq] at h
      exact Expected.name_injective h.1 ▸ hadmits
    · rintro ⟨feature, alternative, h⟩
      cases hreports.symm.trans h
    · -- An integer in place of the number with a fraction would be refused as well.
      rintro ⟨hnext, hfits⟩
      have halike : Alike stopped.pending [.ofKind .intLit] := .inr ⟨hkind.trans hnext, rfl⟩
      exact absurd (hfits _ ⟨_, .intLit rfl⟩) (not_viable_of_stop hrun hdeep halike nofun)

/-- The tokens of `program p; begin x := (a 1.5); end`, where a number with a fraction stands behind
an operand. -/
def strayFraction : TokenStream :=
  let token (kind : TokenKind) (lexeme : String) : Token := ⟨kind, lexeme, none, ⟨"", 1, 1⟩⟩
  .endingAt ⟨"", 1, 1⟩ [token .programKw "program", token .ident "p", token .semicolon ";",
    token .beginKw "begin", token .ident "x", token .assign ":=", token .lparen "(",
    token .ident "a", token .floatLit "1.5", token .rparen ")", token .semicolon ";",
    token .endKw "end"]

/-- The fault is that a closing parenthesis was expected, and one could stand there; it is not that
numbers with a fraction are not supported, as there is no place for an operand. -/
theorem readProgramWithin_strayFraction :
    ∃ fault stopped, strayFraction.readProgramWithin nestingLimit [] = (.error fault, stopped) ∧
      fault.cause ≠ .nestedTooDeeply ∧ stopped.next.kind = .floatLit ∧
      Viable DerivesProgram (strayFraction.toList.take 8 ++ [.ofKind .rparen]) ∧
      ¬ ∀ tokens, Expected.expression.Fits tokens →
        Viable DerivesProgram (strayFraction.toList.take 8 ++ tokens) := by
  obtain ⟨fault, stopped, hread, hcause, hkind, hlength⟩ : ∃ fault stopped,
      strayFraction.readProgramWithin nestingLimit [] = (.error fault, stopped) ∧
        fault.cause = .unexpectedToken (Expected.token .rparen).name TokenKind.floatLit.name none ∧
        stopped.next.kind = .floatLit ∧ stopped.toList.length = 5 :=
    ⟨_, _, rfl, rfl, rfl, rfl⟩
  have hnested : fault.cause ≠ .nestedTooDeeply := by
    rw [hcause]
    nofun
  obtain ⟨before, htokens, -, -, -, -, hexpected, hunsupported⟩ :=
    readProgramWithin_fault hread hnested
  have hbefore : strayFraction.toList.take 8 = before := by
    have hall : strayFraction.toList.length = 13 := rfl
    have hsum := congrArg List.length htokens
    rw [List.length_append, hlength, hall] at hsum
    rw [htokens, List.take_left' (by omega)]
  rw [hbefore]
  refine ⟨fault, stopped, hread, hnested, hkind, hexpected _ _ _ hcause _ ⟨_, rfl, rfl⟩,
    fun hfits ↦ ?_⟩
  obtain ⟨feature, alternative, h⟩ := hunsupported.mpr ⟨hkind, hfits⟩
  cases hcause.symm.trans h

end TokenStream

end StackCompiler
