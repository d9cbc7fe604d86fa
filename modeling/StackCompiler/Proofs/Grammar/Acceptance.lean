import StackCompiler.Grammar.Reading
import StackCompiler.Proofs.Grammar.Completeness
import StackCompiler.Proofs.Grammar.Depth

/-!
# What is read is what the grammar derives

`TokenStream.readProgramWithin_derives` is the main statement: unless the depth of nesting is used
up, a program is read off a stream if and only if the tokens in front of what is left derive it and
every `else` in it belongs to the nearest `if` that can take it. Reading is deterministic and the
grammar is not, so a derivation that attaches an `else` to a farther `if` has another tree. Its
tokens are read nevertheless: moving each such `else` to the open statement in front of it
(`Stmt.takeElse`) gives a derivation of the same tokens with a tree in which they all stand right
(`DerivesStmt.exists_elsesNearest`).
-/

set_option autoImplicit false
set_option relaxedAutoImplicit false

namespace StackCompiler

/-- An open statement with an alternative for the nearest `if` that can take one. -/
def Stmt.takeElse : Stmt → Stmt → Stmt
  | .ifThen condition body, alternative =>
    if body.isOpen then .ifThen condition (body.takeElse alternative)
    else .ifElse condition body alternative
  | .ifElse condition body last, alternative => .ifElse condition body (last.takeElse alternative)
  | .loop condition body, alternative => .loop condition (body.takeElse alternative)
  | closed, _ => closed

namespace Grammar

/-! ### Moving an `else` to the nearest `if` -/

/-- An open statement takes an `else` behind its own tokens. -/
theorem DerivesStmt.takeElse {alternative : Stmt} {elseWord : Token} {second : List Token}
    (helse : elseWord.kind = .elseKw) (halternative : DerivesStmt second alternative)
    (hnearestAlternative : alternative.ElsesNearest) (found : Stmt) :
    ∀ first, DerivesStmt first found → found.ElsesNearest → found.isOpen = true →
      DerivesStmt (first ++ elseWord :: second) (found.takeElse alternative) ∧
        (found.takeElse alternative).ElsesNearest := by
  induction found with
  | assign target value => intro first _ _ hopen; simp [Stmt.isOpen] at hopen
  | block statements => intro first _ _ hopen; simp [Stmt.isOpen] at hopen
  | ifThen condition body ih =>
    intro first h hnearest _
    cases hnearest with
    | ifThen hnearest =>
    cases h with
    | ifThen hif hcondition hthen hbody =>
      by_cases hopen : body.isOpen = true
      · obtain ⟨hderives, hresult⟩ := ih _ hbody hnearest hopen
        rw [Stmt.takeElse, if_pos hopen]
        refine ⟨?_, .ifThen hresult⟩
        simpa using DerivesStmt.ifThen hif hcondition hthen hderives
      · rw [Stmt.takeElse, if_neg hopen]
        refine ⟨?_, .ifElse hnearest (by simpa using hopen) hnearestAlternative⟩
        simpa using DerivesStmt.ifElse hif hcondition hthen hbody helse halternative
  | ifElse condition body last _ ih =>
    intro first h hnearest hopen
    cases hnearest with
    | ifElse hnearestBody hclosed hnearestLast =>
    cases h with
    | ifElse hif hcondition hthen hbody hword hlast =>
      obtain ⟨hderives, hresult⟩ := ih _ hlast hnearestLast hopen
      refine ⟨?_, .ifElse hnearestBody hclosed hresult⟩
      simpa [Stmt.takeElse] using DerivesStmt.ifElse hif hcondition hthen hbody hword hderives
  | loop condition body ih =>
    intro first h hnearest hopen
    cases hnearest with
    | loop hnearest =>
    cases h with
    | loop hwhile hcondition hdo hbody =>
      obtain ⟨hderives, hresult⟩ := ih _ hbody hnearest hopen
      refine ⟨?_, .loop hresult⟩
      simpa [Stmt.takeElse] using DerivesStmt.loop hwhile hcondition hdo hderives

theorem DerivesStmts.exists_elsesNearest {found : List Stmt}
    (ih : ∀ statement ∈ found, ∀ tokens, DerivesStmt tokens statement →
      ∃ nearest, DerivesStmt tokens nearest ∧ nearest.ElsesNearest)
    {tokens : List Token} (h : DerivesStmts tokens found) :
    ∃ nearest, DerivesStmts tokens nearest ∧ ∀ statement ∈ nearest, statement.ElsesNearest := by
  induction found generalizing tokens with
  | nil =>
    cases h
    exact ⟨[], .nil, by simp⟩
  | cons statement more ihmore =>
    cases h with
    | cons hstatement hsemicolon hmore =>
      obtain ⟨first, hfirst, hnearest⟩ := ih statement (by simp) _ hstatement
      obtain ⟨later, hlater, hall⟩ := ihmore (fun s hs ↦ ih s (by simp [hs])) hmore
      exact ⟨first :: later, .cons hfirst hsemicolon hlater, by simpa using ⟨hnearest, hall⟩⟩

/-- Tokens that derive a statement at all derive one in which every `else` belongs to the nearest
`if`. -/
theorem DerivesStmt.exists_elsesNearest (found : Stmt) :
    ∀ tokens, DerivesStmt tokens found →
      ∃ nearest, DerivesStmt tokens nearest ∧ nearest.ElsesNearest := by
  induction found with
  | assign target value => exact fun tokens h ↦ ⟨_, h, .assign target value⟩
  | ifThen condition body ih =>
    intro tokens h
    cases h with
    | ifThen hif hcondition hthen hbody =>
      obtain ⟨nearest, hderives, hnearest⟩ := ih _ hbody
      exact ⟨_, .ifThen hif hcondition hthen hderives, .ifThen hnearest⟩
  | ifElse condition body alternative ihbody ihalternative =>
    intro tokens h
    cases h with
    | ifElse hif hcondition hthen hbody helse halternative =>
      obtain ⟨first, hfirst, hnearestFirst⟩ := ihbody _ hbody
      obtain ⟨second, hsecond, hnearestSecond⟩ := ihalternative _ halternative
      by_cases hopen : first.isOpen = true
      · obtain ⟨hderives, hnearest⟩ :=
          hsecond.takeElse helse hnearestSecond first _ hfirst hnearestFirst hopen
        refine ⟨.ifThen condition (first.takeElse second), ?_, .ifThen hnearest⟩
        simpa using DerivesStmt.ifThen hif hcondition hthen hderives
      · exact ⟨_, .ifElse hif hcondition hthen hfirst helse hsecond,
          .ifElse hnearestFirst (by simpa using hopen) hnearestSecond⟩
  | loop condition body ih =>
    intro tokens h
    cases h with
    | loop hwhile hcondition hdo hbody =>
      obtain ⟨nearest, hderives, hnearest⟩ := ih _ hbody
      exact ⟨_, .loop hwhile hcondition hdo hderives, .loop hnearest⟩
  | block statements ih =>
    intro tokens h
    cases h with
    | block hopening hinner hclosing =>
      obtain ⟨nearest, hderives, hnearest⟩ := hinner.exists_elsesNearest ih
      exact ⟨_, .block hopening hderives hclosing, .block hnearest⟩

theorem DerivesProgram.exists_elsesNearest {tokens : List Token} {found : Program}
    (h : DerivesProgram tokens found) :
    ∃ nearest, DerivesProgram tokens nearest ∧ nearest.ElsesNearest := by
  cases h with
  | @intro _ name _ _ _ declarations _ hprogram hname hsemicolon hdeclarations hbody =>
    cases hbody with
    | block hopening hinner hclosing =>
      obtain ⟨nearest, hderives, hnearest⟩ := hinner.exists_elsesNearest fun s _ tokens h ↦
        DerivesStmt.exists_elsesNearest s tokens h
      exact ⟨⟨name, declarations, nearest⟩, .intro hprogram hname hsemicolon hdeclarations
        (.block hopening hderives hclosing), hnearest⟩

/-! ### Streams -/

/-- The last token of a program is the word that closes its body. -/
theorem DerivesProgram.exists_concat {tokens : List Token} {found : Program}
    (h : DerivesProgram tokens found) :
    ∃ others closing, tokens = others ++ [closing] ∧ closing.kind = .endKw := by
  cases h with
  | @intro programWord name semicolon first _ _ _ _ _ _ _ hbody =>
    cases hbody with
    | @block opening closing inner _ _ _ hclosing =>
      exact ⟨programWord :: name :: semicolon :: first ++ opening :: inner, closing, by simp,
        hclosing⟩

/-- The token at the end of a stream belongs to no program. -/
theorem DerivesProgram.exists_pending_eq {tokens : List Token} {found : Program}
    (h : DerivesProgram tokens found) {stream : TokenStream} (hfront : tokens <+: stream.toList) :
    ∃ rest, stream.pending = tokens ++ rest := by
  obtain ⟨others, closing, rfl, hclosing⟩ := h.exists_concat
  obtain ⟨rest, hrest⟩ := hfront
  rcases List.eq_nil_or_concat rest with rfl | ⟨more, last, rfl⟩
  · have hlast := congrArg List.getLast? hrest
    simp only [TokenStream.toList, List.append_nil, List.getLast?_append, List.getLast?_singleton,
      Option.some_or, Option.some.injEq] at hlast
    have hkind := stream.final_kind
    rw [← hlast, hclosing] at hkind
    cases hkind
  · refine ⟨more, ?_⟩
    rw [TokenStream.toList, List.concat_eq_append, ← List.append_assoc] at hrest
    exact (List.append_inj_left' hrest rfl).symm

end Grammar

namespace TokenStream

/-- Reading a program that nests less than `depth` levels uses the depth up. -/
def NestsTooDeeply (stream : TokenStream) (depth : Nat) (lines : List String) : Prop :=
  ∃ found rest, stream.readProgramWithin depth lines = (.error found, rest) ∧
    found.cause = .nestedTooDeeply

open Grammar

theorem toList_eq_append_iff {stream rest : TokenStream} {tokens : List Token} :
    stream.toList = tokens ++ rest.toList ↔
      stream.pending = tokens ++ rest.pending ∧ rest = { stream with pending := rest.pending } := by
  obtain ⟨pending, final, hfinal⟩ := stream
  obtain ⟨later, last, hlast⟩ := rest
  simp only [toList, ← List.append_assoc, mk.injEq, true_and]
  constructor
  · intro h
    obtain ⟨hpending, hsame⟩ := List.append_inj' h rfl
    exact ⟨hpending, by simpa using hsame.symm⟩
  · rintro ⟨rfl, rfl⟩
    rfl

theorem readProgramWithin_eq_ok {stream rest : TokenStream} {depth : Nat} {lines : List String}
    {found : Program} :
    stream.readProgramWithin depth lines = (.ok found, rest) ↔
      program depth stream.pending = .ok (found, rest.pending) ∧
        rest = { stream with pending := rest.pending } := by
  unfold readProgramWithin
  cases program depth stream.pending with
  | error stop => simp
  | ok result =>
    obtain ⟨program, later⟩ := result
    simp only [Prod.mk.injEq, Except.ok.injEq]
    constructor
    · rintro ⟨rfl, rfl⟩
      exact ⟨⟨rfl, rfl⟩, rfl⟩
    · rintro ⟨⟨rfl, rfl⟩, hrest⟩
      exact ⟨rfl, hrest.symm⟩

theorem nestsTooDeeply_iff (stream : TokenStream) (depth : Nat) (lines : List String) :
    stream.NestsTooDeeply depth lines ↔ TooDeep (program depth stream.pending) := by
  unfold NestsTooDeeply readProgramWithin
  cases hresult : program depth stream.pending with
  | ok result => simp [TooDeep]
  | error stop =>
    obtain ⟨refusal, pending⟩ := stop
    cases refusal with
    | tooDeep => simp [TooDeep, Refusal.diagnostic]
    | floatLiteral => simp [TooDeep, Refusal.diagnostic, Refusal.cause, Token.diagnostic]
    | unexpected expected =>
      cases expected <;>
        simp [TooDeep, Refusal.diagnostic, Refusal.cause, Token.diagnostic]

/-- What is read stands in front of what is left. -/
theorem derives_of_readProgramWithin {stream rest : TokenStream} {depth : Nat}
    {lines : List String} {found : Program}
    (h : stream.readProgramWithin depth lines = (.ok found, rest)) :
    ∃ tokens, stream.toList = tokens ++ rest.toList ∧ DerivesProgram tokens found ∧
      found.ElsesNearest := by
  obtain ⟨hrun, hrest⟩ := readProgramWithin_eq_ok.mp h
  obtain ⟨tokens, hpending, hderives, hnearest⟩ := program_sound depth _ _ _ hrun
  exact ⟨tokens, toList_eq_append_iff.mpr ⟨hpending, hrest⟩, hderives, hnearest⟩

/-- What stands in front of what is left is read: with more depth if it has to be, and so with less
unless that is used up. -/
theorem readProgramWithin_of_derives {stream rest : TokenStream} {depth : Nat}
    {lines : List String} (hdepth : ¬ stream.NestsTooDeeply depth lines) {tokens : List Token}
    {found : Program} (htokens : stream.toList = tokens ++ rest.toList)
    (hderives : DerivesProgram tokens found) (hnearest : found.ElsesNearest) :
    stream.readProgramWithin depth lines = (.ok found, rest) := by
  obtain ⟨hpending, hrest⟩ := toList_eq_append_iff.mp htokens
  have hdeeper := program_complete hderives hnearest (by omega : tokens.length <
    max depth (tokens.length + 1)) rest.pending
  refine readProgramWithin_eq_ok.mpr ⟨?_, hrest⟩
  rcases program_refines (by omega : depth ≤ max depth (tokens.length + 1)) stream.pending with
    hstop | hsame
  · exact absurd ((stream.nestsTooDeeply_iff depth lines).mpr hstop) hdepth
  · rw [hsame, hpending, hdeeper]

/-- Unless the depth of nesting is used up, a program is read if and only if the tokens in front of
what is left derive it and every `else` in it belongs to the nearest `if`. Tokens in front that
derive any program are read, and what is read holds all their names, literals, operators and types,
once each and in their order. More depth than there are tokens is never used up. -/
theorem readProgramWithin_derives (stream : TokenStream) (depth : Nat) (lines : List String) :
    (stream.NestsTooDeeply depth lines → depth ≤ stream.pending.length) ∧
    (¬ stream.NestsTooDeeply depth lines →
      (∀ found rest, stream.readProgramWithin depth lines = (.ok found, rest) ↔
        ∃ tokens, stream.toList = tokens ++ rest.toList ∧ DerivesProgram tokens found ∧
          found.ElsesNearest) ∧
      ∀ tokens, tokens <+: stream.toList → (∃ found, DerivesProgram tokens found) →
        ∃ found rest, stream.readProgramWithin depth lines = (.ok found, rest) ∧
          stream.toList = tokens ++ rest.toList) ∧
    ∀ found rest, stream.readProgramWithin depth lines = (.ok found, rest) →
      ∃ tokens, stream.toList = tokens ++ rest.toList ∧ found.tokens = contentOf tokens := by
  refine ⟨fun hdeep ↦ ?_, fun hdepth ↦ ⟨fun found rest ↦ ⟨derives_of_readProgramWithin, ?_⟩, ?_⟩,
    fun found rest hread ↦ ?_⟩
  · refine Nat.le_of_not_lt fun hmore ↦ ?_
    exact program_within depth stream.pending.length hmore _ (Nat.le_refl _)
      ((stream.nestsTooDeeply_iff depth lines).mp hdeep)
  · rintro ⟨tokens, htokens, hderives, hnearest⟩
    exact readProgramWithin_of_derives hdepth htokens hderives hnearest
  · rintro tokens hfront ⟨other, hother⟩
    obtain ⟨found, hderives, hnearest⟩ := hother.exists_elsesNearest
    obtain ⟨later, hpending⟩ := hderives.exists_pending_eq hfront
    have htokens : stream.toList = tokens ++ toList { stream with pending := later } :=
      toList_eq_append_iff.mpr ⟨hpending, rfl⟩
    exact ⟨found, _, readProgramWithin_of_derives hdepth htokens hderives hnearest, htokens⟩
  · obtain ⟨tokens, htokens, hderives, -⟩ := derives_of_readProgramWithin hread
    exact ⟨tokens, htokens, hderives.tokens_eq⟩

/-- Tokens in front of the end of a text. -/
def endingAt (place : Location) (pending : List Token) : TokenStream :=
  ⟨pending, .endOfFile place, rfl⟩

/-- The tokens of `program p; begin if a then if b then x := c else y := d; end`, where the `else`
could be attached to either `if`. -/
def twoConditions : TokenStream :=
  let token (kind : TokenKind) (lexeme : String) : Token := ⟨kind, lexeme, none, ⟨"", 1, 1⟩⟩
  { pending := [token .programKw "program", token .ident "p", token .semicolon ";",
      token .beginKw "begin", token .ifKw "if", token .ident "a", token .thenKw "then",
      token .ifKw "if", token .ident "b", token .thenKw "then", token .ident "x",
      token .assign ":=", token .ident "c", token .elseKw "else", token .ident "y",
      token .assign ":=", token .ident "d", token .semicolon ";", token .endKw "end"]
    final := .endOfFile ⟨"", 1, 1⟩
    final_kind := rfl }

/-- The program that is read from these tokens has its `else` with the second `if`. -/
theorem readProgramWithin_twoConditions :
    ¬ twoConditions.NestsTooDeeply nestingLimit [] ∧
      ∃ found rest, twoConditions.readProgramWithin nestingLimit [] = (.ok found, rest) ∧
        found.ElsesNearest ∧ (∃ tokens, DerivesProgram tokens found) ∧
        ∃ outer inner first second,
          found.statements = [.ifThen outer (.ifElse inner first second)] := by
  obtain ⟨found, rest, hread, hshape⟩ : ∃ found rest,
      twoConditions.readProgramWithin nestingLimit [] = (.ok found, rest) ∧
        ∃ outer inner first second,
          found.statements = [.ifThen outer (.ifElse inner first second)] :=
    ⟨_, _, rfl, _, _, _, _, rfl⟩
  have hdepth : ¬ twoConditions.NestsTooDeeply nestingLimit [] := by
    rintro ⟨fault, left, hfault, -⟩
    simp [hread] at hfault
  obtain ⟨tokens, -, hderives, hnearest⟩ :=
    (((readProgramWithin_derives twoConditions nestingLimit []).2.1 hdepth).1 found rest).mp hread
  exact ⟨hdepth, found, rest, hread, hnearest, ⟨tokens, hderives⟩, hshape⟩

end TokenStream

end StackCompiler
