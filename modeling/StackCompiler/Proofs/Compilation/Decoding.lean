import Mathlib.Data.List.Forall2
import StackCompiler.Proofs.Compilation.Characters
import StackCompiler.Proofs.Execution.LineGrammar

/-!
# Code read back from its text

The text of the code that a compilation gives is cut at its line feeds into the lines of the code,
and each line denotes the instruction that it was written for and no other
(`compileWith_decodes`). So nothing is lost in the text of code.

Every instruction of a typed program can be written (`Instr.Typed.denotes`), if its variables have
names of the source language, and if the numbers that it pushes are not negative. They are not: they
are those of the literals in the source, in the same order (`Grammar.DerivesProgram.pushes`), and
the number of a literal is the value of its digits.
-/

set_option autoImplicit false
set_option relaxedAutoImplicit false

namespace StackCompiler

open Scanning

/-! ### The lines of instructions -/

theorem Operation.mem_operationWords (operation : Operation) :
    (operation.text, operation) ∈ operationWords := by
  cases operation <;> decide

theorem Instr.labelText_eq (label : Label) :
    labelText label = String.ofList ('L' :: Nat.toDigits 10 label) := by
  rw [← toList_labelText, String.ofList_toList]

namespace Line

theorem denotes_apply (operation : Operation) :
    Denotes (Instr.apply operation).text (.apply operation) :=
  .operation operation.mem_operationWords

theorem denotes_push (n : Nat) :
    Denotes (Instr.push (some (.int n))).text (.push (some (.int n))) := by
  have h := Denotes.push (isCanonical_toDigits n)
  rw [decimalValue_toDigits, ← Nat.toString_eq_ofList_toDigits] at h
  exact h

theorem denotes_jump (target : Label) : Denotes (Instr.jump target).text (.jump target) := by
  have h := Denotes.jump (isCanonical_toDigits target)
  rw [decimalValue_toDigits, ← Instr.labelText_eq] at h
  exact h

theorem denotes_jumpIfZero (target : Label) :
    Denotes (Instr.jumpIfZero target).text (.jumpIfZero target) := by
  have h := Denotes.jumpIfZero (isCanonical_toDigits target)
  rw [decimalValue_toDigits, ← Instr.labelText_eq] at h
  exact h

theorem denotes_label (mark : Label) : Denotes (Instr.label mark).text (.label mark) := by
  have h := Denotes.label (isCanonical_toDigits mark)
  rw [decimalValue_toDigits, String.ofList_append, ← Instr.labelText_eq] at h
  exact h

end Line

/-- The number that an instruction pushes. -/
def Instr.pushed? : Instr → Option Int
  | .push (some (.int value)) => some value
  | _ => none

/-- A typed instruction is written as a line that denotes it, if variables have names, and if it
pushes no negative number. -/
theorem Instr.Typed.denotes {types : TypeEnv} {code : List Instr} {instruction : Instr}
    {before after : List Ty} (h : instruction.Typed types code before after)
    (hnames : ∀ name type, types name = some type → IsVariableName name)
    (hpushed : ∀ value, instruction.pushed? = some value → 0 ≤ value) :
    Line.Denotes instruction.text instruction := by
  cases h with
  | @push value =>
    obtain ⟨n, rfl⟩ := Int.eq_ofNat_of_zero_le (hpushed value rfl)
    exact Line.denotes_push n
  | load hname => exact .load (hnames _ _ hname)
  | store hname => exact .store (hnames _ _ hname)
  | apply => exact Line.denotes_apply _
  | jump => exact Line.denotes_jump _
  | jumpIfZero => exact Line.denotes_jumpIfZero _
  | label mark => exact Line.denotes_label mark

/-! ### Numbers of literals -/

/-- The number that a literal has: the value of its digits, and one or zero for a truth value. -/
def Token.number? (token : Token) : Option Int :=
  match token.kind with
  | .intLit => some (decimalValue token.lexeme.toList)
  | .trueKw => some 1
  | .falseKw => some 0
  | _ => none

/-- The integer literals among some tokens stand for the values of their digits. -/
def TokensHoldDigits (tokens : List Token) : Prop :=
  ∀ token ∈ tokens, token.kind = .intLit →
    token.literal = some (.int (decimalValue token.lexeme.toList))

theorem TokensHoldDigits.of_subset {some all : List Token} (h : TokensHoldDigits all)
    (hsubset : ∀ token ∈ some, token ∈ all) : TokensHoldDigits some :=
  fun token htoken ↦ h token (hsubset token htoken)

theorem tokensHoldDigits_scan (file text : String) :
    TokensHoldDigits (scan file text).tokens := by
  intro token h hkind
  rw [literal_of_mem_tokens h, hkind, TokenKind.value?, natOfDigits_eq]

theorem filterMap_pushed?_branchCode (first : Label) (condition body alternative : List Instr) :
    (branchCode first condition body alternative).filterMap Instr.pushed? =
      condition.filterMap Instr.pushed? ++ body.filterMap Instr.pushed? ++
        alternative.filterMap Instr.pushed? := by
  simp [branchCode, List.filterMap_cons, Instr.pushed?]

theorem filterMap_pushed?_loopCode (first : Label) (condition body : List Instr) :
    (loopCode first condition body).filterMap Instr.pushed? =
      condition.filterMap Instr.pushed? ++ body.filterMap Instr.pushed? := by
  simp [loopCode, List.filterMap_cons, Instr.pushed?]

namespace Grammar

/-- No operator is a literal. -/
theorem Tier.number?_of_mem {tier : Tier} {operator : Token}
    (h : operator.kind ∈ tier.operators) : operator.number? = none := by
  unfold Token.number?
  generalize operator.kind = kind at h
  cases tier <;> simp only [operators, List.mem_cons, List.not_mem_nil, or_false] at h
  all_goals rcases h with rfl | rfl | rfl <;> rfl

/-- The code of an expression pushes the numbers of its literals. -/
theorem DerivesExpr.pushes {tier : Tier} {tokens : List Token} {e : Expr}
    (h : DerivesExpr tier tokens e) (htokens : TokensHoldDigits tokens) :
    e.code.filterMap Instr.pushed? = tokens.filterMap Token.number? := by
  induction h with
  | @intLit token hkind =>
    have hliteral := htokens token (List.mem_singleton_self _) hkind
    simp [Expr.code, hliteral, Instr.pushed?, Token.number?, hkind]
  | boolLit hkind =>
    rcases hkind with hkind | hkind
    · simp [Expr.code, Instr.pushed?, Token.number?, hkind, Token.truth]
    · simp [Expr.code, Instr.pushed?, Token.number?, hkind, Token.truth]
      rfl
  | use hkind => simp [Expr.code, Instr.pushed?, Token.number?, hkind]
  | parentheses hopening _ hclosing ih =>
    have hinner := ih (htokens.of_subset (by simp +contextual))
    simp [hinner, Token.number?, hopening, hclosing]
  | operand _ ih => exact ih htokens
  | @join _ _ _ operator _ _ _ hoperator _ ihleft ihright =>
    have hleft := ihleft (htokens.of_subset (by simp +contextual))
    have hright := ihright (htokens.of_subset (by simp +contextual))
    have hoperation :
        ((Operation.ofKind? operator.kind).map Instr.apply).toList.filterMap Instr.pushed? =
          [] := by
      cases Operation.ofKind? operator.kind <;> rfl
    simp [Expr.code, hleft, hright, hoperation, Tier.number?_of_mem hoperator]

theorem DerivesStmts.pushes {statements : List Stmt}
    (ih : ∀ statement ∈ statements, ∀ tokens, DerivesStmt tokens statement →
      TokensHoldDigits tokens → ∀ first,
        (statement.code first).filterMap Instr.pushed? = tokens.filterMap Token.number?)
    {tokens : List Token} (h : DerivesStmts tokens statements) (htokens : TokensHoldDigits tokens)
    (first : Label) :
    (Stmt.codeOfAll statements first).filterMap Instr.pushed? = tokens.filterMap Token.number? := by
  induction statements generalizing tokens first with
  | nil =>
    cases h
    rfl
  | cons statement more ihmore =>
    cases h with
    | cons hstatement hsemicolon hmore =>
      have hfront := ih statement List.mem_cons_self _ hstatement
        (htokens.of_subset (by simp +contextual)) first
      have hlater := ihmore (fun other hother ↦ ih other (List.mem_cons_of_mem _ hother)) hmore
        (htokens.of_subset (by simp +contextual)) (first + statement.labelCount)
      simp [Stmt.codeOfAll, hfront, hlater, Token.number?, hsemicolon]

/-- The code of a statement pushes the numbers of its literals, whatever its labels are. -/
theorem DerivesStmt.pushes {statement : Stmt} :
    ∀ {tokens : List Token}, DerivesStmt tokens statement → TokensHoldDigits tokens →
      ∀ first, (statement.code first).filterMap Instr.pushed? =
        tokens.filterMap Token.number? := by
  induction statement with
  | assign target value =>
    intro tokens h htokens first
    cases h with
    | assign htarget hsign hvalue =>
      have hpushes := hvalue.pushes (htokens.of_subset (by simp +contextual))
      simp [Stmt.code, hpushes, List.filterMap_cons, Instr.pushed?, Token.number?, htarget, hsign]
  | ifThen condition body ih =>
    intro tokens h htokens first
    cases h with
    | ifThen hif hcondition hthen hbody =>
      have htest := hcondition.pushes (htokens.of_subset (by simp +contextual))
      have hinner := ih hbody (htokens.of_subset (by simp +contextual)) (first + 2)
      simp [Stmt.code, filterMap_pushed?_branchCode, htest, hinner, Token.number?, hif, hthen]
  | ifElse condition body alternative ihbody ihalternative =>
    intro tokens h htokens first
    cases h with
    | ifElse hif hcondition hthen hbody helse halternative =>
      have htest := hcondition.pushes (htokens.of_subset (by simp +contextual))
      have hinner := ihbody hbody (htokens.of_subset (by simp +contextual)) (first + 2)
      have hother := ihalternative halternative (htokens.of_subset (by simp +contextual))
        (first + 2 + body.labelCount)
      simp [Stmt.code, filterMap_pushed?_branchCode, htest, hinner, hother, Token.number?, hif,
        hthen, helse]
  | loop condition body ih =>
    intro tokens h htokens first
    cases h with
    | loop hwhile hcondition hdo hbody =>
      have htest := hcondition.pushes (htokens.of_subset (by simp +contextual))
      have hinner := ih hbody (htokens.of_subset (by simp +contextual)) (first + 2)
      simp [Stmt.code, filterMap_pushed?_loopCode, htest, hinner, Token.number?, hwhile, hdo]
  | block statements ih =>
    intro tokens h htokens first
    cases h with
    | block hopening hinner hclosing =>
      have hpushes := hinner.pushes (fun s hs _ ↦ ih s hs)
        (htokens.of_subset (by simp +contextual)) first
      simp [Stmt.code, hpushes, Token.number?, hopening, hclosing]

/-- Declarations have no literals. -/
theorem DerivesDecls.filterMap_number? {tokens : List Token} {declarations : List Decl}
    (h : DerivesDecls tokens declarations) : tokens.filterMap Token.number? = [] := by
  induction h with
  | nil => rfl
  | cons hvar hname hcolon htype hsemicolon _ ih =>
    rcases htype with htype | htype <;>
      simp [ih, Token.number?, hvar, hname, hcolon, htype, hsemicolon]

/-- The code of a program pushes the numbers of the literals in its text, in their order. -/
theorem DerivesProgram.pushes {tokens : List Token} {program : Program}
    (h : DerivesProgram tokens program) (htokens : TokensHoldDigits tokens) :
    program.code.filterMap Instr.pushed? = tokens.filterMap Token.number? := by
  cases h with
  | intro hprogram hname hsemicolon hdeclarations hbody =>
    have hpushes := hbody.pushes (htokens.of_subset (by simp +contextual)) 0
    simp [Program.code, hpushes, hdeclarations.filterMap_number?, List.filterMap_cons,
      Instr.pushed?, Token.number?, hprogram, hname, hsemicolon]

end Grammar

/-! ### The text of code -/

/-- The instructions that the lines of a text are read as, each line being closed by a line feed. -/
def readCode? (text : String) : Option (List Instr) :=
  (Text.lineFeedLines text.toList).dropLast.mapM fun line ↦ Line.instr? (String.ofList line)

theorem codeText_cons (instruction : Instr) (more : List Instr) :
    (codeText (instruction :: more)).toList =
      instruction.text.toList ++ '\n' :: (codeText more).toList := by
  simp [codeText]

/-- The text of code is cut into the lines of the instructions, and nothing is left behind the
last of them. -/
theorem lineFeedLines_codeText {code : List Instr}
    (h : ∀ instruction ∈ code, '\n' ∉ instruction.text.toList) :
    Text.lineFeedLines (codeText code).toList =
      (code.map Instr.text).map String.toList ++ [[]] := by
  induction code with
  | nil => rfl
  | cons instruction more ih =>
    have hmore := ih fun other hother ↦ h other (List.mem_cons_of_mem _ hother)
    have hcut := Text.lineFeedLines_append_of_free (h instruction List.mem_cons_self)
      (Text.lineFeedLines_lineFeed (codeText more).toList)
    rw [codeText_cons, hcut, hmore]
    simp

/-- Every instruction of a well-typed program is written as a line that denotes it. -/
theorem Program.WellTyped.denotes {program : Program} (h : program.WellTyped)
    (hliterals : LiteralsAreIntegers program.expressions)
    (hnames : ∀ name type, program.types name = some type → IsVariableName name)
    (hpushes : ∀ value ∈ program.code.filterMap Instr.pushed?, 0 ≤ value) {instruction : Instr}
    (hmem : instruction ∈ program.code) : Line.Denotes instruction.text instruction := by
  obtain ⟨piece, hcode, htyped⟩ := h.exists_codeTyped hliterals
  have hpushed (value : Int) (hvalue : instruction.pushed? = some value) : 0 ≤ value :=
    hpushes value (List.mem_filterMap.mpr ⟨instruction, hmem, hvalue⟩)
  rw [hcode] at hmem
  rcases List.mem_append.mp hmem with hmem | hmem
  · obtain ⟨_, _, hinstruction⟩ := htyped.exists_typed_of_mem hmem
    exact hinstruction.denotes hnames hpushed
  · cases List.mem_singleton.mp hmem
    exact .halt

theorem readCode?_codeText {code : List Instr}
    (h : ∀ instruction ∈ code, Line.Denotes instruction.text instruction) :
    readCode? (codeText code) = some code := by
  rw [readCode?, lineFeedLines_codeText fun instruction hmem ↦ (h instruction hmem).isLine.2,
    List.dropLast_concat]
  induction code with
  | nil => rfl
  | cons instruction more ih =>
    have hmore := ih fun other hother ↦ h other (List.mem_cons_of_mem _ hother)
    simp [List.mapM_cons, (h instruction List.mem_cons_self).instr?] at hmore ⊢
    simp [hmore]

/-- No number of a literal is negative. -/
theorem Token.number?_nonneg {token : Token} {value : Int} (h : token.number? = some value) :
    0 ≤ value := by
  unfold number? at h
  split at h <;> cases h <;> simp

/-- An integer literal is a numeral that is not too long. -/
theorem Scanning.Reads.isNumeral_of_intLit {word : List Char} {lexeme : String}
    {value : Option Int} (h : Reads word (.token .intLit lexeme value)) :
    IsNumeral word ∧ word.length ≤ integerDigitLimit := by
  have hkeywords : ∀ entry ∈ TokenKind.keywords, entry.2 ≠ .intLit := by decide
  have hsigns : ∀ sign ∈ signs, sign.2 ≠ .intLit := by decide
  cases h with
  | keyword _ hkeyword => exact absurd rfl (hkeywords _ hkeyword)
  | numeral hword hlength => exact ⟨hword, hlength⟩
  | sign hsign => exact absurd rfl (hsigns _ hsign)

theorem isNumeral_of_mem_tokens {file text : String} {token : Token}
    (h : token ∈ (scan file text).tokens) (hkind : token.kind = .intLit) :
    IsNumeral token.lexeme.toList ∧ token.lexeme.toList.length ≤ integerDigitLimit := by
  have hreads := reads_of_mem_tokens h (by simp [hkind])
  rw [Token.reading, hkind] at hreads
  exact hreads.isNumeral_of_intLit

/-- Compiled code pushes the numbers of the literals in the tokens that its program was read
from. -/
theorem Ending.exists_pushes {passes : Passes} (hpasses : passes.Faithful) {keepsOutline : Bool}
    {file text : String} {result : Compilation} (h : Ending passes keepsOutline file text result)
    {code : List Instr} (hverdict : result.verdict = .compiled code) :
    ∃ program taken rest, result.program = some program ∧
      passes.read (scan file text).stream (sourceLines text) = .ok program ∧ program.WellTyped ∧
      code = program.code ∧ (scan file text).tokens = taken ++ rest ∧
      Grammar.DerivesProgram taken program ∧
      code.filterMap Instr.pushed? = taken.filterMap Token.number? := by
  cases h with
  | lexical | unread | unsketched | unchecked | violation | ungenerated => cases hverdict
  | @compiled program shown scope _ hread _ hcheck =>
    cases hverdict
    obtain ⟨taken, htokens, hderives, -⟩ :=
      TokenStream.derives_of_readProgramWithin (Prod.ext (hpasses.whole_read_eq_ok hread) rfl)
    have hholds : TokensHoldDigits taken := (tokensHoldDigits_scan file text).of_subset
      fun token htoken ↦ by simp [Scan.tokens, htokens, htoken]
    exact ⟨program, taken, _, rfl, hread, (Program.check_eq_ok.mp hcheck).2.2, rfl, htokens,
      hderives, hderives.pushes hholds⟩

/-- The text of code can be read back. Cut at its line feeds it gives the lines of the code, none of
them empty, and nothing behind them; each line denotes its instruction and no other. The code is
what is generated for the program, and the numbers that it pushes are those of the literals in the
source, in their order. -/
theorem compileWith_decodes {passes : Passes} (hpasses : passes.Faithful) {keepsOutline : Bool}
    {file text : String} {run : Run} (hrun : compileWith passes keepsOutline file text = .ok run)
    {code : List Instr} (hverdict : run.result.verdict = .compiled code) :
    Text.lineFeedLines (codeText code).toList =
        (code.map Instr.text).map String.toList ++ [[]] ∧
      (∀ line ∈ code.map Instr.text, line ≠ "" ∧ '\n' ∉ line.toList) ∧
      List.Forall₂ Line.Denotes (code.map Instr.text) code ∧
      (∀ line first second, Line.Denotes line first → Line.Denotes line second →
        first = second) ∧
      readCode? (codeText code) = some code ∧
      ∃ program labels taken rest, run.result.program = some program ∧
        program.node.code = .ok (code, labels) ∧ (scan file text).tokens = taken ++ rest ∧
        Grammar.DerivesProgram taken program ∧
        code.filterMap Instr.pushed? = taken.filterMap Token.number? ∧
        ∀ token ∈ taken, token.kind = .intLit →
          IsNumeral token.lexeme.toList ∧ token.lexeme.toList.length ≤ integerDigitLimit := by
  obtain ⟨found, hfound, hending⟩ := exists_ending hpasses keepsOutline file text
  obtain rfl : found = run := Except.ok.inj (hfound.symm.trans hrun)
  obtain ⟨program, taken, rest, hprogram, hread, htyped, rfl, htokens, hderives, hpushes⟩ :=
    hending.exists_pushes hpasses hverdict
  have hwhole : (scan file text).stream.readProgramWithin _ (sourceLines text) =
      (.ok program, _) := Prod.ext (hpasses.whole_read_eq_ok hread) rfl
  have hdenotes (instruction : Instr) (hinstruction : instruction ∈ program.code) :
      Line.Denotes instruction.text instruction := by
    refine htyped.denotes (literalsAreIntegers_of_scan hwhole)
      (fun name type hname ↦ isName_of_types hwhole hname) (fun value hvalue ↦ ?_) hinstruction
    rw [hpushes] at hvalue
    obtain ⟨token, -, hnumber⟩ := List.mem_filterMap.mp hvalue
    exact token.number?_nonneg hnumber
  refine ⟨lineFeedLines_codeText fun instruction h ↦ (hdenotes instruction h).isLine.2, ?_, ?_,
    fun _ _ _ hfirst hsecond ↦ hfirst.unique hsecond, readCode?_codeText hdenotes,
    program, _, taken, rest, hprogram, hpasses.code_of_read hread htyped, htokens, hderives,
    hpushes, ?_⟩
  · intro line hline
    obtain ⟨instruction, hinstruction, rfl⟩ := List.mem_map.mp hline
    exact (hdenotes instruction hinstruction).isLine
  · rw [List.forall₂_map_left_iff, List.forall₂_same]
    exact hdenotes
  · intro token htoken hkind
    exact isNumeral_of_mem_tokens (by rw [htokens]; exact List.mem_append_left _ htoken) hkind

/-- A program whose variables are called like a label and an instruction, with zeros in front of its
number. -/
def guardedHalt : String :=
  "program p; var L0 : boolean; var HALT : integer;
  begin L0 := true; if L0 then HALT := 007; end"

theorem compileWith_decodes_guardedHalt :
    Passes.standard.Faithful ∧ ∃ run code, compile false "p.src" guardedHalt = .ok run ∧
      run.result.verdict = .compiled code ∧
      code.map Instr.text = ["LOADL 1", "STORE L0", "LOAD L0", "JUMPIF(0) L0", "LOADL 7",
        "STORE HALT", "JUMP L1", "L0:", "L1:", "HALT"] ∧
      List.Forall₂ Line.Denotes (code.map Instr.text) code ∧
      readCode? (codeText code) = some code ∧ code.filterMap Instr.pushed? = [1, 7] := by
  have hpasses := Passes.within_faithful nestingLimit nestingLimit
  have hshape : (compile false "p.src" guardedHalt).toOption.map
      (fun run ↦ (run.result.succeeded, run.result.code)) =
      some (true, [.push (some (.int 1)), .store "L0", .load "L0", .jumpIfZero 0,
        .push (some (.int 7)), .store "HALT", .jump 1, .label 0, .label 1, .halt]) := by
    decide +kernel
  rcases hrun : compile false "p.src" guardedHalt with _ | run
  · rw [hrun] at hshape
    cases hshape
  rw [hrun] at hshape
  obtain ⟨hsucceeded, hcode⟩ := Prod.mk.inj (Option.some.inj hshape)
  have hverdict : run.result.verdict = .compiled run.result.code := by
    unfold Compilation.succeeded at hsucceeded
    unfold Compilation.code
    split at hsucceeded
    · cases hsucceeded
    · assumption
  obtain ⟨-, -, hdenotes, -, hread, -⟩ := compileWith_decodes hpasses hrun hverdict
  refine ⟨hpasses, run, run.result.code, rfl, hverdict, ?_, hdenotes, hread, ?_⟩
  · rw [hcode]
    decide
  · rw [hcode]
    rfl

end StackCompiler
