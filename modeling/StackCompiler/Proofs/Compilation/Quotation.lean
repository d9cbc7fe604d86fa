import StackCompiler.Proofs.Compilation.Coherence
import StackCompiler.Proofs.Grammar.ViablePrefix
import StackCompiler.Proofs.Scanning.Places

/-!
# Which line a diagnostic shows

A diagnostic with a place shows a line of the source text and a caret under it. The place counts
line feeds, and so do the lines that lexical diagnostics show; the later stages take the line with
the number of the place from `breakLines`, which cuts at more characters. So the caret of a lexical
diagnostic stands under the character or the first digit at fault, and that of a later one under the
first character of the token at fault as long as the lines up to there are plain
(`compileWith_quotes`). Behind a form feed in a comment the line shown is another one
(`not_pointsAtOffence_formFeedInComment`).

The token at fault is found through the stages: reading stops in front of it, and a violation stands
at a token of the program (`Ending.exists_origin`).
-/

set_option autoImplicit false
set_option relaxedAutoImplicit false

namespace StackCompiler

open Scanning Text

/-! ### What a diagnostic shows -/

/-- What a cause at a location is about, as it is written: a character, a numeral or the lexeme of
the token there. -/
inductive Cause.Blames (tokens : List Token) (location : Location) : Cause → List Char → Prop
  | character (c : Char) : Blames tokens location (.strayCharacter c) [c]
  | numeral {word : List Char} (hword : IsNumeral word) :
      Blames tokens location (.oversizedInteger word.length) word
  | token {cause : Cause} {token : Token} (hmem : token ∈ tokens)
      (hlocation : token.location = location) (habout : cause.IsAbout token) :
      Blames tokens location cause token.lexeme.toList

/-- The message shows one line, and the caret under it is below the start of a word. -/
def Diagnostic.CaretUnder (found : Diagnostic) (word : List Char) : Prop :=
  ∃ shown indent, found.excerpt = [shown, String.ofList (List.replicate indent ' ' ++ ['^'])] ∧
    word <+: shown.toList.drop indent

/-- A diagnostic at a place of a text shows the line there, at most without the carriage return at
its end, and points at what it is about. -/
def Diagnostic.PointsAtOffence (found : Diagnostic) (file : String) (text : List Char)
    (tokens : List Token) (place : Place) (line : String) : Prop :=
  ∃ row word, (lineFeedLines text)[place.line - 1]? = some row ∧
    (line.toList = row ∨ line.toList = withoutReturn row) ∧
    found.cause.Blames tokens (place.location file) word ∧
    word <+: line.toList.drop (place.column - 1) ∧ found.CaretUnder word

/-- A word in the line that is shown has the caret below its start. -/
theorem Diagnostic.caretUnder_of_prefix {found : Diagnostic} {file line : String} {place : Place}
    {word : List Char} (hlocation : found.location = some (place.location file))
    (hline : found.sourceLine = some line) (hcolumn : 1 ≤ place.column)
    (hword : word <+: line.toList.drop (place.column - 1)) : found.CaretUnder word := by
  have hindent : ((place.column : Int) + 3).toNat = place.column - 1 + 4 := by omega
  refine ⟨"    " ++ line, place.column - 1 + 4, ?_, ?_⟩
  · have hpositive : (place.location file).column > 0 := by
      simp only [Place.location]
      omega
    simp only [excerpt, hline, hlocation]
    rw [if_pos hpositive]
    simp only [Place.location, hindent]
  · have hshown : ("    " ++ line).toList = [' ', ' ', ' ', ' '] ++ line.toList :=
      String.toList_append ..
    rwa [hshown, Nat.add_comm, ← List.drop_drop]

/-- Without the carriage return at its end a line still holds the words without one. -/
theorem prefix_drop_withoutReturn {row word : List Char} {n : Nat} (hword : '\r' ∉ word)
    (h : word <+: row.drop n) : word <+: (withoutReturn row).drop n := by
  rcases withoutReturn_cases row with ⟨hsame, -⟩ | hreturn
  · rwa [hsame]
  · rw [hreturn, List.drop_append] at h
    cases hbeyond : n - (withoutReturn row).length with
    | zero =>
      rw [hbeyond, List.drop_zero] at h
      rcases List.prefix_concat_iff.mp h with rfl | h
      · exact absurd (by simp) hword
      · exact h
    | succ more => simpa [hbeyond] using h

/-! ### Where diagnostics come from -/

section Origin

variable {passes : Passes} {keepsOutline : Bool} {file text : String}

open Grammar in
/-- A refusal that shows a line stands at the token in front of which reading stopped. -/
theorem Grammar.Refusal.diagnostic_eq {refusal : Refusal} {token : Token} {lines : List String}
    {line : String} (h : (refusal.diagnostic token lines).sourceLine = some line) :
    ∃ cause, refusal.diagnostic token lines = token.diagnostic lines cause ∧
      cause.IsAbout token := by
  cases refusal with
  | tooDeep => cases h
  | floatLiteral => exact ⟨_, rfl, rfl⟩
  | unexpected expected => cases expected <;> exact ⟨_, rfl, rfl⟩

open TokenStream in
/-- Where reading stops, it stops at a token of the stream. -/
theorem TokenStream.exists_token_of_readProgramWithin {stream : TokenStream} {depth : Nat}
    {lines : List String} {found : Diagnostic} {line : String}
    (h : (stream.readProgramWithin depth lines).1 = .error found)
    (hline : found.sourceLine = some line) :
    ∃ token ∈ stream.toList, ∃ cause : Cause, found = token.diagnostic lines cause ∧
      cause.IsAbout token := by
  obtain ⟨refusal, hrun, hstopped, rfl⟩ := readProgramWithin_eq_error (Prod.ext h rfl)
  obtain ⟨cause, hsame, habout⟩ := Grammar.Refusal.diagnostic_eq hline
  have hmem := next_mem_of_stop hrun
  rw [← hstopped] at hmem
  exact ⟨_, hmem, cause, hsame, habout⟩

/-- A program holds tokens that it was read from. -/
theorem Passes.Faithful.tokens_subset_of_read (hpasses : passes.Faithful) {stream : TokenStream}
    {lines : List String} {program : Program} (hread : passes.read stream lines = .ok program) :
    program.tokens ⊆ stream.toList := by
  obtain ⟨tokens, htokens, hderives, -⟩ := TokenStream.derives_of_readProgramWithin
    (Prod.ext (hpasses.whole_read_eq_ok hread) rfl)
  rw [hderives.tokens_eq, htokens]
  exact List.Subset.trans List.filter_sublist.subset (List.subset_append_left _ _)

/-- A diagnostic that shows a line is a fault of the scan, or it stands at a token of the scan. -/
theorem Ending.exists_origin {result : Compilation} (hpasses : passes.Faithful)
    (h : Ending passes keepsOutline file text result) {found : Diagnostic} {line : String}
    (hfound : found ∈ result.diagnostics) (hline : found.sourceLine = some line) :
    result.tokens = (scan file text).tokens ∧
      (found.family = .lexical ∧ found ∈ (scan file text).faults ∨
        found.family ≠ .lexical ∧ ∃ token ∈ (scan file text).tokens, ∃ cause : Cause,
          found = token.diagnostic (sourceLines text) cause ∧ cause.IsAbout token) := by
  cases h with
  | lexical hfaults =>
    have hmem : found ∈ (scan file text).faults := hfaults ▸ hfound
    exact ⟨rfl, .inl ⟨family_of_mem_faults hmem, hmem⟩⟩
  | unread hfaults hread hfamily =>
    cases List.mem_singleton.mp hfound
    refine ⟨rfl, .inr ⟨by simp [hfamily], ?_⟩⟩
    rcases hpasses.read (scan file text).stream (sourceLines text) with ⟨place, hstruck⟩ | hsame
    · rw [hread] at hstruck
      cases hstruck
      cases hline
    · exact TokenStream.exists_token_of_readProgramWithin (hsame.symm.trans hread) hline
  | unsketched | unchecked | ungenerated =>
    cases List.mem_singleton.mp hfound
    cases hline
  | violation hfaults hread _ hcheck hfamily =>
    cases List.mem_singleton.mp hfound
    obtain ⟨violation, hsame, hwithin⟩ := (hpasses.wellFormed_of_read hread).check_eq_error hcheck
    cases hsame
    have hmem := hpasses.tokens_subset_of_read hread hwithin.token_mem
    exact ⟨rfl, .inr ⟨by simp [hfamily], _, hmem, _, rfl, hwithin.isAbout⟩⟩
  | compiled => cases hfound

end Origin

/-! ### Lines and carets -/

theorem sourceLineAt_location {text file line : String} {place : Place}
    (h : sourceLineAt (sourceLines text) (place.location file) = some line) :
    (breakLines text.toList)[place.line - 1]? = some line.toList := by
  unfold sourceLineAt Place.location at h
  split at h
  · have hindex : ((place.line : Int) - 1).toNat = place.line - 1 := by omega
    simp only [sourceLines, hindex, List.getElem?_map, Option.map_eq_some_iff] at h
    obtain ⟨characters, hcharacters, rfl⟩ := h
    rwa [String.toList_ofList]
  · cases h

/-- Which line the diagnostics of a compilation show that have a place, and where their caret
stands. -/
structure Diagnostic.Quotes (found : Diagnostic) (file text : String) (tokens : List Token)
    (place : Place) (line : String) : Prop where
  lexical : found.family = .lexical →
    (lineFeedLines text.toList)[place.line - 1]? = some line.toList
  later : found.family ≠ .lexical → (breakLines text.toList)[place.line - 1]? = some line.toList
  pointsAtOffence :
    (found.family ≠ .lexical → ∀ row ∈ (lineFeedLines text.toList).take place.line, IsPlain row) →
      found.PointsAtOffence file text.toList tokens place line

/-- A word that stands where the diagnostic is, in the line that it shows, is what it points at. -/
theorem Diagnostic.pointsAtOffence_of_standsAt {found : Diagnostic} {file line : String}
    {text word : List Char} {tokens : List Token} {place : Place}
    (hlocation : found.location = some (place.location file))
    (hline : found.sourceLine = some line) (hstands : StandsAt text place word)
    (hblank : ∀ c ∈ word, c ∉ blanks)
    (hblames : found.cause.Blames tokens (place.location file) word)
    (hshown : ∀ row, (lineFeedLines text)[place.line - 1]? = some row →
      line.toList = row ∨ line.toList = withoutReturn row) :
    found.PointsAtOffence file text tokens place line := by
  have hfeed : '\n' ∉ word := fun h ↦ hblank _ h (by decide)
  have hreturn : '\r' ∉ word := fun h ↦ hblank _ h (by decide)
  obtain ⟨-, hcolumn, row, hrow, hword⟩ := hstands.exists_line hfeed
  have hprefix : word <+: line.toList.drop (place.column - 1) := by
    rcases hshown row hrow with hsame | hsame <;> rw [hsame]
    · exact hword
    · exact prefix_drop_withoutReturn hreturn hword
  exact ⟨row, word, hrow, hshown row hrow, hblames, hprefix,
    caretUnder_of_prefix hlocation hline hcolumn hprefix⟩

section Sources

variable {file text line : String} {found : Diagnostic}

theorem quotes_of_mem_faults (h : found ∈ (scan file text).faults)
    (hline : found.sourceLine = some line) :
    ∃ place : Place, found.location = some (place.location file) ∧
      found.Quotes file text (scan file text).tokens place line := by
  obtain ⟨place, word, hstands, hreports⟩ := exists_standsAt_of_mem_faults h
  have hfamily := family_of_mem_faults h
  have hblank := hreports.not_mem_blanks
  obtain ⟨cause, rfl, hblames⟩ : ∃ cause, found = ⟨cause, some (place.location file),
      ((lineFeedLines text.toList).toArray)[place.line - 1]?.map String.ofList⟩ ∧
      cause.Blames (scan file text).tokens (place.location file) word := by
    cases hreports with
    | stray _ => exact ⟨_, rfl, .character _⟩
    | oversized hword => exact ⟨_, rfl, .numeral hword⟩
  have hshown : (lineFeedLines text.toList)[place.line - 1]? = some line.toList := by
    simp only [List.getElem?_toArray, Option.map_eq_some_iff] at hline
    obtain ⟨characters, hcharacters, rfl⟩ := hline
    rwa [String.toList_ofList]
  refine ⟨place, rfl, fun _ ↦ hshown, fun hno ↦ absurd hfamily hno, fun _ ↦ ?_⟩
  exact Diagnostic.pointsAtOffence_of_standsAt rfl hline hstands hblank hblames
    fun row hrow ↦ .inl (Option.some.inj (hshown.symm.trans hrow))

theorem quotes_of_mem_tokens {token : Token} (hmem : token ∈ (scan file text).tokens)
    {cause : Cause} (habout : cause.IsAbout token) (hfamily : cause.family ≠ .lexical)
    (hline : (token.diagnostic (sourceLines text) cause).sourceLine = some line) :
    ∃ place : Place, (token.diagnostic (sourceLines text) cause).location =
        some (place.location file) ∧
      (token.diagnostic (sourceLines text) cause).Quotes file text (scan file text).tokens place
        line := by
  obtain ⟨place, hlocation, hstands, hblank⟩ := exists_standsAt_of_mem_tokens hmem
  have hfeed : '\n' ∉ token.lexeme.toList := fun h ↦ hblank _ h (by decide)
  obtain ⟨hpositive, -⟩ := hstands.exists_line hfeed
  have hplace : (token.diagnostic (sourceLines text) cause).location =
      some (place.location file) := congrArg some hlocation
  have hshown : (breakLines text.toList)[place.line - 1]? = some line.toList :=
    sourceLineAt_location (by rw [← hlocation]; exact hline)
  refine ⟨place, hplace, fun h ↦ absurd h hfamily, fun _ ↦ hshown, fun hplain ↦ ?_⟩
  refine Diagnostic.pointsAtOffence_of_standsAt hplace hline hstands hblank
    (.token hmem hlocation habout) fun row hrow ↦ .inr ?_
  have hearlier := hplain hfamily
  rw [← Nat.sub_add_cancel hpositive] at hearlier
  exact breakLines_of_isPlain hrow hearlier hshown

end Sources

/-! ### Compilations -/

/-- A compilation comes to an end, and of its diagnostics the lexical ones show the line that their
place is in, and the later ones the line that has its number in `breakLines`. If no line up to there
holds a character that ends a line, a carriage return at its end apart, then both show the same
line, and the caret stands under the start of what the diagnostic is about. -/
theorem compileWith_quotes {passes : Passes} (hpasses : passes.Faithful) (keepsOutline : Bool)
    (file text : String) :
    ∃ run, compileWith passes keepsOutline file text = .ok run ∧
      ∀ found ∈ run.result.diagnostics, ∀ location line, found.location = some location →
        found.sourceLine = some line →
          ∃ place : Place, location = place.location file ∧
            found.Quotes file text run.result.tokens place line := by
  obtain ⟨run, hrun, hending⟩ := exists_ending hpasses keepsOutline file text
  refine ⟨run, hrun, fun found hfound location line hlocation hline ↦ ?_⟩
  obtain ⟨htokens, ⟨-, hfault⟩ | ⟨hfamily, token, hmem, cause, rfl, habout⟩⟩ :=
    hending.exists_origin hpasses hfound hline
  · obtain ⟨place, hplace, hquotes⟩ := quotes_of_mem_faults hfault hline
    exact ⟨place, Option.some.inj (hlocation.symm.trans hplace), htokens ▸ hquotes⟩
  · obtain ⟨place, hplace, hquotes⟩ := quotes_of_mem_tokens hmem habout hfamily hline
    exact ⟨place, Option.some.inj (hlocation.symm.trans hplace), htokens ▸ hquotes⟩

/-- A program with an undeclared variable in its third line. The lines end with a carriage return
and a line feed. -/
def undeclaredInThirdLine : String :=
  "program p;\r\nbegin\r\n  x := 1;\r\nend"

theorem compileWith_quotes_undeclaredInThirdLine :
    Passes.standard.Faithful ∧ ∃ run found,
      compile false "p.src" undeclaredInThirdLine = .ok run ∧ found ∈ run.result.diagnostics ∧
        found.location = some ⟨"p.src", 3, 3⟩ ∧ found.sourceLine = some "  x := 1;" ∧
        found.PointsAtOffence "p.src" undeclaredInThirdLine.toList run.result.tokens ⟨3, 3⟩
          "  x := 1;" := by
  have hpasses := Passes.within_faithful nestingLimit nestingLimit
  have hcode : codeWith .standard "p.src" undeclaredInThirdLine =
      .ok (.error ⟨.undeclared "x" [], some ⟨"p.src", 3, 3⟩, some "  x := 1;"⟩) := by
    decide +kernel
  obtain ⟨run, hrun, hquotes⟩ := compileWith_quotes hpasses false "p.src" undeclaredInThirdLine
  have hfound := mem_diagnostics_of_codeWith hcode hrun
  obtain ⟨⟨n, m⟩, hplace, hquoted⟩ := hquotes _ hfound _ _ rfl rfl
  simp only [Place.location, Location.mk.injEq, true_and] at hplace
  obtain ⟨rfl, rfl⟩ : n = 3 ∧ m = 3 := by omega
  exact ⟨hpasses, run, _, hrun, hfound, rfl, rfl, hquoted.pointsAtOffence fun _ ↦ by decide⟩

/-- A program with an undeclared variable in its second line, and a form feed in a comment in its
first. -/
def formFeedInComment : String :=
  "program p; // \x0c\nbegin x := 1; end"

/-- The diagnostic is placed in the second line and shows an empty one. -/
theorem not_pointsAtOffence_formFeedInComment :
    ∃ run found, compile false "p.src" formFeedInComment = .ok run ∧
      found ∈ run.result.diagnostics ∧ found.location = some ⟨"p.src", 2, 7⟩ ∧
      found.sourceLine = some "" ∧
      (lineFeedLines formFeedInComment.toList)[1]? = some "begin x := 1; end".toList ∧
      ¬ found.PointsAtOffence "p.src" formFeedInComment.toList run.result.tokens ⟨2, 7⟩ "" := by
  have hcode : codeWith .standard "p.src" formFeedInComment =
      .ok (.error ⟨.undeclared "x" [], some ⟨"p.src", 2, 7⟩, some ""⟩) := by
    decide +kernel
  obtain ⟨run, hrun, -⟩ := exists_ending (Passes.within_faithful nestingLimit nestingLimit) false
    "p.src" formFeedInComment
  have hsecond : (lineFeedLines formFeedInComment.toList)[1]? =
      some "begin x := 1; end".toList := by
    decide
  refine ⟨run, _, hrun, mem_diagnostics_of_codeWith hcode hrun, rfl, rfl, hsecond, ?_⟩
  rintro ⟨row, word, hrow, hline, -⟩
  obtain rfl := Option.some.inj (hsecond.symm.trans hrow)
  revert hline
  decide

end StackCompiler
