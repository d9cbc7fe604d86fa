import Mathlib.Data.List.DropRight
import Mathlib.Data.List.Induction
import StackCompiler.Proofs.Scanning.Lines
import StackCompiler.Proofs.Scanning.MaximalMunch

/-!
# Places of tokens and faults

The place of a token or a fault is counted up over the tiles in front of it. It is the true one:
what the finding is about stands in the text at this place (`exists_standsAt_of_mem_tokens`,
`exists_standsAt_of_mem_faults`), where `StandsAt` says that the place is the one behind all that
stands in front. A word without line feeds that stands at a place stands in the line with the number
of the place, from the column of the place on (`StandsAt.exists_line`).
-/

set_option autoImplicit false
set_option relaxedAutoImplicit false

namespace StackCompiler

open Scanning Text

/-! ### Places and lines -/

/-- A word stands in a text at a place. -/
def StandsAt (text : List Char) (place : Place) (word : List Char) : Prop :=
  ∃ before after, text = before ++ (word ++ after) ∧ place = Place.start.behind before

theorem Place.behind_concat (place : Place) (text : List Char) (c : Char) :
    place.behind (text ++ [c]) = (place.behind text).step c := by
  simp [behind]

/-- A text breaks off in a line: behind so many lines, and behind so much of the line. Whatever
follows goes on there. -/
structure BreaksOff (before : List Char) (done : List (List Char)) (opened : List Char) : Prop where
  place_eq : Place.start.behind before = ⟨done.length + 1, opened.length + 1⟩
  lines_append (after row : List Char) (more : List (List Char)) :
    lineFeedLines after = row :: more →
      lineFeedLines (before ++ after) = done ++ (opened ++ row) :: more

theorem BreaksOff.nil : BreaksOff [] [] [] where
  place_eq := rfl
  lines_append _ _ _ h := h

theorem BreaksOff.lineFeed {before opened : List Char} {done : List (List Char)}
    (h : BreaksOff before done opened) : BreaksOff (before ++ ['\n']) (done ++ [opened]) [] where
  place_eq := by simp [Place.behind_concat, h.place_eq, Place.step]
  lines_append after row more hafter := by
    have hlines := h.lines_append ('\n' :: after) [] (lineFeedLines after)
      (lineFeedLines_lineFeed after)
    rw [hafter] at hlines
    simpa using hlines

theorem BreaksOff.concat {before opened : List Char} {done : List (List Char)} {c : Char}
    (h : BreaksOff before done opened) (hc : c ≠ '\n') :
    BreaksOff (before ++ [c]) done (opened ++ [c]) where
  place_eq := by simp [Place.behind_concat, h.place_eq, Place.step, hc]
  lines_append after row more hafter := by
    have hfree : '\n' ∉ [c] := by simpa using hc.symm
    have hlines := h.lines_append (c :: after) (c :: row) more
      (lineFeedLines_append_of_free hfree hafter)
    simpa using hlines

/-- What a text has behind its last line feed. -/
def lastLine (text : List Char) : List Char :=
  text.rtakeWhile (· != '\n')

theorem lastLine_lineFeed (text : List Char) : lastLine (text ++ ['\n']) = [] :=
  List.rtakeWhile_concat_neg _ _ _ (by simp)

theorem lastLine_concat (text : List Char) {c : Char} (hc : c ≠ '\n') :
    lastLine (text ++ [c]) = lastLine text ++ [c] :=
  List.rtakeWhile_concat_pos _ _ _ (by simpa using hc)

/-- A text breaks off in its last line. -/
theorem exists_breaksOff (before : List Char) :
    ∃ done, done.length = before.count '\n' ∧ BreaksOff before done (lastLine before) := by
  induction before using List.reverseRecOn with
  | nil => exact ⟨[], rfl, .nil⟩
  | append_singleton before c ih =>
    obtain ⟨done, hlength, h⟩ := ih
    by_cases hc : c = '\n'
    · subst hc
      rw [lastLine_lineFeed]
      exact ⟨_, by simp [hlength], h.lineFeed⟩
    · rw [lastLine_concat before hc]
      exact ⟨done, by simp [hlength, hc], h.concat hc⟩

/-- A word in one line stands there from the column of its place on. -/
theorem StandsAt.exists_line {text word : List Char} {place : Place}
    (h : StandsAt text place word) (hword : '\n' ∉ word) :
    1 ≤ place.line ∧ 1 ≤ place.column ∧
      ∃ row, (lineFeedLines text)[place.line - 1]? = some row ∧
        word <+: row.drop (place.column - 1) := by
  obtain ⟨before, after, rfl, rfl⟩ := h
  obtain ⟨done, -, hbefore⟩ := exists_breaksOff before
  obtain ⟨row, more, hafter⟩ := exists_cutAt_eq_cons (· == '\n') after
  have hlines := hbefore.lines_append _ _ _ (lineFeedLines_append_of_free hword hafter)
  rw [hbefore.place_eq]
  exact ⟨by simp, by simp, lastLine before ++ (word ++ row), by simp [hlines], by simp⟩

/-! ### What findings are about -/

theorem Scanning.IsDigit.not_mem_blanks {c : Char} (h : IsDigit c) : c ∉ blanks := by
  have hall : blanks.all (fun c ↦ ¬ IsDigit c) = true := by decide
  exact fun hblank ↦ of_decide_eq_true (List.all_eq_true.mp hall c hblank) h

theorem Scanning.IsNumeral.not_mem_blanks {word : List Char} (h : IsNumeral word) :
    ∀ c ∈ word, c ∉ blanks :=
  fun c hc ↦ (h.2 c hc).not_mem_blanks

theorem Scanning.Reads.not_mem_blanks {word : List Char} {reading : Reading}
    (h : Reads word reading) : ∀ c ∈ word, c ∉ blanks := by
  have hletters : blanks.all (fun c ↦ ¬ IsLetter c) = true := by decide
  have hsigns : signs.all (fun sign ↦ sign.1.all fun c ↦ c ∉ blanks) = true := by decide
  intro c hc hblank
  have hletter : ¬ IsLetter c := of_decide_eq_true (List.all_eq_true.mp hletters c hblank)
  cases h with
  | keyword hword _ | name hword _ =>
    obtain ⟨d, more, rfl, hd, hmore⟩ := hword
    rcases List.mem_cons.mp hc with rfl | hc
    · exact hletter hd
    · exact (hmore c hc).elim hletter fun hdigit ↦ hdigit.not_mem_blanks hblank
  | numeral hword _ | oversized hword _ => exact hword.not_mem_blanks c hc hblank
  | decimal hword =>
    obtain ⟨whole, fraction, hwhole, hfraction, rfl⟩ := hword
    rcases List.mem_append.mp hc with hc | hc
    · exact hwhole.not_mem_blanks c hc hblank
    · rcases List.mem_cons.mp hc with rfl | hc
      · exact absurd hblank (by decide)
      · exact hfraction.not_mem_blanks c hc hblank
  | sign hmem =>
    have hsign := List.all_eq_true.mp (List.all_eq_true.mp hsigns _ hmem) c hc
    exact of_decide_eq_true hsign hblank

/-- What a finding says of the word that it is about: a token has it as its lexeme, and a fault is
about one character or a numeral. No blank is in it. -/
inductive Finding.Reports (file : String) (lines : Array (List Char)) (place : Place) :
    List Char → Finding → Prop
  | token {word : List Char} {kind : TokenKind} {literal : Option Literal}
      (hblank : ∀ c ∈ word, c ∉ blanks) :
      Reports file lines place word
        (.token ⟨kind, String.ofList word, literal, place.location file⟩)
  | stray {c : Char} (hblank : c ∉ blanks) :
      Reports file lines place [c] (place.fault file lines (.strayCharacter c))
  | oversized {word : List Char} (hword : IsNumeral word) :
      Reports file lines place word (place.fault file lines (.oversizedInteger word.length))

variable {file : String} {lines : Array (List Char)}

theorem Finding.Reports.not_mem_blanks {place : Place} {word : List Char} {finding : Finding}
    (h : finding.Reports file lines place word) : ∀ c ∈ word, c ∉ blanks := by
  cases h with
  | token hblank => exact hblank
  | stray hblank => simpa using hblank
  | oversized hword => exact hword.not_mem_blanks

/-- A tile that is read as its word reports this word. -/
theorem Tile.reports_of_reads {tile : Tile} {reading : Reading} {place : Place} {finding : Finding}
    (hreading : tile.reading? = some reading) (hreads : Reads tile.text reading)
    (h : tile.finding? file lines place = some finding) :
    finding.Reports file lines place tile.text := by
  obtain ⟨shape, word⟩ := tile
  cases shape with
  | blank | comment => cases h
  | token kind literal =>
    cases h
    exact .token hreads.not_mem_blanks
  | strayCharacter c =>
    cases hreading
    cases hreads
  | oversizedInteger digits =>
    cases hreading
    cases h
    change Reads word _ at hreads
    cases hreads with
    | oversized hword _ => exact .oversized hword

/-- A tile that is read as something is a word, or a character that begins no word. -/
theorem Tile.reads_or_stray {c : Char} {rest : List Char} {reading : Reading}
    (h : (tileAt c rest).reading? = some reading) :
    Reads (tileAt c rest).text reading ∨
      tileAt c rest = ⟨.strayCharacter c, [c]⟩ ∧ c ∉ blanks := by
  by_cases hgap : StartsWithGap (c :: rest)
  · rcases hgap with ⟨d, hd, hbegins⟩ | hbegins
    · obtain ⟨rfl, -⟩ := List.cons_prefix_cons.mp hbegins
      rw [tileAt_of_blank hd] at h
      cases h
    · obtain ⟨rfl, tail, rfl⟩ := List.cons_prefix_cons.mp hbegins
      rw [List.singleton_append, tileAt_of_comment] at h
      cases h
  · rcases tileAt_spec hgap with ⟨⟨found, hfound, hreads⟩, -⟩ | ⟨hstray, -⟩
    · cases h.symm.trans hfound
      exact .inl hreads
    · exact .inr ⟨hstray, fun hblank ↦ hgap (startsWithGap_blank hblank rest)⟩

theorem Tile.reports_tileAt {c : Char} {rest : List Char} {place : Place} {finding : Finding}
    (h : (tileAt c rest).finding? file lines place = some finding) :
    finding.Reports file lines place (tileAt c rest).text := by
  have hreading : (tileAt c rest).reading? = some finding.reading := by
    rw [← finding?_reading file lines place, h]
    rfl
  rcases reads_or_stray hreading with hreads | ⟨hstray, hblank⟩
  · exact reports_of_reads hreading hreads h
  · rw [hstray] at h ⊢
    cases h
    exact .stray hblank

/-! ### Findings at their places -/

theorem exists_of_mem_findingsFrom {place : Place} {pieces : List Tile} {finding : Finding}
    (h : finding ∈ findingsFrom file lines place pieces) :
    ∃ front tile back, pieces = front ++ tile :: back ∧
      tile.finding? file lines (place.behind (front.flatMap Tile.text)) = some finding := by
  induction pieces generalizing place with
  | nil => cases h
  | cons tile more ih =>
    have hlater : finding ∈ findingsFrom file lines (place.behind tile.text) more →
        ∃ front found back, tile :: more = front ++ found :: back ∧
          found.finding? file lines (place.behind (front.flatMap Tile.text)) = some finding := by
      intro hmem
      obtain ⟨front, found, back, rfl, hfound⟩ := ih hmem
      rw [← Place.behind_append] at hfound
      exact ⟨tile :: front, found, back, rfl, hfound⟩
    rw [findingsFrom] at h
    cases hfinding : tile.finding? file lines place with
    | none =>
      rw [hfinding] at h
      exact hlater h
    | some first =>
      rw [hfinding] at h
      rcases List.mem_cons.mp h with rfl | h
      · exact ⟨[], tile, more, rfl, hfinding⟩
      · exact hlater h

/-- The tiles behind others are those of the text that these leave. -/
theorem tiles_of_append {text : List Char} {front back : List Tile}
    (h : tiles text = front ++ back) : tiles (back.flatMap Tile.text) = back := by
  induction front generalizing text with
  | nil =>
    rw [List.nil_append] at h
    rw [← h, flatMap_text_tiles]
  | cons tile front ih =>
    cases text with
    | nil => simp [tiles] at h
    | cons c rest =>
      rw [tiles, List.cons_append, List.cons.injEq] at h
      exact ih h.2

/-- What a finding is about stands in the text at the place of the finding. -/
theorem exists_standsAt_of_mem_findingsFrom {text : List Char} {finding : Finding}
    (h : finding ∈ findingsFrom file lines .start (tiles text)) :
    ∃ place word, StandsAt text place word ∧ finding.Reports file lines place word := by
  obtain ⟨front, tile, back, htiles, hfinding⟩ := exists_of_mem_findingsFrom h
  have htext := flatMap_text_tiles text
  rw [htiles, List.flatMap_append, List.flatMap_cons] at htext
  have hback := tiles_of_append htiles
  refine ⟨_, tile.text, ⟨_, back.flatMap Tile.text, htext.symm, rfl⟩, ?_⟩
  cases hrest : (tile :: back).flatMap Tile.text with
  | nil => simp [hrest, tiles] at hback
  | cons c rest =>
    rw [hrest, tiles, List.cons.injEq] at hback
    obtain ⟨rfl, -⟩ := hback
    exact Tile.reports_tileAt hfinding

/-! ### Scans -/

/-- Every token of a scan stands at its place in the text, the one at the end as well, which is
empty. -/
theorem exists_standsAt_of_mem_tokens {file text : String} {token : Token}
    (h : token ∈ (scan file text).tokens) :
    ∃ place, token.location = place.location file ∧
      StandsAt text.toList place token.lexeme.toList ∧ ∀ c ∈ token.lexeme.toList, c ∉ blanks := by
  rcases List.mem_append.mp h with h | h
  · obtain ⟨finding, hfinding, htoken⟩ := List.mem_filterMap.mp h
    obtain ⟨place, word, hstands, hreports⟩ := exists_standsAt_of_mem_findingsFrom hfinding
    cases hreports with
    | token hblank =>
      cases htoken
      rw [String.toList_ofList]
      exact ⟨place, rfl, hstands, hblank⟩
    | stray | oversized => cases htoken
  · obtain rfl := List.mem_singleton.mp h
    have hempty : (scan file text).stream.final.lexeme.toList = [] := rfl
    rw [hempty]
    exact ⟨_, rfl, ⟨text.toList, [], by simp, rfl⟩, by simp⟩

/-- What a fault of a scan is about stands at its place in the text. -/
theorem exists_standsAt_of_mem_faults {file text : String} {found : Diagnostic}
    (h : found ∈ (scan file text).faults) :
    ∃ place word, StandsAt text.toList place word ∧
      (Finding.fault found).Reports file (lineFeedLines text.toList).toArray place word := by
  simp only [scan, Scanner.rest, Scanner.ofText, List.nil_append, List.mem_filterMap] at h
  obtain ⟨finding, hfinding, hfault⟩ := h
  cases finding with
  | token token => cases hfault
  | fault other =>
    cases hfault
    exact exists_standsAt_of_mem_findingsFrom hfinding

end StackCompiler
