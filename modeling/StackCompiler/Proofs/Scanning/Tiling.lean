import StackCompiler.Proofs.Scanning.Places

/-!
# Findings tile the text

The tokens and the faults of a scan stand in the text from left to right, and between them there are
only gaps of blanks and comments: `scan_tiles` is the main statement. `Tiled` says so for what is
left of a text behind some front, and it says of every finding that it is true of the word that it
is about (`Finding.Marks`).

Places are compared with places that are counted in the text (`placeBehind`), line feeds for the
line and characters behind the last of them for the column, so that the scanner's way of counting
one character after another is seen to be right (`behind_start`). The line that a fault shows is the
one around its word (`lineAround`).
-/

set_option autoImplicit false
set_option relaxedAutoImplicit false

namespace StackCompiler

open Scanning Text

/-! ### Places counted in the text -/

/-- The place behind a text, counted in the text. -/
def placeBehind (text : List Char) : Place :=
  ⟨1 + text.count '\n', 1 + (lastLine text).length⟩

/-- What stands around a word between the line feeds in front of it and behind it. -/
def lineAround (before word after : List Char) : List Char :=
  lastLine before ++ (word ++ after.takeWhile (· != '\n'))

/-- The place that is counted up character by character is the one that the text has. -/
theorem behind_start (text : List Char) : Place.start.behind text = placeBehind text := by
  obtain ⟨done, hlength, h⟩ := exists_breaksOff text
  rw [h.place_eq, placeBehind, hlength, Nat.add_comm, Nat.add_comm (lastLine text).length]

theorem head_lineFeedLines (text : List Char) :
    ∃ more, lineFeedLines text = text.takeWhile (· != '\n') :: more := by
  rcases lineFeedLines_cases text with ⟨hfree, hlines⟩ | ⟨row, rest, hrow, rfl, hlines⟩
  · refine ⟨[], ?_⟩
    rw [hlines, List.takeWhile_eq_self_iff.mpr]
    exact fun c hc ↦ by simpa using fun hsame : c = '\n' ↦ hfree (hsame ▸ hc)
  · refine ⟨lineFeedLines rest, ?_⟩
    rw [hlines, List.takeWhile_append_of_pos]
    · simp
    · exact fun c hc ↦ by simpa using fun hsame : c = '\n' ↦ hrow (hsame ▸ hc)

/-- The line with the number of a word's place is the one around the word. -/
theorem getElem?_lineFeedLines_placeBehind {word : List Char} (hword : '\n' ∉ word)
    (before after : List Char) :
    (lineFeedLines (before ++ (word ++ after)))[(placeBehind before).line - 1]? =
      some (lineAround before word after) := by
  obtain ⟨done, hlength, h⟩ := exists_breaksOff before
  obtain ⟨more, hafter⟩ := head_lineFeedLines after
  rw [h.lines_append _ _ _ (lineFeedLines_append_of_free hword hafter)]
  simp [placeBehind, lineAround, hlength]

/-- The word stands in the line around it from the column of its place on. -/
theorem drop_lineAround (before word after : List Char) :
    (lineAround before word after).drop ((placeBehind before).column - 1) =
      word ++ after.takeWhile (· != '\n') := by
  simp [lineAround, placeBehind]

/-! ### Places in order -/

/-- One location stands in front of another: in an earlier line, or in the same line further to the
left. -/
def Location.Precedes (first second : Location) : Prop :=
  first.line < second.line ∨ first.line = second.line ∧ first.column < second.column

theorem Location.Precedes.trans {first second third : Location} (h : first.Precedes second)
    (hlater : second.Precedes third) : first.Precedes third := by
  unfold Precedes at *
  omega

theorem Place.precedes_behind_cons (file : String) (place : Place) (c : Char) (text : List Char) :
    (place.location file).Precedes ((place.behind (c :: text)).location file) := by
  have hstep (place : Place) (c : Char) :
      (place.location file).Precedes ((place.step c).location file) := by
    unfold Place.step Place.location Location.Precedes
    split <;> simp
  induction text generalizing place c with
  | nil => exact hstep place c
  | cons d text ih => exact (hstep place c).trans (ih (place.step c) d)

theorem placeBehind_precedes (file : String) (before : List Char) {word : List Char}
    (hword : word ≠ []) : ((placeBehind before).location file).Precedes
      ((placeBehind (before ++ word)).location file) := by
  obtain ⟨c, word, rfl⟩ := List.exists_cons_of_ne_nil hword
  rw [← behind_start, ← behind_start, Place.behind_append]
  exact Place.precedes_behind_cons file _ c word

/-! ### Gaps and findings -/

/-- A text of blanks and comments, in front of another text. A comment ends in front of a line feed
or at the end. -/
inductive IsGap : List Char → List Char → Prop
  | nil (after : List Char) : IsGap [] after
  | blank {c : Char} {gap after : List Char} (hblank : c ∈ blanks) (hgap : IsGap gap after) :
      IsGap (c :: gap) after
  | comment {body gap after : List Char} (hbody : '\n' ∉ body)
      (hend : ∀ c ∈ (gap ++ after).head?, c = '\n') (hgap : IsGap gap after) :
      IsGap ('/' :: '/' :: (body ++ gap)) after

def Finding.location? : Finding → Option Location
  | token found => some found.location
  | fault found => found.location

/-- Both findings have a location, and that of the first precedes that of the second. -/
def Finding.Precedes (first second : Finding) : Prop :=
  ∃ place ∈ first.location?, ∃ other ∈ second.location?, place.Precedes other

/-- A cause condemns a character, or a numeral with too many digits. -/
def Cause.Condemns (word : List Char) : Cause → Prop
  | .strayCharacter c => word = [c]
  | .oversizedInteger digits =>
    IsNumeral word ∧ digits = word.length ∧ integerDigitLimit < word.length
  | _ => False

/-- The line that a fault shows has what the fault condemns at the column of its place. -/
def Diagnostic.ShowsFault (file : String) (found : Diagnostic) : Prop :=
  ∃ (place : Place) (line : String) (word : List Char),
    found.location = some (place.location file) ∧ found.sourceLine = some line ∧
      found.cause.Condemns word ∧ word <+: line.toList.drop (place.column - 1)

/-- A finding is true of a word with some text in front of it and some text behind it. -/
inductive Finding.Marks (file : String) (before word after : List Char) : Finding → Prop
  | token {kind : TokenKind} {literal : Option Literal} (hkind : kind ≠ .endOfFile) :
      Marks file before word after
        (.token ⟨kind, String.ofList word, literal, (placeBehind before).location file⟩)
  | fault {cause : Cause} (hcause : cause.Condemns word) :
      Marks file before word after (.fault ⟨cause, some ((placeBehind before).location file),
        some (String.ofList (lineAround before word after))⟩)

/-- What is left of a text behind some front consists of gaps and of the words of findings. -/
inductive Tiled (file : String) : List Char → List Char → List Finding → Prop
  | done {before gap : List Char} (hgap : IsGap gap []) : Tiled file before gap []
  | word {before gap word after : List Char} {finding : Finding} {findings : List Finding}
      (hgap : IsGap gap (word ++ after)) (hword : word ≠ [])
      (hmarks : finding.Marks file (before ++ gap) word after)
      (hafter : Tiled file (before ++ gap ++ word) after findings) :
      Tiled file before (gap ++ (word ++ after)) (finding :: findings)

variable {file : String} {before rest : List Char} {findings : List Finding}

theorem Finding.Marks.location?_eq {word after : List Char} {finding : Finding}
    (h : finding.Marks file before word after) :
    finding.location? = some ((placeBehind before).location file) := by
  cases h <;> rfl

/-- What goes with every gap in front of the rest goes in front of the whole rest. -/
theorem Tiled.prepend {piece : List Char} (h : Tiled file (before ++ piece) rest findings)
    (hpiece : ∀ gap after, rest = gap ++ after → IsGap gap after → IsGap (piece ++ gap) after) :
    Tiled file before (piece ++ rest) findings := by
  cases h with
  | done hgap => exact .done (hpiece rest [] (by simp) hgap)
  | word hgap hword hmarks hafter =>
    rw [← List.append_assoc]
    rw [List.append_assoc before] at hmarks hafter
    exact .word (hpiece _ _ rfl hgap) hword hmarks hafter

theorem Tiled.blank {c : Char} (hblank : c ∈ blanks)
    (h : Tiled file (before ++ [c]) rest findings) : Tiled file before (c :: rest) findings :=
  h.prepend fun _ _ _ hgap ↦ .blank hblank hgap

theorem Tiled.comment {body : List Char} (hbody : '\n' ∉ body)
    (hend : ∀ c ∈ rest.head?, c = '\n')
    (h : Tiled file (before ++ '/' :: '/' :: body) rest findings) :
    Tiled file before ('/' :: '/' :: (body ++ rest)) findings :=
  h.prepend fun _ _ hrest hgap ↦ .comment hbody (hrest ▸ hend) hgap

/-- A finding without a gap in front of its word. -/
theorem Tiled.cons {word : List Char} {finding : Finding} (hword : word ≠ [])
    (hmarks : finding.Marks file before word rest)
    (hrest : Tiled file (before ++ word) rest findings) :
    Tiled file before (word ++ rest) (finding :: findings) := by
  rw [← List.append_nil before] at hmarks hrest
  exact .word (.nil (word ++ rest)) hword hmarks hrest

theorem Tiled.exists_location (h : Tiled file before rest findings) {finding : Finding}
    (hmem : finding ∈ findings) :
    ∃ front, finding.location? = some ((placeBehind (before ++ front)).location file) := by
  induction h with
  | done _ => cases hmem
  | @word before gap word _ _ _ _ _ hmarks _ ih =>
    rcases List.mem_cons.mp hmem with rfl | hmem
    · exact ⟨gap, hmarks.location?_eq⟩
    · obtain ⟨front, hfront⟩ := ih hmem
      exact ⟨gap ++ (word ++ front), by simpa using hfront⟩

/-- The findings are in the order of their locations. -/
theorem Tiled.pairwise_precedes (h : Tiled file before rest findings) :
    findings.Pairwise Finding.Precedes := by
  induction h with
  | done _ => exact .nil
  | @word before gap word _ _ _ _ hword hmarks hafter ih =>
    refine .cons (fun later hlater ↦ ?_) ih
    obtain ⟨front, hfront⟩ := hafter.exists_location hlater
    have hprecedes := placeBehind_precedes file (before ++ gap)
      (List.append_ne_nil_of_left_ne_nil hword front)
    rw [← List.append_assoc] at hprecedes
    exact ⟨_, hmarks.location?_eq, _, hfront, hprecedes⟩

/-! ### Scans -/

/-- The token at the end of a text is not read off the text. -/
theorem Scanning.Reads.kind_ne_endOfFile {word : List Char} {kind : TokenKind} {lexeme : String}
    {value : Option Int} (h : Reads word (.token kind lexeme value)) : kind ≠ .endOfFile := by
  have hkeywords : ∀ entry ∈ TokenKind.keywords, entry.2 ≠ .endOfFile := by decide
  have hsigns : ∀ sign ∈ signs, sign.2 ≠ .endOfFile := by decide
  cases h with
  | keyword _ hkeyword => exact hkeywords _ hkeyword
  | sign hsign => exact hsigns _ hsign
  | name | numeral | decimal => exact TokenKind.noConfusion

/-- What a finding reports is true, if the word is read as the finding or nothing begins there. -/
theorem Finding.Reports.marks {word after : List Char} {finding : Finding}
    (h : finding.Reports file (lineFeedLines (before ++ (word ++ after))).toArray
      (Place.start.behind before) word)
    (hreads : Reads word finding.reading ∨ ∃ c, finding.reading = .fault (.strayCharacter c)) :
    finding.Marks file before word after := by
  have hfree : '\n' ∉ word := fun hmem ↦ h.not_mem_blanks _ hmem (by decide)
  have hline : (lineFeedLines (before ++ (word ++ after))).toArray[(placeBehind before).line - 1]? =
      some (lineAround before word after) := by
    rw [List.getElem?_toArray, getElem?_lineFeedLines_placeBehind hfree]
  rw [behind_start] at h
  cases h with
  | token _ =>
    obtain hreads | ⟨c, hstray⟩ := hreads
    · exact .token hreads.kind_ne_endOfFile
    · cases hstray
  | stray _ =>
    rw [Place.fault, hline]
    exact .fault rfl
  | oversized hdigits =>
    obtain hreads | ⟨c, hstray⟩ := hreads
    · rw [Place.fault, hline] at hreads ⊢
      change Reads word (.fault (.oversizedInteger word.length)) at hreads
      cases hreads with
      | oversized _ hlength => exact .fault ⟨hdigits, rfl, hlength⟩
    · cases hstray

/-- The tiles of the rest of a text give findings that tile this rest. -/
theorem tiled_tiles (file : String) (text : List Char) (before rest : List Char)
    (htext : text = before ++ rest) :
    Tiled file before rest (findingsFrom file (lineFeedLines text).toArray
      (Place.start.behind before) (tiles rest)) := by
  fun_induction tiles rest generalizing before with
  | case1 => exact .done (.nil [])
  | case2 c rest tile ih =>
    obtain ⟨more, hmore, behind, rfl⟩ := Tile.tileAt_text c rest
    have htile : tile = Tile.tileAt c (more ++ behind) := rfl
    have hbehind : (more ++ behind).drop (tile.text.length - 1) = behind := by
      rw [htile, hmore]
      simp
    rw [hbehind] at ih ⊢
    have hlater := ih (before ++ tile.text) (by rw [htile, hmore, htext]; simp)
    rw [findingsFrom, ← Place.behind_append]
    by_cases hgap : StartsWithGap (c :: (more ++ behind))
    · rcases Tile.tileAt_gap hmore hgap with
        ⟨hblank, rfl, hshape⟩ | ⟨body, rfl, rfl, hbody, hend, hshape⟩
      · rw [htile, hshape] at hlater ⊢
        exact hlater.blank hblank
      · rw [htile, hshape] at hlater ⊢
        exact hlater.comment hbody hend
    · have hreading : ∃ reading, tile.reading? = some reading ∧
          (Reads tile.text reading ∨ ∃ c, reading = .fault (.strayCharacter c)) := by
        rcases Tile.tileAt_spec hgap with ⟨⟨reading, hreading, hreads⟩, -⟩ | ⟨hstray, -⟩
        · exact ⟨reading, hreading, .inl hreads⟩
        · exact ⟨_, by rw [htile, hstray]; rfl, .inr ⟨c, rfl⟩⟩
      obtain ⟨reading, hreading, hreads⟩ := hreading
      rw [← finding?_reading file (lineFeedLines text).toArray (Place.start.behind before),
        Option.map_eq_some_iff] at hreading
      obtain ⟨finding, hfinding, rfl⟩ := hreading
      have hsplit : c :: (more ++ behind) = tile.text ++ behind := by
        rw [htile, hmore, List.cons_append]
      have hreports := Tile.reports_tileAt hfinding
      rw [hfinding, hsplit]
      rw [htext, hsplit] at hreports
      have hword : tile.text ≠ [] := by
        rw [htile, hmore]
        exact List.cons_ne_nil c more
      exact .cons hword (hreports.marks hreads) hlater

theorem Tiled.showsFault (h : Tiled file before rest findings) {found : Diagnostic}
    (hmem : .fault found ∈ findings) : found.ShowsFault file := by
  induction h with
  | done _ => cases hmem
  | @word _ _ word _ _ _ _ _ hmarks _ ih =>
    rcases List.mem_cons.mp hmem with rfl | hmem
    · cases hmarks with
      | fault hcause =>
        refine ⟨_, _, word, rfl, rfl, hcause, ?_⟩
        rw [String.toList_ofList, drop_lineAround]
        exact List.prefix_append ..
    · exact ih hmem

/-- A scan tiles its text: the tokens, without the one at the end, and the faults are in their order
true of words that make up the text together with the gaps between them. In the line that a fault
shows, the word at fault stands at the column of the fault. The last token is at the end. -/
theorem scan_tiles (file text : String) :
    ∃ findings, Tiled file [] text.toList findings ∧
      (scan file text).tokens = findings.filterMap Finding.token? ++
        [.endOfFile ((placeBehind text.toList).location file)] ∧
      (scan file text).faults = findings.filterMap Finding.fault? ∧
      findings.Pairwise Finding.Precedes ∧
      ∀ found, .fault found ∈ findings → found.ShowsFault file := by
  have htiled := tiled_tiles file text.toList [] text.toList rfl
  refine ⟨_, htiled, ?_, rfl, htiled.pairwise_precedes, fun found ↦ htiled.showsFault⟩
  rw [← behind_start]
  rfl

end StackCompiler
