import StackCompiler.Proofs.Compilation.Relocation
import StackCompiler.Proofs.Scanning.Places

/-!
# Texts joined by a line feed

A line feed is a border of scanning. Two texts that are joined by one give the findings of the first
text and behind them those of the second one, further down by the lines of the first text
(`findings_join`); with that, tokens and faults of a text are those of its lines
(`flatMap_findings_terminatedLines`).

No tile looks behind a line feed (`Tile.tileAt_append_lineFeed`), so the text behind it changes none
of the tiles in front of it, and the column starts anew there. A fault quotes its own line, which
stands in the lines of the text that it is in.
-/

set_option autoImplicit false
set_option relaxedAutoImplicit false

namespace StackCompiler

open Scanning Text

/-! ### Places -/

/-- The place in the same column, a number of lines further down. -/
def Place.lower (count : Nat) (place : Place) : Place :=
  { place with line := place.line + count }

def Location.lower (count : Nat) (place : Location) : Location :=
  { place with line := place.line + count }

/-- The place in the same column of the first line. -/
def Location.raise (place : Location) : Location :=
  { place with line := 1 }

@[simp] theorem Location.raise_lower (count : Nat) (place : Location) :
    (place.lower count).raise = place.raise :=
  rfl

@[simp] theorem Place.location_lower (count : Nat) (place : Place) (file : String) :
    (place.lower count).location file = (place.location file).lower count := by
  simp [lower, Location.lower, location]

theorem Place.step_lower (count : Nat) (place : Place) (c : Char) :
    (place.lower count).step c = (place.step c).lower count := by
  unfold step
  split
  · simp [lower, Nat.add_right_comm]
  · rfl

theorem Place.behind_lower (count : Nat) (place : Place) (text : List Char) :
    (place.lower count).behind text = (place.behind text).lower count := by
  induction text generalizing place with
  | nil => rfl
  | cons c rest ih =>
    change ((place.lower count).step c).behind rest = _
    rw [step_lower, ih]
    rfl

theorem Place.line_behind (place : Place) (text : List Char) :
    (place.behind text).line = place.line + text.count '\n' := by
  induction text generalizing place with
  | nil => rfl
  | cons c rest ih =>
    change ((place.step c).behind rest).line = _
    rw [ih]
    by_cases hc : c = '\n'
    · simp [step, hc, Nat.add_right_comm, Nat.add_assoc]
    · simp [step, hc]

/-- Behind a line feed places are counted anew, from a lower line on. -/
theorem Place.behind_concat_lineFeed (text : List Char) :
    start.behind (text ++ ['\n']) = start.lower (1 + text.count '\n') := by
  have hline : (start.behind text).line = 1 + text.count '\n' := line_behind start text
  rw [behind_concat, step, if_pos (beq_self_eq_true '\n'), hline, Nat.add_comm]
  rfl

/-! ### Tiles -/

theorem takeWhile_append_lineFeed {p : Char → Bool} (hp : p '\n' = false)
    (front back : List Char) : (front ++ '\n' :: back).takeWhile p = front.takeWhile p := by
  induction front with
  | nil => simp [hp]
  | cons c front ih => simp only [List.cons_append, List.takeWhile_cons, ih]

theorem dropWhile_append_lineFeed {p : Char → Bool} (hp : p '\n' = false)
    (front back : List Char) :
    (front ++ '\n' :: back).dropWhile p = front.dropWhile p ++ '\n' :: back := by
  induction front with
  | nil => simp [hp]
  | cons c front ih =>
    simp only [List.cons_append, List.dropWhile_cons, ih]
    split <;> rfl

namespace Tile

/-- A number has no point that is followed by a line feed. -/
theorem number_append_lineFeed (digits front back : List Char) :
    number digits (front ++ '\n' :: back) = number digits front := by
  match front with
  | [] => rfl
  | [c] => by_cases hc : c = '.' <;> simp [number, hc]
  | c :: d :: front =>
    by_cases hc : c = '.'
    · simp only [number, hc, List.cons_append, takeWhile_append_lineFeed (p := Char.isDigit) rfl]
    · simp [number, hc]

theorem symbol_append_lineFeed (c : Char) (front back : List Char) :
    symbol c (front ++ '\n' :: back) = symbol c front := by
  match front with
  | [] => by_cases hc : c = ':' <;> simp [symbol, hc]
  | d :: front => by_cases hc : c = ':' <;> by_cases hd : d = '=' <;> simp [symbol, hc, hd]

/-- No tile looks behind a line feed. -/
theorem tileAt_append_lineFeed (c : Char) (front back : List Char) :
    tileAt c (front ++ '\n' :: back) = tileAt c front := by
  have hslash : ((front ++ '\n' :: back).head? == some '/') = (front.head? == some '/') := by
    cases front <;> rfl
  unfold tileAt
  rw [hslash, takeWhile_append_lineFeed (by rfl), takeWhile_append_lineFeed (by rfl),
    takeWhile_append_lineFeed (by rfl), dropWhile_append_lineFeed (by rfl),
    number_append_lineFeed, symbol_append_lineFeed]

theorem length_tileAt_le (c : Char) (rest : List Char) :
    (tileAt c rest).text.length - 1 ≤ rest.length := by
  obtain ⟨more, htext, hmore⟩ := tileAt_text c rest
  simpa [htext] using hmore.length_le

end Tile

/-- The tiles of two texts with a line feed between them. -/
theorem tiles_append_lineFeed (front back : List Char) :
    tiles (front ++ '\n' :: back) = tiles front ++ ⟨.blank, ['\n']⟩ :: tiles back := by
  fun_induction tiles front with
  | case1 => rw [List.nil_append, tiles, Tile.tileAt_of_blank (by decide)]; rfl
  | case2 c rest tile ih =>
    rw [List.cons_append, tiles, Tile.tileAt_append_lineFeed,
      List.drop_append_of_le_length (Tile.length_tileAt_le c rest), ih]
    rfl

/-! ### Lines -/

theorem lineFeedLines_append_lineFeed (front back : List Char) :
    lineFeedLines (front ++ '\n' :: back) = lineFeedLines front ++ lineFeedLines back := by
  induction front with
  | nil => rfl
  | cons c front ih =>
    obtain ⟨line, more, hfront⟩ := exists_cutAt_eq_cons (· == '\n') front
    change cutAt (· == '\n') _ = cutAt (· == '\n') _ ++ _
    change cutAt (· == '\n') _ = cutAt (· == '\n') _ ++ _ at ih
    rw [List.cons_append, cutAt_cons, cutAt_cons, ih, hfront]
    split <;> rfl

theorem length_lineFeedLines (text : List Char) :
    (lineFeedLines text).length = 1 + text.count '\n' := by
  obtain ⟨done, hlength, h⟩ := exists_breaksOff text
  have hlines := h.lines_append [] [] [] rfl
  rw [List.append_nil] at hlines
  rw [hlines, List.length_append, hlength, List.length_singleton, Nat.add_comm]

/-! ### Findings -/

def Diagnostic.relocate (move : Location → Location) (found : Diagnostic) : Diagnostic :=
  { found with location := found.location.map move }

def Finding.relocate (move : Location → Location) : Finding → Finding
  | token found => token (found.relocate move)
  | fault found => fault (found.relocate move)

section Findings

variable {file : String}

theorem findingsFrom_append (lines : Array (List Char)) (place : Place) (front back : List Tile) :
    findingsFrom file lines place (front ++ back) =
      findingsFrom file lines place front ++
        findingsFrom file lines (place.behind (front.flatMap Tile.text)) back := by
  induction front generalizing place with
  | nil => rfl
  | cons tile front ih =>
    rw [List.flatMap_cons, Place.behind_append, List.cons_append, findingsFrom, findingsFrom, ih]
    cases tile.finding? file lines place <;> rfl

/-- The line that a finding quotes is not among lines further down. -/
theorem Tile.finding?_append_lines (lines more : Array (List Char)) {place : Place}
    (h : place.line - 1 < lines.size) (tile : Tile) :
    tile.finding? file (lines ++ more) place = tile.finding? file lines place := by
  unfold finding? Place.fault
  rw [Array.getElem?_append_left h]

theorem findingsFrom_append_lines (lines more : Array (List Char)) (place : Place)
    (pieces : List Tile) (hplace : 1 ≤ place.line)
    (h : place.line + (pieces.flatMap Tile.text).count '\n' ≤ lines.size) :
    findingsFrom file (lines ++ more) place pieces = findingsFrom file lines place pieces := by
  induction pieces generalizing place with
  | nil => rfl
  | cons tile pieces ih =>
    rw [List.flatMap_cons, List.count_append] at h
    have hline := place.line_behind tile.text
    have hlater := ih (place.behind tile.text) (by omega) (by omega)
    rw [findingsFrom, findingsFrom, hlater, tile.finding?_append_lines lines more (by omega)]

theorem Tile.finding?_lower (lines more : Array (List Char)) (place : Place)
    (hplace : 1 ≤ place.line) (tile : Tile) :
    tile.finding? file (lines ++ more) (place.lower lines.size) =
      (tile.finding? file more place).map (Finding.relocate (Location.lower lines.size)) := by
  have hquoted : (lines ++ more)[place.line + lines.size - 1]? = more[place.line - 1]? := by
    rw [Array.getElem?_append_right (by omega)]
    congr 1
    omega
  unfold finding? Place.fault
  rw [Place.location_lower, show (place.lower lines.size).line = place.line + lines.size from rfl,
    hquoted]
  cases tile.shape <;> rfl

/-- With lines in front, findings are the same further down. -/
theorem findingsFrom_lower (lines more : Array (List Char)) (place : Place)
    (hplace : 1 ≤ place.line) (pieces : List Tile) :
    findingsFrom file (lines ++ more) (place.lower lines.size) pieces =
      (findingsFrom file more place pieces).map
        (Finding.relocate (Location.lower lines.size)) := by
  induction pieces generalizing place with
  | nil => rfl
  | cons tile pieces ih =>
    have hline := place.line_behind tile.text
    have hlater := ih (place.behind tile.text) (by omega)
    rw [findingsFrom, findingsFrom, Place.behind_lower, hlater,
      Tile.finding?_lower lines more place hplace]
    cases tile.finding? file more place <;> rfl

end Findings

/-- The findings of a text. -/
def findings (file text : String) : List Finding :=
  (Scanner.ofText file text).pending

theorem findings_eq (file text : String) : findings file text =
    findingsFrom file (lineFeedLines text.toList).toArray .start (tiles text.toList) :=
  rfl

/-- The findings of two texts with a line feed between them. -/
theorem findings_join (file first second : String) :
    findings file (first ++ "\n" ++ second) = findings file first ++
      (findings file second).map
        (Finding.relocate (Location.lower (1 + first.toList.count '\n'))) := by
  let lines := (lineFeedLines first.toList).toArray
  let more := (lineFeedLines second.toList).toArray
  have htext : (first ++ "\n" ++ second).toList = first.toList ++ '\n' :: second.toList := by
    simp
  have hsize : lines.size = 1 + first.toList.count '\n' := length_lineFeedLines first.toList
  have hbehind : (Place.start.behind first.toList).behind ['\n'] =
      Place.start.lower lines.size := by
    rw [← Place.behind_append, Place.behind_concat_lineFeed, hsize]
  have hfront : findingsFrom file (lines ++ more) .start (tiles first.toList) =
      findings file first :=
    findingsFrom_append_lines lines more .start _ (Nat.le_refl 1)
      (by rw [flatMap_text_tiles, hsize]; exact Nat.le_refl _)
  have hback : findingsFrom file (lines ++ more) (Place.start.lower lines.size)
      (tiles second.toList) =
        (findings file second).map (Finding.relocate (Location.lower lines.size)) :=
    findingsFrom_lower lines more .start (Nat.le_refl 1) _
  have hgap (place : Place) (pieces : List Tile) :
      findingsFrom file (lines ++ more) place (⟨.blank, ['\n']⟩ :: pieces) =
        findingsFrom file (lines ++ more) (place.behind ['\n']) pieces := rfl
  have hlines : (lineFeedLines (first ++ "\n" ++ second).toList).toArray = lines ++ more := by
    rw [htext, lineFeedLines_append_lineFeed, ← List.append_toArray]
  rw [findings_eq, hlines, htext, tiles_append_lineFeed, findingsFrom_append, flatMap_text_tiles,
    hgap, hbehind, hfront, hback, hsize]

theorem Finding.filterMap_token?_relocate (move : Location → Location) (found : List Finding) :
    (found.map (relocate move)).filterMap token? =
      (found.filterMap token?).map (Token.relocate move) := by
  rw [List.filterMap_map, List.map_filterMap]
  exact List.filterMap_congr fun finding _ ↦ by cases finding <;> rfl

theorem Finding.filterMap_fault?_relocate (move : Location → Location) (found : List Finding) :
    (found.map (relocate move)).filterMap fault? =
      (found.filterMap fault?).map (Diagnostic.relocate move) := by
  rw [List.filterMap_map, List.map_filterMap]
  exact List.filterMap_congr fun finding _ ↦ by cases finding <;> rfl

theorem scan_pending_eq (file text : String) :
    (scan file text).stream.pending = (findings file text).filterMap Finding.token? :=
  rfl

theorem scan_faults_eq (file text : String) :
    (scan file text).faults = (findings file text).filterMap Finding.fault? :=
  rfl

/-- The scan of two texts with a line feed between them: the tokens of the first text without the
one at the end, and behind them those of the second one, further down by the lines of the first
text; and the faults likewise. -/
theorem scan_join (file first second : String) :
    let move := Location.lower (1 + first.toList.count '\n')
    (scan file (first ++ "\n" ++ second)).tokens =
        (scan file first).stream.pending ++ (scan file second).tokens.map (Token.relocate move) ∧
      (scan file (first ++ "\n" ++ second)).faults =
        (scan file first).faults ++ (scan file second).faults.map (Diagnostic.relocate move) := by
  intro move
  have hjoin := findings_join file first second
  have hfinal : (scan file (first ++ "\n" ++ second)).stream.final =
      (scan file second).stream.final.relocate move := by
    have htext : (first ++ "\n" ++ second).toList =
        (first.toList ++ ['\n']) ++ second.toList := by simp
    change Token.endOfFile ((Place.start.behind _).location file) = Token.endOfFile _
    rw [htext, Place.behind_append, Place.behind_concat_lineFeed, Place.behind_lower,
      Place.location_lower]
    rfl
  constructor
  · rw [Scan.tokens, TokenStream.toList, hfinal, scan_pending_eq, hjoin, List.filterMap_append,
      Finding.filterMap_token?_relocate, Scan.tokens, TokenStream.toList, List.map_append,
      List.append_assoc]
    rfl
  · rw [scan_faults_eq, hjoin, List.filterMap_append, Finding.filterMap_fault?_relocate]
    rfl

/-! ### Texts line by line -/

theorem terminatedLines_of_free {row : List Char} (h : '\n' ∉ row) :
    terminatedLines row = [row].filter (!·.isEmpty) := by
  have hempty : lineFeedLines [] = [[]] := rfl
  have hlines : lineFeedLines row = [row] := by
    simpa using lineFeedLines_append_of_free h hempty
  simp [terminatedLines, hlines]

theorem terminatedLines_append_lineFeed {row : List Char} (h : '\n' ∉ row) (rest : List Char) :
    terminatedLines (row ++ '\n' :: rest) = (row ++ ['\n']) :: terminatedLines rest := by
  obtain ⟨line, more, hrest⟩ := exists_cutAt_eq_cons (· == '\n') rest
  change lineFeedLines rest = line :: more at hrest
  have hlines := lineFeedLines_append_of_free h (lineFeedLines_lineFeed rest)
  rw [List.append_nil, hrest] at hlines
  simp [terminatedLines, hlines, hrest]

/-- All findings of one line are in the first line. -/
theorem findings_of_free (file : String) {row : List Char} (h : '\n' ∉ row) :
    (findings file (String.ofList row)).map (Finding.relocate Location.raise) =
      findings file (String.ofList row) := by
  refine (List.map_congr_left fun finding hmem ↦ ?_).trans (List.map_id _)
  rw [findings_eq] at hmem
  obtain ⟨place, word, ⟨before, after, htext, rfl⟩, hreports⟩ :=
    exists_standsAt_of_mem_findingsFrom hmem
  have hbefore : '\n' ∉ before := by
    rw [String.toList_ofList] at htext
    exact fun hc ↦ h (htext ▸ List.mem_append_left _ hc)
  have hraise : ((Place.start.behind before).location file).raise =
      (Place.start.behind before).location file := by
    have hline : (Place.start.behind before).line = 1 := by
      rw [Place.line_behind, List.count_eq_zero.mpr hbefore]
      rfl
    simp [Location.raise, Place.location, hline]
  cases hreports <;>
    simp [Finding.relocate, Token.relocate, Diagnostic.relocate, Place.fault, hraise]

theorem findings_lineFeed (file text : String) :
    findings file (text ++ "\n") = findings file text := by
  have hjoin := findings_join file text ""
  have hempty : findings file "" = [] := by
    rw [findings_eq, String.toList_empty, tiles]
    rfl
  rwa [String.append_empty, hempty, List.map_nil, List.append_nil] at hjoin

/-- The findings of a text are those of its lines, each in the first line of its own text. -/
theorem flatMap_findings_terminatedLines (file : String) (text : List Char) :
    (terminatedLines text).flatMap (fun line ↦ findings file (String.ofList line)) =
      (findings file (String.ofList text)).map (Finding.relocate Location.raise) := by
  induction hlines : lineFeedLines text generalizing text with
  | nil => exact absurd hlines (cutAt_ne_nil _ text)
  | cons line more ih =>
    rcases lineFeedLines_cases text with ⟨hfree, -⟩ | ⟨row, rest, hrow, rfl, hcons⟩
    · rw [terminatedLines_of_free hfree, findings_of_free file hfree]
      cases text with
      | nil => rw [findings_eq, String.toList_ofList, tiles]; rfl
      | cons c text => simp
    · obtain ⟨-, hrest⟩ := List.cons.inj (hcons.symm.trans hlines)
      have hraise (found : Finding) (count : Nat) :
          (found.relocate (Location.lower count)).relocate Location.raise =
            found.relocate Location.raise := by
        cases found <;>
          simp [Finding.relocate, Token.relocate, Diagnostic.relocate, Function.comp_def]
      have htext : String.ofList (row ++ '\n' :: rest) =
          String.ofList row ++ "\n" ++ String.ofList rest := by
        simp [String.append_assoc]
      have hline : String.ofList (row ++ ['\n']) = String.ofList row ++ "\n" := by
        simp
      rw [terminatedLines_append_lineFeed hrow, List.flatMap_cons, ih rest hrest, htext,
        findings_join, hline, findings_lineFeed, List.map_append, findings_of_free file hrow,
        List.map_map]
      exact congrArg _ (List.map_congr_left fun found _ ↦ (hraise found _).symm)

end StackCompiler
