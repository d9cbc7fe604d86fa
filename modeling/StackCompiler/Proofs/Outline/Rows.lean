import StackCompiler.Proofs.Passes.Printer
import StackCompiler.Proofs.Scanning.Lines

/-!
# The lines of an outline

An outline is shown as text, and the text has all of it: outlines with the same text are the same,
if no label has a line feed in it or starts with a space (`Outline.eq_of_text_eq`). The text is cut
into its lines, the spaces in front of a line give its level (`Row`), and where the parts of a line
end is told by the first line that stands no further in than it (`rows_append_inj`).

`Outline.links` are the pairs of the number of a line and the number of a line that belongs to it.
Every line but the first belongs to exactly one other, and stands two spaces further in than that
one (`Outline.laysOut_text`).
-/

set_option autoImplicit false
set_option relaxedAutoImplicit false

namespace StackCompiler

open Text

/-! ### Lines and levels -/

/-- A run of characters ends where the next one is of another class. -/
theorem takeWhile_append_of_head {α : Type} {p : α → Bool} {front rest : List α}
    (hfront : ∀ a ∈ front, p a = true) (hrest : ∀ a ∈ rest.head?, p a = false) :
    (front ++ rest).takeWhile p = front := by
  have hend : rest.takeWhile p = [] := by
    cases rest with
    | nil => rfl
    | cons a more => simp [hrest a rfl]
  rw [List.takeWhile_append_of_pos hfront, hend, List.append_nil]

/-- The spaces in front of a line. -/
def indentation (line : List Char) : Nat :=
  (line.takeWhile (· == ' ')).length

/-- A text that is one line and does not start with a space. -/
structure IsLabel (text : String) : Prop where
  head : text.toList.head? ≠ some ' '
  lineFeed : '\n' ∉ text.toList

/-- A line of an outline, with its level. -/
structure Row where
  level : Nat
  label : String
  deriving DecidableEq, Repr

namespace Row

def line (row : Row) : List Char :=
  (Outline.indented row.level row.label).toList

theorem line_eq (row : Row) :
    row.line = List.replicate (2 * row.level) ' ' ++ row.label.toList := by
  simp [line, Outline.indented]

theorem takeWhile_line {row : Row} (h : IsLabel row.label) :
    row.line.takeWhile (· == ' ') = List.replicate (2 * row.level) ' ' := by
  rw [line_eq]
  refine takeWhile_append_of_head (by simp) fun c hc ↦ ?_
  have hblank : c ≠ ' ' := fun hblank ↦ h.head (hblank ▸ hc)
  simpa using hblank

theorem indentation_line {row : Row} (h : IsLabel row.label) :
    indentation row.line = 2 * row.level := by
  rw [indentation, takeWhile_line h, List.length_replicate]

theorem lineFeed_not_mem_line {row : Row} (h : IsLabel row.label) : '\n' ∉ row.line := by
  rw [line_eq]
  simpa using h.lineFeed

/-- The level and the label of a line. -/
def read (line : List Char) : Row :=
  ⟨indentation line / 2, String.ofList (line.drop (indentation line))⟩

theorem read_line {row : Row} (h : IsLabel row.label) : read row.line = row := by
  have hdrop : row.line.drop (2 * row.level) = row.label.toList := by
    rw [line_eq]
    exact List.drop_left' (List.length_replicate ..)
  rw [read, indentation_line h, hdrop, String.ofList_toList, Nat.mul_div_cancel_left _ Nat.two_pos]

end Row

namespace Outline

mutual

/-- The lines of an outline that stands at a level, not yet indented. -/
def rows (level : Nat) : Outline → List Row
  | entry line parts => ⟨level, line⟩ :: rowsOfParts (level + 1) parts

def rowsOfParts (level : Nat) : List Outline → List Row
  | [] => []
  | part :: more => part.rows level ++ rowsOfParts level more

end

mutual

/-- The lines of an outline without their levels. -/
def labels : Outline → List String
  | entry line parts => line :: labelsOfParts parts

def labelsOfParts : List Outline → List String
  | [] => []
  | part :: more => part.labels ++ labelsOfParts more

end

mutual

theorem map_label_rows (level : Nat) :
    ∀ outline : Outline, (outline.rows level).map Row.label = outline.labels
  | entry line parts => by
    rw [rows, labels, List.map_cons, map_label_rowsOfParts (level + 1) parts]

theorem map_label_rowsOfParts (level : Nat) :
    ∀ parts : List Outline, (rowsOfParts level parts).map Row.label = labelsOfParts parts
  | [] => rfl
  | part :: more => by
    rw [rowsOfParts, labelsOfParts, List.map_append, map_label_rows level part,
      map_label_rowsOfParts level more]

end

theorem length_rows (level : Nat) (outline : Outline) :
    (outline.rows level).length = outline.labels.length := by
  rw [← map_label_rows level outline, List.length_map]

mutual

theorem lines_eq_map (level : Nat) :
    ∀ outline : Outline, (outline.lines level).map String.toList =
      (outline.rows level).map Row.line
  | entry line parts => by
    rw [lines, rows, List.map_cons, List.map_cons, linesOfParts_eq_map (level + 1) parts]
    rfl

theorem linesOfParts_eq_map (level : Nat) :
    ∀ parts : List Outline, (linesOfParts level parts).map String.toList =
      (rowsOfParts level parts).map Row.line
  | [] => rfl
  | part :: more => by
    rw [linesOfParts, rowsOfParts, List.map_append, List.map_append, lines_eq_map level part,
      linesOfParts_eq_map level more]

end

theorem exists_rows_eq_cons (level : Nat) (outline : Outline) :
    ∃ label more, outline.rows level = ⟨level, label⟩ :: more := by
  cases outline with
  | entry line parts => exact ⟨line, _, rfl⟩

/-- All lines of an outline are labels. -/
def Labelled (outline : Outline) : Prop :=
  ∀ label ∈ outline.labels, IsLabel label

theorem Labelled.of_mem_rows {outline : Outline} (h : outline.Labelled) (level : Nat) :
    ∀ row ∈ outline.rows level, IsLabel row.label := by
  intro row hrow
  have hlabel := List.mem_map_of_mem (f := Row.label) hrow
  rw [map_label_rows] at hlabel
  exact h _ hlabel

/-! ### The text of an outline -/

/-- Lines that are joined by line feeds are the lines of the joined text. -/
theorem lineFeedLines_intercalate {lines : List (List Char)} (hne : lines ≠ [])
    (hfree : ∀ line ∈ lines, '\n' ∉ line) :
    lineFeedLines (['\n'].intercalate lines) = lines := by
  induction lines with
  | nil => exact absurd rfl hne
  | cons line more ih =>
    obtain ⟨hline, hmore⟩ := List.forall_mem_cons.mp hfree
    cases more with
    | nil =>
      have hempty : lineFeedLines [] = [[]] := rfl
      simpa using lineFeedLines_append_of_free hline hempty
    | cons next later =>
      have hlines := lineFeedLines_append_of_free hline
        (lineFeedLines_lineFeed (['\n'].intercalate (next :: later)))
      rw [ih (List.cons_ne_nil _ _) hmore] at hlines
      simpa [List.intercalate] using hlines

/-- The text of an outline is cut into its lines. -/
theorem lineFeedLines_text {outline : Outline} (h : outline.Labelled) :
    lineFeedLines outline.text.toList = (outline.rows 0).map Row.line := by
  have hne : (outline.rows 0).map Row.line ≠ [] := by
    obtain ⟨label, more, hrows⟩ := outline.exists_rows_eq_cons 0
    simp [hrows]
  have hfree : ∀ line ∈ (outline.rows 0).map Row.line, '\n' ∉ line := by
    intro line hline
    obtain ⟨row, hrow, rfl⟩ := List.mem_map.mp hline
    exact Row.lineFeed_not_mem_line (h.of_mem_rows 0 row hrow)
  rw [text, String.toList_intercalate, lines_eq_map]
  exact lineFeedLines_intercalate hne hfree

/-! ### From the rows back to the outline -/

mutual

/-- An outline is told from its rows, whatever rows follow it, as long as they do not belong to
it. -/
theorem rows_append_inj (level : Nat) :
    ∀ (outline other : Outline) (rest otherRest : List Row),
      (∀ row ∈ rest.head?, row.level ≤ level) → (∀ row ∈ otherRest.head?, row.level ≤ level) →
      outline.rows level ++ rest = other.rows level ++ otherRest →
        outline = other ∧ rest = otherRest
  | entry line parts, entry otherLine otherParts, rest, otherRest, hrest, hother, h => by
    rw [rows, rows, List.cons_append, List.cons_append, List.cons.injEq] at h
    obtain ⟨hline, hparts⟩ := h
    obtain ⟨rfl, rfl⟩ := rowsOfParts_append_inj (level + 1) parts otherParts rest otherRest
      (fun row hrow ↦ Nat.lt_succ_of_le (hrest row hrow))
      (fun row hrow ↦ Nat.lt_succ_of_le (hother row hrow)) hparts
    rw [(Row.mk.injEq ..).mp hline |>.2]
    exact ⟨rfl, rfl⟩

theorem rowsOfParts_append_inj (level : Nat) :
    ∀ (parts others : List Outline) (rest otherRest : List Row),
      (∀ row ∈ rest.head?, row.level < level) → (∀ row ∈ otherRest.head?, row.level < level) →
      rowsOfParts level parts ++ rest = rowsOfParts level others ++ otherRest →
        parts = others ∧ rest = otherRest
  | [], [], rest, otherRest, _, _, h => ⟨rfl, h⟩
  | [], other :: more, rest, otherRest, hrest, _, h => by
    obtain ⟨label, later, hrows⟩ := other.exists_rows_eq_cons level
    rw [rowsOfParts, rowsOfParts, hrows] at h
    obtain rfl : rest = _ := h
    exact absurd (hrest _ rfl) (Nat.lt_irrefl level)
  | part :: more, [], rest, otherRest, _, hother, h => by
    obtain ⟨label, later, hrows⟩ := part.exists_rows_eq_cons level
    rw [rowsOfParts, rowsOfParts, hrows] at h
    obtain rfl : _ = otherRest := h
    exact absurd (hother _ rfl) (Nat.lt_irrefl level)
  | part :: more, other :: others, rest, otherRest, hrest, hother, h => by
    have hbelow (parts : List Outline) (rest : List Row)
        (hrest : ∀ row ∈ rest.head?, row.level < level) :
        ∀ row ∈ (rowsOfParts level parts ++ rest).head?, row.level ≤ level := by
      intro row hrow
      cases parts with
      | nil => exact Nat.le_of_lt (hrest row hrow)
      | cons part more =>
        obtain ⟨label, later, hrows⟩ := part.exists_rows_eq_cons level
        rw [rowsOfParts, hrows] at hrow
        cases hrow
        exact Nat.le_refl level
    rw [rowsOfParts, rowsOfParts, List.append_assoc, List.append_assoc] at h
    obtain ⟨rfl, hlater⟩ := rows_append_inj level part other _ _ (hbelow more rest hrest)
      (hbelow others otherRest hother) h
    obtain ⟨rfl, rfl⟩ := rowsOfParts_append_inj level more others rest otherRest hrest hother hlater
    exact ⟨rfl, rfl⟩

end

/-- The rows of an outline are read off its text. -/
theorem map_read_lineFeedLines_text {outline : Outline} (h : outline.Labelled) :
    (lineFeedLines outline.text.toList).map Row.read = outline.rows 0 := by
  rw [lineFeedLines_text h, List.map_map]
  exact (List.map_congr_left fun row hrow ↦ Row.read_line (h.of_mem_rows 0 row hrow)).trans
    (List.map_id _)

/-- The text of an outline has all of the outline. -/
theorem eq_of_text_eq {outline other : Outline} (h : outline.Labelled) (hother : other.Labelled)
    (htext : outline.text = other.text) : outline = other := by
  have hrows : outline.rows 0 = other.rows 0 := by
    rw [← map_read_lineFeedLines_text h, ← map_read_lineFeedLines_text hother, htext]
  have hinj := rows_append_inj 0 outline other [] [] nofun nofun
  rw [List.append_nil, List.append_nil] at hinj
  exact (hinj hrows).1

/-! ### Which line belongs to which -/

mutual

/-- The lines of an outline whose first line has a given number, each with the number of the line
that it belongs to in front of its own. -/
def links (number : Nat) : Outline → List (Nat × Nat)
  | entry _ parts => linksOfParts number (number + 1) parts

def linksOfParts (parent number : Nat) : List Outline → List (Nat × Nat)
  | [] => []
  | part :: more =>
    (parent, number) ::
      (part.links number ++ linksOfParts parent (number + part.labels.length) more)

end

mutual

/-- All lines but the first belong to a line, and to one only. -/
theorem map_snd_links (number : Nat) : ∀ outline : Outline,
    number :: (outline.links number).map Prod.snd = List.range' number outline.labels.length
  | entry line parts => by
    rw [links, labels, List.length_cons, map_snd_linksOfParts number (number + 1) parts,
      List.range'_succ]

theorem map_snd_linksOfParts (parent number : Nat) : ∀ parts : List Outline,
    (linksOfParts parent number parts).map Prod.snd =
      List.range' number (labelsOfParts parts).length
  | [] => rfl
  | part :: more => by
    rw [linksOfParts, labelsOfParts, List.length_append, List.map_cons, List.map_append,
      map_snd_linksOfParts parent (number + part.labels.length) more, ← List.cons_append,
      map_snd_links number part, List.range'_append_1]

end

/-- A line belongs to one that is further up and one level further out. -/
def LinksIn (all : List Row) (link : Nat × Nat) : Prop :=
  link.1 < link.2 ∧ ∃ upper lower, all[link.1]? = some upper ∧ all[link.2]? = some lower ∧
    lower.level = upper.level + 1

mutual

theorem linksIn_links (all : List Row) (level number : Nat) :
    ∀ (outline : Outline) (rest : List Row), all.drop number = outline.rows level ++ rest →
      ∀ link ∈ outline.links number, LinksIn all link
  | entry line parts, rest, h => by
    have hfirst : all[number]? = some ⟨level, line⟩ := by
      rw [← List.head?_drop, h]
      rfl
    have hparts : all.drop (number + 1) = rowsOfParts (level + 1) parts ++ rest := by
      rw [← List.drop_drop, h]
      rfl
    exact linksIn_linksOfParts all level number (number + 1) (Nat.lt_succ_self _) ⟨_, hfirst, rfl⟩
      parts rest hparts

theorem linksIn_linksOfParts (all : List Row) (level parent number : Nat)
    (hparent : parent < number)
    (hupper : ∃ upper, all[parent]? = some upper ∧ upper.level = level) :
    ∀ (parts : List Outline) (rest : List Row),
      all.drop number = rowsOfParts (level + 1) parts ++ rest →
        ∀ link ∈ linksOfParts parent number parts, LinksIn all link
  | [], rest, h => nofun
  | part :: more, rest, h => by
    rw [rowsOfParts, List.append_assoc] at h
    have hmore : all.drop (number + part.labels.length) = rowsOfParts (level + 1) more ++ rest := by
      rw [← List.drop_drop, h]
      exact List.drop_left' (length_rows (level + 1) part)
    intro link hlink
    rcases List.mem_cons.mp hlink with rfl | hlink
    · obtain ⟨upper, hupper, rfl⟩ := hupper
      obtain ⟨label, later, hrows⟩ := part.exists_rows_eq_cons (upper.level + 1)
      refine ⟨hparent, upper, ⟨upper.level + 1, label⟩, hupper, ?_, rfl⟩
      rw [← List.head?_drop, h, hrows]
      rfl
    · rcases List.mem_append.mp hlink with hlink | hlink
      · exact linksIn_links all (level + 1) number part _ h link hlink
      · exact linksIn_linksOfParts all level parent (number + part.labels.length) (by omega) hupper
          more rest hmore link hlink

end

/-- Lines stand as an outline has it. The first is not indented. Each of the others belongs to
exactly one line further up, and is indented by two spaces more than that line. -/
structure LaysOut (outline : Outline) (lines : List (List Char)) : Prop where
  labels : lines.map (fun line ↦ (Row.read line).label) = outline.labels
  first : ∀ line ∈ lines.head?, indentation line = 0
  links : 0 :: (outline.links 0).map Prod.snd = List.range lines.length
  deeper : ∀ link ∈ outline.links 0, link.1 < link.2 ∧
    ∃ upper lower, lines[link.1]? = some upper ∧ lines[link.2]? = some lower ∧
      indentation lower = indentation upper + 2

/-- The lines of the text of an outline stand as the outline has it. -/
theorem laysOut_text {outline : Outline} (h : outline.Labelled) :
    outline.LaysOut (lineFeedLines outline.text.toList) where
  labels := by
    have hrows := congrArg (List.map Row.label) (map_read_lineFeedLines_text h)
    rwa [List.map_map, map_label_rows] at hrows
  first := by
    obtain ⟨label, more, hrows⟩ := outline.exists_rows_eq_cons 0
    have hfirst := Row.indentation_line (h.of_mem_rows 0 ⟨0, label⟩ (by simp [hrows]))
    simpa [lineFeedLines_text h, hrows] using hfirst
  links := by
    rw [map_snd_links, lineFeedLines_text h, List.length_map, length_rows, List.range_eq_range']
  deeper link hlink := by
    obtain ⟨hbefore, upper, lower, hupper, hlower, hlevel⟩ :=
      linksIn_links (outline.rows 0) 0 0 outline [] (by simp) link hlink
    rw [lineFeedLines_text h]
    refine ⟨hbefore, upper.line, lower.line, ?_, ?_, ?_⟩
    · rw [List.getElem?_map, hupper]
      rfl
    · rw [List.getElem?_map, hlower]
      rfl
    · rw [Row.indentation_line (h.of_mem_rows 0 _ (List.mem_of_getElem? hupper)),
        Row.indentation_line (h.of_mem_rows 0 _ (List.mem_of_getElem? hlower)), hlevel]
      omega

end Outline

end StackCompiler
