import StackCompiler.Proofs.Scanning.Junction
import StackCompiler.Proofs.Scanning.Tiling

/-!
# A cursor in a text

A cursor scans a text from left to right. It keeps its position and place in the text, and records a
fault when it passes one. The stream of single tokens and the scan of all that is left move the same
cursor; only the end of the stream is remembered apart.

`Cursor.Passed` is the invariant: the findings that the cursor has passed and those that are still
to come are the findings of the text, the faults among the former are recorded, and their places
precede the place of the cursor. It is kept by passing a tile (`Cursor.Passed.pass`), and so by
everything that a cursor does. The faults on record are those of the text that stand in front of the
cursor (`Cursor.Passed.faults_eq_filter`).
-/

set_option autoImplicit false
set_option relaxedAutoImplicit false

namespace StackCompiler

open Text

instance (first second : Location) : Decidable (first.Precedes second) :=
  inferInstanceAs (Decidable (_ ∨ _))

theorem Location.not_precedes_self (location : Location) : ¬ location.Precedes location := by
  unfold Precedes
  omega

theorem Location.Precedes.asymm {first second : Location} (h : first.Precedes second) :
    ¬ second.Precedes first := by
  unfold Precedes at *
  omega

/-- A position in a text with its place, the faults that are recorded, and whether the stream of
single tokens has come to its end. -/
structure Cursor where
  file : String
  text : List Char
  position : Nat
  place : Place
  faults : List Diagnostic
  exhausted : Bool
  deriving DecidableEq, Repr

namespace Cursor

def ofText (file text : String) : Cursor :=
  ⟨file, text.toList, 0, .start, [], false⟩

/-- What is left of the text. -/
def rest (cursor : Cursor) : List Char :=
  cursor.text.drop cursor.position

def location (cursor : Cursor) : Location :=
  cursor.place.location cursor.file

def finding? (cursor : Cursor) (tile : Tile) : Option Finding :=
  tile.finding? cursor.file (lineFeedLines cursor.text).toArray cursor.place

/-- Passes a tile; if it is a fault, the fault is recorded. -/
def pass (cursor : Cursor) (tile : Tile) : Cursor :=
  { cursor with
    position := cursor.position + tile.text.length
    place := cursor.place.behind tile.text
    faults := cursor.faults ++ (cursor.finding? tile).toList.filterMap Finding.fault? }

theorem length_rest_pass_lt {cursor : Cursor} {c : Char} {more : List Char}
    (h : cursor.rest = c :: more) :
    (cursor.pass (Tile.tileAt c more)).rest.length < cursor.rest.length := by
  obtain ⟨behind, htext, -⟩ := Tile.tileAt_text c more
  have hlength := congrArg List.length h
  simp only [rest, List.length_drop, List.length_cons] at hlength
  simp only [rest, pass, List.length_drop, htext, List.length_cons]
  omega

/-- Goes on behind the next token, or to the end if there is none. -/
def toToken (cursor : Cursor) : Option Token × Cursor :=
  match _hrest : cursor.rest with
  | [] => (none, cursor)
  | c :: more =>
    let tile := Tile.tileAt c more
    match cursor.finding? tile with
    | some (.token token) => (some token, cursor.pass tile)
    | _ => (cursor.pass tile).toToken
termination_by cursor.rest.length
decreasing_by exact length_rest_pass_lt _hrest

/-- The next token of the stream of single tokens, which ends with the token at the end. -/
def next? (cursor : Cursor) : Option Token × Cursor :=
  if cursor.exhausted then (none, cursor)
  else
    match cursor.toToken with
    | (some token, after) => (some token, after)
    | (none, after) => (some (.endOfFile after.location), { after with exhausted := true })

theorem next?_of_exhausted {cursor : Cursor} (h : cursor.exhausted = true) :
    cursor.next? = (none, cursor) := by
  rw [next?, h, if_pos rfl]

theorem length_rest_toToken_lt {cursor after : Cursor} {token : Token}
    (h : cursor.toToken = (some token, after)) : after.rest.length < cursor.rest.length := by
  fun_induction toToken cursor with
  | case1 cursor hrest => cases h
  | case2 cursor c more hrest tile found hfound =>
    cases h
    exact length_rest_pass_lt hrest
  | case3 cursor c more hrest tile hnone ih =>
    exact Nat.lt_trans (ih h) (length_rest_pass_lt hrest)

/-- All tokens that are left, and the one at the end. -/
def scan (cursor : Cursor) : List Token × Cursor :=
  match _hnext : cursor.toToken with
  | (some token, after) =>
    let (more, last) := after.scan
    (token :: more, last)
  | (none, after) => ([.endOfFile after.location], after)
termination_by cursor.rest.length
decreasing_by exact length_rest_toToken_lt _hnext

/-- The findings that are still to come. -/
def ahead (cursor : Cursor) : List Finding :=
  findingsFrom cursor.file (lineFeedLines cursor.text).toArray cursor.place (tiles cursor.rest)

/-! ### What a cursor has passed -/

end Cursor

theorem Tile.location?_finding {file : String} {lines : Array (List Char)} {place : Place}
    {tile : Tile} {finding : Finding} (h : tile.finding? file lines place = some finding) :
    finding.location? = some (place.location file) := by
  obtain ⟨shape, word⟩ := tile
  cases shape <;> cases h <;> rfl

namespace Cursor

/-- A cursor in a text has passed the first of its findings, and records the faults among them. -/
structure Passed (file text : String) (passed : List Finding) (cursor : Cursor) : Prop where
  file_eq : cursor.file = file
  text_eq : cursor.text = text.toList
  findings_eq : findings file text = passed ++ cursor.ahead
  place_eq : cursor.place = Place.start.behind (cursor.text.take cursor.position)
  faults_eq : cursor.faults = passed.filterMap Finding.fault?
  precedes : ∀ finding ∈ passed, ∃ location ∈ finding.location?, location.Precedes cursor.location

variable {file text : String} {passed : List Finding} {cursor : Cursor}

theorem passed_ofText (file text : String) : Passed file text [] (ofText file text) where
  file_eq := rfl
  text_eq := rfl
  findings_eq := rfl
  place_eq := rfl
  faults_eq := rfl
  precedes _ h := absurd h List.not_mem_nil

/-- A cursor that has passed the tile in front of it has passed its finding, if there is one. -/
theorem Passed.pass (h : Passed file text passed cursor) {c : Char} {more : List Char}
    (hrest : cursor.rest = c :: more) :
    Passed file text (passed ++ (cursor.finding? (Tile.tileAt c more)).toList)
      (cursor.pass (Tile.tileAt c more)) := by
  obtain ⟨word, htext, behind, hmore⟩ := Tile.tileAt_text c more
  have hsplit : cursor.text.drop cursor.position = (Tile.tileAt c more).text ++ behind := by
    rw [htext, List.cons_append, hmore]
    exact hrest
  have hbehind : (cursor.pass (Tile.tileAt c more)).rest = behind := by
    change cursor.text.drop (cursor.position + _) = behind
    rw [← List.drop_drop, hsplit, List.drop_left]
  have hnext : (cursor.location).Precedes (cursor.pass (Tile.tileAt c more)).location := by
    change Location.Precedes _ ((cursor.place.behind (Tile.tileAt c more).text).location _)
    rw [htext]
    exact Place.precedes_behind_cons _ _ c word
  have htiles : tiles cursor.rest = Tile.tileAt c more :: tiles behind := by
    rw [hrest, tiles, htext, ← hmore]
    simp
  constructor
  · exact h.file_eq
  · exact h.text_eq
  · rw [h.findings_eq, List.append_assoc, ahead, ahead, htiles, hbehind, findingsFrom]
    unfold finding?
    cases (Tile.tileAt c more).finding? cursor.file _ cursor.place <;> rfl
  · change cursor.place.behind _ = Place.start.behind (cursor.text.take (cursor.position + _))
    rw [h.place_eq, ← Place.behind_append, List.take_add, hsplit, List.take_left]
  · rw [List.filterMap_append, ← h.faults_eq]
    rfl
  · intro finding hmem
    rcases List.mem_append.mp hmem with hmem | hmem
    · obtain ⟨location, hlocation, hprecedes⟩ := h.precedes finding hmem
      exact ⟨location, hlocation, hprecedes.trans hnext⟩
    · exact ⟨_, Tile.location?_finding (Option.mem_toList.mp hmem), hnext⟩

/-- Up to the next token a cursor passes faults only. -/
theorem Passed.toToken (h : Passed file text passed cursor) :
    ∃ faults : List Diagnostic,
      Passed file text
        (passed ++ (faults.map Finding.fault ++ (cursor.toToken.1.map Finding.token).toList))
        cursor.toToken.2 ∧
      cursor.toToken.2.exhausted = cursor.exhausted ∧
      (cursor.toToken.1 = none → cursor.toToken.2.rest = []) := by
  fun_induction Cursor.toToken cursor generalizing passed with
  | case1 cursor hrest => exact ⟨[], by simpa using h, rfl, fun _ ↦ hrest⟩
  | case2 cursor c more hrest tile token =>
    rename_i hfinding
    have hpass := h.pass hrest
    rw [show cursor.finding? (Tile.tileAt c more) = some (.token token) from hfinding] at hpass
    exact ⟨[], hpass, rfl, nofun⟩
  | case3 cursor c more hrest tile hnone =>
    rename_i ih
    obtain ⟨faults, hpassed, hexhausted, hend⟩ := ih (h.pass hrest)
    have hfault : ∃ fault : Option Diagnostic,
        (cursor.finding? tile).toList = fault.toList.map Finding.fault := by
      rcases hfinding : cursor.finding? tile with _ | token | fault
      · exact ⟨none, rfl⟩
      · exact absurd hfinding (hnone token)
      · exact ⟨some fault, rfl⟩
    obtain ⟨fault, hfault⟩ := hfault
    refine ⟨fault.toList ++ faults, ?_, hexhausted, hend⟩
    rw [hfault] at hpassed
    simpa using hpassed

theorem Passed.exhaust (h : Passed file text passed cursor) :
    Passed file text passed { cursor with exhausted := true } where
  file_eq := h.file_eq
  text_eq := h.text_eq
  findings_eq := h.findings_eq
  place_eq := h.place_eq
  faults_eq := h.faults_eq
  precedes := h.precedes

/-! ### The end of the text -/

theorem ahead_eq_nil (hrest : cursor.rest = []) : cursor.ahead = [] := by
  rw [ahead, hrest, tiles]
  rfl

/-- A cursor that has nothing left stands where the last token of a scan stands. -/
theorem Passed.endOfFile_location (h : Passed file text passed cursor) (hrest : cursor.rest = []) :
    Token.endOfFile cursor.location = (StackCompiler.scan file text).stream.final := by
  have hall : cursor.text.take cursor.position = text.toList := by
    rw [List.take_of_length_le (List.drop_eq_nil_iff.mp hrest), h.text_eq]
  rw [location, h.place_eq, hall, h.file_eq]
  rfl

/-! ### Single tokens and all that are left -/

theorem Passed.ahead_eq {new : List Finding} {after : Cursor} (h : Passed file text passed cursor)
    (hafter : Passed file text (passed ++ new) after) : cursor.ahead = new ++ after.ahead := by
  have hboth := h.findings_eq.symm.trans hafter.findings_eq
  rw [List.append_assoc] at hboth
  exact List.append_cancel_left hboth

/-- The stream gives the next token behind some faults, or it passes the last faults and gives the
token at the end. -/
theorem Passed.next? (h : Passed file text passed cursor) (hopen : cursor.exhausted = false) :
    (∃ (faults : List Diagnostic) (token : Token) (after : Cursor),
      cursor.next? = (some token, after) ∧
      Passed file text (passed ++ (faults.map Finding.fault ++ [.token token])) after ∧
      after.exhausted = false) ∨
    ∃ (faults : List Diagnostic) (after : Cursor),
      cursor.next? = (some (StackCompiler.scan file text).stream.final, after) ∧
      Passed file text (passed ++ faults.map Finding.fault) after ∧
      after.exhausted = true ∧ after.rest = [] := by
  obtain ⟨faults, hpassed, hexhausted, hend⟩ := h.toToken
  rcases hrun : cursor.toToken with ⟨_ | token, after⟩ <;> rw [hrun] at hpassed hexhausted hend
  · rw [Option.map_none, Option.toList_none, List.append_nil] at hpassed
    refine .inr ⟨faults, { after with exhausted := true }, ?_, hpassed.exhaust, rfl, hend rfl⟩
    rw [← hpassed.endOfFile_location (hend rfl), Cursor.next?, hopen, if_neg Bool.false_ne_true,
      hrun]
  · refine .inl ⟨faults, token, after, ?_, hpassed, hexhausted.trans hopen⟩
    rw [Cursor.next?, hopen, if_neg Bool.false_ne_true, hrun]

/-- A scan gives all tokens that are still to come, and the one at the end. -/
theorem Passed.scan (h : Passed file text passed cursor) :
    cursor.scan.1 =
        cursor.ahead.filterMap Finding.token? ++ [(StackCompiler.scan file text).stream.final] ∧
      Passed file text (passed ++ cursor.ahead) cursor.scan.2 ∧
      cursor.scan.2.exhausted = cursor.exhausted ∧ cursor.scan.2.rest = [] := by
  fun_induction Cursor.scan cursor generalizing passed with
  | case1 cursor token after hnext more last =>
    rename_i hscan ih
    obtain ⟨faults, hpassed, hexhausted, -⟩ := h.toToken
    rw [hnext] at hpassed hexhausted
    have hahead := h.ahead_eq hpassed
    obtain ⟨htokens, hlast, hsame, hrest⟩ := ih hpassed
    rw [hscan] at htokens hlast hsame hrest
    refine ⟨?_, ?_, hsame.trans hexhausted, hrest⟩
    · dsimp only at htokens ⊢
      rw [htokens, hahead]
      simp [Finding.token?, List.filterMap_append]
    · rw [hahead, ← List.append_assoc]
      exact hlast
  | case2 cursor after hnext =>
    obtain ⟨faults, hpassed, hexhausted, hend⟩ := h.toToken
    rw [hnext] at hpassed hexhausted hend
    have hahead := h.ahead_eq hpassed
    rw [ahead_eq_nil (hend rfl), List.append_nil] at hahead
    refine ⟨?_, hahead ▸ hpassed, hexhausted, hend rfl⟩
    rw [hpassed.endOfFile_location (hend rfl), hahead]
    simp [Finding.token?]

/-! ### Faults on record -/

theorem Passed.tiled_ahead (h : Passed file text passed cursor) :
    Tiled file (cursor.text.take cursor.position) cursor.rest cursor.ahead := by
  rw [ahead, h.place_eq, h.file_eq]
  exact tiled_tiles file cursor.text _ _ (List.take_append_drop _ _).symm

/-- What is still to come does not stand in front of the cursor. -/
theorem Passed.not_precedes_of_mem_ahead (h : Passed file text passed cursor) {finding : Finding}
    (hmem : finding ∈ cursor.ahead) : ∃ location ∈ finding.location?,
      ¬ location.Precedes cursor.location := by
  obtain ⟨front, hfront⟩ := h.tiled_ahead.exists_location hmem
  refine ⟨_, hfront, ?_⟩
  rw [location, h.place_eq, behind_start, h.file_eq]
  by_cases hempty : front = []
  · rw [hempty, List.append_nil]
    exact Location.not_precedes_self _
  · exact (placeBehind_precedes file _ hempty).asymm

end Cursor

/-- A diagnostic is about something in front of a place. -/
def Diagnostic.precedes (location : Location) (found : Diagnostic) : Bool :=
  found.location.any fun place ↦ place.Precedes location

theorem Finding.eq_fault_of_fault? {finding : Finding} {found : Diagnostic}
    (h : finding.fault? = some found) : finding = .fault found := by
  cases finding <;> cases h
  rfl

/-- The faults on record are those of a scan that stand in front of the cursor, in their order. -/
theorem Cursor.Passed.faults_eq_filter {file text : String} {passed : List Finding}
    {cursor : Cursor} (h : cursor.Passed file text passed) :
    cursor.faults = (StackCompiler.scan file text).faults.filter
      (Diagnostic.precedes cursor.location) := by
  have hpassed : ∀ found ∈ passed.filterMap Finding.fault?, found.precedes cursor.location := by
    intro found hmem
    obtain ⟨finding, hfinding, hfault⟩ := List.mem_filterMap.mp hmem
    obtain rfl := Finding.eq_fault_of_fault? hfault
    obtain ⟨location, hlocation, hprecedes⟩ := h.precedes _ hfinding
    rw [Diagnostic.precedes, show found.location = some location from hlocation]
    exact decide_eq_true hprecedes
  have hahead : ∀ found ∈ cursor.ahead.filterMap Finding.fault?,
      ¬ found.precedes cursor.location := by
    intro found hmem
    obtain ⟨finding, hfinding, hfault⟩ := List.mem_filterMap.mp hmem
    obtain rfl := Finding.eq_fault_of_fault? hfault
    obtain ⟨location, hlocation, hbehind⟩ := h.not_precedes_of_mem_ahead hfinding
    rw [Diagnostic.precedes, show found.location = some location from hlocation]
    exact fun hprecedes ↦ hbehind (of_decide_eq_true hprecedes)
  rw [scan_faults_eq, h.findings_eq, List.filterMap_append, List.filter_append,
    List.filter_eq_self.mpr hpassed, List.filter_eq_nil_iff.mpr hahead, List.append_nil,
    h.faults_eq]

end StackCompiler
