import StackCompiler.Proofs.Scanning.Cursor

/-!
# Single tokens and scans in any order

A scanner gives single tokens and scans what is left, in whatever order it is asked. A cursor in the
text gives the same (`Cursor.Passed.serve_eq`), and shows where the scanner stands: no token is
given twice or left out, and the faults on record are those in front of this place.
`run_interleaves` says so for every series of requests, after each of them.

`Cursor.Moves` is what a series of requests does to a cursor. It holds of a single request of either
sort and goes on from one series to the next, so it holds of all (`Cursor.moves_run`).
-/

set_option autoImplicit false
set_option relaxedAutoImplicit false

namespace StackCompiler

open Scanning

/-! ### Requests -/

/-- The next token of the stream of single tokens is asked for, or all tokens that are left. -/
inductive Request where
  | next
  | rest
  deriving DecidableEq, Repr

inductive Handout where
  | single (token : Option Token)
  | all (tokens : List Token)
  deriving DecidableEq, Repr

/-- What gives single tokens and scans what is left. -/
structure TokenSource (σ : Type) where
  next? : σ → Option Token × σ
  rest : σ → List Token × σ

namespace TokenSource

variable {σ : Type} (source : TokenSource σ)

def serve (state : σ) : Request → Handout × σ
  | .next =>
    let (token, after) := source.next? state
    (.single token, after)
  | .rest =>
    let (tokens, after) := source.rest state
    (.all tokens, after)

/-- What is handed out for the requests, one after another, and what is left then. -/
def run (state : σ) : List Request → List Handout × σ
  | [] => ([], state)
  | request :: more =>
    let (handout, middle) := source.serve state request
    let (later, after) := run middle more
    (handout :: later, after)

end TokenSource

def Scanner.source : TokenSource Scanner where
  next? := Scanner.next?
  rest scanner :=
    let (stream, after) := scanner.rest
    (stream.toList, after)

def Cursor.source : TokenSource Cursor where
  next? := Cursor.next?
  rest := Cursor.scan

def Handout.tokens : Handout → List Token
  | single token => token.toList
  | all tokens => tokens

/-- The tokens that are handed out, without those at the end. -/
def handedOut (handouts : List Handout) : List Token :=
  (handouts.flatMap Handout.tokens).filter (·.kind != .endOfFile)

/-- The stream of single tokens has given the token at the end. -/
def GivesEnd (handouts : List Handout) : Prop :=
  ∃ token, .single (some token) ∈ handouts ∧ token.kind = .endOfFile

theorem handedOut_append (first second : List Handout) :
    handedOut (first ++ second) = handedOut first ++ handedOut second := by
  simp [handedOut]

theorem givesEnd_append {first second : List Handout} :
    GivesEnd (first ++ second) ↔ GivesEnd first ∨ GivesEnd second := by
  simp [GivesEnd, or_and_right, exists_or]

/-! ### The scanner and the cursor -/

/-- The scanner that a cursor is. -/
def Cursor.scanner (cursor : Cursor) : Scanner where
  pending := cursor.ahead
  faults := cursor.faults
  final := (Place.start.behind cursor.text).location cursor.file
  exhausted := cursor.exhausted

namespace Scanner

theorem splitAtToken_token (faults : List Diagnostic) (token : Token) (later : List Finding) :
    splitAtToken (faults.map Finding.fault ++ .token token :: later) =
      (faults, some (token, later)) := by
  induction faults with
  | nil => rfl
  | cons fault more ih => simp [splitAtToken, ih]

theorem splitAtToken_faults (faults : List Diagnostic) :
    splitAtToken (faults.map Finding.fault) = (faults, none) := by
  induction faults with
  | nil => rfl
  | cons fault more ih => simp [splitAtToken, ih]

end Scanner

variable {file text : String} {passed : List Finding} {cursor : Cursor}

theorem Cursor.Passed.scanner_final (h : Passed file text passed cursor) :
    Token.endOfFile cursor.scanner.final = (StackCompiler.scan file text).stream.final := by
  rw [scanner, h.text_eq, h.file_eq]
  rfl

/-- What a cursor passes is no longer pending, and its faults are recorded. -/
theorem Cursor.Passed.scanner_eq {new : List Finding} {after : Cursor}
    (h : Passed file text passed cursor) (hafter : Passed file text (passed ++ new) after) :
    after.scanner = { cursor.scanner with
      pending := after.ahead
      faults := cursor.faults ++ new.filterMap Finding.fault?
      exhausted := after.exhausted } := by
  rw [scanner, scanner, hafter.faults_eq, h.faults_eq, List.filterMap_append, hafter.text_eq,
    hafter.file_eq, h.text_eq, h.file_eq]

theorem Finding.filterMap_fault?_map_fault (faults : List Diagnostic) :
    (faults.map Finding.fault).filterMap Finding.fault? = faults := by
  rw [List.filterMap_map]
  exact List.filterMap_some

theorem Finding.filterMap_token?_map_fault (faults : List Diagnostic) :
    (faults.map Finding.fault).filterMap Finding.token? = [] := by
  rw [List.filterMap_map]
  exact List.filterMap_eq_nil_iff.mpr fun _ _ ↦ rfl

theorem Cursor.Passed.scanner_next? (h : Passed file text passed cursor) :
    cursor.scanner.next? = (cursor.next?.1, cursor.next?.2.scanner) := by
  cases hopen : cursor.exhausted with
  | true => simp [Scanner.next?, Cursor.next?, hopen, scanner]
  | false =>
    have hstream : cursor.scanner.exhausted = false := hopen
    rcases h.next? hopen with ⟨faults, token, after, hrun, hpassed, hexhausted⟩ |
      ⟨faults, after, hrun, hpassed, hexhausted, hend⟩
    · have hsplit := Scanner.splitAtToken_token faults token after.ahead
      have hfaults : (faults.map Finding.fault ++ [Finding.token token]).filterMap Finding.fault? =
          faults := by
        rw [List.filterMap_append, Finding.filterMap_fault?_map_fault]
        exact List.append_nil faults
      have hahead := h.ahead_eq hpassed
      rw [List.append_assoc, List.singleton_append] at hahead
      rw [hrun, h.scanner_eq hpassed, Scanner.next?, hstream, if_neg Bool.false_ne_true,
        show cursor.scanner.pending = _ from hahead, hsplit, hexhausted, hfaults, ← hstream]
      rfl
    · have hahead := h.ahead_eq hpassed
      rw [ahead_eq_nil hend, List.append_nil] at hahead
      rw [hrun, h.scanner_eq hpassed, Scanner.next?, hstream, if_neg Bool.false_ne_true,
        show cursor.scanner.pending = _ from hahead, Scanner.splitAtToken_faults, hexhausted,
        ahead_eq_nil hend, Finding.filterMap_fault?_map_fault, ← h.scanner_final]
      rfl

/-- The stream gives the next of the tokens that are still to come, or the one at the end. -/
theorem Cursor.Passed.fst_next? (h : Passed file text passed cursor)
    (hopen : cursor.exhausted = false) : cursor.next?.1 =
      some ((cursor.ahead.filterMap Finding.token?).headD
        (StackCompiler.scan file text).stream.final) := by
  rcases h.next? hopen with ⟨faults, token, after, hrun, hpassed, -⟩ |
    ⟨faults, after, hrun, hpassed, -, hend⟩
  · rw [hrun, h.ahead_eq hpassed, List.filterMap_append, List.filterMap_append,
      Finding.filterMap_token?_map_fault]
    rfl
  · rw [hrun, h.ahead_eq hpassed, ahead_eq_nil hend, List.append_nil,
      Finding.filterMap_token?_map_fault]
    rfl

theorem Cursor.Passed.scanner_rest (h : Passed file text passed cursor) :
    Scanner.source.rest cursor.scanner = (cursor.scan.1, cursor.scan.2.scanner) := by
  obtain ⟨htokens, hpassed, hexhausted, hend⟩ := h.scan
  rw [htokens, h.scanner_eq hpassed, ahead_eq_nil hend, hexhausted, ← h.scanner_final]
  rfl

/-- A scanner serves a request as the cursor that it is does. -/
theorem Cursor.Passed.serve_eq (h : Passed file text passed cursor) (request : Request) :
    Scanner.source.serve cursor.scanner request =
      ((source.serve cursor request).1, (source.serve cursor request).2.scanner) := by
  cases request with
  | next =>
    simp only [TokenSource.serve, Scanner.source, h.scanner_next?]
    rfl
  | rest =>
    simp only [TokenSource.serve, h.scanner_rest]
    rfl

/-! ### Moves -/

theorem kind_ne_endOfFile_of_mem_findings {token : Token} (h : .token token ∈ findings file text) :
    token.kind ≠ .endOfFile := by
  have hmem : token ∈ (scan file text).stream.pending :=
    List.mem_filterMap.mpr ⟨_, h, rfl⟩
  exact (reads_of_mem_pending hmem).kind_ne_endOfFile

/-- What some requests do to a cursor: it passes further findings, and their tokens are handed out.
The stream of single tokens ends when it gives the token at the end, and a scan leaves nothing. -/
structure Cursor.Moves (file text : String) (passed : List Finding) (cursor : Cursor)
    (requests : List Request) (handouts : List Handout) (after : Cursor)
    (further : List Finding) : Prop where
  passed : Passed file text (passed ++ further) after
  handedOut : handedOut handouts = further.filterMap Finding.token?
  exhausted_iff : after.exhausted = true ↔ cursor.exhausted = true ∨ GivesEnd handouts
  rest_of_exhausted : after.exhausted = true → after.rest = []
  rest_of_request : cursor.rest = [] ∨ .rest ∈ requests → after.rest = []

namespace Cursor

theorem Moves.refl (h : Passed file text passed cursor)
    (hend : cursor.exhausted = true → cursor.rest = []) :
    cursor.Moves file text passed [] [] cursor [] where
  passed := by rwa [List.append_nil]
  handedOut := rfl
  exhausted_iff := by simp [GivesEnd]
  rest_of_exhausted := hend
  rest_of_request := by simp

theorem Moves.trans {middle after : Cursor} {first second : List Request}
    {earlier later : List Handout} {further more : List Finding}
    (hfirst : cursor.Moves file text passed first earlier middle further)
    (hsecond : middle.Moves file text (passed ++ further) second later after more) :
    cursor.Moves file text passed (first ++ second) (earlier ++ later) after
      (further ++ more) where
  passed := List.append_assoc _ _ _ ▸ hsecond.passed
  handedOut := by
    rw [handedOut_append, hfirst.handedOut, hsecond.handedOut, List.filterMap_append]
  exhausted_iff := by
    rw [hsecond.exhausted_iff, hfirst.exhausted_iff, givesEnd_append, or_assoc]
  rest_of_exhausted := hsecond.rest_of_exhausted
  rest_of_request h := by
    refine hsecond.rest_of_request ?_
    rw [List.mem_append, ← or_assoc] at h
    exact h.imp_left hfirst.rest_of_request

theorem Passed.moves_next (h : Passed file text passed cursor)
    (hend : cursor.exhausted = true → cursor.rest = []) :
    ∃ further, cursor.Moves file text passed [.next] [.single cursor.next?.1] cursor.next?.2
      further := by
  cases hopen : cursor.exhausted with
  | true =>
    rw [next?_of_exhausted hopen]
    exact ⟨[], by rwa [List.append_nil], rfl, by simp [GivesEnd], hend, fun _ ↦ hend hopen⟩
  | false =>
    rcases h.next? hopen with ⟨faults, token, after, hrun, hpassed, hexhausted⟩ |
      ⟨faults, after, hrun, hpassed, hexhausted, hrest⟩
    · have hkind : token.kind ≠ .endOfFile := by
        have hmem : .token token ∈ findings file text := by
          rw [hpassed.findings_eq]
          simp
        exact kind_ne_endOfFile_of_mem_findings hmem
      have hopen' : cursor.rest ≠ [] := by
        intro hrest
        have hahead := h.ahead_eq hpassed
        rw [ahead_eq_nil hrest] at hahead
        simp at hahead
      rw [hrun]
      refine ⟨_, hpassed, ?_, ?_, by simp [hexhausted], by simp [hopen']⟩
      · rw [List.filterMap_append, Finding.filterMap_token?_map_fault]
        simp [StackCompiler.handedOut, Handout.tokens, Finding.token?, hkind]
      · simp [GivesEnd, hexhausted, hopen, hkind]
    · have hkind := (StackCompiler.scan file text).stream.final_kind
      rw [hrun]
      refine ⟨_, hpassed, ?_, ?_, fun _ ↦ hrest, fun _ ↦ hrest⟩
      · rw [Finding.filterMap_token?_map_fault]
        simp [StackCompiler.handedOut, Handout.tokens, hkind]
      · simp [GivesEnd, hexhausted, hkind]

theorem Passed.moves_rest (h : Passed file text passed cursor) :
    cursor.Moves file text passed [.rest] [.all cursor.scan.1] cursor.scan.2 cursor.ahead := by
  obtain ⟨htokens, hpassed, hexhausted, hend⟩ := h.scan
  refine ⟨hpassed, ?_, by simp [GivesEnd, hexhausted], fun _ ↦ hend, fun _ ↦ hend⟩
  have hkept : ∀ token ∈ cursor.ahead.filterMap Finding.token?,
      (token.kind != .endOfFile) = true := by
    intro token hmem
    obtain ⟨finding, hfinding, htoken⟩ := List.mem_filterMap.mp hmem
    cases finding with
    | fault found => cases htoken
    | token found =>
      cases htoken
      have hall : .token token ∈ findings file text :=
        h.findings_eq ▸ List.mem_append_right passed hfinding
      exact bne_iff_ne.mpr (kind_ne_endOfFile_of_mem_findings hall)
  have hfinal := (StackCompiler.scan file text).stream.final_kind
  rw [htokens, StackCompiler.handedOut, List.flatMap_singleton, Handout.tokens,
    List.filter_append, List.filter_eq_self.mpr hkept]
  simp [hfinal]

/-- A series of requests moves the cursor, and the scanner that the cursor is along with it. -/
theorem moves_run (h : Passed file text passed cursor)
    (hend : cursor.exhausted = true → cursor.rest = []) (requests : List Request) :
    ∃ further, cursor.Moves file text passed requests (source.run cursor requests).1
        (source.run cursor requests).2 further ∧
      Scanner.source.run cursor.scanner requests =
        ((source.run cursor requests).1, (source.run cursor requests).2.scanner) := by
  induction requests generalizing passed cursor with
  | nil => exact ⟨[], .refl h hend, rfl⟩
  | cons request more ih =>
    have hstep : ∃ further, cursor.Moves file text passed [request]
        [(source.serve cursor request).1] (source.serve cursor request).2 further := by
      cases request with
      | next => exact h.moves_next hend
      | rest => exact ⟨cursor.ahead, h.moves_rest⟩
    obtain ⟨first, hfirst⟩ := hstep
    obtain ⟨later, hlater, hrun⟩ := ih hfirst.passed hfirst.rest_of_exhausted
    refine ⟨first ++ later, hfirst.trans hlater, ?_⟩
    simp only [TokenSource.run, h.serve_eq, hrun]

end Cursor

/-! ### Every series of requests -/

/-- No two faults of a scan are the same: each stands in front of those behind it. -/
theorem nodup_scan_faults (file text : String) : (scan file text).faults.Nodup := by
  obtain ⟨found, -, -, hfaults, hordered, -⟩ := scan_tiles file text
  rw [hfaults]
  refine hordered.filterMap _ fun first second hprecedes fault hfault other hother ↦ ?_
  rintro rfl
  obtain ⟨place, hplace, later, hlater, h⟩ := hprecedes
  rw [Finding.eq_fault_of_fault? hfault] at hplace
  rw [Finding.eq_fault_of_fault? hother] at hlater
  obtain rfl := Option.mem_unique hplace hlater
  exact place.not_precedes_self h

/-- Whatever is asked of a scanner of a text, and in whatever order: it hands out the tokens of the
text from the first one on, and all of them once it has scanned the rest or its stream has ended; a
scan gives those that are left, and the stream the next of them, or the one at the end once and
nothing from then on. The faults on record are those in front of the place where it stands. -/
theorem run_interleaves (file text : String) (requests : List Request) :
    let whole := scan file text
    let handouts := (Scanner.source.run (.ofText file text) requests).1
    let scanner := (Scanner.source.run (.ofText file text) requests).2
    let cursor := (Cursor.source.run (.ofText file text) requests).2
    let given := handedOut handouts
    given <+: whole.stream.pending ∧
    (.rest ∈ requests ∨ GivesEnd handouts → given = whole.stream.pending) ∧
    (Scanner.source.serve scanner .rest).1 =
      .all (whole.stream.pending.drop given.length ++ [whole.stream.final]) ∧
    (¬ GivesEnd handouts → (Scanner.source.serve scanner .next).1 =
      .single (some ((whole.stream.pending.drop given.length).headD whole.stream.final))) ∧
    (GivesEnd handouts → (Scanner.source.serve scanner .next).1 = .single none) ∧
    (Cursor.source.run (.ofText file text) requests).1 = handouts ∧
    cursor.location =
      (Place.start.behind (text.toList.take cursor.position)).location file ∧
    cursor.faults = scanner.faults ∧
    scanner.faults = whole.faults.filter (Diagnostic.precedes cursor.location) ∧
    scanner.faults.Nodup := by
  intro whole handouts scanner cursor given
  obtain ⟨further, hmoves, hrun⟩ :=
    Cursor.moves_run (Cursor.passed_ofText file text) nofun requests
  have hsame : (Cursor.source.run (.ofText file text) requests).1 = handouts :=
    (congrArg Prod.fst hrun).symm
  have hscanner : scanner = cursor.scanner := congrArg Prod.snd hrun
  rw [hsame] at hmoves
  have hpassed : cursor.Passed file text further := hmoves.passed
  have hpending : whole.stream.pending = given ++ cursor.ahead.filterMap Finding.token? := by
    rw [scan_pending_eq, hpassed.findings_eq, List.filterMap_append, ← hmoves.handedOut]
  have hended : cursor.exhausted = true ↔ GivesEnd handouts := by
    exact hmoves.exhausted_iff.trans (by simp [Cursor.ofText])
  have hrest : .rest ∈ requests ∨ GivesEnd handouts → cursor.rest = [] := by
    rintro (hmem | hend)
    · exact hmoves.rest_of_request (.inr hmem)
    · exact hmoves.rest_of_exhausted (hended.mpr hend)
  have hserve (request : Request) : (Scanner.source.serve scanner request).1 =
      (Cursor.source.serve cursor request).1 := by
    rw [hscanner, hpassed.serve_eq]
  have hdrop : whole.stream.pending.drop given.length =
      cursor.ahead.filterMap Finding.token? := by
    rw [hpending, List.drop_left]
  refine ⟨⟨_, hpending.symm⟩, fun h ↦ ?_, ?_, fun hopen ↦ ?_, fun hend ↦ ?_, hsame, ?_, ?_, ?_, ?_⟩
  · rw [hpending, Cursor.ahead_eq_nil (hrest h)]
    exact (List.append_nil given).symm
  · rw [hserve .rest, hdrop, ← hpassed.scan.1]
    rfl
  · have hnot : cursor.exhausted = false := by
      rwa [← hended, Bool.not_eq_true] at hopen
    rw [hserve .next, hdrop, ← hpassed.fst_next? hnot]
    rfl
  · have hnothing := Cursor.next?_of_exhausted (hended.mpr hend)
    rw [hserve .next]
    exact congrArg Handout.single (congrArg Prod.fst hnothing)
  · rw [Cursor.location, hpassed.place_eq, hpassed.text_eq, hpassed.file_eq]
  · rw [hscanner]
    rfl
  · rw [hscanner]
    exact hpassed.faults_eq_filter
  · rw [hscanner, show cursor.scanner.faults = cursor.faults from rfl, hpassed.faults_eq_filter]
    exact (nodup_scan_faults file text).filter _

/-- Two names with a character behind each of them that begins no token. -/
def strayCharacters : String :=
  "x # y $"

/-- The first name is given alone and the second one in a scan, which passes both characters. Then
the stream ends, and gives nothing from then on. -/
theorem run_interleaves_strayCharacters :
    let after := Scanner.source.run (.ofText "p.src" strayCharacters)
    let requests : List Request := [.next, .rest, .next]
    ((after [.next]).2.faults = [] ∧
      (Scanner.source.serve (after [.next]).2 .next).1 =
        .single (some ⟨.ident, "y", none, ⟨"p.src", 1, 5⟩⟩)) ∧
    handedOut (after requests).1 = (scan "p.src" strayCharacters).stream.pending ∧
    (Scanner.source.serve (after requests).2 .next).1 = .single none ∧
    (after requests).2.faults = (scan "p.src" strayCharacters).faults ∧
    (scan "p.src" strayCharacters).faults.length = 2 := by
  intro after requests
  let last : Token := .endOfFile ⟨"p.src", 1, 8⟩
  let name (lexeme : String) (column : Int) : Token := ⟨.ident, lexeme, none, ⟨"p.src", 1, column⟩⟩
  have hfirst : (after [.next]).1 = [.single (some (name "x" 1))] := by decide +kernel
  have hall : (after requests).1 =
      [.single (some (name "x" 1)), .all [name "y" 5, last], .single (some last)] := by
    decide +kernel
  have hopen : ¬ GivesEnd (after [.next]).1 := by
    rw [hfirst]
    simp [GivesEnd, name]
  have hend : GivesEnd (after requests).1 := ⟨last, by rw [hall]; simp, rfl⟩
  obtain ⟨-, -, -, hnext, -⟩ := run_interleaves "p.src" strayCharacters [.next]
  obtain ⟨-, hgiven, -, -, hnothing, -⟩ := run_interleaves "p.src" strayCharacters requests
  exact ⟨⟨by decide +kernel, (hnext hopen).trans (by decide +kernel)⟩, hgiven (.inr hend),
    hnothing hend, by decide +kernel, by decide +kernel⟩

end StackCompiler
