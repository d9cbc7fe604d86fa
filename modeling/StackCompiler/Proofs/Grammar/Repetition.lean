import StackCompiler.Proofs.Grammar.Positions
import StackCompiler.Proofs.Grammar.ViablePrefix

/-!
# Reading one program after another

A stream can be read again after each reading. By positions in the token list
(`Walk.positionAfter`), every reading ends where the next one starts: no earlier than it has
started, behind at least one more token if a program was read, and at the token that the diagnostic
is about if not. A rule takes no token of the kind `endOfFile`, since it would have stopped in front
of that token just as it stops at the end of the list (`Foresees.kind_ne_endOfFile`).

Programs that stand one behind the other are read one by one, as if each of them stood alone. A rule
looks one token ahead and a program ends with a token that the rule for it takes, so what stands
behind that token does not count (`Closed`). `readings_repeat` puts both together.
-/

set_option autoImplicit false
set_option relaxedAutoImplicit false

namespace StackCompiler

namespace Grammar

variable {α β : Type}

/-! ### What a rule takes -/

/-- The tokens that are left where a rule ends or stops. -/
def leftBy : Except Stop (α × List Token) → List Token
  | .ok (_, rest) => rest
  | .error stop => stop.pending

/-- The end of the tokens is like a token of the kind `endOfFile`. -/
theorem Alike.append_end {token : Token} (hkind : token.kind = .endOfFile)
    (pending later : List Token) : Alike pending (pending ++ token :: later) := by
  cases pending with
  | nil => exact .inl hkind
  | cons first more => exact .inl rfl

/-- What a rule does on some tokens it does in front of a token of the kind `endOfFile`. -/
theorem Foresees.leftBy_append_end {rule : Rule α} (h : Foresees rule) {token : Token}
    (hkind : token.kind = .endOfFile) (pending later : List Token) :
    leftBy (rule (pending ++ token :: later)) = leftBy (rule pending) ++ token :: later := by
  cases hrun : rule pending with
  | ok result =>
    obtain ⟨a, rest⟩ := result
    obtain ⟨taken, rfl⟩ := h.suffix_of_ok hrun
    rw [List.append_assoc, h.ok trivial trivial (.append_end hkind rest later) hrun]
    rfl
  | error stop =>
    obtain ⟨refusal, rest⟩ := stop
    obtain ⟨taken, rfl⟩ := h.suffix_of_stop hrun
    have hfloat : refusal = .floatLiteral → kindOfNext (rest ++ token :: later) = .floatLit := by
      rintro rfl
      have hnext := h.float_of_stop trivial hrun
      cases rest with
      | nil => cases hnext
      | cons first more => exact hnext
    rw [List.append_assoc, h.stop trivial trivial (.append_end hkind rest later) hfloat hrun]
    rfl

/-- A rule takes no token of the kind `endOfFile`. -/
theorem Foresees.kind_ne_endOfFile {rule : Rule α} (h : Foresees rule) {pending front : List Token}
    (hfront : pending = front ++ leftBy (rule pending)) :
    ∀ token ∈ front, token.kind ≠ .endOfFile := by
  intro token hmem hkind
  obtain ⟨before, behind, rfl⟩ := List.append_of_mem hmem
  generalize hleft : leftBy (rule pending) = left at hfront
  obtain rfl : pending = before ++ token :: (behind ++ left) := by simpa using hfront
  have hlength := congrArg List.length (h.leftBy_append_end hkind before (behind ++ left))
  rw [hleft] at hlength
  simp at hlength
  omega

/-! ### Rules that end with a token of their own -/

/-- A rule that can end at the end of the tokens has taken a token then, and it does the same
whatever stands behind. -/
def Closed (rule : Rule α) : Prop :=
  ∀ tokens a, rule tokens = .ok (a, []) →
    tokens ≠ [] ∧ ∀ more, rule (tokens ++ more) = .ok (a, more)

theorem expect_closed (kind : TokenKind) : Closed (expect kind) := by
  intro tokens token hrun
  obtain ⟨rfl, hkind⟩ := expect_eq_ok.mp hrun
  exact ⟨nofun, fun more ↦ expect_cons hkind more⟩

/-- Only the last part of a rule has to be closed: the others see its first token. -/
theorem Closed.bind {rule : Rule α} {next : α → Rule β} (hrule : Foresees rule)
    (hnext : ∀ a, Closed (next a)) : Closed (rule >>= next) := by
  intro tokens b hrun
  obtain ⟨a, middle, hmiddle, hend⟩ := bind_eq_ok.mp hrun
  obtain ⟨hnonempty, hmore⟩ := hnext a middle b hend
  obtain ⟨front, rfl⟩ := hrule.suffix_of_ok hmiddle
  refine ⟨List.append_ne_nil_of_right_ne_nil front hnonempty, fun more ↦ ?_⟩
  have halike : Alike middle (middle ++ more) := by
    cases middle with
    | nil => exact absurd rfl hnonempty
    | cons token rest => exact .inl rfl
  rw [List.append_assoc, bind_of_ok (hrule.ok trivial trivial halike hmiddle), hmore]

theorem Closed.bind_pure {rule : Rule α} (h : Closed rule) (f : α → β) :
    Closed (rule >>= fun a ↦ pure (f a)) := by
  intro tokens b hrun
  obtain ⟨a, middle, hmiddle, hend⟩ := bind_eq_ok.mp hrun
  obtain ⟨rfl, rfl⟩ := pure_eq_ok.mp hend
  obtain ⟨hnonempty, hmore⟩ := h tokens a hmiddle
  exact ⟨hnonempty, fun more ↦ bind_of_ok (hmore more)⟩

theorem block_closed {inner : Rule Stmt} (hinner : Foresees inner) (hreads : ReadsFront inner) :
    Closed (block inner) := by
  have hbody : Foresees (get >>= statements inner) :=
    .turns (statements_foresees hinner) (statements_turnsToSpare hreads)
  have hclosed : Closed (expect .beginKw >>= fun _ ↦ (get >>= statements inner) >>= fun body ↦
      expect .endKw >>= fun _ ↦ pure body) :=
    .bind (expect_foresees (by decide)) fun _ ↦ .bind hbody fun body ↦
      .bind_pure (expect_closed .endKw) fun _ ↦ body
  simpa only [block, bind_assoc] using hclosed

theorem program_closed (depth : Nat) : Closed (program depth) := by
  have hdeclarations : Foresees (get >>= declarations) :=
    .turns declarations_foresees declarations_turnsToSpare
  have hbody : Closed (block (statement depth)) :=
    block_closed (statement_foresees depth) (statement_sound depth)
  have hclosed : Closed (expect .programKw >>= fun _ ↦ expect .ident >>= fun name ↦
      expect .semicolon >>= fun _ ↦ (get >>= declarations) >>= fun decls ↦
      block (statement depth) >>= fun body ↦ pure (⟨name, decls, body⟩ : Program)) :=
    .bind (expect_foresees (by decide)) fun _ ↦ .bind (expect_foresees (by decide)) fun name ↦
      .bind (expect_foresees (by decide)) fun _ ↦ .bind hdeclarations fun decls ↦
      .bind_pure hbody fun body ↦ (⟨name, decls, body⟩ : Program)
  simpa only [program, bind_assoc] using hclosed

/-! ### Positions -/

namespace Walk

/-- The position after so many readings: each starts where the last one has ended. -/
def positionAfter (depth : Nat) (stream : TokenStream) : Nat → Nat
  | 0 => 0
  | count + 1 =>
    let position := positionAfter depth stream count
    match program depth stream.toList position with
    | .ok (_, next) => next
    | .error (.refused _ next) => next
    | .error _ => position

end Walk

end Grammar

namespace TokenStream

open Grammar

theorem drop_toList {stream : TokenStream} {position : Nat}
    (h : position ≤ stream.pending.length) :
    stream.toList.drop position =
      toList { stream with pending := stream.pending.drop position } := by
  rw [toList, toList, List.drop_append_of_le_length h]

theorem next_drop {stream : TokenStream} {position : Nat}
    (h : position ≤ stream.pending.length) :
    stream.toList[position]? =
      some (next { stream with pending := stream.pending.drop position }) := by
  rw [← List.head?_drop, drop_toList h, toList, next]
  cases stream.pending.drop position <;> rfl

/-! ### One reading after another -/

/-- The stream that is left after so many readings. -/
def leftAfter (stream : TokenStream) (depth : Nat) (lines : List String) : Nat → TokenStream
  | 0 => stream
  | count + 1 => ((stream.leftAfter depth lines count).readProgramWithin depth lines).2

/-- What so many readings give. -/
def readings (stream : TokenStream) (depth : Nat) (lines : List String) (count : Nat) :
    List (Except Diagnostic Program) :=
  (List.range count).map fun index ↦
    ((stream.leftAfter depth lines index).readProgramWithin depth lines).1

/-- How a reading goes that starts at a position: it ends, in the list and no earlier than it has
started, and passes no token of the kind `endOfFile`. It reads a program and takes tokens for it, or
it stands at the token that its diagnostic is about. -/
structure Progress (stream : TokenStream) (depth : Nat) (lines : List String)
    (position next : Nat) (found : Except Diagnostic Program) : Prop where
  le : position ≤ next
  lt_length : next < stream.toList.length
  passes : ∀ token ∈ (stream.toList.take next).drop position, token.kind ≠ .endOfFile
  ends : (∃ program, found = .ok program ∧ position < next ∧
      Walk.program depth stream.toList position = .ok (program, next)) ∨
    ∃ refusal token, found = .error (refusal.diagnostic token lines) ∧
      stream.toList[next]? = some token ∧
      (refusal.diagnostic token lines).location = some token.location ∧
      Walk.program depth stream.toList position = .error (.refused refusal next)

/-- The tokens between the ends of a reading are none of the kind `endOfFile`. -/
theorem kind_ne_endOfFile_of_leftBy {stream : TokenStream} {depth position next : Nat}
    (hle : position ≤ next) (hnext : next ≤ stream.pending.length)
    (hleft : leftBy (program depth (stream.pending.drop position)) = stream.pending.drop next) :
    ∀ token ∈ (stream.toList.take next).drop position, token.kind ≠ .endOfFile := by
  have hsplit : (stream.pending.take next ++ stream.pending.drop next).drop position =
      (stream.pending.take next).drop position ++ stream.pending.drop next :=
    List.drop_append_of_le_length (by rw [List.length_take]; omega)
  rw [List.take_append_drop, ← hleft] at hsplit
  rw [toList, List.take_append_of_le_length hnext]
  exact (program_foresees depth).kind_ne_endOfFile hsplit

/-- A reading that starts at a position in the list makes progress, and leaves what stands from its
end on. -/
theorem exists_progress (stream : TokenStream) (depth : Nat) (lines : List String)
    {position : Nat} (hposition : position ≤ stream.pending.length) :
    ∃ found next, readProgramWithin { stream with pending := stream.pending.drop position } depth
        lines = (found, { stream with pending := stream.pending.drop next }) ∧
      stream.Progress depth lines position next found := by
  have hinside : ∀ {next}, next ≤ stream.pending.length → next < stream.toList.length := by
    intro next hnext
    simpa [toList, Nat.lt_succ_iff] using hnext
  have hagrees := Walk.program_agrees depth (hinside hposition)
  generalize hwalk : Walk.program depth stream.toList position = walked at hagrees
  generalize hrun : program depth (stream.pending.drop position) = ruled at hagrees
  cases hagrees with
  | @ok found next hle hnext =>
    have hleft := congrArg leftBy hrun
    refine ⟨.ok found, next, readProgramWithin_eq_ok.mpr ⟨hrun, rfl⟩, hle, hinside hnext,
      kind_ne_endOfFile_of_leftBy hle hnext hleft, .inl ⟨found, rfl, ?_, hwalk⟩⟩
    obtain ⟨tokens, htokens, hderives, -⟩ := program_sound depth _ _ _ hrun
    obtain ⟨others, closing, rfl, -⟩ := hderives.exists_concat
    have hlength := congrArg List.length htokens
    simp only [List.length_append, List.length_drop, List.length_singleton] at hlength
    omega
  | @refused refusal next hle hnext =>
    have hleft := congrArg leftBy hrun
    refine ⟨.error (refusal.diagnostic
      (TokenStream.next { stream with pending := stream.pending.drop next }) lines), next, ?_, hle,
      hinside hnext, kind_ne_endOfFile_of_leftBy hle hnext hleft,
      .inr ⟨refusal, _, rfl, next_drop hnext, refusal.location_diagnostic _ _, hwalk⟩⟩
    simp only [readProgramWithin, hrun]

theorem Progress.positionAfter_eq {stream : TokenStream} {depth count next : Nat}
    {lines : List String} {found : Except Diagnostic Program}
    (h : stream.Progress depth lines (Walk.positionAfter depth stream count) next found) :
    Walk.positionAfter depth stream (count + 1) = next := by
  rcases h.ends with ⟨_, -, -, hwalk⟩ | ⟨_, _, -, -, -, hwalk⟩ <;>
    simp only [Walk.positionAfter, hwalk]

/-- After so many readings the stream is left that starts at the position after them. -/
theorem leftAfter_eq (stream : TokenStream) (depth : Nat) (lines : List String) (count : Nat) :
    Walk.positionAfter depth stream count ≤ stream.pending.length ∧
    stream.leftAfter depth lines count =
      { stream with pending := stream.pending.drop (Walk.positionAfter depth stream count) } := by
  induction count with
  | zero => exact ⟨Nat.zero_le _, rfl⟩
  | succ count ih =>
    obtain ⟨hposition, hleft⟩ := ih
    obtain ⟨found, next, hread, hprogress⟩ := stream.exists_progress depth lines hposition
    have hinside := hprogress.lt_length
    rw [hprogress.positionAfter_eq, leftAfter, hleft, hread]
    exact ⟨by simpa [toList, Nat.lt_succ_iff] using hinside, rfl⟩

/-! ### Programs one behind the other -/

/-- What is read off tokens that stand alone is read off them in front of any others. -/
theorem readProgramWithin_append {depth : Nat} {lines : List String} {tokens : List Token}
    {final : Token} {hfinal : final.kind = .endOfFile} {found : Program}
    (h : readProgramWithin ⟨tokens, final, hfinal⟩ depth lines = (.ok found, ⟨[], final, hfinal⟩))
    (more : List Token) :
    readProgramWithin ⟨tokens ++ more, final, hfinal⟩ depth lines =
      (.ok found, ⟨more, final, hfinal⟩) := by
  obtain ⟨hrun, -⟩ := readProgramWithin_eq_ok.mp h
  exact readProgramWithin_eq_ok.mpr ⟨(program_closed depth tokens found hrun).2 more, rfl⟩

/-- Tokens that derive a program are read as one, unless the depth is used up. -/
theorem exists_readProgramWithin_eq_ok {depth : Nat} {lines : List String} {tokens : List Token}
    {final : Token} {hfinal : final.kind = .endOfFile}
    (hderives : ∃ found, DerivesProgram tokens found)
    (hdepth : ¬ NestsTooDeeply ⟨tokens, final, hfinal⟩ depth lines) :
    ∃ found, readProgramWithin ⟨tokens, final, hfinal⟩ depth lines =
      (.ok found, ⟨[], final, hfinal⟩) := by
  obtain ⟨other, hother⟩ := hderives
  obtain ⟨found, hfound, hnearest⟩ := hother.exists_elsesNearest
  exact ⟨found, readProgramWithin_of_derives hdepth
    (toList_eq_append_iff.mpr ⟨(List.append_nil _).symm, rfl⟩) hfound hnearest⟩

/-- At the end of the tokens, each reading says that a program was expected. -/
theorem readProgramWithin_nil (depth : Nat) (lines : List String) {final : Token}
    (hfinal : final.kind = .endOfFile) :
    readProgramWithin ⟨[], final, hfinal⟩ depth lines =
      (.error (final.diagnostic lines
        (.unexpectedToken TokenKind.programKw.name TokenKind.endOfFile.name none)),
        ⟨[], final, hfinal⟩) := by
  rw [← hfinal]
  rfl

/-- After so many readings, so many of the programs are gone. -/
theorem leftAfter_flatten {stream : TokenStream} {depth : Nat} {lines : List String}
    {words : List (List Token)} (hpending : stream.pending = words.flatten)
    (hwords : ∀ tokens ∈ words, ∃ found,
      readProgramWithin { stream with pending := tokens } depth lines =
        (.ok found, { stream with pending := [] })) (count : Nat) :
    stream.leftAfter depth lines count =
      { stream with pending := (words.drop count).flatten } := by
  induction count with
  | zero => rw [leftAfter, List.drop_zero, ← hpending]
  | succ count ih =>
    rw [leftAfter, ih, ← List.drop_drop]
    cases hdrop : words.drop count with
    | nil =>
      rw [List.flatten_nil, readProgramWithin_nil]
      rfl
    | cons tokens more =>
      obtain ⟨found, hfound⟩ :=
        hwords tokens (List.mem_of_mem_drop (hdrop ▸ List.mem_cons_self))
      rw [List.flatten_cons, readProgramWithin_append hfound]
      rfl

/-- Every reading makes progress from the position where the last one has ended. Programs that stand
one behind the other are read as if each of them stood alone, and all later readings stand at the
end and expect a program. -/
theorem readings_repeat (stream : TokenStream) (depth : Nat) (lines : List String) :
    (∀ count,
      let position := Walk.positionAfter depth stream count
      let left := stream.leftAfter depth lines count
      left.toList = stream.toList.drop position ∧
        stream.Progress depth lines position (Walk.positionAfter depth stream (count + 1))
          (left.readProgramWithin depth lines).1) ∧
    ∀ words : List (List Token), stream.pending = words.flatten →
      (∀ tokens ∈ words, ∃ found, DerivesProgram tokens found) →
      (∀ tokens ∈ words, ¬ NestsTooDeeply { stream with pending := tokens } depth lines) →
      (∀ tokens ∈ words, ∃ found,
        readProgramWithin { stream with pending := tokens } depth lines =
          (.ok found, { stream with pending := [] })) ∧
      stream.readings depth lines words.length = words.map (fun tokens ↦
        (readProgramWithin { stream with pending := tokens } depth lines).1) ∧
      ∀ count, words.length ≤ count →
        (stream.leftAfter depth lines count).readProgramWithin depth lines =
          (.error (stream.final.diagnostic lines (.unexpectedToken "PROGRAM" "EOF" none)),
            { stream with pending := [] }) := by
  refine ⟨fun count ↦ ?_, fun words hpending hderives hdepth ↦ ?_⟩
  · obtain ⟨hposition, hleft⟩ := stream.leftAfter_eq depth lines count
    obtain ⟨found, next, hread, hprogress⟩ := stream.exists_progress depth lines hposition
    intro position left
    rw [hprogress.positionAfter_eq]
    simp only [left, hleft, hread]
    exact ⟨(drop_toList hposition).symm, hprogress⟩
  · have hwords : ∀ tokens ∈ words, ∃ found,
        readProgramWithin { stream with pending := tokens } depth lines =
          (.ok found, { stream with pending := [] }) :=
      fun tokens hmem ↦ exists_readProgramWithin_eq_ok (hderives tokens hmem) (hdepth tokens hmem)
    refine ⟨hwords, List.ext_getElem (by simp [readings]) fun index hleft hright ↦ ?_, ?_⟩
    · rw [List.length_map] at hright
      obtain ⟨found, hfound⟩ := hwords words[index] (List.getElem_mem hright)
      simp only [readings, List.getElem_map, List.getElem_range]
      rw [leftAfter_flatten hpending hwords, List.drop_eq_getElem_cons hright, List.flatten_cons,
        readProgramWithin_append hfound, hfound]
    · intro count hcount
      rw [leftAfter_flatten hpending hwords, List.drop_eq_nil_of_le hcount, List.flatten_nil,
        readProgramWithin_nil]
      rfl

/-- The tokens of `program p; begin end` and of `program q; begin if true then x := 1; end`. -/
def twoPrograms : List (List Token) :=
  let token (kind : TokenKind) (lexeme : String) : Token := ⟨kind, lexeme, none, ⟨"", 1, 1⟩⟩
  [[token .programKw "program", token .ident "p", token .semicolon ";", token .beginKw "begin",
      token .endKw "end"],
    [token .programKw "program", token .ident "q", token .semicolon ";", token .beginKw "begin",
      token .ifKw "if", token .trueKw "true", token .thenKw "then", token .ident "x",
      token .assign ":=", token .intLit "1", token .semicolon ";", token .endKw "end"]]

/-- Both programs are read, and the third reading finds the end. -/
theorem readings_twoPrograms :
    let stream : TokenStream := .endingAt ⟨"", 1, 1⟩ twoPrograms.flatten
    (∃ first second, stream.readings nestingLimit [] 2 = [.ok first, .ok second] ∧
      first.name.lexeme = "p" ∧ second.name.lexeme = "q") ∧
    ((stream.leftAfter nestingLimit [] 2).readProgramWithin nestingLimit []).1 =
      .error (stream.final.diagnostic [] (.unexpectedToken "PROGRAM" "EOF" none)) := by
  intro stream
  have halone : ∀ tokens ∈ twoPrograms, ∃ found,
      readProgramWithin { stream with pending := tokens } nestingLimit [] =
        (.ok found, { stream with pending := [] }) := by
    simp only [twoPrograms, List.forall_mem_cons]
    exact ⟨⟨_, rfl⟩, ⟨_, rfl⟩, List.forall_mem_nil _⟩
  have hderives : ∀ tokens ∈ twoPrograms, ∃ found, DerivesProgram tokens found := by
    intro tokens hmem
    obtain ⟨found, hfound⟩ := halone tokens hmem
    obtain ⟨front, hfront, hprogram, -⟩ := derives_of_readProgramWithin hfound
    obtain rfl : tokens = front := by simpa using (toList_eq_append_iff.mp hfront).1
    exact ⟨found, hprogram⟩
  have hdepth : ∀ tokens ∈ twoPrograms,
      ¬ NestsTooDeeply { stream with pending := tokens } nestingLimit [] := by
    rintro tokens hmem ⟨fault, rest, hfault, -⟩
    obtain ⟨found, hfound⟩ := halone tokens hmem
    simp [hfound] at hfault
  obtain ⟨-, hreadings, hlater⟩ :=
    (readings_repeat stream nestingLimit []).2 twoPrograms rfl hderives hdepth
  exact ⟨⟨_, _, hreadings, rfl, rfl⟩, congrArg Prod.fst (hlater 2 (Nat.le_refl _))⟩

end TokenStream

end StackCompiler
