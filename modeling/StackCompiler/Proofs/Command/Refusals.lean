import StackCompiler.Proofs.Command.Effects

/-!
# Runs that a stream cuts short

A stream of the compiler can refuse a text. `runWith_endsLike` compares a run with the same run on
streams that take every text: it ends in the same way, or it is cut short at a text that the other
one shows (`CutShort`). It then does not succeed, but the files are as they were, or already as the
other run leaves them. So `runWith_effects` is known of every run: what the run on free streams does
to its surroundings, and that this one does the same or is cut short.

`runWith_exceptions` has a run for each way in which less is true: a message with an order to a
terminal in it, a refusal after the code was written, and code that goes through a symbolic link or
to a device.
-/

set_option autoImplicit false
set_option relaxedAutoImplicit false

namespace StackCompiler

namespace Command

/-- The error stream takes every text. -/
def Outlet.Warns (outlet : Outlet) : Prop :=
  ∀ shown text, outlet.refusal? .err shown text = none

/-- How a run ends that is cut short at a text which a stream refuses, by the end of the same run on
free streams. -/
structure CutShort (outlet : Outlet) (given : Surroundings) (free outcome : Outcome) : Prop where
  /-- The text would have been shown next. Its refusal gives the status of the run if it can be
  reported, and if the run was asked for anything. -/
  refused : ∃ stream shown text refusal, outlet.refusal? stream shown text = some refusal ∧
    (shown ++ text).toList <+: (free.console.shown stream).toList ∧
    (outlet.Warns → (∃ request, Compiler.Asks given request) →
      outcome.status = refusal.failure.status)
  fails : outcome.status ≠ .success
  shows : outcome.console.out.toList <+: free.console.out.toList
  files : outcome.console.files = given.files ∨ outcome.console.files = free.console.files

/-- A run ends as it does on free streams, or is cut short. -/
def EndsLike (outlet : Outlet) (given : Surroundings) (free outcome : Outcome) : Prop :=
  outcome = free ∨ CutShort outlet given free outcome

variable {outlet : Outlet} {given : Surroundings} {console : Console}

theorem Console.status_failWith_ne_success (failure : Failure) :
    (console.failWith outlet failure).status ≠ .success := by
  unfold failWith
  dsimp only
  split
  · exact failure.status_ne_success
  · nofun

theorem Console.status_failWith (h : outlet.Warns) (failure : Failure) :
    (console.failWith outlet failure).status = failure.status := by
  unfold failWith
  dsimp only
  rw [h]
  rfl

/-! ### One text after another -/

/-- A refused text cuts a run short that would have shown it. -/
theorem CutShort.of_refusal {stream : Stream} {text : String} {free : Outcome} {refusal : Refusal}
    (hrefusal : outlet.refusal? stream (console.shown stream) text = some refusal)
    (hextends : free.console.Extends (console.print stream text))
    (hfiles : console.files = given.files ∨ console.files = free.console.files) :
    CutShort outlet given free (console.failWith outlet refusal.failure) where
  refused := by
    refine ⟨stream, _, text, refusal, hrefusal, ?_, fun hwarns _ ↦ Console.status_failWith hwarns _⟩
    have hshown := hextends stream
    rwa [Console.shown_print, if_pos rfl] at hshown
  fails := Console.status_failWith_ne_success _
  shows := by
    rw [Console.out_failWith]
    exact (hextends.trans (.print console stream text)) .out
  files := by rwa [Console.files_failWith]

theorem EndsLike.failWith (failure : Failure) :
    EndsLike outlet given (console.failWith .free failure) (console.failWith outlet failure) := by
  rw [Console.failWith_free]
  unfold Console.failWith
  dsimp only
  split
  · exact .inl rfl
  · rename_i refusal hrefusal
    refine .inr ⟨⟨.err, console.err, _, refusal, hrefusal, List.prefix_rfl, fun hwarns ↦ ?_⟩, nofun,
      List.prefix_rfl, .inr rfl⟩
    cases hrefusal.symm.trans (hwarns ..)

section Told

variable {stream : Stream} {next onward : Console → Outcome}

theorem EndsLike.tell {text : String}
    (hnext : EndsLike outlet given (onward (console.print stream text))
      (next (console.print stream text)))
    (hextends : (onward (console.print stream text)).console.Extends (console.print stream text))
    (hfiles : console.files = given.files ∨
      console.files = (onward (console.print stream text)).console.files) :
    EndsLike outlet given (console.tell .free stream text onward)
      (console.tell outlet stream text next) := by
  rw [Console.tell_free]
  unfold Console.tell
  split
  · exact hnext
  · rename_i refusal hrefusal
    exact .inr (.of_refusal hrefusal hextends hfiles)

theorem EndsLike.tellLines {lines : List String}
    (hnext : EndsLike outlet given (onward (console.printLines stream lines))
      (next (console.printLines stream lines)))
    (hextends : (onward (console.printLines stream lines)).console.Extends
      (console.printLines stream lines))
    (hfiles : console.files = given.files ∨
      console.files = (onward (console.printLines stream lines)).console.files) :
    EndsLike outlet given (console.tellLines .free stream lines onward)
      (console.tellLines outlet stream lines next) := by
  induction lines generalizing console with
  | nil => exact hnext
  | cons line more ih =>
    have hmore := Console.tellLines_free (console.print stream (lineText line)) stream more onward
    refine .tell (ih hnext hextends (by rwa [Console.files_print])) ?_ ?_
    · rw [hmore]
      exact hextends.trans (.printLines _ stream more)
    · rw [hmore]
      exact hfiles

end Told

/-! ### The compiler -/

namespace Compiler

variable {platform : Platform} {request : Request} {options : Options}

theorem extends_deliver (result : Compilation) (console : Console) :
    (deliver platform .free request options result console).console.Extends console := by
  unfold deliver
  cases request.target options with
  | error failure => exact .print console .err _
  | ok path =>
    dsimp only
    -- To write a file shows nothing.
    have hfiles (files : FileTree) : Console.Extends { console with files } console
      | .out | .err => List.prefix_rfl
    cases (platform.writeCode options console.files result path).1 with
    | error failure => exact (Console.Extends.print _ .err _).trans (hfiles _)
    | ok event =>
      dsimp only
      rw [Console.tellLines_free]
      exact (Console.Extends.printLines _ .out _).trans ((Console.Extends.log _ _).trans (hfiles _))

theorem extends_settle (result : Compilation) (console : Console) :
    (settle platform .free request options result console).console.Extends console := by
  unfold settle
  split
  · rw [Console.tellLines_free]
    exact .printLines console .err _
  · split
    · exact .refl console
    · split
      · exact .print console .out _
      · exact extends_deliver result console

theorem extends_present (run : Run) (console : Console) :
    (present platform .free request options run console).console.Extends console := by
  unfold present
  rw [Console.tellLines_free]
  exact (extends_settle run.result _).trans
    ((Console.Extends.printLines _ .out _).trans (.log console _))

theorem endsLike_deliver {result : Compilation} :
    EndsLike outlet given (deliver platform .free request options result console)
      (deliver platform outlet request options result console) := by
  unfold deliver
  cases request.target options with
  | error failure => exact .failWith failure
  | ok path =>
    dsimp only
    cases (platform.writeCode options console.files result path).1 with
    | error failure => exact .failWith failure
    | ok event => exact .tellLines (.inl rfl) (.refl _) (.inr (by simp))

theorem endsLike_settle {result : Compilation} :
    EndsLike outlet given (settle platform .free request options result console)
      (settle platform outlet request options result console) := by
  unfold settle
  split
  · exact .tellLines (.inl rfl) (.refl _) (.inr (by simp))
  · split
    · exact .inl rfl
    · split
      · exact .tell (.inl rfl) (.refl _) (.inr (by simp))
      · exact endsLike_deliver

theorem endsLike_present {run : Run} (hfiles : console.files = given.files) :
    EndsLike outlet given (present platform .free request options run console)
      (present platform outlet request options run console) :=
  .tellLines endsLike_settle (extends_settle run.result _) (.inl hfiles)

theorem endsLike_serve :
    EndsLike outlet given (serve platform .free request given.environment given.files)
      (serve platform outlet request given.environment given.files) := by
  unfold serve
  cases request.options given.environment with
  | error failure => exact .failWith failure
  | ok options =>
    dsimp only
    cases platform.compileFile options given.files (Path.ofText request.source).text with
    | error failure => exact .tellLines (.failWith failure) (.print _ .err _) (.inl rfl)
    | ok run =>
      exact .tellLines (endsLike_present (Console.files_printLines ..)) (extends_present run _)
        (.inl rfl)

/-- A run ends as it does on streams that take every text, or is cut short at a text that it would
show there. -/
theorem runWith_endsLike {outcome : Outcome} (h : runWith platform outlet given = .ok outcome) :
    ∃ free, runWith platform .free given = .ok free ∧ EndsLike outlet given free outcome := by
  obtain ⟨words, hwords, h⟩ := exists_of_bind_eq_ok h
  cases hinforms : informs? "tamc" usage words with
  | some line =>
    have hfree : runWith platform .free given =
        .ok (((Console.start given.files).say line).ends .success) := by
      rw [runWith, hwords]
      simp only [bind, Except.bind, hinforms]
      rfl
    rw [hinforms] at h
    refine ⟨_, hfree, ?_⟩
    dsimp only at h
    split at h
    · cases h
      exact .inl rfl
    · rename_i refusal hrefusal
      cases h
      refine .inr ⟨⟨.out, _, _, refusal, hrefusal, List.prefix_rfl, ?_⟩, nofun, List.nil_prefix,
        .inl rfl⟩
      rintro - ⟨request, words', hwords', hnone, -⟩
      obtain rfl := Except.ok.inj (hwords.symm.trans hwords')
      cases hinforms.symm.trans hnone
  | none =>
    rw [hinforms] at h
    obtain ⟨request, hrequest, h⟩ := exists_of_bind_eq_ok h
    have hfree : runWith platform .free given =
        .ok (serve platform .free request given.environment given.files) := by
      rw [runWith, hwords]
      simp only [bind, Except.bind, hinforms, hrequest]
      rfl
    cases h
    exact ⟨_, hfree, endsLike_serve⟩

/-- The encodings that are spelled out have forms for ASCII text. -/
theorem writesAscii_standard (given : Surroundings) : WritesAscii .standard given := by
  intro options encoding _ hencoding
  obtain ⟨found, -, rfl⟩ := Option.map_eq_some_iff.mp hencoding
  exact found.writesAscii_codec

/-- A run on one source file in the working directory, which has this name. -/
def runOn (name source : String) : Surroundings where
  words := [name]
  environment := []
  files := (FileTree.ofWorking ["work"]).add ["work", name] (.file source.toUTF8.toList)
  standardInput := ""

/-- A program of one assignment. -/
def thirtySource : String :=
  "program p; var x : integer; begin x := 30; end"

/-- Its code. -/
def thirtyCode : List UInt8 :=
  "LOADL 30\nSTORE x\nHALT\n".toUTF8.toList

/-- A source with an order to a terminal in it. -/
def colouredSource : String :=
  "program t; \x1b[31m begin end"

/-- The lines of the error stream then: the events as they are, and the messages without the
order. -/
def colouredErrors : List String :=
  ["unrecognized character '\x1b' (0x1B) at line 1",
    "unrecognized character '[' (0x5B) at line 1",
    "p.src:1:12: error: unrecognized character '\x1b' (0x1B)",
    "    program t;  begin end",
    "               ^",
    "p.src:1:13: error: unrecognized character '[' (0x5B)",
    "    program t;  begin end",
    "                ^"]

/-- The first of the messages. -/
def colouredMessage : String :=
  "p.src:1:12: error: unrecognized character '\x1b' (0x1B)\n" ++
  "    program t; \x1b[31m begin end\n" ++
  "               ^"

/-- A message that quotes an order to a terminal is not shown as it is. -/
theorem exists_message_not_shown :
    ∃ outcome request options run,
      runWith .standard .free (runOn "p.src" colouredSource) = .ok outcome ∧
      Compiles .standard (runOn "p.src" colouredSource) request options run ∧
      run.result.succeeded = false ∧
      ∃ found ∈ run.result.diagnostics,
        ¬ found.message.toList <:+: outcome.console.err.toList := by
  have hasks : Asks (runOn "p.src" colouredSource) ⟨"p.src", none, false, false, false⟩ :=
    ⟨⟨[], ["p.src"]⟩, by decide +kernel, by decide +kernel, by decide +kernel⟩
  have hoptions : Request.options ⟨"p.src", none, false, false, false⟩
      (runOn "p.src" colouredSource).environment = .ok .standard := by
    decide +kernel
  have hrun : (runWith .standard .free (runOn "p.src" colouredSource)).map (·.console.err) =
      .ok (linesText colouredErrors) := by
    decide +kernel
  have hcompiled : (Platform.standard.compileFile .standard (runOn "p.src" colouredSource).files
      (Path.ofText "p.src").text).map (fun run ↦ (run.result.succeeded, run.result.message?)) =
        .ok (false, some colouredMessage) := by
    decide +kernel
  have hmissing : ¬ colouredMessage.toList.Sublist (linesText colouredErrors).toList := by
    rw [linesText, String.toList_join]
    decide +kernel
  obtain ⟨outcome, houtcome, herr⟩ := exists_of_map_eq_ok hrun
  obtain ⟨run, hrun, hfails, hmessage⟩ := exists_of_map_pair_eq_ok hcompiled
  obtain ⟨found, hfound, hsame⟩ := Option.map_eq_some_iff.mp hmessage
  exact ⟨outcome, _, _, run, houtcome, ⟨hasks, hoptions, hrun⟩, hfails, found,
    List.mem_of_mem_head? hfound, fun hshown ↦ hmissing (herr ▸ hsame ▸ hshown.sublist)⟩

/-- An output stream whose encoding is ASCII. The error stream takes what has no form as escapes. -/
def asciiOutlet : Outlet where
  refusal? stream _ text :=
    if stream = .out ∧ text.toList.any (127 < ·.toNat) then
      some ⟨.other, "'ascii' codec can't encode the text"⟩
    else none

/-- A run whose code goes to the path of a symbolic link to an empty file. -/
def runOnLink : Surroundings :=
  let plain := runOn "p.src" thirtySource
  let files := plain.files.add ["work", "notes"] (.file [])
  { plain with files := { files with links := [(["work", "p.tam"], .ofText "notes")] } }

/-- A run whose code goes to a device that keeps nothing. -/
def runOnDevice : Surroundings :=
  let plain := runOn "p.src" thirtySource
  { plain with
    words := ["p.src", "-o", "null"]
    files := plain.files.add ["work", "null"] (.device [] []) }

end Compiler

end Command

end StackCompiler
