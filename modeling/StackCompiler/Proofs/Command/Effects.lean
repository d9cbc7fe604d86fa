import StackCompiler.Proofs.Command.Sources
import StackCompiler.Proofs.Command.Streams
import StackCompiler.Proofs.Compilation.Characters

/-!
# What a run of the compiler leaves behind

`runWith_effects` is the main statement: on any platform whose passes are faithful and whose chosen
encoding has a form for ASCII text, every run of the compiler ends with the status that fits what
stopped it, shows the diagnostics of a failed compilation in order, and changes no file but the one
that the code goes to, and that one only if everything else has succeeded (`Effects`).

A run goes through options, source, compilation, and the path and the file of the code. `StoppedBy`
says where it can be stopped on the way, and `Conclusion` lists the ways in which it ends; what a
request, its options and its compilation are is settled by the surroundings (`Compiles.unique`), so
no two of these ways are open at once. Writing does not stop a run once the file is open: the source
was read in the encoding that the code is written in, and the code is ASCII (`isAscii_codeText`).

What is shown is plain text. A message that quotes an order to a terminal from the source is shown
without the order (`Text.plain`); one without an escape character is shown as it is
(`Text.plain_eq_self`).
-/

set_option autoImplicit false
set_option relaxedAutoImplicit false

namespace StackCompiler

namespace Command

/-! ### What a run is asked for -/

namespace Compiler

/-- The words ask for this: they are in order, and no option among them ends the run before. -/
def Asks (given : Surroundings) (request : Request) : Prop :=
  ∃ words, readWords specs given.words = .ok words ∧ informs? "tamc" usage words = none ∧
    Request.ofWords given.files words = .ok request

theorem Asks.unique {given : Surroundings} {request other : Request} (h : Asks given request)
    (hother : Asks given other) : request = other := by
  obtain ⟨words, hwords, -, hrequest⟩ := h
  obtain ⟨words', hwords', -, hother⟩ := hother
  cases Except.ok.inj (hwords.symm.trans hwords')
  exact Except.ok.inj (hrequest.symm.trans hother)

/-- The code is asked for in a file. -/
def Request.WantsFile (request : Request) : Prop :=
  request.showsOutline = false ∧ request.toOutput = false

variable {platform : Platform} {given : Surroundings}

/-- The source file is compiled with these options, and this is what the compilation gives. -/
structure Compiles (platform : Platform) (given : Surroundings) (request : Request)
    (options : Options) (run : Run) : Prop where
  asks : Asks given request
  chosen : request.options given.environment = .ok options
  compiled : platform.compileFile options given.files (Path.ofText request.source).text = .ok run

theorem Compiles.unique {request request' : Request} {options options' : Options} {run run' : Run}
    (h : Compiles platform given request options run)
    (h' : Compiles platform given request' options' run') :
    request = request' ∧ options = options' ∧ run = run' := by
  obtain rfl := h.asks.unique h'.asks
  obtain rfl := Except.ok.inj (h.chosen.symm.trans h'.chosen)
  exact ⟨rfl, rfl, Except.ok.inj (h.compiled.symm.trans h'.compiled)⟩

/-- What stops a run, other than a source that does not compile: there are no such options, the
source cannot be read, the code has no path, or there cannot be a file at the path. -/
inductive StoppedBy (platform : Platform) (given : Surroundings) : Failure → Prop
  | options {request : Request} {failure : Failure} (hasks : Asks given request)
      (hoptions : request.options given.environment = .error failure) :
      StoppedBy platform given failure
  | source {request : Request} {options : Options} {failure : Failure}
      (hasks : Asks given request) (hoptions : request.options given.environment = .ok options)
      (hsource : platform.compileFile options given.files (Path.ofText request.source).text =
        .error failure) : StoppedBy platform given failure
  | path {request : Request} {options : Options} {run : Run} {failure : Failure}
      (hcompiles : Compiles platform given request options run)
      (hsucceeded : run.result.succeeded = true) (hwants : request.WantsFile)
      (hpath : request.target options = .error failure) : StoppedBy platform given failure
  | file {request : Request} {options : Options} {run : Run} {path : Path} {fault : FileFault}
      (hcompiles : Compiles platform given request options run)
      (hsucceeded : run.result.succeeded = true) (hwants : request.WantsFile)
      (hpath : request.target options = .ok path) (hfile : given.files.target path = .error fault) :
      StoppedBy platform given (.file fault path.text)

/-- A run up to the place of its code, without what it shows. -/
def attempt (platform : Platform) (given : Surroundings) (request : Request) :
    Except Failure Unit := do
  let options ← request.options given.environment
  let run ← platform.compileFile options given.files (Path.ofText request.source).text
  if run.result.succeeded && !request.showsOutline && !request.toOutput then
    let path ← request.target options
    let _ ← (given.files.target path).mapError (.file · path.text)

theorem StoppedBy.exists_attempt {failure : Failure} (h : StoppedBy platform given failure) :
    ∃ request, Asks given request ∧ attempt platform given request = .error failure := by
  cases h with
  | options hasks hoptions =>
    exact ⟨_, hasks, by rw [attempt, hoptions]; rfl⟩
  | source hasks hoptions hsource =>
    exact ⟨_, hasks, by rw [attempt, hoptions]; simp [hsource, bind, Except.bind]⟩
  | path hcompiles hsucceeded hwants hpath =>
    refine ⟨_, hcompiles.asks, ?_⟩
    simp [attempt, hcompiles.chosen, hcompiles.compiled, hsucceeded, hwants.1, hwants.2, hpath,
      bind, Except.bind]
  | file hcompiles hsucceeded hwants hpath hfile =>
    refine ⟨_, hcompiles.asks, ?_⟩
    simp [attempt, hcompiles.chosen, hcompiles.compiled, hsucceeded, hwants.1, hwants.2, hpath,
      hfile, bind, Except.bind, Except.mapError]

/-- A run is stopped by one thing. -/
theorem StoppedBy.unique {failure other : Failure} (h : StoppedBy platform given failure)
    (hother : StoppedBy platform given other) : failure = other := by
  obtain ⟨request, hasks, hattempt⟩ := h.exists_attempt
  obtain ⟨request', hasks', hattempt'⟩ := hother.exists_attempt
  obtain rfl := hasks.unique hasks'
  exact Except.error.inj (hattempt.symm.trans hattempt')

/-- A run that finds a place for its code, or needs none, is not stopped. -/
theorem Compiles.attempt_eq_ok {request : Request} {options : Options} {run : Run}
    (h : Compiles platform given request options run)
    (hplace : run.result.succeeded = true → request.WantsFile → ∃ path place,
      request.target options = .ok path ∧ given.files.target path = .ok place) :
    attempt platform given request = .ok () := by
  have hcompiled : attempt platform given request =
      if run.result.succeeded && !request.showsOutline && !request.toOutput then do
        let path ← request.target options
        let _ ← (given.files.target path).mapError (.file · path.text)
      else .ok () := by
    rw [attempt, h.chosen]
    simp [h.compiled, bind, Except.bind, pure, Except.pure]
  rw [hcompiled]
  split
  · rename_i hdue
    simp only [Bool.and_eq_true, Bool.not_eq_true'] at hdue
    obtain ⟨path, place, hpath, hfile⟩ := hplace hdue.1.1 ⟨hdue.1.2, hdue.2⟩
    rw [hpath]
    simp [hfile, bind, Except.bind, Except.mapError, pure, Except.pure]
  · rfl

theorem StoppedBy.not_of_attempt {failure : Failure} (h : StoppedBy platform given failure)
    {request : Request} (hasks : Asks given request) :
    attempt platform given request ≠ .ok () := by
  obtain ⟨other, hother, hattempt⟩ := h.exists_attempt
  obtain rfl := hasks.unique hother
  rw [hattempt]
  nofun

theorem StoppedBy.isOrdinary {failure : Failure} (h : StoppedBy platform given failure) :
    failure.IsOrdinary := by
  cases h with
  | options _ hoptions =>
    rcases cases_of_bind_eq_error hoptions with hoptions | ⟨chosen, -, hoptions⟩
    · obtain ⟨name, -, rfl⟩ := exists_of_mapError_eq_error hoptions
      exact ⟨_, rfl, nofun⟩
    · cases hoptions
  | source _ _ hsource => exact Platform.isOrdinary_of_compileFile hsource
  | path _ _ _ hpath =>
    unfold Request.target at hpath
    split at hpath
    · cases hpath
    · obtain ⟨fault, -, rfl⟩ := exists_of_mapError_eq_error hpath
      exact ⟨_, rfl, nofun⟩
  | @file _ _ _ _ fault => cases fault <;> exact ⟨_, rfl, nofun⟩

/-- The ways in which a run ends. -/
inductive Conclusion (platform : Platform) (given : Surroundings) : Outcome → Prop
  | informed {console : Console} (hasks : ∀ request, ¬ Asks given request)
      (hfiles : console.files = given.files) : Conclusion platform given (console.ends .success)
  | stopped {failure : Failure} {console : Console} (hstopped : StoppedBy platform given failure)
      (hfiles : console.files = given.files) :
      Conclusion platform given (console.ends failure.status)
  | failed {request : Request} {options : Options} {run : Run} {console : Console}
      (hcompiles : Compiles platform given request options run)
      (hfails : run.result.succeeded = false) (hfiles : console.files = given.files)
      (herr : console.err = linesText (eventLines request.verbose options.level run.events) ++
        linesText (run.result.diagnostics.map fun found ↦ Text.plain found.message)) :
      Conclusion platform given (console.ends .buildError)
  | shown {request : Request} {options : Options} {run : Run} {console : Console}
      (hcompiles : Compiles platform given request options run)
      (hsucceeded : run.result.succeeded = true) (hwants : ¬ request.WantsFile)
      (hfiles : console.files = given.files) : Conclusion platform given (console.ends .success)
  | written {request : Request} {options : Options} {run : Run} {path : Path}
      {names : List String} {entry : FileEntry} {encoding : Text.Codec} {bytes : List UInt8}
      {console : Console} (hcompiles : Compiles platform given request options run)
      (hsucceeded : run.result.succeeded = true) (hwants : request.WantsFile)
      (hpath : request.target options = .ok path)
      (hfile : given.files.target path = .ok (names, entry))
      (hencoding : platform.codec? options.encoding = some encoding)
      (hbytes : encoding.encode (codeText run.result.code) = some bytes)
      (hfiles : console.files = given.files.set names (entry.write bytes)) :
      Conclusion platform given (console.ends .success)

/-- The chosen encoding, if there is such a one, has a form for ASCII text. -/
def WritesAscii (platform : Platform) (given : Surroundings) : Prop :=
  ∀ options encoding, Options.ofEnvironment given.environment = .ok options →
    platform.codec? options.encoding = some encoding → encoding.WritesAscii

theorem exists_of_options {request : Request} {environment : List (String × String)}
    {options : Options} (h : request.options environment = .ok options) :
    ∃ chosen, Options.ofEnvironment environment = .ok chosen ∧
      chosen.encoding = options.encoding := by
  obtain ⟨chosen, hchosen, h⟩ := exists_of_bind_eq_ok h
  cases h
  exact ⟨chosen, eq_ok_of_mapError hchosen, rfl⟩

theorem conclusion_deliver (hpasses : platform.passes.Faithful)
    (hascii : WritesAscii platform given) {request : Request} {options : Options} {run : Run}
    (hcompiles : Compiles platform given request options run)
    (hsucceeded : run.result.succeeded = true) (hwants : request.WantsFile) {console : Console}
    (hfiles : console.files = given.files) :
    Conclusion platform given (deliver platform .free request options run.result console) := by
  obtain ⟨code, hverdict⟩ : ∃ code, run.result.verdict = .compiled code := by
    rw [Compilation.succeeded] at hsucceeded
    split at hsucceeded
    · cases hsucceeded
    · exact ⟨_, by assumption⟩
  have hcode : run.result.code = code := by rw [Compilation.code, hverdict]
  obtain ⟨encoding, file, text, hencoding, hrun⟩ :=
    Platform.exists_of_compileFile hcompiles.compiled
  obtain ⟨chosen, hchosen, hsame⟩ := exists_of_options hcompiles.chosen
  obtain ⟨bytes, hbytes⟩ := hascii chosen encoding hchosen (hsame ▸ hencoding) _
    (isAscii_codeText hpasses hrun hverdict)
  unfold deliver
  cases hpath : request.target options with
  | error failure => exact .stopped (.path hcompiles hsucceeded hwants hpath) hfiles
  | ok path =>
    dsimp only
    cases hfile : given.files.target path with
    | error fault =>
      rw [hfiles, Platform.writeCode_of_no_target hverdict hfile]
      exact .stopped (.file hcompiles hsucceeded hwants hpath hfile) rfl
    | ok place =>
      obtain ⟨names, entry⟩ := place
      rw [hfiles, Platform.writeCode_of_target hverdict hfile hencoding hbytes]
      simp only [Console.tellLines_free]
      refine .written hcompiles hsucceeded hwants hpath hfile hencoding (hcode ▸ hbytes) ?_
      simp

theorem conclusion_present (hpasses : platform.passes.Faithful)
    (hascii : WritesAscii platform given) {request : Request} {options : Options} {run : Run}
    (hcompiles : Compiles platform given request options run) {console : Console}
    (hfiles : console.files = given.files) (herr : console.err = "") :
    Conclusion platform given (present platform .free request options run console) := by
  unfold present settle
  simp only [Console.tellLines_free, Console.tell_free]
  cases hsucceeded : run.result.succeeded with
  | false =>
    refine .failed hcompiles hsucceeded (by simpa using hfiles) ?_
    rw [Console.err_printLines_err, Console.err_printLines_out, Console.err_log, herr,
      List.map_map]
    simp [Function.comp_def]
  | true =>
    by_cases houtline : request.showsOutline = true
    · have hwants : ¬ request.WantsFile := fun ⟨h, _⟩ ↦ by simp [houtline] at h
      simp only [houtline]
      exact .shown hcompiles hsucceeded hwants (by simpa using hfiles)
    · by_cases hout : request.toOutput = true
      · have hwants : ¬ request.WantsFile := fun ⟨_, h⟩ ↦ by simp [hout] at h
        simp only [houtline, hout]
        exact .shown hcompiles hsucceeded hwants (by simpa using hfiles)
      · simp only [houtline, hout]
        have hwants : request.WantsFile := ⟨by simpa using houtline, by simpa using hout⟩
        exact conclusion_deliver hpasses hascii hcompiles hsucceeded hwants (by simpa using hfiles)

theorem conclusion_serve (hpasses : platform.passes.Faithful)
    (hascii : WritesAscii platform given) {request : Request} (hasks : Asks given request) :
    Conclusion platform given (serve platform .free request given.environment given.files) := by
  unfold serve
  dsimp only
  cases hoptions : request.options given.environment with
  | error failure => exact .stopped (.options hasks hoptions) rfl
  | ok options =>
    dsimp only
    cases hcompiled :
      platform.compileFile options given.files (Path.ofText request.source).text with
    | error failure =>
      rw [Console.tellLines_free]
      exact .stopped (.source hasks hoptions hcompiled) (by simp [Console.start])
    | ok run =>
      rw [Console.tellLines_free]
      refine conclusion_present hpasses hascii ⟨hasks, hoptions, hcompiled⟩ ?_ ?_
      · rw [Console.files_printLines]
        rfl
      · exact Console.err_printLines_out ..

/-- A run that is let through, on streams that take every text, comes to one of its ends. -/
theorem conclusion_runWith (hpasses : platform.passes.Faithful)
    (hascii : WritesAscii platform given) {outcome : Outcome}
    (h : runWith platform .free given = .ok outcome) : Conclusion platform given outcome := by
  obtain ⟨words, hwords, h⟩ := exists_of_bind_eq_ok h
  split at h
  · rename_i line hline
    cases h
    refine .informed ?_ (Console.files_print ..)
    rintro request ⟨words', hwords', hnone, -⟩
    obtain rfl := Except.ok.inj (hwords.symm.trans hwords')
    exact absurd (hline.symm.trans hnone) nofun
  · rename_i hnone
    obtain ⟨request, hrequest, h⟩ := exists_of_bind_eq_ok h
    cases h
    exact conclusion_serve hpasses hascii ⟨words, hwords, hnone, hrequest⟩

/-! ### Effects -/

/-- What a run does to its surroundings. -/
structure Effects (platform : Platform) (given : Surroundings) (outcome : Outcome) : Prop where
  /-- The status of a source that does not compile. -/
  buildError_iff : outcome.status.code = 1 ↔ ∃ request options run,
    Compiles platform given request options run ∧ run.result.succeeded = false
  /-- Behind the events, the error stream has the messages in order, as plain text. -/
  reported : ∀ request options run, Compiles platform given request options run →
    run.result.succeeded = false →
      outcome.console.err = linesText (eventLines request.verbose options.level run.events) ++
        linesText (run.result.diagnostics.map fun found ↦ Text.plain found.message)
  /-- Messages without an escape character are shown as they are. -/
  verbatim : ∀ request options run, Compiles platform given request options run →
    run.result.succeeded = false →
      (∀ found ∈ run.result.diagnostics, '\x1b' ∉ found.message.toList) →
        outcome.console.err = linesText (eventLines request.verbose options.level run.events) ++
          linesText (run.result.diagnostics.map Diagnostic.message)
  /-- The status of a file that is missing or forbidden. -/
  invalidArguments_iff : outcome.status.code = 2 ↔
    ∃ failure, StoppedBy platform given failure ∧ failure.IsMissingOrForbidden
  /-- The status of whatever else stops a run. -/
  internalError_iff : outcome.status.code = 3 ↔
    ∃ failure, StoppedBy platform given failure ∧ ¬ failure.IsMissingOrForbidden
  /-- A run that does not succeed changes no file. -/
  unchanged : outcome.status.code ≠ 0 → outcome.console.files = given.files
  /-- A run that is not asked for code in a file changes no file. -/
  untouched : (∀ request, Asks given request → ¬ request.WantsFile) →
    outcome.console.files = given.files
  /-- Otherwise the code is in the file that it goes to, and no other file has changed. -/
  written : outcome.status.code = 0 → ∀ request, Asks given request → request.WantsFile →
    ∃ options run path names entry encoding bytes,
      Compiles platform given request options run ∧ run.result.succeeded = true ∧
      request.target options = .ok path ∧ given.files.target path = .ok (names, entry) ∧
      platform.codec? options.encoding = some encoding ∧
      encoding.encode (codeText run.result.code) = some bytes ∧
      given.files.ChangedAt names (entry.write bytes) outcome.console.files

section Conclusions

variable {outcome : Outcome}

/-- A run that is stopped ends with the status of what has stopped it. -/
theorem Conclusion.status_of_stoppedBy (h : Conclusion platform given outcome) {failure : Failure}
    (hstopped : StoppedBy platform given failure) : outcome.status = failure.status := by
  cases h with
  | informed hasks =>
    obtain ⟨request, hrequest, -⟩ := hstopped.exists_attempt
    exact absurd hrequest (hasks request)
  | stopped hother =>
    obtain rfl := hother.unique hstopped
    rfl
  | failed hcompiles hfails =>
    refine absurd (hcompiles.attempt_eq_ok fun hsucceeded ↦ ?_)
      (hstopped.not_of_attempt hcompiles.asks)
    exact absurd (hsucceeded.symm.trans hfails) nofun
  | shown hcompiles _ hwants =>
    exact absurd (hcompiles.attempt_eq_ok fun _ h ↦ absurd h hwants)
      (hstopped.not_of_attempt hcompiles.asks)
  | written hcompiles _ _ hpath hfile =>
    exact absurd (hcompiles.attempt_eq_ok fun _ _ ↦ ⟨_, _, hpath, hfile⟩)
      (hstopped.not_of_attempt hcompiles.asks)

/-- A run whose source does not compile ends with the messages. -/
theorem Conclusion.eq_of_fails (h : Conclusion platform given outcome) {request : Request}
    {options : Options} {run : Run} (hcompiles : Compiles platform given request options run)
    (hfails : run.result.succeeded = false) :
    outcome.status = .buildError ∧
      outcome.console.err = linesText (eventLines request.verbose options.level run.events) ++
        linesText (run.result.diagnostics.map fun found ↦ Text.plain found.message) := by
  cases h with
  | informed hasks => exact absurd hcompiles.asks (hasks request)
  | stopped hstopped =>
    refine absurd (hcompiles.attempt_eq_ok fun hsucceeded ↦ ?_)
      (hstopped.not_of_attempt hcompiles.asks)
    exact absurd (hsucceeded.symm.trans hfails) nofun
  | failed hother _ _ herr =>
    obtain ⟨rfl, rfl, rfl⟩ := hother.unique hcompiles
    exact ⟨rfl, herr⟩
  | shown hother hsucceeded | written hother hsucceeded =>
    obtain ⟨-, -, rfl⟩ := hother.unique hcompiles
    exact absurd (hsucceeded.symm.trans hfails) nofun

/-- What is known of a run when it ends. -/
theorem Conclusion.effects (h : Conclusion platform given outcome) :
    Effects platform given outcome where
  buildError_iff := by
    refine ⟨fun hcode ↦ ?_, fun ⟨_, _, _, hcompiles, hfails⟩ ↦ ?_⟩
    · cases h with
      | failed hcompiles hfails => exact ⟨_, _, _, hcompiles, hfails⟩
      | stopped hstopped =>
        exact absurd (ExitStatus.eq_of_code_eq hcode) hstopped.isOrdinary.status_ne_buildError
      | informed | shown | written => cases hcode
    · rw [(h.eq_of_fails hcompiles hfails).1]
      rfl
  reported _ _ _ hcompiles hfails := (h.eq_of_fails hcompiles hfails).2
  verbatim request options run hcompiles hfails hfree := by
    rw [(h.eq_of_fails hcompiles hfails).2]
    congr 2
    exact List.map_congr_left fun found hfound ↦ Text.plain_eq_self (hfree found hfound)
  invalidArguments_iff := by
    refine ⟨fun hcode ↦ ?_, fun ⟨failure, hstopped, hmissing⟩ ↦ ?_⟩
    · cases h with
      | stopped hstopped => exact ⟨_, hstopped, hstopped.isOrdinary.code_status_eq_two_iff.mp hcode⟩
      | informed | failed | shown | written => cases hcode
    · rw [h.status_of_stoppedBy hstopped]
      exact hstopped.isOrdinary.code_status_eq_two_iff.mpr hmissing
  internalError_iff := by
    refine ⟨fun hcode ↦ ?_, fun ⟨failure, hstopped, hother⟩ ↦ ?_⟩
    · cases h with
      | stopped hstopped =>
        exact ⟨_, hstopped, hstopped.isOrdinary.code_status_eq_three_iff.mp hcode⟩
      | informed | failed | shown | written => cases hcode
    · rw [h.status_of_stoppedBy hstopped]
      exact hstopped.isOrdinary.code_status_eq_three_iff.mpr hother
  unchanged hcode := by
    cases h with
    | stopped _ hfiles | failed _ _ hfiles => exact hfiles
    | informed | shown | written => exact absurd rfl hcode
  untouched hasks := by
    cases h with
    | informed _ hfiles | stopped _ hfiles | failed _ _ hfiles | shown _ _ _ hfiles => exact hfiles
    | written hcompiles _ hwants => exact absurd hwants (hasks _ hcompiles.asks)
  written hcode request hasks hwants := by
    cases h with
    | informed hno => exact absurd hasks (hno request)
    | stopped _ => exact absurd (ExitStatus.eq_of_code_eq hcode) (Failure.status_ne_success _)
    | failed => cases hcode
    | shown hcompiles _ hno =>
      obtain rfl := hcompiles.asks.unique hasks
      exact absurd hwants hno
    | written hcompiles hsucceeded _ hpath hfile hencoding hbytes hfiles =>
      obtain rfl := hcompiles.asks.unique hasks
      refine ⟨_, _, _, _, _, _, _, hcompiles, hsucceeded, hpath, hfile, hencoding, hbytes, ?_⟩
      have hnames := FileTree.ne_nil_of_target hfile
      exact hfiles ▸ FileTree.changedAt_set hnames given.files _

end Conclusions

/-- What a run on streams that take every text does to its surroundings, whatever the words, the
environment and the files are. -/
theorem effects_of_free (hpasses : platform.passes.Faithful) (hascii : WritesAscii platform given)
    {outcome : Outcome} (h : runWith platform .free given = .ok outcome) :
    Effects platform given outcome :=
  (conclusion_runWith hpasses hascii h).effects

end Compiler

end Command

end StackCompiler
