import StackCompiler.Proofs.Compilation.Ending

/-!
# What a compilation leaves behind

`compileWith_coherent` is the main statement: whatever the text is, and wherever passes give up on a
program that nests too deeply, a compilation comes to an end, and the parts of its result agree with
one another (`Compilation.Coherent`). What `codeWith` gives is the code of this result, or its first
diagnostic; and where no pass gives up, reading, check and code one after another give the same
(`Passes.separately`).

The parts that depend on the verdict alone agree for every result. The others are read off the
endings.
-/

set_option autoImplicit false
set_option relaxedAutoImplicit false

namespace StackCompiler

/-! ### Verdicts -/

namespace Compilation

@[simp] theorem family?_failed (artifacts : Artifacts) (first : Diagnostic)
    (others : List Diagnostic) :
    family? ⟨artifacts, .failed first others⟩ = some first.family :=
  rfl

@[simp] theorem family?_compiled (artifacts : Artifacts) (code : List Instr) :
    family? ⟨artifacts, .compiled code⟩ = none :=
  rfl

theorem succeeded_iff_diagnostics (result : Compilation) :
    result.succeeded = true ↔ result.diagnostics = [] := by
  rcases result with ⟨artifacts, _ | _⟩ <;> simp [succeeded, diagnostics]

theorem succeeded_iff_family (result : Compilation) :
    result.succeeded = true ↔ result.family? = none := by
  rcases result with ⟨artifacts, _ | _⟩ <;> simp [succeeded, family?, first?, diagnostics]

theorem succeeded_iff_message (result : Compilation) :
    result.succeeded = true ↔ result.message? = none := by
  rcases result with ⟨artifacts, _ | _⟩ <;> simp [succeeded, message?, first?, diagnostics]

/-- A failure is described by its first diagnostic. -/
theorem eq_of_diagnostics {result : Compilation} {first : Diagnostic} {others : List Diagnostic}
    (h : result.diagnostics = first :: others) :
    result.code = [] ∧ result.line? = first.line ∧ result.message? = some first.message ∧
      result.family? = some first.family := by
  rcases result with ⟨artifacts, _ | _⟩
  · cases h
    exact ⟨rfl, rfl, rfl, rfl⟩
  · cases h

theorem outcome_eq_ok_iff {result : Compilation} {code : List Instr} :
    result.outcome = .ok code ↔ result.succeeded = true ∧ code = result.code := by
  rcases result with ⟨artifacts, _ | _⟩ <;> simp [outcome, succeeded, Compilation.code, eq_comm]

theorem outcome_eq_error_iff {result : Compilation} {found : Diagnostic} :
    result.outcome = .error found ↔ result.first? = some found := by
  rcases result with ⟨artifacts, _ | _⟩ <;> simp [outcome, first?, diagnostics]

end Compilation

theorem outcome_of_codeWith {passes : Passes} {file text : String}
    {outcome : Except Diagnostic (List Instr)} {run : Run}
    (hcode : codeWith passes file text = .ok outcome)
    (hrun : compileWith passes false file text = .ok run) : run.result.outcome = outcome := by
  rw [codeWith, hrun] at hcode
  exact Except.ok.inj hcode

theorem mem_diagnostics_of_codeWith {passes : Passes} {file text : String} {found : Diagnostic}
    {run : Run} (hcode : codeWith passes file text = .ok (.error found))
    (hrun : compileWith passes false file text = .ok run) : found ∈ run.result.diagnostics :=
  List.mem_of_mem_head? (Compilation.outcome_eq_error_iff.mp (outcome_of_codeWith hcode hrun))

/-! ### Coherence -/

/-- The parts of the result of a compilation agree with one another, and with what the passes do
for the text. -/
structure Compilation.Coherent (passes : Passes) (keepsOutline : Bool) (file text : String)
    (result : Compilation) : Prop where
  succeeded_iff_diagnostics : result.succeeded = true ↔ result.diagnostics = []
  succeeded_iff_family : result.succeeded = true ↔ result.family? = none
  succeeded_iff_message : result.succeeded = true ↔ result.message? = none
  succeeded_iff_code : result.succeeded = true ↔ result.code ≠ []
  /-- The code is what is generated for the program, and it ends by halting. -/
  generated : result.succeeded = true → ∃ program labels front, result.program = some program ∧
    program.node.code = .ok (result.code, labels) ∧ result.code = front ++ [.halt]
  /-- A failure is described by its first diagnostic. -/
  described : ∀ first others, result.diagnostics = first :: others → result.code = [] ∧
    result.line? = first.line ∧ result.message? = some first.message ∧
      result.family? = some first.family
  lexical_iff : result.family? = some .lexical ↔ (scan file text).faults ≠ []
  /-- Lexical faults are all reported, and nothing is made of the tokens. -/
  lexical : result.family? = some .lexical → result.diagnostics = (scan file text).faults ∧
    result.program = none ∧ result.scope = none ∧ result.outline = none
  /-- Any other failure has one diagnostic. -/
  alone : result.succeeded = false → result.family? ≠ some .lexical →
    ∃ found, result.diagnostics = [found]
  program_iff : result.program = none ↔ (scan file text).faults ≠ [] ∨
    ∃ found, passes.read (scan file text).stream (sourceLines text) = .error found
  context : result.family? = some .context → result.program ≠ none ∧ result.scope = none
  /-- The outline is there if it was asked for, there is a program, and its outline was made. -/
  outline_iff : ∀ shown, result.outline = some shown ↔ keepsOutline = true ∧
    ∃ program outline, result.program = some program ∧
      passes.outline program.node = .ok outline ∧ shown = outline.text
  tokens : ∃ front final, result.tokens = front ++ [final] ∧ final.kind = .endOfFile

section Endings

variable {passes : Passes} {keepsOutline : Bool} {file text : String} {result : Compilation}

theorem Ending.code_of_succeeded (hpasses : passes.Faithful)
    (h : Ending passes keepsOutline file text result) (hsucceeded : result.succeeded = true) :
    ∃ program labels front, result.program = some program ∧
      program.node.code = .ok (result.code, labels) ∧ result.code = front ++ [.halt] := by
  cases h with
  | compiled _ hread _ hcheck =>
    obtain ⟨-, -, htyped⟩ := Program.check_eq_ok.mp hcheck
    exact ⟨_, _, _, rfl, hpasses.code_of_read hread htyped, rfl⟩
  | lexical | unread | unsketched | unchecked | violation | ungenerated => cases hsucceeded

theorem Ending.succeeded_iff_code (h : Ending passes keepsOutline file text result) :
    result.succeeded = true ↔ result.code ≠ [] := by
  cases h with
  | compiled => simp [Compilation.succeeded, Compilation.code, Program.code]
  | lexical | unread | unsketched | unchecked | violation | ungenerated =>
    simp [Compilation.succeeded, Compilation.code]

theorem Ending.lexical_iff (h : Ending passes keepsOutline file text result) :
    result.family? = some .lexical ↔ (scan file text).faults ≠ [] := by
  cases h with
  | @lexical first others hfaults =>
    have hmem : first ∈ (scan file text).faults := by simp [hfaults]
    simp [hfaults, family_of_mem_faults hmem]
  | unread hfaults _ hfamily => simp [hfaults, hfamily]
  | violation hfaults _ _ _ hfamily => simp [hfaults, hfamily]
  | unsketched hfaults | unchecked hfaults | ungenerated hfaults | compiled hfaults =>
    simp [hfaults]

/-- What a text with lexical faults leaves behind. -/
theorem Ending.eq_of_lexical (h : Ending passes keepsOutline file text result)
    (hlexical : result.family? = some .lexical) :
    result.diagnostics = (scan file text).faults ∧
      result.program = none ∧ result.scope = none ∧ result.outline = none := by
  have hsome := h.lexical_iff.mp hlexical
  cases h with
  | lexical hfaults => exact ⟨hfaults.symm, rfl, rfl, rfl⟩
  | unread hfaults | unsketched hfaults | unchecked hfaults | violation hfaults
  | ungenerated hfaults | compiled hfaults => exact absurd hfaults hsome

theorem Ending.eq_of_context (h : Ending passes keepsOutline file text result)
    (hcontext : result.family? = some .context) : result.program ≠ none ∧ result.scope = none := by
  cases h with
  | @lexical first others hfaults =>
    have hmem : first ∈ (scan file text).faults := by simp [hfaults]
    simp [family_of_mem_faults hmem] at hcontext
  | unread _ _ hfamily => simp [hfamily] at hcontext
  | violation => exact ⟨nofun, rfl⟩
  | unsketched | unchecked | ungenerated | compiled => cases hcontext

theorem Ending.eq_singleton (h : Ending passes keepsOutline file text result)
    (hfails : result.succeeded = false) (hfaults : (scan file text).faults = []) :
    ∃ found, result.diagnostics = [found] := by
  cases h with
  | lexical hsome => cases hfaults.symm.trans hsome
  | compiled => cases hfails
  | unread | unsketched | unchecked | violation | ungenerated => exact ⟨_, rfl⟩

theorem Ending.program_iff (h : Ending passes keepsOutline file text result) :
    result.program = none ↔ (scan file text).faults ≠ [] ∨
      ∃ found, passes.read (scan file text).stream (sourceLines text) = .error found := by
  cases h with
  | lexical hfaults => simp [hfaults]
  | unread hfaults hread | unsketched hfaults hread | unchecked hfaults hread
  | violation hfaults hread | ungenerated hfaults hread | compiled hfaults hread =>
    simp [hfaults, hread]

theorem Passes.Sketches.iff {program : Program} {kept : Option String}
    (h : passes.Sketches keepsOutline program kept) (shown : String) :
    kept = some shown ↔ keepsOutline = true ∧
      ∃ outline, passes.outline program.node = .ok outline ∧ shown = outline.text := by
  cases keepsOutline with
  | false =>
    simp only [Sketches, Bool.false_eq_true, if_false] at h
    simp [h]
  | true =>
    simp only [Sketches, if_true] at h
    obtain ⟨outline, houtline, rfl⟩ := h
    simp [houtline, eq_comm]

theorem Ending.outline_iff (h : Ending passes keepsOutline file text result) (shown : String) :
    result.outline = some shown ↔ keepsOutline = true ∧
      ∃ program outline, result.program = some program ∧
        passes.outline program.node = .ok outline ∧ shown = outline.text := by
  cases h with
  | lexical | unread => simp
  | unsketched _ _ _ hstruck => simp [hstruck]
  | unchecked _ _ hsketches | violation _ _ hsketches | ungenerated _ _ hsketches
  | compiled _ _ hsketches => simpa using hsketches.iff shown

theorem Ending.tokens_eq (h : Ending passes keepsOutline file text result) :
    result.tokens = (scan file text).tokens := by
  cases h <;> rfl

/-- The result of a compilation is coherent, however it ends. -/
theorem Ending.coherent (hpasses : passes.Faithful)
    (h : Ending passes keepsOutline file text result) :
    result.Coherent passes keepsOutline file text where
  succeeded_iff_diagnostics := result.succeeded_iff_diagnostics
  succeeded_iff_family := result.succeeded_iff_family
  succeeded_iff_message := result.succeeded_iff_message
  succeeded_iff_code := h.succeeded_iff_code
  generated := h.code_of_succeeded hpasses
  described _ _ := Compilation.eq_of_diagnostics
  lexical_iff := h.lexical_iff
  lexical := h.eq_of_lexical
  alone hfails hfamily := h.eq_singleton hfails (not_not.mp fun hsome ↦
    hfamily (h.lexical_iff.mpr hsome))
  program_iff := h.program_iff
  context := h.eq_of_context
  outline_iff := h.outline_iff
  tokens := ⟨_, _, h.tokens_eq, (scan file text).stream.final_kind⟩

end Endings

/-! ### The passes one after another -/

/-- What is wrong is that a program nests too deeply. -/
def StageFault.IsNesting : StageFault → Prop
  | diagnostic found => found.cause = .nestedTooDeeply
  | tooDeep => True
  | breakdown _ => False

namespace Passes

/-- Reads the program of a source text, checks it, and gives its code. -/
def separately (passes : Passes) (file text : String) : Except StageFault (List Instr) := do
  let program ← (readSourceWith passes file text).mapError .diagnostic
  let _ ← (passes.check program.node).1.mapError (.ofCheckFault (sourceLines text))
  let (code, _) ← (passes.code program.node).mapError .ofBreakdown
  return code

variable {passes : Passes} {file text : String}

theorem separately_of_lexical {first : Diagnostic} {others : List Diagnostic}
    (h : (scan file text).faults = first :: others) :
    passes.separately file text = .error (.diagnostic first) := by
  simp only [separately, readSourceWith, h]
  rfl

theorem separately_of_unread {found : Diagnostic} (hfaults : (scan file text).faults = [])
    (hread : passes.read (scan file text).stream (sourceLines text) = .error found) :
    passes.separately file text = .error (.diagnostic found) := by
  simp only [separately, readSourceWith, hfaults, hread]
  rfl

theorem separately_of_read {program : Program} (hfaults : (scan file text).faults = [])
    (hread : passes.read (scan file text).stream (sourceLines text) = .ok program) :
    passes.separately file text = (do
      let _ ← (passes.check program.node).1.mapError (.ofCheckFault (sourceLines text))
      let (code, _) ← (passes.code program.node).mapError .ofBreakdown
      return code) := by
  simp only [separately, readSourceWith, hfaults, hread]
  rfl

/-- Faithful passes one after another stop at nesting, or give what passes without limits give. -/
theorem Faithful.separately_eq_or (h : passes.Faithful) (file text : String) :
    (∃ fault, passes.separately file text = .error fault ∧ fault.IsNesting) ∨
      passes.separately file text = whole.separately file text := by
  rcases hfaults : (scan file text).faults with _ | ⟨first, others⟩
  · rcases h.read (scan file text).stream (sourceLines text) with ⟨place, hstruck⟩ | hsame
    · exact .inl ⟨_, separately_of_unread hfaults hstruck, rfl⟩
    · rcases hread : passes.read (scan file text).stream (sourceLines text) with found | program
      · rw [separately_of_unread hfaults hread,
          separately_of_unread hfaults (hsame.symm.trans hread)]
        exact .inr rfl
      · rw [separately_of_read hfaults hread, separately_of_read hfaults (hsame.symm.trans hread)]
        rcases h.check program with hstruck | hsame
        · exact .inl ⟨.tooDeep, by rw [hstruck]; rfl, trivial⟩
        · rw [hsame]
          rcases (whole.check program.node).1 with fault | type
          · exact .inr rfl
          · rcases h.code program with hstruck | hsame
            · exact .inl ⟨.tooDeep, by rw [hstruck]; rfl, trivial⟩
            · exact .inr (by rw [hsame])
  · rw [separately_of_lexical hfaults, separately_of_lexical hfaults]
    exact .inr rfl

end Passes

/-- A compilation reports nesting, or ends as the passes without limits do. -/
theorem Ending.outcome_eq_or {passes : Passes} (hpasses : passes.Faithful) {keepsOutline : Bool}
    {file text : String} {result : Compilation}
    (h : Ending passes keepsOutline file text result) :
    (∃ found, result.outcome = .error found ∧ found.cause = .nestedTooDeeply) ∨
      Passes.whole.separately file text = result.outcome.mapError .diagnostic := by
  cases h with
  | lexical hfaults => exact .inr (Passes.separately_of_lexical hfaults)
  | unread hfaults hread =>
    rcases hpasses.read (scan file text).stream (sourceLines text) with ⟨place, hstruck⟩ | hsame
    · rw [hread] at hstruck
      cases hstruck
      exact .inl ⟨_, rfl, rfl⟩
    · exact .inr (Passes.separately_of_unread hfaults (hsame.symm.trans hread))
  | unsketched | unchecked | ungenerated => exact .inl ⟨_, rfl, rfl⟩
  | violation hfaults hread _ hcheck =>
    rw [Passes.separately_of_read hfaults (hpasses.whole_read_eq_ok hread)]
    exact .inr (by simp only [Passes.whole, hcheck]; rfl)
  | compiled hfaults hread _ hcheck =>
    obtain ⟨-, -, htyped⟩ := Program.check_eq_ok.mp hcheck
    rw [Passes.separately_of_read hfaults (hpasses.whole_read_eq_ok hread)]
    exact .inr (by simp only [Passes.whole, hcheck, hpasses.code_of_read hread htyped]; rfl)

/-! ### Compilations -/

/-- Whatever the text is, and wherever passes give up on its nesting, a compilation ends with a
coherent result. Its code, or else its first diagnostic, is what `codeWith` gives, and what other
passes give one after another, unless nesting stops them or the compilation. -/
theorem compileWith_coherent {passes others : Passes} (hpasses : passes.Faithful)
    (hothers : others.Faithful) (keepsOutline : Bool) (file text : String) :
    ∃ run, compileWith passes keepsOutline file text = .ok run ∧
      run.result.Coherent passes keepsOutline file text ∧
      (keepsOutline = false →
        (∀ code, codeWith passes file text = .ok (.ok code) ↔
          run.result.succeeded = true ∧ code = run.result.code) ∧
        ∀ found, codeWith passes file text = .ok (.error found) ↔
          run.result.first? = some found) ∧
      ((∀ found ∈ run.result.diagnostics, found.cause ≠ .nestedTooDeeply) →
        (∀ fault, others.separately file text = .error fault → ¬ fault.IsNesting) →
          others.separately file text = run.result.outcome.mapError .diagnostic) := by
  obtain ⟨run, hrun, hending⟩ := exists_ending hpasses keepsOutline file text
  refine ⟨run, hrun, hending.coherent hpasses, ?_, fun hresult hseparate ↦ ?_⟩
  · rintro rfl
    have hcode : codeWith passes file text = .ok run.result.outcome := by
      rw [codeWith, hrun]
      rfl
    simp [hcode, Compilation.outcome_eq_ok_iff, Compilation.outcome_eq_error_iff]
  · rcases hothers.separately_eq_or file text with ⟨fault, hfault, hnesting⟩ | hsame
    · exact absurd hnesting (hseparate fault hfault)
    · rcases hending.outcome_eq_or hpasses with ⟨found, hfound, hnesting⟩ | houtcome
      · have hfirst := Compilation.outcome_eq_error_iff.mp hfound
        exact absurd hnesting (hresult found (List.mem_of_mem_head? hfirst))
      · exact hsame.trans houtcome

/-- A program of one assignment. -/
def oneAssignment : String :=
  "program p; var x : integer; begin x := 30; end"

theorem compileWith_coherent_oneAssignment :
    Passes.standard.Faithful ∧ Passes.whole.Faithful ∧
      ∃ run, compile false "p.src" oneAssignment = .ok run ∧
        run.result.Coherent .standard false "p.src" oneAssignment ∧
        codeWith .standard "p.src" oneAssignment = .ok (.ok run.result.code) ∧
        Passes.whole.separately "p.src" oneAssignment = run.result.outcome.mapError .diagnostic ∧
        run.result.code = [.push (some (.int 30)), .store "x", .halt] := by
  have hpasses := Passes.within_faithful nestingLimit nestingLimit
  have hwhole := Passes.whole_faithful
  have hcode : codeWith .standard "p.src" oneAssignment =
      .ok (.ok [.push (some (.int 30)), .store "x", .halt]) := by
    decide +kernel
  have hseparately : Passes.whole.separately "p.src" oneAssignment =
      .ok [.push (some (.int 30)), .store "x", .halt] := by
    decide +kernel
  obtain ⟨run, hrun, hcoherent, hplain, hsame⟩ :=
    compileWith_coherent hpasses hwhole false "p.src" oneAssignment
  obtain ⟨hsucceeded, hresult⟩ := ((hplain rfl).1 _).mp hcode
  have hdiagnostics := hcoherent.succeeded_iff_diagnostics.mp hsucceeded
  have houtcome := hsame (by simp [hdiagnostics]) (by simp [hseparately])
  exact ⟨hpasses, hwhole, run, hrun, hcoherent, hresult ▸ hcode, houtcome, hresult.symm⟩

end StackCompiler
