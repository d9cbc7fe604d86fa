import StackCompiler.Proofs.Compilation.Coherence
import StackCompiler.Proofs.Grammar.Blocks

/-!
# What a compilation leaves unread

A compilation that succeeds has read the tokens up to the first `end` that leaves no block open, and
its code is that of the program up to there. Reading stops there, and nothing asks whether the text
is at its end: the tokens behind are dropped without a diagnostic (`compileWith_reads`), so a text
that is no program can be compiled (`not_derives_of_compiled`).
-/

set_option autoImplicit false
set_option relaxedAutoImplicit false

namespace StackCompiler

open Grammar

/-- The program that was read and the tokens that were not. The tokens read derive the program, the
code is made of it alone, and no shorter beginning of the tokens closes a block that it opens. -/
structure Compilation.Reads (result : Compilation) (file text : String) (read unread : List Token)
    (program : Program) : Prop where
  pending_eq : (scan file text).stream.pending = read ++ unread
  derives : DerivesProgram read program
  program_eq : result.program = some program
  code_eq : result.code = program.code
  closesBlock : ClosesBlock read
  first (front : List Token) : front <+: read ++ unread → ClosesBlock front → read <+: front

/-- What was read is a program, and no other beginning of the tokens is one. -/
theorem Compilation.Reads.derives_iff {result : Compilation} {file text : String}
    {read unread : List Token} {program : Program} (h : result.Reads file text read unread program)
    {front : List Token} (hfront : front <+: read ++ unread) :
    (∃ other, DerivesProgram front other) ↔ front = read := by
  constructor
  · rintro ⟨other, hother⟩
    exact hother.eq_of_prefix hfront (List.prefix_append read unread) h.derives
  · rintro rfl
    exact ⟨program, h.derives⟩

/-- A compilation comes to an end, and if it succeeds it has read the tokens of a program in front
of the text. All the tokens of the text are a program if and only if none is left unread. -/
theorem compileWith_reads {passes : Passes} (hpasses : passes.Faithful) (keepsOutline : Bool)
    (file text : String) :
    ∃ run, compileWith passes keepsOutline file text = .ok run ∧
      (run.result.succeeded = true → ∃ read unread program,
        run.result.Reads file text read unread program ∧
          ((∃ other, DerivesProgram (scan file text).stream.pending other) ↔ unread = [])) := by
  obtain ⟨run, hrun, hending⟩ := exists_ending hpasses keepsOutline file text
  refine ⟨run, hrun, fun hsucceeded ↦ ?_⟩
  generalize run.result = result at hending hsucceeded ⊢
  cases hending with
  | lexical | unread | unsketched | unchecked | violation | ungenerated => cases hsucceeded
  | @compiled program shown scope hfaults hread hsketches hcheck =>
    obtain ⟨read, htokens, hderives, -⟩ := TokenStream.derives_of_readProgramWithin
      (Prod.ext (hpasses.whole_read_eq_ok hread) rfl)
    obtain ⟨unread, hpending⟩ :=
      hderives.exists_pending_eq (htokens ▸ List.prefix_append read _)
    have hreads : Compilation.Reads ⟨⟨file, (scan file text).tokens, some program, shown,
        some scope⟩, .compiled program.code⟩ file text read unread program :=
      { pending_eq := hpending
        derives := hderives
        program_eq := rfl
        code_eq := rfl
        closesBlock := hderives.closesBlock.1
        first := fun _ ↦ hderives.prefix_of_closesBlock }
    refine ⟨read, unread, program, hreads, ?_⟩
    rw [hpending, hreads.derives_iff List.prefix_rfl, List.append_right_eq_self]

/-- A program with a name behind its end. -/
def trailingName : String :=
  "program p; begin end x"

theorem codeWith_trailingName : codeWith .standard "p.src" trailingName = .ok (.ok [.halt]) := by
  decide +kernel

/-- A program ends with `end`, not with a name. -/
theorem not_derives_trailingName (program : Program) :
    ¬ DerivesProgram (scan "p.src" trailingName).stream.pending program := by
  intro h
  obtain ⟨others, closing, hpending, hclosing⟩ := h.exists_concat
  have hlast : ((scan "p.src" trailingName).stream.pending.getLast?.map Token.kind) =
      some .ident := by
    decide +kernel
  rw [hpending, List.getLast?_concat, Option.map_some, hclosing] at hlast
  cases hlast

/-- The code is made of the program, and the name is left unread. -/
theorem compileWith_reads_trailingName :
    Passes.standard.Faithful ∧ ∃ run, compile false "p.src" trailingName = .ok run ∧
      run.result.succeeded = true ∧ run.result.code = [.halt] ∧
      ∃ read unread program, run.result.Reads "p.src" trailingName read unread program ∧
        unread ≠ [] := by
  have hpasses := Passes.within_faithful nestingLimit nestingLimit
  obtain ⟨run, hrun, hreads⟩ := compileWith_reads hpasses false "p.src" trailingName
  obtain ⟨hsucceeded, hresult⟩ :=
    Compilation.outcome_eq_ok_iff.mp (outcome_of_codeWith codeWith_trailingName hrun)
  obtain ⟨read, unread, program, hread, hwhole⟩ := hreads hsucceeded
  refine ⟨hpasses, run, hrun, hsucceeded, hresult.symm, read, unread, program, hread,
    fun hnone ↦ ?_⟩
  obtain ⟨other, hother⟩ := hwhole.mpr hnone
  exact not_derives_trailingName other hother

/-- A text is compiled although its tokens are no program. -/
theorem not_derives_of_compiled :
    ∃ run, compile false "p.src" trailingName = .ok run ∧ run.result.succeeded = true ∧
      ∀ program, ¬ DerivesProgram (scan "p.src" trailingName).stream.pending program := by
  obtain ⟨run, hrun, -⟩ := exists_ending (Passes.within_faithful nestingLimit nestingLimit) false
    "p.src" trailingName
  obtain ⟨hsucceeded, -⟩ :=
    Compilation.outcome_eq_ok_iff.mp (outcome_of_codeWith codeWith_trailingName hrun)
  exact ⟨run, hrun, hsucceeded, not_derives_trailingName⟩

end StackCompiler
