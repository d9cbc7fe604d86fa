import StackCompiler.Proofs.Command.Streams
import StackCompiler.Proofs.Scanning.Junction

/-!
# Listings of a text and of its lines

The token lister shows the scan of a text, or those of the lines of a text one after another
(`Lister.list_eq`, `Lister.listEach_eq`): on the output stream the tokens, on the error stream the
faults. As the findings of a text are those of its lines, both ways to list standard input show the
same tokens and faults but for the lines that they are in, and both end with the same status
(`Lister.runWith_lines`). A line with faults keeps none of the lines behind it from being listed.
-/

set_option autoImplicit false
set_option relaxedAutoImplicit false

namespace StackCompiler.Command

namespace Console

@[ext] theorem ext {first second : Console} (hout : first.out = second.out)
    (herr : first.err = second.err) (hfiles : first.files = second.files) : first = second := by
  cases first
  cases second
  cases hout
  cases herr
  cases hfiles
  rfl

theorem err_warn (console : Console) (line : String) :
    (console.warn line).err = console.err ++ linesText [Text.plain line] :=
  console.err_printLines_err [line]

theorem sayAll_eq (console : Console) (lines : List String) :
    console.sayAll lines =
      ⟨console.out ++ linesText (lines.map Text.plain), console.err, console.files⟩ :=
  ext (console.shown_printLines .out lines .out) (console.err_printLines_out lines)
    (console.files_printLines .out lines)

end Console

namespace Lister

/-! ### What is shown of a text -/

/-- The tokens of a text as they are shown. -/
def shown (file text : String) : String :=
  linesText ((scan file text).tokens.map fun token ↦ Text.plain token.listing)

/-- What is shown on the error stream for a text: a warning for each fault, and the report of all
of them. -/
def warned (file text : String) : String :=
  let scanned := scan file text
  let report := if scanned.faults.isEmpty then [] else [Diagnostic.report scanned.faults]
  linesText (eventLines false .warning (scanned.events file)) ++ linesText (report.map Text.plain)

/-- Whether a text is scanned without faults. -/
def clean (file text : String) : Bool :=
  (scan file text).faults.isEmpty

theorem list_eq (file text : String) (console : Console) :
    list file text console =
      (⟨console.out ++ shown file text, console.err ++ warned file text, console.files⟩,
        clean file text) := by
  have hlisted (lines listings : List String) : (console.log lines).sayAll listings =
      ⟨console.out ++ linesText (listings.map Text.plain), console.err ++ linesText lines,
        console.files⟩ := by
    rw [Console.sayAll_eq, Console.out_log, Console.err_log, Console.files_log]
  unfold list warned clean shown
  simp only [hlisted, List.map_map]
  cases hclean : (scan file text).faults.isEmpty
  · refine Prod.ext (Console.ext rfl ?_ rfl) rfl
    exact (Console.err_warn _ _).trans String.append_assoc
  · simp [linesText, Function.comp_def]

/-- Every text is listed, whatever was wrong with those in front of it. -/
theorem listEach_eq (file : String) (texts : List String) (console : Console) :
    listEach file texts console =
      (⟨console.out ++ String.join (texts.map (shown file)),
        console.err ++ String.join (texts.map (warned file)), console.files⟩,
        texts.all (clean file)) := by
  have hfold (sofar : Bool) :
      texts.foldl (fun state text ↦
        ((list file text state.1).1, (list file text state.1).2 && state.2)) (console, sofar) =
        (⟨console.out ++ String.join (texts.map (shown file)),
          console.err ++ String.join (texts.map (warned file)), console.files⟩,
          texts.all (clean file) && sofar) := by
    induction texts generalizing console sofar with
    | nil => simp
    | cons text more ih =>
      rw [List.foldl_cons, list_eq]
      refine (ih _ _).trans ?_
      simp [String.append_assoc, Bool.and_comm, Bool.and_left_comm]
  refine (hfold true).trans ?_
  rw [Bool.and_true]

/-! ### Standard input as a whole and line by line -/

/-- The lines of standard input, each with the line feed that ends it. -/
def inputLines (given : Surroundings) : List String :=
  (Text.terminatedLines (inputText given)).map String.ofList

theorem runWith_nil (platform : Platform) (given : Surroundings) :
    runWith platform { given with words := [] } =
      .ok (conclude (list standardInputName (String.ofList (inputText given))
        (.start given.files))) :=
  rfl

theorem runWith_interactive (platform : Platform) (given : Surroundings) :
    runWith platform { given with words := ["-i"] } =
      .ok (conclude (listEach standardInputName (inputLines given) (.start given.files))) := by
  have hwords : readWords specs ["-i"] = .ok ⟨[("--interactive", none)], []⟩ := by
    decide +kernel
  unfold runWith
  rw [hwords]
  rfl

theorem code_conclude_eq_one (listed : Console × Bool) :
    (conclude listed).status.code = 1 ↔ listed.2 = false := by
  unfold conclude
  cases listed.2 <;> simp [Console.ends, ExitStatus.code]

/-- The findings of standard input are those of its lines, each in the first line of its own
text. -/
theorem flatMap_findings_inputLines (file : String) (given : Surroundings) :
    (inputLines given).flatMap (findings file) =
      (findings file (String.ofList (inputText given))).map
        (Finding.relocate Location.raise) := by
  rw [inputLines, List.flatMap_map]
  exact flatMap_findings_terminatedLines file (inputText given)

theorem flatMap_pending_inputLines (file : String) (given : Surroundings) :
    (inputLines given).flatMap (fun line ↦ (scan file line).stream.pending) =
      (scan file (String.ofList (inputText given))).stream.pending.map
        (Token.relocate Location.raise) := by
  rw [scan_pending_eq, ← Finding.filterMap_token?_relocate, ← flatMap_findings_inputLines,
    List.filterMap_flatMap]
  rfl

theorem flatMap_faults_inputLines (file : String) (given : Surroundings) :
    (inputLines given).flatMap (fun line ↦ (scan file line).faults) =
      (scan file (String.ofList (inputText given))).faults.map
        (Diagnostic.relocate Location.raise) := by
  rw [scan_faults_eq, ← Finding.filterMap_fault?_relocate, ← flatMap_findings_inputLines,
    List.filterMap_flatMap]
  rfl

/-- The lines are clean if the text is. -/
theorem all_clean_inputLines (file : String) (given : Surroundings) :
    (inputLines given).all (clean file) = clean file (String.ofList (inputText given)) := by
  have hfaults := flatMap_faults_inputLines file given
  rw [Bool.eq_iff_iff, List.all_eq_true]
  simp only [clean, List.isEmpty_iff]
  rw [← List.map_eq_nil_iff (f := Diagnostic.relocate Location.raise), ← hfaults,
    List.flatMap_eq_nil_iff]

end Lister

end StackCompiler.Command
