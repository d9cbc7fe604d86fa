import StackCompiler.Proofs.Compilation.Faithful
import StackCompiler.Proofs.Execution.Literals
import StackCompiler.Proofs.Typing.Violations

/-!
# The ways in which a compilation ends

`Ending` lists the ways in which a compilation can end, with all that it leaves behind. That there
are no others is shown by going through the stages once (`exists_ending`), and this is where the
passes are looked into: a program that was read is well formed, so it has an outline, its check is
stopped by nothing but a violation, and if it passes the check it has code, for no literal of a text
is too long to be written. Any pass may give up on the nesting of a program instead.
-/

set_option autoImplicit false
set_option relaxedAutoImplicit false

namespace StackCompiler

/-! ### Outlines of programs -/

theorem Expr.exists_outline (e : Expr) : ∃ outline, e.node.outline = .ok outline := by
  induction e with
  | binary left operator right ihleft ihright =>
    obtain ⟨first, hfirst⟩ := ihleft
    obtain ⟨second, hsecond⟩ := ihright
    exact ⟨_, by rw [node, Node.outline, hfirst, hsecond]; rfl⟩
  | intLit token | boolLit token | use token => exact ⟨_, rfl⟩

theorem Stmt.exists_outlines {statements : List Stmt}
    (h : ∀ statement ∈ statements, ∃ outline, statement.node.outline = .ok outline) :
    ∃ outlines, Node.outlines (Stmt.nodes statements) = .ok outlines := by
  induction statements with
  | nil => exact ⟨[], rfl⟩
  | cons statement more ih =>
    obtain ⟨first, hfirst⟩ := h statement (by simp)
    obtain ⟨later, hlater⟩ := ih fun other hmem ↦ h other (by simp [hmem])
    exact ⟨_, by rw [nodes, Node.outlines, hfirst, hlater]; rfl⟩

theorem Stmt.exists_outline (statement : Stmt) :
    ∃ outline, statement.node.outline = .ok outline := by
  induction statement with
  | assign target value =>
    obtain ⟨outline, houtline⟩ := value.exists_outline
    exact ⟨_, by rw [node, Node.outline, houtline]; rfl⟩
  | ifThen condition body ih | loop condition body ih =>
    obtain ⟨first, hfirst⟩ := condition.exists_outline
    obtain ⟨second, hsecond⟩ := ih
    exact ⟨_, by rw [node, Node.outline, hfirst, hsecond]; rfl⟩
  | ifElse condition body alternative ihbody ihalternative =>
    obtain ⟨first, hfirst⟩ := condition.exists_outline
    obtain ⟨second, hsecond⟩ := ihbody
    obtain ⟨third, hthird⟩ := ihalternative
    exact ⟨_, by rw [node, Node.outline, hfirst, hsecond, hthird]; rfl⟩
  | block statements ih =>
    obtain ⟨outlines, houtlines⟩ := Stmt.exists_outlines ih
    exact ⟨_, by rw [node, Node.outline, houtlines]; rfl⟩

theorem Decl.exists_outlines (declarations : List Decl) :
    ∃ outlines, Node.outlines (declarations.map Decl.node) = .ok outlines := by
  induction declarations with
  | nil => exact ⟨[], rfl⟩
  | cons decl more ih =>
    obtain ⟨later, hlater⟩ := ih
    exact ⟨_, by rw [List.map_cons, Node.outlines, hlater]; rfl⟩

theorem Program.exists_outline (program : Program) :
    ∃ outline, program.node.outline = .ok outline := by
  obtain ⟨first, hfirst⟩ := Decl.exists_outlines program.declarations
  obtain ⟨second, hsecond⟩ := (Stmt.block program.statements).exists_outline
  rw [Stmt.node] at hsecond
  exact ⟨_, by rw [node, Node.outline, hfirst, hsecond]; rfl⟩

/-! ### Families of diagnostics -/

theorem family_of_mem_findingsFrom {file : String} {lines : Array (List Char)} {place : Place}
    {tiles : List Tile} {found : Diagnostic}
    (h : Finding.fault found ∈ findingsFrom file lines place tiles) : found.family = .lexical := by
  induction tiles generalizing place with
  | nil => cases h
  | cons tile more ih =>
    rw [findingsFrom] at h
    cases hfinding : tile.finding? file lines place with
    | none =>
      rw [hfinding] at h
      exact ih h
    | some finding =>
      rw [hfinding] at h
      rcases List.mem_cons.mp h with rfl | h
      · unfold Tile.finding? at hfinding
        split at hfinding <;> cases hfinding <;> rfl
      · exact ih h

/-- What a scan finds fault with is lexical. -/
theorem family_of_mem_faults {file text : String} {found : Diagnostic}
    (h : found ∈ (scan file text).faults) : found.family = .lexical := by
  simp only [scan, Scanner.rest, Scanner.ofText, List.nil_append, List.mem_filterMap] at h
  obtain ⟨finding, hmem, hfault⟩ := h
  cases finding with
  | token token => cases hfault
  | fault other =>
    cases hfault
    exact family_of_mem_findingsFrom hmem

theorem Grammar.Refusal.family_diagnostic (refusal : Refusal) (token : Token)
    (lines : List String) : (refusal.diagnostic token lines).family = .grammar := by
  cases refusal with
  | unexpected expected => cases expected <;> rfl
  | floatLiteral | tooDeep => rfl

theorem TokenStream.family_of_readProgramWithin {stream : TokenStream} {depth : Nat}
    {lines : List String} {found : Diagnostic}
    (h : (stream.readProgramWithin depth lines).1 = .error found) : found.family = .grammar := by
  unfold readProgramWithin at h
  cases hrun : Grammar.program depth stream.pending with
  | ok result => simp [hrun] at h
  | error stop =>
    rw [hrun] at h
    cases h
    exact Grammar.Refusal.family_diagnostic ..

@[simp] theorem Token.family_diagnostic (token : Token) (lines : List String) (cause : Cause) :
    (token.diagnostic lines cause).family = cause.family :=
  rfl

/-! ### Programs that were read -/

namespace Passes

variable {passes : Passes}

theorem Faithful.whole_read_eq_ok (h : passes.Faithful) {stream : TokenStream}
    {lines : List String} {program : Program} (hread : passes.read stream lines = .ok program) :
    whole.read stream lines = .ok program := by
  rcases h.read stream lines with ⟨place, hstruck⟩ | hsame
  · rw [hread] at hstruck
    cases hstruck
  · exact hsame.symm.trans hread

theorem Faithful.family_of_read (h : passes.Faithful) {stream : TokenStream} {lines : List String}
    {found : Diagnostic} (hread : passes.read stream lines = .error found) :
    found.family = .grammar := by
  rcases h.read stream lines with ⟨place, hstruck⟩ | hsame
  · rw [hread] at hstruck
    cases hstruck
    rfl
  · exact TokenStream.family_of_readProgramWithin (hsame.symm.trans hread)

theorem Faithful.wellFormed_of_read (h : passes.Faithful) {stream : TokenStream}
    {lines : List String} {program : Program} (hread : passes.read stream lines = .ok program) :
    program.WellFormed := by
  have hwhole := h.whole_read_eq_ok hread
  obtain ⟨tokens, -, hderives, hnearest⟩ :=
    TokenStream.derives_of_readProgramWithin (Prod.ext hwhole rfl)
  exact hderives.wellFormed hnearest

/-- A well-typed program that was read from a text has code. -/
theorem Faithful.code_of_read (h : passes.Faithful) {file text : String} {lines : List String}
    {program : Program} (hread : passes.read (scan file text).stream lines = .ok program)
    (htyped : program.WellTyped) :
    program.node.code = .ok (program.code, Stmt.labelCountOfAll program.statements) :=
  htyped.code_node (literalsAreWritable_of_scan (Prod.ext (h.whole_read_eq_ok hread) rfl))

end Passes

/-! ### Endings -/

/-- What is reported where a pass behind the reading gives up. -/
def nestingDiagnostic : Diagnostic :=
  ⟨.nestedTooDeeply, none, none⟩

@[simp] theorem family_nestingDiagnostic : nestingDiagnostic.family = .grammar :=
  rfl

/-- The outline that a compilation keeps of a program. -/
def Passes.Sketches (passes : Passes) (keepsOutline : Bool) (program : Program)
    (shown : Option String) : Prop :=
  if keepsOutline then
    ∃ outline, passes.outline program.node = .ok outline ∧ shown = some outline.text
  else shown = none

/-- The ways in which a compilation ends. -/
inductive Ending (passes : Passes) (keepsOutline : Bool) (file text : String) : Compilation → Prop
  | lexical {first : Diagnostic} {others : List Diagnostic}
      (hfaults : (scan file text).faults = first :: others) :
      Ending passes keepsOutline file text
        ⟨⟨file, (scan file text).tokens, none, none, none⟩, .failed first others⟩
  | unread {found : Diagnostic} (hfaults : (scan file text).faults = [])
      (hread : passes.read (scan file text).stream (sourceLines text) = .error found)
      (hfamily : found.family = .grammar) :
      Ending passes keepsOutline file text
        ⟨⟨file, (scan file text).tokens, none, none, none⟩, .failed found []⟩
  | unsketched {program : Program} (hfaults : (scan file text).faults = [])
      (hread : passes.read (scan file text).stream (sourceLines text) = .ok program)
      (hkeeps : keepsOutline = true) (hstruck : passes.outline program.node = .error .tooDeep) :
      Ending passes keepsOutline file text
        ⟨⟨file, (scan file text).tokens, some program, none, none⟩, .failed nestingDiagnostic []⟩
  | unchecked {program : Program} {shown : Option String} (hfaults : (scan file text).faults = [])
      (hread : passes.read (scan file text).stream (sourceLines text) = .ok program)
      (hsketches : passes.Sketches keepsOutline program shown) :
      Ending passes keepsOutline file text
        ⟨⟨file, (scan file text).tokens, some program, shown, none⟩, .failed nestingDiagnostic []⟩
  | violation {program : Program} {shown : Option String} {found : Violation}
      (hfaults : (scan file text).faults = [])
      (hread : passes.read (scan file text).stream (sourceLines text) = .ok program)
      (hsketches : passes.Sketches keepsOutline program shown)
      (hcheck : (program.node.check .empty).1 = .error (.violation found))
      (hfamily : found.cause.family = .context) :
      Ending passes keepsOutline file text
        ⟨⟨file, (scan file text).tokens, some program, shown, none⟩,
          .failed (found.token.diagnostic (sourceLines text) found.cause) []⟩
  | ungenerated {program : Program} {shown : Option String} {scope : Scope}
      (hfaults : (scan file text).faults = [])
      (hread : passes.read (scan file text).stream (sourceLines text) = .ok program)
      (hsketches : passes.Sketches keepsOutline program shown) :
      Ending passes keepsOutline file text
        ⟨⟨file, (scan file text).tokens, some program, shown, some scope⟩,
          .failed nestingDiagnostic []⟩
  | compiled {program : Program} {shown : Option String} {scope : Scope}
      (hfaults : (scan file text).faults = [])
      (hread : passes.read (scan file text).stream (sourceLines text) = .ok program)
      (hsketches : passes.Sketches keepsOutline program shown)
      (hcheck : program.node.check .empty = (.ok none, scope)) :
      Ending passes keepsOutline file text
        ⟨⟨file, (scan file text).tokens, some program, shown, some scope⟩, .compiled program.code⟩

section Stages

variable {passes : Passes} {keepsOutline : Bool} {file text : String} {program : Program}

/-- The last stage ends with code or gives up. -/
theorem Artifacts.exists_generate (h : passes.Faithful)
    (hread : passes.read (scan file text).stream (sourceLines text) = .ok program)
    (htyped : program.WellTyped) (artifacts : Artifacts) (events : List Event) :
    ∃ run, artifacts.generate passes events program.node = .ok run ∧
      (run.result = ⟨artifacts, .failed nestingDiagnostic []⟩ ∨
        run.result = ⟨artifacts, .compiled program.code⟩) := by
  have hcode : passes.code program.node = .error (.hole .tooDeep) ∨
      passes.code program.node =
        .ok (program.code, Stmt.labelCountOfAll program.statements) := by
    rw [← h.code_of_read hread htyped]
    exact h.code program
  unfold generate
  rcases hcode with hstruck | hsame
  · rw [hstruck]
    exact ⟨_, rfl, .inl rfl⟩
  · rw [hsame]
    exact ⟨_, rfl, .inr rfl⟩

/-- From the check on, a compilation gives up, breaks a rule of the context, or goes on to code. -/
theorem exists_check (h : passes.Faithful) {shown : Option String}
    (hfaults : (scan file text).faults = [])
    (hread : passes.read (scan file text).stream (sourceLines text) = .ok program)
    (hsketches : passes.Sketches keepsOutline program shown) (events : List Event) :
    ∃ run, Artifacts.check ⟨file, (scan file text).tokens, some program, shown, none⟩ passes events
        (sourceLines text) program.node = .ok run ∧
      Ending passes keepsOutline file text run.result := by
  unfold Artifacts.check
  rcases hrun : passes.check program.node with ⟨outcome, scope⟩
  rcases h.check program with hstruck | hsame
  · rw [hrun] at hstruck
    cases hstruck
    exact ⟨_, rfl, .unchecked hfaults hread hsketches⟩
  · have hcheck : program.node.check .empty = (outcome, scope) := hsame.symm.trans hrun
    cases outcome with
    | error fault =>
      obtain ⟨found, rfl, hwithin⟩ := (h.wellFormed_of_read hread).check_eq_error
        (congrArg Prod.fst hcheck)
      exact ⟨_, rfl, .violation hfaults hread hsketches (congrArg Prod.fst hcheck) hwithin.family⟩
    | ok type =>
      obtain ⟨rfl, -, htyped⟩ := Program.check_eq_ok.mp hcheck
      obtain ⟨run, hgenerate, hresult | hresult⟩ := Artifacts.exists_generate h hread htyped
        ⟨file, (scan file text).tokens, some program, shown, some scope⟩
        (events ++ scope.entries.map .declared ++ [Event.checked scope.size])
      · exact ⟨run, hgenerate, hresult ▸ .ungenerated hfaults hread hsketches⟩
      · exact ⟨run, hgenerate, hresult ▸ .compiled hfaults hread hsketches hcheck⟩

/-- Every compilation comes to one of the endings. -/
theorem exists_ending (h : passes.Faithful) (keepsOutline : Bool) (file text : String) :
    ∃ run, compileWith passes keepsOutline file text = .ok run ∧
      Ending passes keepsOutline file text run.result := by
  unfold compileWith
  cases hfaults : (scan file text).faults with
  | cons first others =>
    simp only [hfaults]
    exact ⟨_, rfl, .lexical hfaults⟩
  | nil =>
    cases hread : passes.read (scan file text).stream (sourceLines text) with
    | error found =>
      simp only [hfaults, hread]
      exact ⟨_, rfl, .unread hfaults hread (h.family_of_read hread)⟩
    | ok program =>
      simp only [hfaults, hread]
      unfold Artifacts.sketch
      cases keepsOutline with
      | false =>
        have hsketches : passes.Sketches false program none := by simp [Passes.Sketches]
        exact exists_check h hfaults hread hsketches _
      | true =>
        rcases hrun : passes.outline program.node with gap | outline
        · rcases h.outline program with hstruck | hsame
          · rw [hrun] at hstruck
            cases hstruck
            refine ⟨_, rfl, ?_⟩
            exact .unsketched hfaults hread rfl hrun
          · obtain ⟨outline, houtline⟩ := program.exists_outline
            cases (hrun.symm.trans hsame).trans houtline
        · have hsketches : passes.Sketches true program (some outline.text) := by
            simp [Passes.Sketches, hrun]
          exact exists_check h hfaults hread hsketches _

end Stages

end StackCompiler
