import Mathlib.Data.List.Nodup
import StackCompiler.Proofs.Execution.StackDepth
import StackCompiler.Proofs.Execution.Wording

/-!
# Labels and jumps

The code of a program with some number of conditions and loops marks twice as many lines with
labels, and every label is the target of one jump (`OncePerLabel.perm_filterMap_program`). The jumps
back are one for each loop, to its first line (`Program.jumpsTo_back_iff`), so a machine without
loops to run moves forward only and comes to an end within the code
(`Machine.exists_run?_of_forward`).

`jumps_of_readProgramWithin` is the main statement. It is about the lines of the code as texts,
which show what is a label and what is a jump whatever the variables are called.
-/

set_option autoImplicit false
set_option relaxedAutoImplicit false

namespace StackCompiler

open Machine

/-! ### Labels on lines -/

open List in
/-- What is read off the code of a program are the first labels, two for each condition and each
loop. -/
theorem OncePerLabel.perm_filterMap_program {read : Instr → Option Label}
    (h : OncePerLabel read) (program : Program) :
    program.code.filterMap read ~ List.range (2 * (branchings program.sites).length) := by
  have hbody := h.perm_filterMap (.block program.statements) 0
  rw [((Stmt.block program.statements).ownLabels_sites 0 0).1] at hbody
  rw [Program.code, List.filterMap_append, List.filterMap_cons, h.halt, List.filterMap_nil,
    List.append_nil, List.range_eq_range']
  exact hbody

/-- What is read off two lines is the same for one line only. -/
theorem line_unique {read : Instr → Option Label} {code : List Instr}
    (hnodup : (code.filterMap read).Nodup) {label : Label} {line other : Nat}
    {first second : Instr} (hline : code[line]? = some first) (hother : code[other]? = some second)
    (hfirst : read first = some label) (hsecond : read second = some label) : line = other := by
  have hpairwise := List.pairwise_iff_getElem.mp (List.pairwise_filterMap.mp hnodup)
  obtain ⟨hlt, rfl⟩ := List.getElem?_eq_some_iff.mp hline
  obtain ⟨hltOther, rfl⟩ := List.getElem?_eq_some_iff.mp hother
  rcases Nat.lt_trichotomy line other with hless | hsame | hmore
  · exact absurd rfl (hpairwise _ _ hlt hltOther hless _ hfirst _ hsecond)
  · exact hsame
  · exact absurd rfl (hpairwise _ _ hltOther hlt hmore _ hsecond _ hfirst)

theorem OncePerLabel.nodup_program {read : Instr → Option Label} (h : OncePerLabel read)
    (program : Program) : (program.code.filterMap read).Nodup :=
  (h.perm_filterMap_program program).nodup_iff.mpr List.nodup_range

/-- Conditions and loops own two labels each, in the order in which they begin. -/
theorem Program.first_eq_of_branchings {program : Program} {index : Nat} {site : Site}
    (h : (branchings program.sites)[index]? = some site) : site.first = 2 * index := by
  have howned : (branchings program.sites).map Site.first =
      List.range' 0 (branchings program.sites).length 2 :=
    ((Stmt.block program.statements).ownLabels_sites 0 0).2
  have hlt := (List.getElem?_eq_some_iff.mp h).1
  have hfirst := congrArg (·[index]?) howned
  simp only [List.getElem?_map, h, Option.map_some, List.getElem?_range' hlt] at hfirst
  simpa using hfirst

/-! ### Jumps back -/

/-- The instruction on one line may jump to another line. -/
def JumpsTo (code : List Instr) (line target : Nat) : Prop :=
  ∃ instruction label, code[line]? = some instruction ∧ instruction.target? = some label ∧
    code[target]? = some (.label label)

theorem jumpsBack_iff_lines {code : List Instr} {label : Label} :
    JumpsBack code label ↔ ∃ target line : Nat, target < line ∧
      code[target]? = some (.label label) ∧
        ∃ jump, code[line]? = some jump ∧ jump.target? = some label := by
  constructor
  · rintro ⟨jump, htarget, hsublist⟩
    obtain ⟨front, back, rfl, hlabel, hjump⟩ := List.cons_sublist_iff.mp hsublist
    obtain ⟨target, hlt, hmark⟩ := List.getElem_of_mem hlabel
    obtain ⟨offset, hoffset⟩ := List.mem_iff_getElem?.mp (List.singleton_sublist.mp hjump)
    refine ⟨target, front.length + offset, by omega, ?_, jump, ?_, htarget⟩
    · rw [List.getElem?_append_left hlt, List.getElem?_eq_getElem hlt, hmark]
    · rw [List.getElem?_append_right (Nat.le_add_right ..), Nat.add_sub_cancel_left, hoffset]
  · rintro ⟨target, line, hless, hlabel, jump, hjump, htarget⟩
    refine ⟨jump, htarget, ?_⟩
    have hfront : Instr.label label ∈ code.take (target + 1) :=
      List.mem_of_getElem? ((List.getElem?_take_of_lt (Nat.lt_succ_self _)).trans hlabel)
    have hback : jump ∈ code.drop (target + 1) := by
      refine List.mem_iff_getElem?.mpr ⟨line - (target + 1), ?_⟩
      rw [List.getElem?_drop, Nat.add_sub_cancel' hless, hjump]
    have happend := (List.singleton_sublist.mpr hfront).append (List.singleton_sublist.mpr hback)
    rwa [List.take_append_drop] at happend

theorem Program.jumpsBack_code_iff {program : Program} {label : Label} :
    JumpsBack program.code label ↔
      ∃ site ∈ program.sites, site.statement.isLoop = true ∧ site.first = label := by
  rw [code, jumpsBack_append, Stmt.jumpsBack_iff _ 0, jumpsBack_cons]
  simp [sites, Instr.target?]

/-- The label of the start of a loop stands on its first line. -/
theorem Program.getElem?_of_isLoop {program : Program} {site : Site} (h : site ∈ program.sites)
    (hloop : site.statement.isLoop = true) :
    program.code[site.line]? = some (.label site.first) := by
  have hstands : Machine.HasAt ⟨program.code, fun _ _ ↦ none⟩ site.line site.code :=
    program.hasAt_of_mem_sites h
  obtain ⟨line, first, statement⟩ := site
  cases statement with
  | loop condition body => exact hstands.left.left.left.left.getElem?
  | assign _ _ | ifThen _ _ | ifElse _ _ _ | block _ => cases hloop

/-- Jumps go back to the first lines of loops, and forward to all other lines. -/
theorem Program.jumpsTo_back_iff {program : Program} {line target : Nat}
    (h : JumpsTo program.code line target) :
    target ≠ line ∧ (target < line ↔
      ∃ site ∈ program.sites, site.statement.isLoop = true ∧ site.line = target) := by
  obtain ⟨jump, label, hjump, htarget, hlabel⟩ := h
  have hmarks := oncePerLabel_mark.nodup_program program
  have htargets := oncePerLabel_target.nodup_program program
  refine ⟨?_, fun hback ↦ ?_, ?_⟩
  · rintro rfl
    cases hjump.symm.trans hlabel
    cases htarget
  · obtain ⟨site, hsite, hloop, hfirst⟩ := jumpsBack_code_iff.mp
      (jumpsBack_iff_lines.mpr ⟨target, line, hback, hlabel, jump, hjump, htarget⟩)
    have hstart := program.getElem?_of_isLoop hsite hloop
    exact ⟨site, hsite, hloop, line_unique hmarks hstart hlabel rfl (congrArg some hfirst.symm)⟩
  · rintro ⟨site, hsite, hloop, rfl⟩
    cases (program.getElem?_of_isLoop hsite hloop).symm.trans hlabel
    obtain ⟨start, back, hless, hstart, other, hother, hsame⟩ :=
      jumpsBack_iff_lines.mp (jumpsBack_code_iff.mpr ⟨site, hsite, hloop, rfl⟩)
    obtain rfl := line_unique hmarks hstart hlabel rfl rfl
    obtain rfl := line_unique htargets hother hjump hsame htarget
    exact hless

/-- One jump goes to the first line of a loop. -/
theorem Program.existsUnique_jumpsTo {program : Program} {site : Site} (h : site ∈ program.sites)
    (hloop : site.statement.isLoop = true) : ∃! line, JumpsTo program.code line site.line := by
  have hstart := program.getElem?_of_isLoop h hloop
  obtain ⟨start, line, -, hlabel, jump, hjump, htarget⟩ :=
    jumpsBack_iff_lines.mp (jumpsBack_code_iff.mpr ⟨site, h, hloop, rfl⟩)
  refine ⟨line, ⟨jump, _, hjump, htarget, hstart⟩, ?_⟩
  rintro other ⟨instruction, label, hother, hsame, hmark⟩
  cases hstart.symm.trans hmark
  exact line_unique (oncePerLabel_target.nodup_program program) hother hjump hsame htarget

/-! ### Code without jumps back -/

/-- Every name that the code loads has a value. -/
def Store.Provides (store : Store) (code : List Instr) : Prop :=
  ∀ name, .load name ∈ code → ∃ value, store name = some value

/-- The literals that the code pushes are integers. -/
def PushesIntegers (code : List Instr) : Prop :=
  ∀ literal, .push literal ∈ code → ∃ value, literal = some (.int value)

/-- The machine is at a division that refuses its operands. -/
def Machine.Refuses (machine : Machine) (config : Config) : Prop :=
  machine.code[config.line]? = some (.apply .div) ∧ ∃ left right stack,
    config.stack = right :: left :: stack ∧ machine.divide left right = none

section Runs

variable {machine : Machine} {config next : Config}

theorem Store.Provides.set {store : Store} {code : List Instr} (h : store.Provides code)
    (name : String) (value : Int) : (store.set name value).Provides code := by
  intro other hother
  by_cases hsame : other = name
  · exact ⟨value, by rw [hsame, Store.set, Function.update_self]⟩
  · rw [Store.set, Function.update_of_ne hsame]
    exact h other hother

theorem Machine.provides_of_step? (h : config.store.Provides machine.code)
    (hstep : machine.step? config = some next) : next.store.Provides machine.code := by
  obtain ⟨-, -, -, -, hsame | ⟨name, value, hset⟩⟩ := exists_instr_of_step? hstep
  · rwa [hsame]
  · rw [hset]
    exact h.set name value

/-- Where the stack is in order, the machine goes on but for the end and for division. -/
theorem KeepsDepth.atHalt_or_refuses {depth : Nat → Nat} (h : KeepsDepth machine.code depth)
    (hinside : config.line < machine.code.length)
    (hdepth : config.stack.length = depth config.line)
    (hintegers : PushesIntegers machine.code) (hprovides : config.store.Provides machine.code)
    (hstep : machine.step? config = none) : machine.AtHalt config ∨ machine.Refuses config := by
  obtain ⟨line, stack, store⟩ := config
  obtain ⟨instruction, hline⟩ : ∃ instruction, machine.code[line]? = some instruction :=
    ⟨_, List.getElem?_eq_getElem hinside⟩
  have hmem := List.mem_of_getElem? hline
  have hpops : instruction.pops ≤ stack.length := hdepth ▸ h.pops_le hline
  rw [step?, hline] at hstep
  cases instruction with
  | push literal =>
    obtain ⟨value, rfl⟩ := hintegers literal hmem
    cases hstep
  | load name =>
    obtain ⟨value, hvalue⟩ := hprovides name hmem
    cases hvalue.symm.trans (Option.map_eq_none_iff.mp hstep)
  | store name =>
    obtain ⟨value, stack, rfl⟩ := List.exists_cons_of_length_pos hpops
    cases hstep
  | apply operation =>
    obtain ⟨right, others, rfl⟩ := List.exists_cons_of_length_pos (Nat.zero_lt_of_lt hpops)
    obtain ⟨left, stack, rfl⟩ := List.exists_cons_of_length_pos (Nat.lt_of_succ_lt_succ hpops)
    have hnone := Option.map_eq_none_iff.mp hstep
    cases operation <;> simp only [Operation.result?, reduceCtorEq] at hnone
    exact .inr ⟨hline, left, right, stack, rfl, hnone⟩
  | jump target =>
    obtain ⟨found, hfound⟩ := exists_lineOf? (h.target_mem _ hmem target rfl)
    simp [Instr.perform?, Config.goTo?, hfound] at hstep
  | jumpIfZero target =>
    obtain ⟨found, hfound⟩ := exists_lineOf? (h.target_mem _ hmem target rfl)
    obtain ⟨value, stack, rfl⟩ := List.exists_cons_of_length_pos hpops
    simp only [Option.bind_some, Instr.perform?, Config.goTo?, hfound, Option.map_some] at hstep
    split at hstep <;> cases hstep
  | label mark => cases hstep
  | halt => exact .inl hline

/-- If all jumps go forward, so does every step. -/
theorem Machine.line_lt_of_step? (hforward : ∀ line target, JumpsTo machine.code line target →
    line < target) (hstep : machine.step? config = some next) : config.line < next.line := by
  obtain ⟨instruction, hline, -, ⟨-, hnext⟩ | ⟨label, htarget, hlabel⟩, -⟩ :=
    exists_instr_of_step? hstep
  · omega
  · exact hforward _ _ ⟨instruction, label, hline, htarget, hlabel⟩

/-- If all jumps go forward, a run comes to an end before it has made as many steps as there are
lines to come. -/
theorem Machine.exists_run?_of_forward {depth : Nat → Nat} (h : KeepsDepth machine.code depth)
    (hintegers : PushesIntegers machine.code)
    (hforward : ∀ line target, JumpsTo machine.code line target → line < target) {store : Store}
    (hreaches : machine.Reaches (start store) config)
    (hprovides : config.store.Provides machine.code) :
    ∃ count last, config.line + count < machine.code.length ∧
      machine.run? count config = some last ∧ (machine.AtHalt last ∨ machine.Refuses last) := by
  induction hleft : machine.code.length - config.line using Nat.strongRecOn
    generalizing config with
  | ind left ih =>
    obtain ⟨hdepth, hinside⟩ := h.reachable (reachable_of_reaches hreaches)
    have hinside : config.line < machine.code.length := hinside
    cases hstep : machine.step? config with
    | none =>
      exact ⟨0, config, hinside, rfl, h.atHalt_or_refuses hinside hdepth hintegers hprovides hstep⟩
    | some next =>
      have hnext := line_lt_of_step? hforward hstep
      obtain ⟨count, last, hcount, hrun, hend⟩ := ih _ (by omega)
        (hreaches.trans (.of_step hstep)) (provides_of_step? hprovides hstep) rfl
      exact ⟨count + 1, last, by omega, by rw [run?, hstep]; exact hrun, hend⟩

end Runs

theorem Program.pushesIntegers_code {program : Program}
    (h : LiteralsAreIntegers program.expressions) : PushesIntegers program.code := by
  intro literal hmem
  have hmem : .push literal ∈ (Stmt.block program.statements).code 0 := by simpa [code] using hmem
  obtain ⟨e, he, hmem⟩ | hcontrol := Stmt.occurs_of_mem_code hmem
  · obtain ⟨part, hpart, hinstr⟩ := Expr.exists_of_mem_code hmem
    have hpart := Stmt.parts_subset_of_mem_expressions he hpart
    cases part with
    | intLit token =>
      cases hinstr
      exact h token hpart
    | boolLit token =>
      cases hinstr
      exact ⟨_, rfl⟩
    | use name => cases hinstr
    | binary left operator right =>
      obtain ⟨operation, -, hsame⟩ := Option.map_eq_some_iff.mp hinstr
      cases hsame
  · cases hcontrol

/-! ### The text of code -/

theorem filter_isLabel_text (code : List Instr) :
    (code.map Instr.text).filter Line.isLabel =
      (code.filterMap Instr.mark?).map fun label ↦ Instr.labelText label ++ ":" := by
  induction code with
  | nil => rfl
  | cons instruction code ih =>
    rw [List.map_cons]
    cases hmark : instruction.mark? with
    | none =>
      have hline : ¬ Line.isLabel instruction.text = true := fun h ↦ by
        obtain ⟨mark, rfl⟩ := Instr.isLabel_text.mp h
        cases hmark
      rw [List.filter_cons_of_neg hline, ih, List.filterMap_cons_none hmark]
    | some mark =>
      obtain rfl := Instr.mark?_eq_some.mp hmark
      rw [List.filter_cons_of_pos (Instr.isLabel_text.mpr ⟨mark, rfl⟩), ih,
        List.filterMap_cons_some hmark, List.map_cons]
      rfl

theorem map_operand_filter_isJump_text (code : List Instr) :
    ((code.map Instr.text).filter Line.isJump).map Line.operand =
      (code.filterMap Instr.target?).map Instr.labelText := by
  induction code with
  | nil => rfl
  | cons instruction code ih =>
    rw [List.map_cons]
    cases htarget : instruction.target? with
    | none =>
      have hline : ¬ Line.isJump instruction.text = true := fun h ↦ by
        obtain ⟨target, hsame⟩ := Instr.isJump_text.mp h
        cases htarget.symm.trans hsame
      rw [List.filter_cons_of_neg hline, ih, List.filterMap_cons_none htarget]
    | some target =>
      rw [List.filter_cons_of_pos (Instr.isJump_text.mpr ⟨target, htarget⟩),
        List.filterMap_cons_some htarget, List.map_cons, ih, Instr.operand_text htarget,
        List.map_cons]

theorem Program.halt_not_mem_body (program : Program) :
    .halt ∉ (Stmt.block program.statements).code 0 := by
  intro hmem
  obtain ⟨e, -, hmem⟩ | hcontrol := Stmt.occurs_of_mem_code hmem
  · obtain ⟨part, -, hinstr⟩ := Expr.exists_of_mem_code hmem
    cases part with
    | intLit _ | boolLit _ | use _ => cases hinstr
    | binary left operator right =>
      obtain ⟨operation, -, hsame⟩ := Option.map_eq_some_iff.mp hinstr
      cases hsame
  · cases hcontrol

open List in
/-- The code of a program that is read from a text, checked or not, holds for each of its conditions
and loops two label lines, all different, and for each label one jump; the conditions and loops own
the labels in the order in which they begin. The jump of each loop to its first line goes back, all
others go forward, so that without loops the machine comes to its end within as many steps as there
are lines. -/
theorem jumps_of_readProgramWithin {file text : String} {depth : Nat} {lines : List String}
    {program : Program} {rest : TokenStream}
    (hread : (scan file text).stream.readProgramWithin depth lines = (.ok program, rest)) :
    ∃ code labels, program.node.code = .ok (code, labels) ∧
      labels = 2 * (branchings program.sites).length ∧
      (code.map Instr.text).filter Line.isLabel ~
        (List.range (2 * (branchings program.sites).length)).map (Instr.labelText · ++ ":") ∧
      ((code.map Instr.text).filter Line.isJump).map Line.operand ~
        (List.range (2 * (branchings program.sites).length)).map Instr.labelText ∧
      ((code.map Instr.text).filter Line.isLabel).Nodup ∧
      (((code.map Instr.text).filter Line.isJump).map Line.operand).Nodup ∧
      (∃ front, code.map Instr.text = front ++ ["HALT"] ∧ "HALT" ∉ front) ∧
      (∀ index site, (branchings program.sites)[index]? = some site →
        site.first = 2 * index ∧ site.code <+: code.drop site.line) ∧
      (∀ line target, JumpsTo code line target → target ≠ line ∧ (target < line ↔
        ∃ site ∈ program.sites, site.statement.isLoop = true ∧ site.line = target)) ∧
      (∀ site ∈ program.sites, site.statement.isLoop = true →
        ∃! line, JumpsTo code line site.line) ∧
      ((∀ site ∈ program.sites, site.statement.isLoop = false) →
        ∀ divide store, Store.Provides store code → ∃ count last, count < code.length ∧
          Machine.run? ⟨code, divide⟩ count (start store) = some last ∧
            (Machine.AtHalt ⟨code, divide⟩ last ∨ Machine.Refuses ⟨code, divide⟩ last)) := by
  have hoperators := operatorsOperate_of_readProgramWithin hread
  refine ⟨program.code, _, program.code_node hoperators (literalsAreWritable_of_scan hread),
    ((Stmt.block program.statements).ownLabels_sites 0 0).1, ?_, ?_, ?_, ?_, ?_, ?_, ?_, ?_, ?_⟩
  · rw [filter_isLabel_text]
    exact (oncePerLabel_mark.perm_filterMap_program program).map _
  · rw [map_operand_filter_isJump_text]
    exact (oncePerLabel_target.perm_filterMap_program program).map _
  · rw [filter_isLabel_text]
    refine List.Nodup.map (fun label other hsame ↦ ?_) (oncePerLabel_mark.nodup_program program)
    exact Instr.labelText_inj.mp ((String.append_left_inj ":").mp hsame)
  · rw [map_operand_filter_isJump_text]
    exact List.Nodup.map (fun _ _ ↦ Instr.labelText_inj.mp)
      (oncePerLabel_target.nodup_program program)
  · refine ⟨((Stmt.block program.statements).code 0).map Instr.text, ?_, fun hmem ↦ ?_⟩
    · rw [Program.code, List.map_append]
      rfl
    · obtain ⟨instruction, hinstr, htext⟩ := List.mem_map.mp hmem
      exact program.halt_not_mem_body (Instr.text_eq_halt_iff.mp htext ▸ hinstr)
  · intro index site hsite
    have hmem := List.mem_of_mem_filter (List.mem_of_getElem? hsite)
    have hstands : Machine.HasAt ⟨program.code, fun _ _ ↦ none⟩ site.line site.code :=
      program.hasAt_of_mem_sites hmem
    exact ⟨program.first_eq_of_branchings hsite, hstands.isPrefix_drop⟩
  · exact fun line target ↦ program.jumpsTo_back_iff
  · exact fun site ↦ program.existsUnique_jumpsTo
  · intro hloopless divide store hprovides
    have hforward : ∀ line target, JumpsTo program.code line target → line < target := by
      intro line target hjump
      obtain ⟨hne, hback⟩ := program.jumpsTo_back_iff hjump
      refine Nat.lt_of_not_le fun hle ↦ ?_
      obtain ⟨site, hsite, hloop, -⟩ := hback.mp (Nat.lt_of_le_of_ne hle hne)
      cases (hloopless site hsite).symm.trans hloop
    have hreaches : Machine.Reaches ⟨program.code, divide⟩ (start store) (start store) := .refl _
    obtain ⟨count, last, hcount, hrun, hend⟩ := Machine.exists_run?_of_forward
      (program.keepsDepth_code hoperators)
      (program.pushesIntegers_code (literalsAreIntegers_of_scan hread)) hforward hreaches hprovides
    exact ⟨count, last, by simpa [start] using hcount, hrun, hend⟩

/-- A program with variables that are called like a label and like the end of code. -/
def homonyms : String :=
  "program p; begin while L0 < 2 do if true then L0 := HALT; end"

/-- The loop owns the first two labels and the condition in it the others, and the code loads `HALT`
but halts on its last line only. -/
theorem jumps_homonyms :
    ∃ program rest, (scan "p.src" homonyms).stream.readProgramWithin nestingLimit [] =
        (.ok program, rest) ∧
      ∃ code labels, program.node.code = .ok (code, labels) ∧ "LOAD HALT" ∈ code.map Instr.text ∧
        ((code.map Instr.text).filter Line.isLabel).Perm ["L0:", "L1:", "L2:", "L3:"] ∧
        (∃ front, code.map Instr.text = front ++ ["HALT"] ∧ "HALT" ∉ front) ∧
        ∃! line, JumpsTo code line 0 := by
  have hshape : ((scan "p.src" homonyms).stream.readProgramWithin nestingLimit []).1.toOption.map
      (fun program ↦ ((branchings program.sites).map fun site ↦ (site.statement.isLoop, site.line),
        program.node.code.toOption.map fun made ↦ made.1.contains (.load "HALT"))) =
      some ([(true, 0), (false, 5)], some true) := by
    decide +kernel
  rcases hread : (scan "p.src" homonyms).stream.readProgramWithin nestingLimit [] with
    ⟨_ | program, rest⟩
  · rw [hread] at hshape
    cases hshape
  rw [hread] at hshape
  obtain ⟨hsites, hload⟩ := Prod.mk.inj (Option.some.inj hshape)
  obtain ⟨code, labels, hcode, -, hlabels, -, -, -, hhalt, -, -, hloops, -⟩ :=
    jumps_of_readProgramWithin hread
  have hcount : (branchings program.sites).length = 2 := by
    simpa using congrArg List.length hsites
  rw [hcount] at hlabels
  have hmem : .load "HALT" ∈ code := by
    rw [hcode] at hload
    exact List.elem_iff.mp (Option.some.inj hload)
  obtain ⟨site, hsite, hloop⟩ := List.exists_of_mem_map (hsites ▸ List.mem_cons_self)
  obtain ⟨hloop, hline⟩ := Prod.mk.inj hloop
  refine ⟨program, rest, rfl, code, labels, hcode, List.mem_map.mpr ⟨_, hmem, rfl⟩, hlabels,
    hhalt, ?_⟩
  exact hline ▸ hloops site (List.mem_of_mem_filter hsite) hloop

end StackCompiler
