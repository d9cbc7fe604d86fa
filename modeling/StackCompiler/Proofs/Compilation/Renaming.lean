import Mathlib.Data.List.Nodup
import StackCompiler.Proofs.Execution.StackDepth
import StackCompiler.Proofs.Typing.Renaming

/-!
# Programs under other names and in another order

What variables are called and in which order they are declared decides nothing. If the variables of
a program that was read get other names, no two of them the same, and its declarations change
places, then the program passes the check if and only if it did before, and its code is the former
code with the names replaced where a variable is loaded or stored (`check_code_rename_reorder`).
The names may look like labels or instructions, since code keeps them apart. The literals stay as
they are, so a program that has no code because one of them cannot be written has none either way.
If only the names change, then a program that is rejected is rejected for the same cause at the same
place.

The order of declarations is not seen in the types of the variables as long as no name is declared
twice (`Program.types_reorder`), and if one is, it is so in every order.
-/

set_option autoImplicit false
set_option relaxedAutoImplicit false

namespace StackCompiler

variable {f : String → String}

/-! ### Code -/

/-- An instruction with the variable renamed that it loads or stores. -/
def Instr.rename (f : String → String) : Instr → Instr
  | load name => load (f name)
  | store name => store (f name)
  | other => other

theorem Expr.code_rename (e : Expr) : (e.rename f).code = e.code.map (Instr.rename f) := by
  induction e with
  | intLit token | boolLit token | use name => rfl
  | binary left operator right ihleft ihright =>
    rw [rename, code, code, ihleft, ihright, List.map_append, List.map_append]
    cases Operation.ofKind? operator.kind <;> rfl

theorem map_rename_branchCode (first : Label) (condition body alternative : List Instr) :
    (branchCode first condition body alternative).map (Instr.rename f) =
      branchCode first (condition.map (Instr.rename f)) (body.map (Instr.rename f))
        (alternative.map (Instr.rename f)) := by
  simp [branchCode, Instr.rename]

theorem map_rename_loopCode (first : Label) (condition body : List Instr) :
    (loopCode first condition body).map (Instr.rename f) =
      loopCode first (condition.map (Instr.rename f)) (body.map (Instr.rename f)) := by
  simp [loopCode, Instr.rename]

theorem Stmt.labelCountOfAll_renameAll {statements : List Stmt}
    (ih : ∀ statement ∈ statements, (statement.rename f).labelCount = statement.labelCount) :
    Stmt.labelCountOfAll (Stmt.renameAll f statements) = Stmt.labelCountOfAll statements := by
  induction statements with
  | nil => rfl
  | cons statement more ihmore =>
    rw [renameAll, labelCountOfAll, labelCountOfAll, ih statement List.mem_cons_self,
      ihmore fun other hother ↦ ih other (List.mem_cons_of_mem _ hother)]

theorem Stmt.labelCount_rename (statement : Stmt) :
    (statement.rename f).labelCount = statement.labelCount := by
  induction statement with
  | assign target value => rfl
  | ifThen condition body ih | loop condition body ih =>
    rw [rename, labelCount, labelCount, ih]
  | ifElse condition body alternative ihbody ihalternative =>
    rw [rename, labelCount, labelCount, ihbody, ihalternative]
  | block statements ih => exact labelCountOfAll_renameAll ih

theorem Stmt.codeOfAll_renameAll {statements : List Stmt}
    (ih : ∀ statement ∈ statements, ∀ first,
      (statement.rename f).code first = (statement.code first).map (Instr.rename f))
    (first : Label) : Stmt.codeOfAll (Stmt.renameAll f statements) first =
      (Stmt.codeOfAll statements first).map (Instr.rename f) := by
  induction statements generalizing first with
  | nil => rfl
  | cons statement more ihmore =>
    rw [renameAll, codeOfAll, codeOfAll, List.map_append, labelCount_rename,
      ih statement List.mem_cons_self,
      ihmore fun other hother ↦ ih other (List.mem_cons_of_mem _ hother)]

/-- The code of a renamed statement is the code of the statement, renamed, with the same labels. -/
theorem Stmt.code_rename (statement : Stmt) (first : Label) :
    (statement.rename f).code first = (statement.code first).map (Instr.rename f) := by
  induction statement generalizing first with
  | assign target value =>
    rw [rename, code, code, value.code_rename, List.map_append]
    rfl
  | ifThen condition body ih =>
    rw [rename, code, code, map_rename_branchCode, condition.code_rename, ih, List.map_nil]
  | ifElse condition body alternative ihbody ihalternative =>
    rw [rename, code, code, map_rename_branchCode, condition.code_rename, ihbody, ihalternative,
      labelCount_rename]
  | loop condition body ih =>
    rw [rename, code, code, map_rename_loopCode, condition.code_rename, ih]
  | block statements ih => exact codeOfAll_renameAll ih first

theorem Program.code_rename (program : Program) :
    (program.rename f).code = program.code.map (Instr.rename f) := by
  have hbody := (Stmt.block program.statements).code_rename (f := f) 0
  rw [Stmt.rename] at hbody
  rw [code, rename, hbody, code, List.map_append]
  rfl

/-! ### Literals -/

theorem Expr.isWritable_rename (e : Expr) : (e.rename f).isWritable = e.isWritable := by
  cases e <;> rfl

theorem Expr.parts_rename (e : Expr) : (e.rename f).parts = e.parts.map (Expr.rename f) := by
  induction e with
  | intLit token | boolLit token | use name => rfl
  | binary left operator right ihleft ihright =>
    rw [rename, parts, parts, ihleft, ihright, ← List.map_append]
    rfl

theorem Stmt.expressionsOfAll_renameAll {statements : List Stmt}
    (ih : ∀ statement ∈ statements,
      (statement.rename f).expressions = statement.expressions.map (Expr.rename f)) :
    Stmt.expressionsOfAll (Stmt.renameAll f statements) =
      (Stmt.expressionsOfAll statements).map (Expr.rename f) := by
  induction statements with
  | nil => rfl
  | cons statement more ihmore =>
    rw [renameAll, expressionsOfAll, expressionsOfAll, List.map_append,
      ih statement List.mem_cons_self,
      ihmore fun other hother ↦ ih other (List.mem_cons_of_mem _ hother)]

theorem Stmt.expressions_rename (statement : Stmt) :
    (statement.rename f).expressions = statement.expressions.map (Expr.rename f) := by
  induction statement with
  | assign target value => exact value.parts_rename
  | ifThen condition body ih | loop condition body ih =>
    rw [rename, expressions, expressions, condition.parts_rename, ih, List.map_append]
  | ifElse condition body alternative ihbody ihalternative =>
    rw [rename, expressions, expressions, condition.parts_rename, ihbody, ihalternative,
      List.map_append, List.map_append]
  | block statements ih => exact expressionsOfAll_renameAll ih

theorem Program.literalsAreWritable_rename (program : Program) :
    LiteralsAreWritable (program.rename f).expressions ↔
      LiteralsAreWritable program.expressions := by
  have hexpressions : (program.rename f).expressions =
      program.expressions.map (Expr.rename f) :=
    (Stmt.block program.statements).expressions_rename
  simp [LiteralsAreWritable, hexpressions, Expr.isWritable_rename]

/-! ### The order of declarations -/

namespace Program

variable {program : Program} {declarations : List Decl}

/-- As long as their names are distinct, the order of declarations is not seen in the types. -/
theorem types_reorder (hperm : declarations.Perm program.declarations)
    (hdistinct : (declarations.map (·.name.lexeme)).Nodup) :
    ({ program with declarations } : Program).types = program.types := by
  funext name
  have hfound : declarations.find? (·.name.lexeme == name) =
      program.declarations.find? (·.name.lexeme == name) := by
    refine List.find?_eq_find?_of_perm hperm ?_
    rintro decl ⟨hdecl, hname⟩ other ⟨hother, hsame⟩
    refine List.inj_on_of_nodup_map hdistinct hdecl hother ?_
    rw [eq_of_beq hname, eq_of_beq hsame]
  rw [types, types, hfound]

theorem mem_variableNames_reorder (hperm : declarations.Perm program.declarations) {name : String} :
    name ∈ ({ program with declarations } : Program).variableNames ↔
      name ∈ program.variableNames :=
  ((hperm.map _).append_right _).mem_iff

theorem WellFormed.reorder (h : program.WellFormed)
    (hperm : declarations.Perm program.declarations) :
    ({ program with declarations } : Program).WellFormed where
  name := h.name
  declarations decl hdecl := h.declarations decl (hperm.mem_iff.mp hdecl)
  statements := h.statements

/-! ### The check -/

theorem violations_eq_nil_iff : program.violations = [] ↔
    (program.declarations.map (·.name.lexeme)).Nodup ∧
      (Stmt.block program.statements).violations program.types program.names = [] := by
  rw [violations, List.append_eq_nil_iff, Program.repetitions_eq_nil_iff]

/-- The check of a well-formed program succeeds exactly if a review finds nothing. -/
theorem WellFormed.exists_check_eq_ok_iff (h : program.WellFormed) :
    (∃ found scope, program.node.check .empty = (.ok found, scope)) ↔ program.violations = [] := by
  have hreports := h.check_reports
  cases hviolations : program.violations with
  | nil =>
    rw [hviolations] at hreports
    obtain ⟨found, scope, hyields, -⟩ := hreports
    exact iff_of_true ⟨found, scope, hyields⟩ rfl
  | cons first more =>
    rw [hviolations] at hreports
    refine iff_of_false ?_ (List.cons_ne_nil first more)
    rintro ⟨found, scope, hcheck⟩
    have hfound : (program.node.check .empty).1 = .ok found := congrArg Prod.fst hcheck
    cases hfound.symm.trans hreports

/-- Otherwise it is stopped by the first violation. -/
theorem WellFormed.exists_check_eq_error (h : program.WellFormed) {first : Violation}
    {more : List Violation} (hviolations : program.violations = first :: more) :
    ∃ scope, program.node.check .empty = (.error (.violation first), scope) := by
  have hreports := h.check_reports
  rw [hviolations] at hreports
  exact ⟨_, Prod.ext hreports rfl⟩

/-- Names are declared twice in the renamed and reordered program exactly if they are in the
original one. -/
theorem nodup_names_rename_reorder (hf : Set.InjOn f {name | name ∈ program.variableNames})
    (hperm : declarations.Perm program.declarations) :
    ((declarations.map (Decl.rename f)).map (·.name.lexeme)).Nodup ↔
      (program.declarations.map (·.name.lexeme)).Nodup := by
  have hnames := hperm.map (·.name.lexeme)
  have hdeclared : ∀ name ∈ declarations.map (·.name.lexeme), name ∈ program.variableNames :=
    fun name hname ↦ List.mem_append_left _ (hnames.mem_iff.mp hname)
  rw [Decl.map_name_rename, ← hnames.nodup_iff]
  refine ⟨List.Nodup.of_map f, fun hdistinct ↦ hdistinct.map_on ?_⟩
  intro name hname other hother hsame
  exact hf (hdeclared name hname) (hdeclared other hother) hsame

/-- There is nothing to report of the renamed and reordered program exactly if there is nothing to
report of the original one. -/
theorem violations_rename_reorder_eq_nil_iff
    (hf : Set.InjOn f {name | name ∈ program.variableNames})
    (hperm : declarations.Perm program.declarations) :
    (rename f { program with declarations }).violations = [] ↔ program.violations = [] := by
  have hinj : Set.InjOn f
      {name | name ∈ ({ program with declarations } : Program).variableNames} :=
    hf.mono fun _ hname ↦ (mem_variableNames_reorder hperm).mp hname
  have hnodup := nodup_names_rename_reorder hf hperm
  rw [violations_eq_nil_iff, violations_eq_nil_iff]
  refine (and_congr_left' hnodup).trans (and_congr_right fun hdistinct ↦ ?_)
  have hcarries : TypeEnv.Carries f program.variableNames program.types
      (rename f { program with declarations }).types := by
    intro name hname
    rw [← types_reorder hperm ((hperm.map _).nodup_iff.mpr hdistinct)]
    exact carries_types_rename hinj name ((mem_variableNames_reorder hperm).mpr hname)
  have hbody : List.Forall₂ (Violation.Renames f)
      ((Stmt.block program.statements).violations program.types program.names)
      ((Stmt.block program.statements).rename f |>.violations
        (rename f { program with declarations }).types
        (rename f { program with declarations }).names) :=
    Stmt.violations_rename hcarries.right
  rw [← List.length_eq_zero_iff, ← List.length_eq_zero_iff, hbody.length_eq]
  rfl

end Program

/-! ### Programs that are read -/

open Grammar

/-- Renaming the variables of a program that was read, no two of them alike, and reordering its
declarations neither makes nor mends a violation, and changes nothing in the code but the names of
the variables that are loaded and stored. There is code if the literals can be written. If only the
names change, what stops the check is the same violation as before. -/
theorem check_code_rename_reorder {stream rest : TokenStream} {depth : Nat} {lines : List String}
    {program : Program} (hread : stream.readProgramWithin depth lines = (.ok program, rest))
    (hf : Set.InjOn f {name | name ∈ program.variableNames}) {declarations : List Decl}
    (hperm : declarations.Perm program.declarations) :
    let changed := Program.rename f { program with declarations }
    ((∃ found scope, changed.node.check .empty = (.ok found, scope)) ↔
      ∃ found scope, program.node.check .empty = (.ok found, scope)) ∧
    changed.node.code =
      (fun result ↦ (result.1.map (Instr.rename f), result.2)) <$> program.node.code ∧
    (LiteralsAreWritable program.expressions →
      ∃ code labels, program.node.code = .ok (code, labels)) ∧
    ∀ fault scope, program.node.check .empty = (.error fault, scope) →
      ∃ found other left, fault = .violation found ∧ found.Renames f other ∧
        (program.rename f).node.check .empty = (.error (.violation other), left) := by
  intro changed
  obtain ⟨tokens, -, hderives, hnearest⟩ := TokenStream.derives_of_readProgramWithin hread
  have hformed := hderives.wellFormed hnearest
  have hchanged : changed.WellFormed := (hformed.reorder hperm).rename
  have hoperators := (Stmt.WellFormed.block hformed.statements).operatorsOperate
  refine ⟨?_, ?_, fun hliterals ↦ ⟨_, _, Program.code_node hoperators hliterals⟩,
    fun fault scope hfault ↦ ?_⟩
  · rw [hchanged.exists_check_eq_ok_iff, hformed.exists_check_eq_ok_iff]
    exact Program.violations_rename_reorder_eq_nil_iff hf hperm
  · have hrenamed := (Stmt.WellFormed.block hchanged.statements).operatorsOperate
    have hcode : changed.code = program.code.map (Instr.rename f) := program.code_rename
    have hlabels : Stmt.labelCountOfAll changed.statements =
        Stmt.labelCountOfAll program.statements :=
      Stmt.labelCount_rename (.block program.statements)
    have hliterals : LiteralsAreWritable changed.expressions ↔
        LiteralsAreWritable program.expressions := program.literalsAreWritable_rename
    rw [Program.code_node_eq hrenamed, Program.code_node_eq hoperators, hcode, hlabels,
      ifWritable_congr hliterals, map_ifWritable]
    rfl
  · have hfaults : program.violations ≠ [] := fun hnone ↦ by
      obtain ⟨found, left, hcheck⟩ := hformed.exists_check_eq_ok_iff.mpr hnone
      cases hfault.symm.trans hcheck
    obtain ⟨found, more, hviolations⟩ := List.exists_cons_of_ne_nil hfaults
    obtain ⟨left, hcheck⟩ := hformed.exists_check_eq_error hviolations
    cases hfault.symm.trans hcheck
    have hrenames := Program.violations_rename hf
    rw [hviolations, List.forall₂_cons_left_iff] at hrenames
    obtain ⟨other, others, hother, -, hothers⟩ := hrenames
    obtain ⟨left, hcheck⟩ := hformed.rename.exists_check_eq_error hothers
    exact ⟨found, other, left, rfl, hother, hcheck⟩

/-- The program `program p; var x : integer; var b : boolean; begin while b do b := x < 1; end`. -/
def waiting : Program :=
  let token (kind : TokenKind) (lexeme : String) : Token := ⟨kind, lexeme, none, ⟨"", 1, 1⟩⟩
  let one : Token := ⟨.intLit, "1", some (.int 1), ⟨"", 1, 1⟩⟩
  let x := token .ident "x"
  let b := token .ident "b"
  { name := token .ident "p"
    declarations := [⟨x, token .integerKw "integer"⟩, ⟨b, token .booleanKw "boolean"⟩]
    statements := [.loop (.use b) (.assign b (.binary (.use x) (token .less "<") (.intLit one)))] }

/-- Calls the variables of this program what its first label and its last instruction are called. -/
def disguise (name : String) : String :=
  if name = "x" then "L0" else if name = "b" then "HALT" else name

/-- The disguised program, with its declarations in the other order, passes the check as the
original one does, and its variables are not mixed up with its labels. -/
theorem check_code_disguised :
    waiting.stream.readProgramWithin nestingLimit [] = (.ok waiting, .endingAt ⟨"", 1, 1⟩ []) ∧
    Set.InjOn disguise {name | name ∈ waiting.variableNames} ∧
    waiting.declarations.reverse.Perm waiting.declarations ∧
    LiteralsAreWritable waiting.expressions ∧
    let changed :=
      Program.rename disguise { waiting with declarations := waiting.declarations.reverse }
    (∃ found scope, changed.node.check .empty = (.ok found, scope)) ∧
    ∃ code labels, changed.node.code = .ok (code, labels) ∧
      code.map Instr.text = ["L0:", "LOAD HALT", "JUMPIF(0) L1", "LOAD L0", "LOADL 1", "LT",
        "STORE HALT", "JUMP L0", "L1:", "HALT"] := by
  have hread : waiting.stream.readProgramWithin nestingLimit [] =
      (.ok waiting, .endingAt ⟨"", 1, 1⟩ []) := rfl
  have hf : Set.InjOn disguise {name | name ∈ waiting.variableNames} := by
    have hall : ∀ name ∈ waiting.variableNames, ∀ other ∈ waiting.variableNames,
        disguise name = disguise other → name = other := by decide +kernel
    exact fun name hname other hother ↦ hall name hname other hother
  have hperm := List.reverse_perm waiting.declarations
  have hliterals : LiteralsAreWritable waiting.expressions := by decide +kernel
  have hbefore : waiting.node.code = .ok (waiting.code, 2) := by decide +kernel
  obtain ⟨haccepted, hchanged, hwritten, -⟩ := check_code_rename_reorder hread hf hperm
  obtain ⟨code, labels, hcode⟩ := hwritten hliterals
  rw [hcode] at hchanged
  obtain ⟨rfl, rfl⟩ := Prod.mk.inj (Except.ok.inj (hcode.symm.trans hbefore))
  refine ⟨hread, hf, hperm, hliterals, haccepted.mpr ⟨_, _, rfl⟩, _, _, hchanged, ?_⟩
  decide +kernel

end StackCompiler
