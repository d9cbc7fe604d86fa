import StackCompiler.Machine.Emit
import StackCompiler.Proofs.Execution.Machine
import StackCompiler.Proofs.Execution.Source

/-!
# The layout of code

The code of a tree as a function of the tree and the first free label. A statement uses as many
labels as `Stmt.labelCount` says, so what is free behind it is known without its code. For a tree
with operators where operators belong, this is the code that is generated, unless a literal cannot
be written (`Program.code_node_eq`); a well-typed tree is one of these
(`OperatorsOperate.of_hasType`).

Every label that is used marks exactly one line and is the target of one jump
(`OncePerLabel.perm_filterMap`), and every other instruction is one of an expression
(`Stmt.occurs_of_mem_code`). A jump therefore goes to the line that the construct around it has in
mind, wherever in a larger code that construct stands: `Machine.HasAt.branchAt` and
`Machine.HasAt.loopAt` say so for the two constructs with jumps.
-/

set_option autoImplicit false
set_option relaxedAutoImplicit false

namespace StackCompiler

/-! ### Code as a function of trees -/

def Expr.code : Expr → List Instr
  | binary left operator right =>
    left.code ++ right.code ++ ((Operation.ofKind? operator.kind).map Instr.apply).toList
  | intLit token => [.push token.literal]
  | boolLit token => [.push (some (.int token.truth.toInt))]
  | use name => [.load name.lexeme]

mutual

/-- The number of labels in the code of a statement. -/
def Stmt.labelCount : Stmt → Nat
  | .assign .. => 0
  | .ifThen _ body | .loop _ body => 2 + body.labelCount
  | .ifElse _ body alternative => 2 + body.labelCount + alternative.labelCount
  | .block statements => Stmt.labelCountOfAll statements

def Stmt.labelCountOfAll : List Stmt → Nat
  | [] => 0
  | statement :: more => statement.labelCount + Stmt.labelCountOfAll more

end

mutual

/-- The code of a statement whose labels are numbered from a given one on. -/
def Stmt.code : Stmt → Label → List Instr
  | .assign target value, _ => value.code ++ [.store target.lexeme]
  | .ifThen condition body, first => branchCode first condition.code (body.code (first + 2)) []
  | .ifElse condition body alternative, first =>
    branchCode first condition.code (body.code (first + 2))
      (alternative.code (first + 2 + body.labelCount))
  | .loop condition body, first => loopCode first condition.code (body.code (first + 2))
  | .block statements, first => Stmt.codeOfAll statements first

def Stmt.codeOfAll : List Stmt → Label → List Instr
  | [], _ => []
  | statement :: more, first =>
    statement.code first ++ Stmt.codeOfAll more (first + statement.labelCount)

end

def Program.code (program : Program) : List Instr :=
  (Stmt.block program.statements).code 0 ++ [.halt]

/-! ### The code that is generated -/

theorem TokenKind.Joins.exists_operation {kind : TokenKind} {first second result : Ty}
    (h : kind.Joins first second result) :
    ∃ operation, Operation.ofKind? kind = some operation := by
  cases h with
  | arithmetic h | logical h | comparison type h =>
    rcases h with rfl | rfl | rfl | rfl <;> exact ⟨_, rfl⟩

/-- On values of the right types, the operation of an operator does what the operator does. -/
theorem TokenKind.Joins.exists_result?_eq {kind : TokenKind} {first second result : Ty}
    (h : kind.Joins first second result) {left right : Int} (hleft : first.Holds left)
    (hright : second.Holds right) (divide : Division) :
    ∃ operation, Operation.ofKind? kind = some operation ∧
      operation.result? divide left right = kind.join? divide left right := by
  cases h with
  | arithmetic h =>
    rcases h with rfl | rfl | rfl | rfl <;> exact ⟨_, rfl, rfl⟩
  | logical h =>
    -- Only the truth values are connected by an operator, while the machine connects all integers.
    obtain ⟨first, rfl⟩ := Ty.holds_boolean_iff.mp hleft
    obtain ⟨second, rfl⟩ := Ty.holds_boolean_iff.mp hright
    rcases h with rfl | rfl <;> refine ⟨_, rfl, ?_⟩ <;> cases first <;> cases second <;> rfl
  | comparison type h =>
    rcases h with rfl | rfl | rfl <;> exact ⟨_, rfl, rfl⟩

/-- The operators among some expressions stand for operations. -/
def OperatorsOperate (expressions : List Expr) : Prop :=
  ∀ left operator right, .binary left operator right ∈ expressions →
    ∃ operation, Operation.ofKind? operator.kind = some operation

theorem OperatorsOperate.of_subset {some all : List Expr} (h : OperatorsOperate all)
    (hsubset : some ⊆ all) : OperatorsOperate some :=
  fun left operator right hmem ↦ h left operator right (hsubset hmem)

/-- No type is joined by what is no operator. -/
theorem OperatorsOperate.of_hasType {types : TypeEnv} {expressions : List Expr}
    (h : ∀ e ∈ expressions, ∃ type, e.HasType types type) : OperatorsOperate expressions := by
  intro left operator right hmem
  obtain ⟨type, htype⟩ := h _ hmem
  cases htype with
  | binary _ _ hoperator => exact hoperator.exists_operation

/-- Whether the number can be written, if the expression is a literal. -/
def Expr.isWritable : Expr → Bool
  | intLit token => token.literal.all Literal.isWritable
  | binary .. | boolLit _ | use _ => true

/-- The literals among some expressions can be written. -/
def LiteralsAreWritable (expressions : List Expr) : Prop :=
  ∀ e ∈ expressions, e.isWritable = true

instance (expressions : List Expr) : Decidable (LiteralsAreWritable expressions) :=
  inferInstanceAs (Decidable (∀ e ∈ expressions, e.isWritable = true))

/-- What is generated for some expressions and what comes behind, if the literals can be written;
otherwise one of them stops the generator. -/
def ifWritable {α : Type} (expressions : List Expr) (result : Except Breakdown α) :
    Except Breakdown α :=
  if LiteralsAreWritable expressions then result else .error .unwritableLiteral

section Writable

variable {α β : Type}

theorem ifWritable_bind (expressions : List Expr) (result : Except Breakdown α)
    (next : α → Except Breakdown β) :
    (ifWritable expressions result >>= next) = ifWritable expressions (result >>= next) := by
  unfold ifWritable
  split <;> rfl

theorem map_ifWritable (f : α → β) (expressions : List Expr) (result : Except Breakdown α) :
    f <$> ifWritable expressions result = ifWritable expressions (f <$> result) := by
  unfold ifWritable
  split <;> rfl

theorem ifWritable_congr {first second : List Expr}
    (h : LiteralsAreWritable first ↔ LiteralsAreWritable second) (result : Except Breakdown α) :
    ifWritable first result = ifWritable second result := by
  simp only [ifWritable, h]

theorem ifWritable_ifWritable (first second : List Expr) (result : Except Breakdown α) :
    ifWritable first (ifWritable second result) = ifWritable (first ++ second) result := by
  have happend : LiteralsAreWritable (first ++ second) ↔
      LiteralsAreWritable first ∧ LiteralsAreWritable second := List.forall_mem_append
  unfold ifWritable
  by_cases hfirst : LiteralsAreWritable first <;> simp [happend, hfirst]

theorem ifWritable_cons {e : Expr} (h : e.isWritable = true) (more : List Expr)
    (result : Except Breakdown α) : ifWritable (e :: more) result = ifWritable more result :=
  ifWritable_congr (by simp [LiteralsAreWritable, h]) result

theorem ifWritable_nil (result : Except Breakdown α) : ifWritable [] result = result :=
  if_pos (List.forall_mem_nil _)

end Writable

theorem Expr.codeFrom_node {e : Expr} (h : OperatorsOperate e.parts) (first : Label) :
    e.node.codeFrom first = ifWritable e.parts (pure (e.code, first)) := by
  induction e with
  | intLit token =>
    have hsame : LiteralsAreWritable (intLit token).parts ↔
        token.literal.all Literal.isWritable = true := by
      simp [LiteralsAreWritable, parts, isWritable]
    simp only [node, Node.codeFrom, Instr.ofLiteral, ifWritable, hsame, code]
    split <;> rfl
  | boolLit token =>
    simp only [parts, ifWritable_cons (e := boolLit token) rfl, ifWritable_nil]
    rw [node, Node.codeFrom, code]
    cases token.truth <;> rfl
  | use name =>
    simp only [parts, ifWritable_cons (e := use name) rfl, ifWritable_nil]
    rfl
  | binary left operator right ihleft ihright =>
    obtain ⟨operation, hoperation⟩ := h left operator right List.mem_cons_self
    have hleft := ihleft (h.of_subset (by simp [parts]))
    have hright := ihright (h.of_subset (by simp [parts]))
    simp only [node, Node.codeFrom, hleft, hright, ifWritable_bind, pure_bind, Instr.ofOperator,
      code, parts, hoperation, ifWritable_ifWritable, ifWritable_cons (e := binary ..) rfl]
    rfl

theorem Stmt.codeFromAll_nodes {statements : List Stmt}
    (ih : ∀ statement ∈ statements, ∀ first, statement.node.codeFrom first =
      ifWritable statement.expressions
        (pure (statement.code first, first + statement.labelCount)))
    (first : Label) : Node.codeFromAll first (Stmt.nodes statements) =
      ifWritable (Stmt.expressionsOfAll statements)
        (pure (Stmt.codeOfAll statements first, first + Stmt.labelCountOfAll statements)) := by
  induction statements generalizing first with
  | nil => exact (ifWritable_nil _).symm
  | cons statement more ihmore =>
    have hfirst := ih statement List.mem_cons_self first
    have hmore := ihmore (fun other hother ↦ ih other (List.mem_cons_of_mem _ hother))
    simp only [nodes, Node.codeFromAll, hfirst, hmore, ifWritable_bind, pure_bind, codeOfAll,
      labelCountOfAll, expressionsOfAll, ifWritable_ifWritable, Nat.add_assoc]

theorem Stmt.codeFrom_node {statement : Stmt} (h : OperatorsOperate statement.expressions)
    (first : Label) : statement.node.codeFrom first = ifWritable statement.expressions
      (pure (statement.code first, first + statement.labelCount)) := by
  induction statement generalizing first with
  | assign target value =>
    simp only [node, Node.codeFrom, Expr.codeFrom_node h, ifWritable_bind, pure_bind, code,
      labelCount, expressions, Nat.add_zero]
  | ifThen condition body ih | loop condition body ih =>
    have hcondition := condition.codeFrom_node (h.of_subset (by simp [expressions]))
    have hbody := ih (h.of_subset (by simp [expressions]))
    simp only [node, Node.codeFrom, hcondition, hbody, ifWritable_bind, pure_bind, code, labelCount,
      expressions, ifWritable_ifWritable, Nat.add_assoc]
  | ifElse condition body alternative ihbody ihalternative =>
    have hcondition := condition.codeFrom_node (h.of_subset (by simp [expressions]))
    have hbody := ihbody (h.of_subset (by simp [expressions]))
    have halternative := ihalternative (h.of_subset (by simp [expressions]))
    simp only [node, Node.codeFrom, hcondition, hbody, halternative, ifWritable_bind, pure_bind,
      code, labelCount, expressions, ifWritable_ifWritable, Nat.add_assoc, List.append_assoc]
  | block statements ih =>
    simp only [node, Node.codeFrom, code, labelCount, expressions]
    refine codeFromAll_nodes (fun statement hmem ↦ ih statement hmem (h.of_subset ?_)) first
    exact fun e he ↦ mem_expressionsOfAll.mpr ⟨statement, hmem, he⟩

/-- Declarations have no code. -/
theorem codeFromAll_decls (declarations : List Decl) (first : Label) :
    Node.codeFromAll first (declarations.map Decl.node) = pure ([], first) := by
  induction declarations with
  | nil => rfl
  | cons decl more ih =>
    simp only [List.map_cons, Decl.node, Node.codeFromAll, Node.codeFrom, ih, pure_bind,
      List.append_nil]

/-- What is generated for a program, whether it keeps the rules for types or not. -/
theorem Program.code_node_eq {program : Program} (h : OperatorsOperate program.expressions) :
    program.node.code = ifWritable program.expressions
      (.ok (program.code, Stmt.labelCountOfAll program.statements)) := by
  have hbody := (Stmt.block program.statements).codeFrom_node h 0
  rw [Stmt.node] at hbody
  simp only [Node.code, node, Node.codeFrom, codeFromAll_decls, pure_bind] at hbody ⊢
  simp only [hbody, ifWritable_bind, pure_bind, code, Stmt.code, Stmt.labelCount, List.nil_append,
    Nat.zero_add]
  rfl

/-- The code of a program whose literals can be written. -/
theorem Program.code_node {program : Program} (h : OperatorsOperate program.expressions)
    (hliterals : LiteralsAreWritable program.expressions) :
    program.node.code = .ok (program.code, Stmt.labelCountOfAll program.statements) := by
  rw [program.code_node_eq h, ifWritable, if_pos hliterals]

/-- The code that is generated for a well-typed program. -/
theorem Program.WellTyped.code_node {program : Program} (h : program.WellTyped)
    (hliterals : LiteralsAreWritable program.expressions) :
    program.node.code = .ok (program.code, Stmt.labelCountOfAll program.statements) :=
  program.code_node (.of_hasType h.exists_hasType) hliterals

/-! ### The instructions of code -/

/-- The last instruction of the code of an expression. -/
def Expr.instr? : Expr → Option Instr
  | binary _ operator _ => (Operation.ofKind? operator.kind).map Instr.apply
  | intLit token => some (.push token.literal)
  | boolLit token => some (.push (some (.int token.truth.toInt)))
  | use name => some (.load name.lexeme)

/-- Whether an instruction belongs to no expression. -/
def Instr.isControl : Instr → Bool
  | .store _ | .jump _ | .jumpIfZero _ | .label _ => true
  | .push _ | .load _ | .apply _ | .halt => false

theorem Expr.exists_of_mem_code {e : Expr} {instruction : Instr} (h : instruction ∈ e.code) :
    ∃ part ∈ e.parts, part.instr? = some instruction := by
  induction e with
  | intLit _ | boolLit _ | use _ =>
    cases List.mem_singleton.mp h
    exact ⟨_, List.mem_cons_self, rfl⟩
  | binary left operator right ihleft ihright =>
    simp only [code, List.mem_append, Option.mem_toList] at h
    rcases h with (h | h) | h
    · obtain ⟨part, hpart, hinstr⟩ := ihleft h
      exact ⟨part, by simp [parts, hpart], hinstr⟩
    · obtain ⟨part, hpart, hinstr⟩ := ihright h
      exact ⟨part, by simp [parts, hpart], hinstr⟩
    · exact ⟨_, List.mem_cons_self, h⟩

/-- An instruction is one of some expressions, or it belongs to none. -/
def Instr.Occurs (expressions : List Expr) (instruction : Instr) : Prop :=
  (∃ e ∈ expressions, instruction ∈ e.code) ∨ instruction.isControl = true

theorem Instr.Occurs.of_subset {some all : List Expr} {instruction : Instr}
    (h : instruction.Occurs some) (hsubset : some ⊆ all) : instruction.Occurs all :=
  h.imp_left fun ⟨e, he, hinstr⟩ ↦ ⟨e, hsubset he, hinstr⟩

theorem cases_of_mem_branchCode {first : Label} {condition body alternative : List Instr}
    {instruction : Instr} (h : instruction ∈ branchCode first condition body alternative) :
    instruction ∈ condition ∨ instruction ∈ body ∨ instruction ∈ alternative ∨
      instruction.isControl = true := by
  simp only [branchCode, List.mem_append, List.mem_cons, List.not_mem_nil, or_false] at h
  grind [Instr.isControl]

theorem cases_of_mem_loopCode {first : Label} {condition body : List Instr} {instruction : Instr}
    (h : instruction ∈ loopCode first condition body) :
    instruction ∈ condition ∨ instruction ∈ body ∨ instruction.isControl = true := by
  simp only [loopCode, List.mem_append, List.mem_cons, List.not_mem_nil, or_false] at h
  grind [Instr.isControl]

theorem Stmt.occurs_of_mem_codeOfAll {statements : List Stmt} {instruction : Instr}
    (ih : ∀ statement ∈ statements, ∀ first, instruction ∈ statement.code first →
      instruction.Occurs statement.expressions) {first : Label}
    (h : instruction ∈ Stmt.codeOfAll statements first) :
    instruction.Occurs (Stmt.expressionsOfAll statements) := by
  induction statements generalizing first with
  | nil => cases h
  | cons statement more ihmore =>
    rcases List.mem_append.mp h with h | h
    · exact (ih statement List.mem_cons_self first h).of_subset (List.subset_append_left ..)
    · have hmore := ihmore (fun other hother ↦ ih other (List.mem_cons_of_mem _ hother)) h
      exact hmore.of_subset (List.subset_append_right ..)

/-- Every instruction of a statement is one of its expressions, or it belongs to none. -/
theorem Stmt.occurs_of_mem_code {statement : Stmt} {instruction : Instr} {first : Label}
    (h : instruction ∈ statement.code first) : instruction.Occurs statement.expressions := by
  induction statement generalizing first with
  | assign target value =>
    rcases List.mem_append.mp h with h | h
    · exact .inl ⟨value, value.self_mem_parts, h⟩
    · cases List.mem_singleton.mp h
      exact .inr rfl
  | ifThen condition body ih =>
    rcases cases_of_mem_branchCode h with h | h | h | h
    · exact .inl ⟨condition, List.mem_append_left _ condition.self_mem_parts, h⟩
    · exact (ih h).of_subset (List.subset_append_right ..)
    · cases h
    · exact .inr h
  | ifElse condition body alternative ihbody ihalternative =>
    rcases cases_of_mem_branchCode h with h | h | h | h
    · exact .inl ⟨condition, by simp [expressions, condition.self_mem_parts], h⟩
    · exact (ihbody h).of_subset (by simp [expressions])
    · exact (ihalternative h).of_subset (by simp [expressions])
    · exact .inr h
  | loop condition body ih =>
    rcases cases_of_mem_loopCode h with h | h | h
    · exact .inl ⟨condition, List.mem_append_left _ condition.self_mem_parts, h⟩
    · exact (ih h).of_subset (List.subset_append_right ..)
    · exact .inr h
  | block statements ih => exact occurs_of_mem_codeOfAll (fun s hs _ ↦ ih s hs) h

/-! ### Labels -/

/-- The label that an instruction marks its line with. -/
def Instr.mark? : Instr → Option Label
  | .label mark => some mark
  | _ => none

/-- The label that an instruction may jump to. -/
def Instr.target? : Instr → Option Label
  | .jump target | .jumpIfZero target => some target
  | _ => none

@[simp] theorem Instr.target?_jump (target : Label) : (jump target).target? = some target :=
  rfl

@[simp] theorem Instr.target?_jumpIfZero (target : Label) :
    (jumpIfZero target).target? = some target :=
  rfl

@[simp] theorem Instr.target?_label (mark : Label) : (label mark).target? = none :=
  rfl

theorem Instr.mark?_eq_some {instruction : Instr} {label : Label} :
    instruction.mark? = some label ↔ instruction = .label label := by
  cases instruction <;> simp [mark?]

/-- What is read off instructions are labels, and conditions and loops have each of their two labels
once for it. -/
structure OncePerLabel (read : Instr → Option Label) : Prop where
  push : ∀ value, read (.push value) = none
  load : ∀ name, read (.load name) = none
  store : ∀ name, read (.store name) = none
  apply : ∀ operation, read (.apply operation) = none
  halt : read .halt = none
  branch : ∀ first label,
    [Instr.jumpIfZero first, .jump (first + 1), .label first, .label (first + 1)].countP
      (read · == some label) = (List.range' first 2).count label
  loop : ∀ first label,
    [Instr.label first, .jumpIfZero (first + 1), .jump first, .label (first + 1)].countP
      (read · == some label) = (List.range' first 2).count label

theorem oncePerLabel_mark : OncePerLabel Instr.mark? where
  push _ := rfl
  load _ := rfl
  store _ := rfl
  apply _ := rfl
  halt := rfl
  branch first label := by simp [Instr.mark?, List.countP_cons, List.count_cons, List.range'_succ]
  loop first label := by simp [Instr.mark?, List.countP_cons, List.count_cons, List.range'_succ]

theorem oncePerLabel_target : OncePerLabel Instr.target? where
  push _ := rfl
  load _ := rfl
  store _ := rfl
  apply _ := rfl
  halt := rfl
  branch first label := by simp [Instr.target?, List.countP_cons, List.count_cons, List.range'_succ]
  loop first label := by
    simp [Instr.target?, List.countP_cons, List.count_cons, List.range'_succ]
    omega

theorem count_range'_add (first size more label : Nat) :
    (List.range' first (size + more)).count label =
      (List.range' first size).count label + (List.range' (first + size) more).count label := by
  rw [← List.range'_append_1, List.count_append]

theorem Stmt.countP_codeOfAll {statements : List Stmt} {holds : Instr → Bool} {label : Label}
    (ih : ∀ statement ∈ statements, ∀ first, (statement.code first).countP holds =
      (List.range' first statement.labelCount).count label) (first : Label) :
    (Stmt.codeOfAll statements first).countP holds =
      (List.range' first (Stmt.labelCountOfAll statements)).count label := by
  induction statements generalizing first with
  | nil => rfl
  | cons statement more ihmore =>
    have hmore := ihmore fun other hother ↦ ih other (List.mem_cons_of_mem _ hother)
    rw [codeOfAll, labelCountOfAll, List.countP_append, count_range'_add, hmore,
      ih statement List.mem_cons_self]

namespace OncePerLabel

variable {read : Instr → Option Label} (h : OncePerLabel read) {label : Label}

include h

theorem filterMap_expr (e : Expr) : e.code.filterMap read = [] := by
  induction e with
  | intLit token | boolLit token => simp [Expr.code, h.push]
  | use name => simp [Expr.code, h.load]
  | binary left operator right ihleft ihright =>
    cases hoperation : Operation.ofKind? operator.kind with
    | none => simp [Expr.code, ihleft, ihright, hoperation]
    | some operation => simp [Expr.code, ihleft, ihright, hoperation, h.apply]

theorem countP_expr (e : Expr) : e.code.countP (read · == some label) = 0 := by
  rw [← List.count_filterMap, h.filterMap_expr, List.count_nil]

theorem countP_branchCode (first : Label) (condition body alternative : List Instr) :
    (branchCode first condition body alternative).countP (read · == some label) =
      condition.countP (read · == some label) + (List.range' first 2).count label +
        body.countP (read · == some label) + alternative.countP (read · == some label) := by
  rw [← h.branch]
  simp only [branchCode, List.countP_append, List.countP_cons, List.countP_nil]
  omega

theorem countP_loopCode (first : Label) (condition body : List Instr) :
    (loopCode first condition body).countP (read · == some label) =
      condition.countP (read · == some label) + (List.range' first 2).count label +
        body.countP (read · == some label) := by
  rw [← h.loop]
  simp only [loopCode, List.countP_append, List.countP_cons, List.countP_nil]
  omega

theorem countP_stmt (statement : Stmt) (first : Label) :
    (statement.code first).countP (read · == some label) =
      (List.range' first statement.labelCount).count label := by
  induction statement generalizing first with
  | assign target value => simp [Stmt.code, Stmt.labelCount, h.countP_expr, h.store]
  | ifThen condition body ih =>
    rw [Stmt.code, Stmt.labelCount, h.countP_branchCode, h.countP_expr, count_range'_add, ih,
      List.countP_nil, Nat.zero_add, Nat.add_zero]
  | ifElse condition body alternative ihbody ihalternative =>
    rw [Stmt.code, Stmt.labelCount, h.countP_branchCode, h.countP_expr, count_range'_add,
      count_range'_add, ihbody, ihalternative, Nat.zero_add, Nat.add_assoc first]
  | loop condition body ih =>
    rw [Stmt.code, Stmt.labelCount, h.countP_loopCode, h.countP_expr, count_range'_add, ih,
      Nat.zero_add]
  | block statements ih => exact Stmt.countP_codeOfAll ih first

open List in
/-- What is read off the code of a statement are the labels that it uses, once each. -/
theorem perm_filterMap (statement : Stmt) (first : Label) :
    (statement.code first).filterMap read ~ List.range' first statement.labelCount := by
  refine List.perm_iff_count.mpr fun label ↦ ?_
  rw [List.count_filterMap, h.countP_stmt]

theorem mem_filterMap (statement : Stmt) (first label : Nat) :
    label ∈ (statement.code first).filterMap read ↔
      first ≤ label ∧ label < first + statement.labelCount := by
  rw [(h.perm_filterMap statement first).mem_iff, List.mem_range'_1]

end OncePerLabel

/-- The labels that mark lines of the code of a statement are those that it uses, once each. -/
theorem Stmt.count_label (statement : Stmt) (first label : Label) :
    (statement.code first).count (.label label) =
      (List.range' first statement.labelCount).count label := by
  rw [← oncePerLabel_mark.countP_stmt, List.count]
  refine List.countP_congr fun instruction _ ↦ ?_
  rw [beq_iff_eq, beq_iff_eq, Instr.mark?_eq_some]

theorem label_mem_iff {code : List Instr} {label : Label} :
    .label label ∈ code ↔ label ∈ code.filterMap Instr.mark? := by
  simp [Instr.mark?_eq_some]

theorem Stmt.label_mem_code_iff (statement : Stmt) (first label : Nat) :
    .label label ∈ statement.code first ↔ first ≤ label ∧ label < first + statement.labelCount :=
  label_mem_iff.trans (oncePerLabel_mark.mem_filterMap statement first label)

/-- No two lines of the code of a program are marked by one label. -/
theorem Program.count_label_le_one (program : Program) (label : Label) :
    program.code.count (.label label) ≤ 1 := by
  have honce := List.nodup_iff_count.mp
    (List.nodup_range' : (List.range' 0 (Stmt.block program.statements).labelCount).Nodup) label
  rw [code, List.count_append, Stmt.count_label]
  simpa using honce

/-! ### Code in larger code -/

namespace Machine

variable {machine : Machine} {line : Nat} {first second : List Instr}

/-- A piece of code stands in the code of a machine, from a line on. -/
def HasAt (machine : Machine) (line : Nat) (piece : List Instr) : Prop :=
  ∃ before after, machine.code = before ++ piece ++ after ∧ before.length = line

theorem HasAt.left (h : machine.HasAt line (first ++ second)) : machine.HasAt line first := by
  obtain ⟨before, after, hcode, hline⟩ := h
  exact ⟨before, second ++ after, by simpa using hcode, hline⟩

theorem HasAt.right (h : machine.HasAt line (first ++ second)) :
    machine.HasAt (line + first.length) second := by
  obtain ⟨before, after, hcode, hline⟩ := h
  exact ⟨before ++ first, after, by simpa using hcode, by rw [List.length_append, hline]⟩

theorem HasAt.getElem? {instruction : Instr} (h : machine.HasAt line [instruction]) :
    machine.code[line]? = some instruction := by
  obtain ⟨before, after, hcode, rfl⟩ := h
  simp [hcode]

theorem HasAt.step? {instruction : Instr} (h : machine.HasAt line [instruction])
    (stack : List Int) (store : Store) : machine.step? ⟨line, stack, store⟩ =
      instruction.perform? machine.divide machine.code ⟨line, stack, store⟩ := by
  rw [Machine.step?, h.getElem?]
  rfl

/-- No two lines are marked by one label. -/
def LabelsUnique (machine : Machine) : Prop :=
  ∀ label, machine.code.count (.label label) ≤ 1

/-- The line that is marked by a label holds it. -/
theorem HasAt.lineOf? {label : Label} (h : machine.HasAt line [.label label])
    (hunique : machine.LabelsUnique) : lineOf? machine.code label = some line := by
  obtain ⟨before, after, hcode, rfl⟩ := h
  have hcount := hunique label
  rw [hcode, List.count_append, List.count_append, List.count_singleton_self] at hcount
  have hbefore : before.count (.label label) = 0 := by omega
  have hnone : before.findIdx? (· == .label label) = none := by
    rw [List.findIdx?_eq_none_iff]
    intro instruction hmem
    rw [beq_eq_false_iff_ne]
    rintro rfl
    exact List.count_eq_zero.mp hbefore hmem
  simp [StackCompiler.lineOf?, hcode, hnone, List.findIdx?_cons]

theorem HasAt.reaches_behind_label {label : Label} (h : machine.HasAt line [.label label])
    (stack : List Int) (store : Store) :
    machine.Reaches ⟨line, stack, store⟩ ⟨line + 1, stack, store⟩ :=
  .of_step (h.step? stack store)

theorem HasAt.reaches_target {label : Label} {target : Nat} (h : machine.HasAt line [.jump label])
    (htarget : machine.HasAt target [.label label]) (hunique : machine.LabelsUnique)
    (stack : List Int) (store : Store) :
    machine.Reaches ⟨line, stack, store⟩ ⟨target, stack, store⟩ := by
  refine .of_step ?_
  rw [h.step?]
  simp [Instr.perform?, Config.goTo?, htarget.lineOf? hunique]

theorem HasAt.reaches_target_of_zero {label : Label} {target : Nat}
    (h : machine.HasAt line [.jumpIfZero label]) (htarget : machine.HasAt target [.label label])
    (hunique : machine.LabelsUnique) (stack : List Int) (store : Store) :
    machine.Reaches ⟨line, 0 :: stack, store⟩ ⟨target, stack, store⟩ := by
  refine .of_step ?_
  rw [h.step?]
  simp [Instr.perform?, Config.goTo?, htarget.lineOf? hunique]

theorem HasAt.reaches_next_of_one {label : Label} (h : machine.HasAt line [.jumpIfZero label])
    (stack : List Int) (store : Store) :
    machine.Reaches ⟨line, 1 :: stack, store⟩ ⟨line + 1, stack, store⟩ :=
  .of_step (h.step? (1 :: stack) store)

/-! ### Conditions and loops -/

/-- Code at a line does what a condition should, wherever its parts stand. -/
structure BranchAt (machine : Machine) (line : Nat) (condition body alternative : List Instr)
    (finish : Nat) : Prop where
  has_condition : machine.HasAt line condition
  exists_body : ∃ start, machine.HasAt start body ∧ ∀ stack store,
    machine.Reaches ⟨line + condition.length, 1 :: stack, store⟩ ⟨start, stack, store⟩ ∧
    machine.Reaches ⟨start + body.length, stack, store⟩ ⟨finish, stack, store⟩
  exists_alternative : ∃ start, machine.HasAt start alternative ∧ ∀ stack store,
    machine.Reaches ⟨line + condition.length, 0 :: stack, store⟩ ⟨start, stack, store⟩ ∧
    machine.Reaches ⟨start + alternative.length, stack, store⟩ ⟨finish, stack, store⟩

theorem HasAt.branchAt {label : Label} {condition body alternative : List Instr}
    (h : machine.HasAt line (branchCode label condition body alternative))
    (hunique : machine.LabelsUnique) :
    machine.BranchAt line condition body alternative
      (line + (branchCode label condition body alternative).length) := by
  have hlast := h.right
  have hmarks : machine.HasAt _ ([.jump (label + 1)] ++ [.label label]) := h.left.left.right
  have htest := h.left.left.left.left.right
  refine ⟨h.left.left.left.left.left, ⟨_, h.left.left.left.right, fun stack store ↦ ⟨?_, ?_⟩⟩,
    ⟨_, h.left.right, fun stack store ↦ ⟨?_, ?_⟩⟩⟩
  · have hnext := htest.reaches_next_of_one stack store
    simpa [Nat.add_assoc] using hnext
  · have hjump := hmarks.left.reaches_target hlast hunique stack store
    have hend := hjump.trans (hlast.reaches_behind_label stack store)
    simpa [branchCode, Nat.add_assoc, Nat.add_comm, Nat.add_left_comm] using hend
  · have hjump := htest.reaches_target_of_zero hmarks.right hunique stack store
    have hstart := hjump.trans (hmarks.right.reaches_behind_label stack store)
    simpa [Nat.add_assoc] using hstart
  · have hend := hlast.reaches_behind_label stack store
    simpa [branchCode, Nat.add_assoc, Nat.add_comm, Nat.add_left_comm] using hend

/-- Code at a line does what a loop should, wherever its parts stand. -/
structure LoopAt (machine : Machine) (line : Nat) (condition body : List Instr) (finish : Nat) :
    Prop where
  step?_eq : ∀ stack store, machine.step? ⟨line, stack, store⟩ = some ⟨line + 1, stack, store⟩
  has_condition : machine.HasAt (line + 1) condition
  exists_body : ∃ start, machine.HasAt start body ∧ ∀ stack store,
    machine.Reaches ⟨line + 1 + condition.length, 1 :: stack, store⟩ ⟨start, stack, store⟩ ∧
    machine.Reaches ⟨start + body.length, stack, store⟩ ⟨line, stack, store⟩
  leave : ∀ stack store, machine.Reaches ⟨line + 1 + condition.length, 0 :: stack, store⟩
    ⟨finish, stack, store⟩

theorem HasAt.loopAt {label : Label} {condition body : List Instr}
    (h : machine.HasAt line (loopCode label condition body)) (hunique : machine.LabelsUnique) :
    machine.LoopAt line condition body (line + (loopCode label condition body).length) := by
  have hfirst := h.left.left.left.left
  have htest := h.left.left.right
  have hends : machine.HasAt _ ([.jump label] ++ [.label (label + 1)]) := h.right
  refine ⟨hfirst.step?, h.left.left.left.right, ⟨_, h.left.right, fun stack store ↦ ⟨?_, ?_⟩⟩,
    fun stack store ↦ ?_⟩
  · have hnext := htest.reaches_next_of_one stack store
    simpa [Nat.add_assoc, Nat.add_comm, Nat.add_left_comm] using hnext
  · have hjump := hends.left.reaches_target hfirst hunique stack store
    simpa [Nat.add_assoc, Nat.add_comm, Nat.add_left_comm] using hjump
  · have hjump := htest.reaches_target_of_zero hends.right hunique stack store
    have hend := hjump.trans (hends.right.reaches_behind_label stack store)
    simpa [loopCode, Nat.add_assoc, Nat.add_comm, Nat.add_left_comm] using hend

end Machine

end StackCompiler
