import StackCompiler.Proofs.Passes.Entries
import StackCompiler.Proofs.Passes.Generator
import StackCompiler.Proofs.Passes.Printer

/-!
# One printer, one scope and one generator for many trees

A workbench keeps a printer, a scope and a generator through a series of tasks, each of which may be
stopped anywhere. Printing and generating start anew and leave nothing behind that a later task can
see. A check goes on with the scope of the last one, which holds the variables of the declarations
that the tasks have entered (`Workbench.growsBy_after`). So a program is checked as if these
declarations stood in front of its own, and what the check adds is its own declarations up to the
first that cannot be entered (`Workbench.perform_after`).
-/

set_option autoImplicit false
set_option relaxedAutoImplicit false

namespace StackCompiler

/-- The state that the passes keep between their tasks. -/
structure Workbench where
  printer : Printer
  scope : Scope
  generator : Generator
  deriving DecidableEq, Repr

/-- A tree for one of the passes. -/
inductive Task where
  | print (tree : Node)
  | check (tree : Node)
  | generate (tree : Node)
  deriving Repr

/-- What a pass gives for a tree, or what stops it. A check gives its scope. -/
inductive Answer where
  | printed (text : Except Hole String)
  | checked (scope : Except CheckFault Scope)
  | generated (code : Except Breakdown (List Instr))

/-- The declarations of its tree that a task enters into a scope. -/
def Task.entered (scope : Scope) : Task → List Decl
  | check tree => tree.declarations.take ((tree.check scope).2.size - scope.size)
  | print _ | generate _ => []

namespace Workbench

def fresh : Workbench := ⟨.fresh, .empty, .fresh⟩

/-- Performs a task; the workbench stays as it is when the task is stopped. -/
def perform (bench : Workbench) : Task → Answer × Workbench
  | .print tree =>
    let (text, printer) := (Printer.print tree).outcome bench.printer
    (.printed text, { bench with printer })
  | .check tree =>
    let (found, scope) := tree.check bench.scope
    (.checked ((fun _ ↦ scope) <$> found), { bench with scope })
  | .generate tree =>
    let (code, generator) := (Generator.generate tree).outcome bench.generator
    (.generated code, { bench with generator })

def answer (bench : Workbench) (task : Task) : Answer :=
  (bench.perform task).1

/-- The workbench after some tasks. -/
def after (bench : Workbench) : List Task → Workbench
  | [] => bench
  | task :: more => (bench.perform task).2.after more

/-- The declarations that some tasks enter, one task after another. -/
def entered (bench : Workbench) : List Task → List Decl
  | [] => []
  | task :: more => task.entered bench.scope ++ (bench.perform task).2.entered more

/-! ### The scope through the tasks -/

/-- What a check enters are the first declarations of its tree. -/
theorem growsBy_check (scope : Scope) (tree : Node) :
    scope.GrowsBy (tree.check scope).2 ((Task.check tree).entered scope) := by
  obtain ⟨entered, rest, hall, hgrows, -⟩ := tree.findType_enters scope
  have hsize : (tree.check scope).2.size = scope.size + entered.length := hgrows.size_eq
  have htaken : (Task.check tree).entered scope = entered := by
    simp [Task.entered, hsize, hall]
  rw [htaken]
  exact hgrows

theorem growsBy_perform (bench : Workbench) (task : Task) :
    bench.scope.GrowsBy (bench.perform task).2.scope (task.entered bench.scope) := by
  cases task with
  | print tree => exact .refl _
  | check tree => exact growsBy_check bench.scope tree
  | generate tree => exact .refl _

/-- The scope grows by the declarations that the tasks enter, and by nothing else. -/
theorem growsBy_after (bench : Workbench) (tasks : List Task) :
    bench.scope.GrowsBy (bench.after tasks).scope (bench.entered tasks) := by
  induction tasks generalizing bench with
  | nil => exact .refl _
  | cons task more ih => exact (bench.growsBy_perform task).trans (ih _)

theorem declares_entered (tasks : List Task) :
    List.Forall₂ Decl.Declares (fresh.entered tasks) (fresh.after tasks).scope.entries :=
  (fresh.growsBy_after tasks).declares .nil

theorem nodup_names_after (tasks : List Task) : (fresh.after tasks).scope.names.Nodup :=
  (fresh.growsBy_after tasks).nodup .nil

/-- The next task enters its declarations behind those of the tasks before it. -/
theorem entered_concat (bench : Workbench) (tasks : List Task) (task : Task) :
    bench.entered (tasks ++ [task]) =
      bench.entered tasks ++ task.entered (bench.after tasks).scope := by
  induction tasks generalizing bench with
  | nil => exact List.append_nil _
  | cons first more ih =>
    rw [List.cons_append, entered, entered, after, ih, List.append_assoc]

/-! ### Tasks on a workbench that is in use -/

theorem answer_print (bench : Workbench) (tree : Node) :
    bench.answer (.print tree) = .printed (Outline.text <$> tree.outline) :=
  congrArg Answer.printed (Printer.outcome_print tree bench.printer)

theorem answer_generate (bench : Workbench) (tree : Node) :
    bench.answer (.generate tree) = .generated (Prod.fst <$> tree.code) :=
  congrArg Answer.generated (Generator.outcome_generate tree bench.generator)

end Workbench

/-! ### What the passes owe to the tasks before -/

/-- Whatever was done before, printing and generating answer as on a fresh workbench and leave the
scope alone; and a program is checked as one that begins with the declarations entered so far.
It enters its own declarations up to the first that stops the check, and its body enters nothing. -/
theorem Workbench.perform_after (tasks : List Task) :
    let bench := fresh.after tasks
    let earlier := fresh.entered tasks
    List.Forall₂ Decl.Declares earlier bench.scope.entries ∧
    (∀ tree : Node, bench.answer (.print tree) = fresh.answer (.print tree) ∧
      (bench.perform (.print tree)).2.scope = bench.scope) ∧
    (∀ tree : Node, bench.answer (.generate tree) = fresh.answer (.generate tree) ∧
      (bench.perform (.generate tree)).2.scope = bench.scope) ∧
    ∀ (name : Token) (declarations : List Decl) (body : Node), body.declarations = [] →
      let task (declarations : List Decl) : Task :=
        .check (.program name (declarations.map Decl.node) body)
      let scope := (bench.perform (task declarations)).2.scope
      bench.answer (task declarations) = fresh.answer (task (earlier ++ declarations)) ∧
      scope = (fresh.perform (task (earlier ++ declarations))).2.scope ∧
      bench.scope.entries <+: scope.entries ∧
      ∃ entered rest, declarations = entered ++ rest ∧
        fresh.entered (tasks ++ [task declarations]) = earlier ++ entered ∧
        List.Forall₂ Decl.Declares (earlier ++ entered) scope.entries ∧
        (rest = [] ∧ (body.check scope).2 = scope ∧
            bench.answer (task declarations) =
              .checked ((fun _ ↦ scope) <$> (body.check scope).1) ∨
          ∃ decl more fault, rest = decl :: more ∧
            decl.node.check scope = (.error fault, scope) ∧
            bench.answer (task declarations) = .checked (.error fault)) := by
  intro bench earlier
  have hearlier : List.Forall₂ Decl.Declares earlier bench.scope.entries := declares_entered tasks
  refine ⟨hearlier, fun tree ↦ ⟨?_, rfl⟩, fun tree ↦ ⟨?_, rfl⟩, ?_⟩
  · rw [answer_print, answer_print]
  · rw [answer_generate, answer_generate]
  intro name declarations body hbody task scope
  have hfresh : (Node.program name ((earlier ++ declarations).map Decl.node) body).check .empty =
      (Node.program name (declarations.map Decl.node) body).check bench.scope :=
    Node.check_program_append hearlier (nodup_names_after tasks) name declarations body
  obtain ⟨entered, rest, after, found, hall, hgrows, hrun, hending⟩ :=
    Node.exists_check_program hbody name declarations bench.scope
  have hanswer : bench.answer (task declarations) = .checked ((fun _ ↦ after) <$> found) := by
    simp only [task, answer, perform, hrun]
  have hscope : scope = after := by
    simp only [scope, task, perform, hrun]
  have hlocal : (task declarations).entered bench.scope = entered := by
    simp only [task, Task.entered, hrun, hgrows.size_eq, Node.declarations,
      Node.declarationsOfAll_map_node, hbody, List.append_nil, Nat.add_sub_cancel_left]
    rw [hall, List.take_left]
  refine ⟨?_, ?_, hscope ▸ hgrows.isPrefix, entered, rest, hall, ?_,
    hscope ▸ hgrows.declares hearlier, ?_⟩
  · simp only [task, answer, perform, fresh, hfresh]
  · simp only [scope, task, perform, fresh, hfresh]
  · rw [entered_concat, hlocal]
  · rw [hanswer, hscope]
    rcases hending with ⟨rfl, hsame, rfl⟩ | ⟨decl, more, fault, hrest, hdecl, rfl⟩
    · refine .inl ⟨rfl, hsame, ?_⟩
      rcases (body.check after).1 with _ | _ <;> rfl
    · exact .inr ⟨decl, more, fault, hrest, hdecl, rfl⟩

/-- Three tasks that are stopped halfway: a block that is printed down to a hole, a program that
declares `total` twice, and a sum whose operator is no operator. -/
def interruptions : List Task :=
  let token (kind : TokenKind) (lexeme : String) : Token := ⟨kind, lexeme, none, ⟨"", 1, 1⟩⟩
  let total : Node := .varDecl (token .ident "total") (token .integerKw "integer")
  let one : Node := .intLit (token .intLit "1")
  [.print (.block [one, .hole (.foreign "list")]),
    .check (.program (token .ident "p") [total, total] (.block [])),
    .generate (.binary one (token .semicolon ";") one)]

/-- The tasks leave `total` behind, and a program that only declares `copy` may assign it. -/
theorem perform_after_interruptions :
    let token (kind : TokenKind) (lexeme : String) : Token := ⟨kind, lexeme, none, ⟨"", 1, 1⟩⟩
    let total : Decl := ⟨token .ident "total", token .integerKw "integer"⟩
    let copy : Decl := ⟨token .ident "copy", token .integerKw "integer"⟩
    let task (declarations : List Decl) : Task :=
      .check (.program (token .ident "q") (declarations.map Decl.node)
        (.block [.assign copy.name (.use total.name)]))
    Workbench.fresh.entered interruptions = [total] ∧
    (Workbench.fresh.after interruptions).answer (task [copy]) =
      Workbench.fresh.answer (task [total, copy]) ∧
    ((Workbench.fresh.after interruptions).perform (task [copy])).2.scope.names =
      ["total", "copy"] := by
  intro token total copy task
  obtain ⟨-, -, -, hcheck⟩ := Workbench.perform_after interruptions
  obtain ⟨hanswer, hscope, -⟩ :=
    hcheck (token .ident "q") [copy] (.block [.assign copy.name (.use total.name)]) rfl
  refine ⟨rfl, hanswer, ?_⟩
  rw [hscope]
  rfl

end StackCompiler
