import StackCompiler.Proofs.Passes.Attempt
import StackCompiler.Tree.Outline

/-!
# Printing with a level of indentation

A printer goes through a tree once, writes each line when it comes to it and keeps count of the
level of the next line. What it writes are the lines of the outline of the tree, and behind the tree
the level is the one in front of it (`Printer.outcome_visit`). A hole stops the printer with lines
written and levels open; `Printer.print` starts anew, so what it prints depends on nothing that was
printed before (`Printer.outcome_print`).
-/

set_option autoImplicit false
set_option relaxedAutoImplicit false

namespace StackCompiler

/-- The lines that are written, and the level of the next one. -/
structure Printer where
  output : List String
  level : Nat
  deriving DecidableEq, Repr

namespace Printer

def fresh : Printer := ⟨[], 0⟩

/-- A piece of printing, which a hole can stop. -/
abbrev Print := Attempt Hole Printer

def emit (line : String) : Print Unit :=
  modify fun printer ↦
    { printer with output := printer.output ++ [Outline.indented printer.level line] }

def indent : Print Unit :=
  modify fun printer ↦ { printer with level := printer.level + 1 }

def dedent : Print Unit :=
  modify fun printer ↦ { printer with level := printer.level - 1 }

/-- A line, and what belongs to it one level further in. -/
def titled (line : String) (body : Print Unit) : Print Unit := do
  emit line
  indent
  body
  dedent

mutual

def visit : Node → Print Unit
  | .program name declarations body =>
    titled (NodeKind.program.heading name.lexeme) do
      titled "Declarations:" (visitAll declarations)
      titled "Compound Statement:" (visit body)
  | .varDecl name type => emit (NodeKind.varDecl.heading s!"{name.lexeme} : {type.lexeme}")
  | .block statements => titled NodeKind.block.name (visitAll statements)
  | .assign target value =>
    titled (NodeKind.assign.heading target.lexeme) (titled "Expression:" (visit value))
  | .ifThen condition body =>
    titled NodeKind.cond.name do
      titled "Condition:" (visit condition)
      titled "Then Branch:" (visit body)
  | .ifElse condition body alternative =>
    titled NodeKind.cond.name do
      titled "Condition:" (visit condition)
      titled "Then Branch:" (visit body)
      titled "Else Branch:" (visit alternative)
  | .loop condition body =>
    titled NodeKind.loop.name do
      titled "Condition:" (visit condition)
      titled "Do:" (visit body)
  | .binary left operator right =>
    titled (NodeKind.binary.heading s!"'{operator.lexeme}'") do
      titled "Left:" (visit left)
      titled "Right:" (visit right)
  | .intLit token => emit (NodeKind.intLit.heading token.lexeme)
  | .boolLit token => emit (NodeKind.boolLit.heading token.lexeme)
  | .use name => emit (NodeKind.use.heading name.lexeme)
  | .hole gap => throw gap

def visitAll : List Node → Print Unit
  | [] => return ()
  | node :: more => do
    visit node
    visitAll more

end

/-- Prints a tree from the first line on. -/
def print (tree : Node) : Print String := do
  set fresh
  visit tree
  return "\n".intercalate (← get).output

/-! ### Printing and outlines -/

/-- The printer that has written some further outlines at its level. -/
def write (printer : Printer) (parts : List Outline) : Printer :=
  { printer with output := printer.output ++ Outline.linesOfParts printer.level parts }

/-- A piece of printing writes some outlines at the level of the printer, and leaves the level as it
is; or it is stopped. -/
def Writes (piece : Print Unit) (result : Except Hole (List Outline)) : Prop :=
  ∀ printer : Printer, piece.Gives printer (printer.write <$> result)

@[simp] theorem linesOfParts_append (level : Nat) (first second : List Outline) :
    Outline.linesOfParts level (first ++ second) =
      Outline.linesOfParts level first ++ Outline.linesOfParts level second := by
  induction first with
  | nil => rfl
  | cons part more ih => simp [Outline.linesOfParts, ih]

theorem write_append (printer : Printer) (first second : List Outline) :
    printer.write (first ++ second) = (printer.write first).write second := by
  simp [write]

theorem Writes.nothing : Writes (pure ()) (pure []) := by
  intro printer
  have hsame : printer.write [] = printer := by simp [write, Outline.linesOfParts]
  change Attempt.Gives _ printer (.ok (printer.write []))
  rw [hsame]
  exact .pure printer

theorem Writes.leaf (line : String) : Writes (emit line) (pure [.leaf line]) :=
  fun printer ↦ .modify _ printer

theorem Writes.hole (gap : Hole) : Writes (throw gap) (.error gap) :=
  fun printer ↦ .throw gap printer

theorem Writes.append {first second : Print Unit} {earlier later : Except Hole (List Outline)}
    (hfirst : Writes first earlier) (hsecond : Writes second later) :
    Writes (do first; second) (do return (← earlier) ++ (← later)) := by
  intro printer
  simp only [map_bind, map_pure, write_append]
  exact (hfirst printer).bind fun parts ↦ hsecond (printer.write parts)

/-- The level is one more for what belongs to a line, and is taken back behind it. -/
theorem Writes.titled {body : Print Unit} {result : Except Hole (List Outline)}
    (h : Writes body result) (line : String) :
    Writes (titled line body) (do return [.entry line (← result)]) := by
  intro printer
  refine .step (.modify _ printer) (.step (.modify _ _) ?_)
  simp only [map_bind, map_pure]
  refine (h _).bind fun parts ↦ ?_
  have hback : printer.write [.entry line parts] =
      { (Printer.mk (printer.output ++ [Outline.indented printer.level line])
          (printer.level + 1)).write parts with level := printer.level } := by
    simp [write, Outline.linesOfParts, Outline.lines]
  rw [hback]
  exact .modify _ _

mutual

theorem visit_writes :
    ∀ node : Node, Writes (visit node) (do return [← node.outline])
  | .program name declarations body => by
    have h := ((visitAll_writes declarations).titled "Declarations:").append
      ((visit_writes body).titled "Compound Statement:")
    simpa [visit, Node.outline] using h.titled (NodeKind.program.heading name.lexeme)
  | .varDecl name type => .leaf _
  | .block statements => by
    simpa [visit, Node.outline] using (visitAll_writes statements).titled NodeKind.block.name
  | .assign target value => by
    have h := (visit_writes value).titled "Expression:"
    simpa [visit, Node.outline] using h.titled (NodeKind.assign.heading target.lexeme)
  | .ifThen condition body => by
    have h := ((visit_writes condition).titled "Condition:").append
      ((visit_writes body).titled "Then Branch:")
    simpa [visit, Node.outline] using h.titled NodeKind.cond.name
  | .ifElse condition body alternative => by
    have h := ((visit_writes condition).titled "Condition:").append
      (((visit_writes body).titled "Then Branch:").append
        ((visit_writes alternative).titled "Else Branch:"))
    simpa [visit, Node.outline] using h.titled NodeKind.cond.name
  | .loop condition body => by
    have h := ((visit_writes condition).titled "Condition:").append
      ((visit_writes body).titled "Do:")
    simpa [visit, Node.outline] using h.titled NodeKind.loop.name
  | .binary left operator right => by
    have h := ((visit_writes left).titled "Left:").append ((visit_writes right).titled "Right:")
    simpa [visit, Node.outline] using
      h.titled (NodeKind.binary.heading s!"'{operator.lexeme}'")
  | .intLit token => .leaf _
  | .boolLit token => .leaf _
  | .use name => .leaf _
  | .hole gap => .hole gap

theorem visitAll_writes : ∀ nodes : List Node, Writes (visitAll nodes) (Node.outlines nodes)
  | [] => .nothing
  | node :: more => by
    simpa [visitAll, Node.outlines] using (visit_writes node).append (visitAll_writes more)

end

/-- Going through a tree writes the lines of its outline at the level of the printer, and leaves the
level as it was found. -/
theorem outcome_visit {tree : Node} {outline : Outline} (h : tree.outline = .ok outline)
    (printer : Printer) : (visit tree).outcome printer =
      (.ok (), ⟨printer.output ++ outline.lines printer.level, printer.level⟩) := by
  have hwrites := visit_writes tree printer
  rw [h] at hwrites
  change (visit tree).outcome printer = (.ok (), printer.write [outline]) at hwrites
  rw [hwrites, write, Outline.linesOfParts, Outline.linesOfParts, List.append_nil]

theorem exists_outcome_visit_eq_error {tree : Node} {gap : Hole} (h : tree.outline = .error gap)
    (printer : Printer) : ∃ left, (visit tree).outcome printer = (.error gap, left) := by
  have hwrites := visit_writes tree printer
  rwa [h] at hwrites

/-- What is printed is the outline, or the hole that stops the printer. -/
theorem outcome_print (tree : Node) (printer : Printer) :
    ((print tree).outcome printer).1 = Outline.text <$> tree.outline := by
  have hset : (print tree).outcome printer = (do
      visit tree
      return "\n".intercalate (← get).output : Print String).outcome fresh := rfl
  rw [hset, Attempt.outcome_bind]
  cases houtline : tree.outline with
  | error gap =>
    obtain ⟨left, hleft⟩ := exists_outcome_visit_eq_error houtline fresh
    rw [hleft]
    rfl
  | ok outline =>
    rw [outcome_visit houtline fresh]
    rfl

end Printer

end StackCompiler
