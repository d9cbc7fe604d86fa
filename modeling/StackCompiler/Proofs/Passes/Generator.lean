import StackCompiler.Machine.Emit
import StackCompiler.Proofs.Passes.Attempt

/-!
# Generating code with a supply of labels

A generator goes through a tree once, writes each instruction when it comes to it and takes labels
from a supply. What it writes is the code of the tree with the labels from the first free one on
(`Generator.visit_writes`). A breakdown leaves instructions written and labels taken;
`Generator.generate` starts anew, so its code depends on nothing that was generated before
(`Generator.outcome_generate`).
-/

set_option autoImplicit false
set_option relaxedAutoImplicit false

namespace StackCompiler

/-- The instructions that are written, and the labels that are left. -/
structure Generator where
  output : List Instr
  labels : LabelSupply
  deriving DecidableEq, Repr

namespace Generator

def fresh : Generator := ⟨[], .withStem Instr.labelStem⟩

/-- A piece of code generation, which a breakdown can stop. -/
abbrev Generate := Attempt Breakdown Generator

def emit (instruction : Instr) : Generate Unit :=
  modify fun generator ↦ { generator with output := generator.output ++ [instruction] }

def newLabel : Generate Label :=
  modifyGet fun generator ↦
    let (label, labels) := generator.labels.take
    (label, { generator with labels })

/-- Writes an instruction, if there is one. -/
def emitFound : Except Breakdown Instr → Generate Unit
  | .ok instruction => emit instruction
  | .error found => throw found

mutual

def visit : Node → Generate Unit
  | .program _ declarations body => do
    visitAll declarations
    visit body
    emit .halt
  | .varDecl _ _ => return ()
  | .block statements => visitAll statements
  | .assign target value => do
    visit value
    emit (.store target.lexeme)
  | .ifThen condition body => do
    let otherwise ← newLabel
    let done ← newLabel
    visit condition
    emit (.jumpIfZero otherwise)
    visit body
    emit (.jump done)
    emit (.label otherwise)
    emit (.label done)
  | .ifElse condition body alternative => do
    let otherwise ← newLabel
    let done ← newLabel
    visit condition
    emit (.jumpIfZero otherwise)
    visit body
    emit (.jump done)
    emit (.label otherwise)
    visit alternative
    emit (.label done)
  | .loop condition body => do
    let start ← newLabel
    let done ← newLabel
    emit (.label start)
    visit condition
    emit (.jumpIfZero done)
    visit body
    emit (.jump start)
    emit (.label done)
  | .binary left operator right => do
    visit left
    visit right
    emitFound (Instr.ofOperator operator)
  | .intLit token => emitFound (Instr.ofLiteral token)
  | .boolLit token => emit (.push (some (.int (if token.truth then 1 else 0))))
  | .use name => emit (.load name.lexeme)
  | .hole gap => throw (.hole gap)

def visitAll : List Node → Generate Unit
  | [] => return ()
  | node :: more => do
    visit node
    visitAll more

end

/-- Generates the code of a tree from the first label on. -/
def generate (tree : Node) : Generate (List Instr) := do
  set fresh
  visit tree
  return (← get).output

/-! ### Generators and code -/

/-- The generator that has written further code and taken labels up to a number. -/
def write (generator : Generator) (code : List Instr × Label) : Generator :=
  ⟨generator.output ++ code.1, { generator.labels with used := code.2 }⟩

/-- From any number of labels on, a piece of generation writes the code that a function gives, and
takes its labels; or it is stopped. -/
def Writes (piece : Generate Unit) (result : Label → Except Breakdown (List Instr × Label)) :
    Prop :=
  ∀ generator : Generator, piece.Gives generator (generator.write <$> result generator.labels.used)

theorem Writes.nothing : Writes (pure ()) fun first ↦ pure ([], first) := by
  intro generator
  have hsame : generator.write ([], generator.labels.used) = generator := by simp [write]
  change Attempt.Gives _ generator (.ok (generator.write ([], generator.labels.used)))
  rw [hsame]
  exact .pure generator

theorem Writes.emit (instruction : Instr) :
    Writes (emit instruction) fun first ↦ pure ([instruction], first) :=
  fun generator ↦ .modify _ generator

theorem Writes.stopped (found : Breakdown) : Writes (throw found) fun _ ↦ .error found :=
  fun generator ↦ .throw found generator

/-- What comes behind writes its code behind, with the labels that are left. -/
theorem Writes.append {first second : Generate Unit}
    {earlier later : Label → Except Breakdown (List Instr × Label)} (hfirst : Writes first earlier)
    (hsecond : Writes second later) :
    Writes (do first; second) fun label ↦ do
      let written ← earlier label
      let more ← later written.2
      return (written.1 ++ more.1, more.2) := by
  intro generator
  simp only [map_bind, map_pure]
  refine (hfirst generator).bind fun written ↦ ?_
  have hlater : ((do
      let more ← later written.2
      return generator.write (written.1 ++ more.1, more.2)) : Except Breakdown Generator) =
      (generator.write written).write <$> later written.2 := by
    cases later written.2 with
    | error found => rfl
    | ok more =>
      change Except.ok _ = Except.ok _
      simp [write]
  rw [hlater]
  exact hsecond (generator.write written)

/-- A construct takes the next two labels for itself. -/
theorem Writes.withLabels {piece : Label → Label → Generate Unit}
    {result : Label → Label → Label → Except Breakdown (List Instr × Label)}
    (h : ∀ first second, Writes (piece first second) (result first second)) :
    Writes (do
      let first ← newLabel
      let second ← newLabel
      piece first second) fun first ↦ result first (first + 1) (first + 2) :=
  fun generator ↦
    let used := generator.labels.used
    h used (used + 1) ⟨generator.output, { generator.labels with used := used + 2 }⟩

theorem Writes.found (instruction : Except Breakdown Instr) :
    Writes (emitFound instruction) fun first ↦ do return ([← instruction], first) := by
  cases instruction with
  | ok instruction => exact .emit instruction
  | error found => exact .stopped found

mutual

theorem visit_writes : ∀ node : Node, Writes (visit node) (node.codeFrom ·)
  | .program name declarations body => by
    have h := (visitAll_writes declarations).append ((visit_writes body).append (.emit .halt))
    simpa [visit, Node.codeFrom] using h
  | .varDecl name type => .nothing
  | .block statements => visitAll_writes statements
  | .assign target value => by
    have h := (visit_writes value).append (.emit (.store target.lexeme))
    simpa [visit, Node.codeFrom] using h
  | .ifThen condition body => by
    have h (otherwise done : Label) :=
      (visit_writes condition).append <| (Writes.emit (.jumpIfZero otherwise)).append <|
      (visit_writes body).append <| (Writes.emit (.jump done)).append <|
      (Writes.emit (.label otherwise)).append <| .emit (.label done)
    simpa [visit, Node.codeFrom, branchCode] using Writes.withLabels h
  | .ifElse condition body alternative => by
    have h (otherwise done : Label) :=
      (visit_writes condition).append <| (Writes.emit (.jumpIfZero otherwise)).append <|
      (visit_writes body).append <| (Writes.emit (.jump done)).append <|
      (Writes.emit (.label otherwise)).append <| (visit_writes alternative).append <|
      .emit (.label done)
    simpa [visit, Node.codeFrom, branchCode] using Writes.withLabels h
  | .loop condition body => by
    have h (start done : Label) :=
      (Writes.emit (.label start)).append <| (visit_writes condition).append <|
      (Writes.emit (.jumpIfZero done)).append <| (visit_writes body).append <|
      (Writes.emit (.jump start)).append <| .emit (.label done)
    simpa [visit, Node.codeFrom, loopCode] using Writes.withLabels h
  | .binary left operator right => by
    have h := (visit_writes left).append <| (visit_writes right).append <|
      .found (Instr.ofOperator operator)
    simpa [visit, Node.codeFrom] using h
  | .intLit token => .found _
  | .boolLit token => .emit _
  | .use name => .emit _
  | .hole gap => .stopped _

theorem visitAll_writes : ∀ nodes : List Node, Writes (visitAll nodes) (Node.codeFromAll · nodes)
  | [] => .nothing
  | node :: more => by
    simpa [visitAll, Node.codeFromAll] using (visit_writes node).append (visitAll_writes more)

end

/-- What is generated is the code of the tree, or the breakdown that stops the generator. -/
theorem outcome_generate (tree : Node) (generator : Generator) :
    ((generate tree).outcome generator).1 = Prod.fst <$> tree.code := by
  have hset : (generate tree).outcome generator = (do
      visit tree
      return (← get).output : Generate (List Instr)).outcome fresh := rfl
  have hwrites := visit_writes tree fresh
  rw [hset, Attempt.outcome_bind, Node.code]
  change (visit tree).Gives fresh (fresh.write <$> tree.codeFrom 0) at hwrites
  cases hcode : tree.codeFrom 0 with
  | error found =>
    rw [hcode] at hwrites
    obtain ⟨left, hleft⟩ := hwrites
    rw [hleft]
    rfl
  | ok code =>
    rw [hcode] at hwrites
    rw [show (visit tree).outcome fresh = (.ok (), fresh.write code) from hwrites]
    rfl

end Generator

/-! ### What is generated can be written -/

/-- Code that is given is made of instructions that can be written. -/
def GivesWritable (result : Except Breakdown (List Instr × Label)) : Prop :=
  ∀ code next, result = .ok (code, next) → code.all Instr.isWritable = true

namespace GivesWritable

theorem pure {code : List Instr} (h : code.all Instr.isWritable = true) (next : Label) :
    GivesWritable (Pure.pure (code, next)) := by
  rintro _ _ ⟨⟩
  exact h

theorem bind {result : Except Breakdown (List Instr × Label)}
    {later : List Instr × Label → Except Breakdown (List Instr × Label)}
    (hresult : GivesWritable result)
    (hlater : ∀ code next, code.all Instr.isWritable = true →
      GivesWritable (later (code, next))) : GivesWritable (result >>= later) := by
  rcases result with found | ⟨code, next⟩
  · exact fun _ _ h ↦ nomatch h
  · exact hlater code next (hresult code next rfl)

end GivesWritable

theorem Instr.isWritable_of_ofOperator {operator : Token} {instruction : Instr}
    (h : ofOperator operator = .ok instruction) : instruction.isWritable = true := by
  unfold ofOperator at h
  split at h <;> cases h
  rfl

theorem Instr.isWritable_of_ofLiteral {token : Token} {instruction : Instr}
    (h : ofLiteral token = .ok instruction) : instruction.isWritable = true := by
  unfold ofLiteral at h
  split at h <;> cases h
  assumption

mutual

theorem Node.givesWritable_codeFrom : ∀ (node : Node) (first : Label),
    GivesWritable (node.codeFrom first)
  | .program name declarations body, first => by
    refine (givesWritable_codeFromAll declarations first).bind fun declared middle hdeclared ↦ ?_
    refine (givesWritable_codeFrom body middle).bind fun code next hcode ↦ .pure ?_ next
    simp [hdeclared, hcode, Instr.isWritable]
  | .varDecl name type, first => .pure rfl first
  | .block statements, first => givesWritable_codeFromAll statements first
  | .assign target value, first => by
    refine (givesWritable_codeFrom value first).bind fun code next hcode ↦ .pure ?_ next
    simp [hcode, Instr.isWritable]
  | .ifThen condition body, first => by
    refine (givesWritable_codeFrom condition _).bind fun code middle hcondition ↦ ?_
    refine (givesWritable_codeFrom body middle).bind fun code next hbody ↦ .pure ?_ next
    simp [branchCode, hcondition, hbody, Instr.isWritable]
  | .ifElse condition body alternative, first => by
    refine (givesWritable_codeFrom condition _).bind fun code middle hcondition ↦ ?_
    refine (givesWritable_codeFrom body middle).bind fun code later hbody ↦ ?_
    refine (givesWritable_codeFrom alternative later).bind fun code next hother ↦ .pure ?_ next
    simp [branchCode, hcondition, hbody, hother, Instr.isWritable]
  | .loop condition body, first => by
    refine (givesWritable_codeFrom condition _).bind fun code middle hcondition ↦ ?_
    refine (givesWritable_codeFrom body middle).bind fun code next hbody ↦ .pure ?_ next
    simp [loopCode, hcondition, hbody, Instr.isWritable]
  | .binary left operator right, first => by
    refine (givesWritable_codeFrom left first).bind fun code middle hleft ↦ ?_
    refine (givesWritable_codeFrom right middle).bind fun code next hright ↦ ?_
    cases hoperation : Instr.ofOperator operator with
    | error found => exact fun _ _ h ↦ nomatch h
    | ok operation =>
      refine .pure ?_ next
      simp [hleft, hright, Instr.isWritable_of_ofOperator hoperation]
  | .intLit token, first => by
    rw [codeFrom]
    cases hliteral : Instr.ofLiteral token with
    | error found => exact fun _ _ h ↦ nomatch h
    | ok push => exact .pure (by simp [Instr.isWritable_of_ofLiteral hliteral]) first
  | .boolLit token, first => by
    refine .pure ?_ first
    cases token.truth <;> decide +kernel
  | .use name, first => .pure rfl first
  | .hole gap, first => fun _ _ h ↦ nomatch h

theorem Node.givesWritable_codeFromAll : ∀ (nodes : List Node) (first : Label),
    GivesWritable (Node.codeFromAll first nodes)
  | [], first => .pure rfl first
  | node :: more, first => by
    refine (givesWritable_codeFrom node first).bind fun code middle hcode ↦ ?_
    refine (givesWritable_codeFromAll more middle).bind fun later next hlater ↦ .pure ?_ next
    rw [List.all_append, hcode, hlater]
    rfl

end

/-- Every instruction of generated code can be written. -/
theorem Node.isWritable_of_mem_code {node : Node} {code : List Instr} {labels : Label}
    (h : node.code = .ok (code, labels)) {instruction : Instr} (hmem : instruction ∈ code) :
    instruction.isWritable = true :=
  List.all_eq_true.mp (node.givesWritable_codeFrom 0 code labels h) instruction hmem

end StackCompiler
