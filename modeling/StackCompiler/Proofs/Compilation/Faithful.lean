import StackCompiler.Compilation.Basic
import StackCompiler.Proofs.Grammar.Acceptance
import StackCompiler.Proofs.Typing.Check

/-!
# Passes that give up

Where the nesting of a program is too deep for a pass depends on the machine that runs it. A pass
may give up on any program, but where it does not it must do what it does without any limit
(`Passes.Faithful`). The passes that look so many levels deep are of this sort, whatever the numbers
are (`Passes.within_faithful`): a tree that is cut off gives the same result as the whole tree, or
the hole where it is cut off is what stops the pass.
-/

set_option autoImplicit false
set_option relaxedAutoImplicit false

namespace StackCompiler

namespace Passes

/-- The passes without any limit: a program has fewer levels than its stream has tokens. -/
def whole : Passes where
  read stream lines := (stream.readProgramWithin (stream.pending.length + 1) lines).1
  outline tree := tree.outline
  check tree := tree.check .empty
  code tree := tree.code

/-- Each pass gives up on a program because of its nesting, or does what it does without any
limit. -/
structure Faithful (passes : Passes) : Prop where
  read (stream : TokenStream) (lines : List String) :
    (∃ place, passes.read stream lines = .error ⟨.nestedTooDeeply, some place, none⟩) ∨
      passes.read stream lines = whole.read stream lines
  outline (program : Program) :
    passes.outline program.node = .error .tooDeep ∨
      passes.outline program.node = whole.outline program.node
  check (program : Program) :
    (passes.check program.node).1 = .error (.breakdown (.hole .tooDeep)) ∨
      passes.check program.node = whole.check program.node
  code (program : Program) :
    passes.code program.node = .error (.hole .tooDeep) ∨
      passes.code program.node = whole.code program.node

end Passes

/-! ### Reading -/

open Grammar in
/-- Reading with any depth is like reading with depth enough, unless the depth is used up. -/
theorem TokenStream.readProgramWithin_eq_or (stream : TokenStream) (depth : Nat)
    (lines : List String) :
    (∃ place, (stream.readProgramWithin depth lines).1 =
        .error ⟨.nestedTooDeeply, some place, none⟩) ∨
      stream.readProgramWithin depth lines =
        stream.readProgramWithin (stream.pending.length + 1) lines := by
  have henough := program_within (stream.pending.length + 1) stream.pending.length (by omega)
    stream.pending (Nat.le_refl _)
  unfold readProgramWithin
  rcases Nat.le_total depth (stream.pending.length + 1) with hle | hle
  · rcases program_refines hle stream.pending with ⟨pending, hstop⟩ | hsame
    · exact .inl ⟨_, by rw [hstop]; rfl⟩
    · exact .inr (by rw [hsame])
  · rcases program_refines hle stream.pending with hstop | hsame
    · exact absurd hstop henough
    · exact .inr (by rw [hsame])

/-! ### Outlines and code -/

section Results

variable {ε α β : Type}

/-- What is made of a part is what is made of the whole, unless the strike stops it. -/
def UpTo (strike : ε) (cut whole : Except ε α) : Prop :=
  cut = .error strike ∨ cut = whole

theorem UpTo.refl (strike : ε) (result : Except ε α) : UpTo strike result result :=
  .inr rfl

theorem UpTo.bind {strike : ε} {cut whole : Except ε α} {next other : α → Except ε β}
    (h : UpTo strike cut whole) (hnext : ∀ a, UpTo strike (next a) (other a)) :
    UpTo strike (cut >>= next) (whole >>= other) := by
  rcases h with rfl | rfl
  · exact .inl rfl
  · cases cut with
    | error found => exact .inr rfl
    | ok a => exact hnext a

end Results

theorem upTo_outlines {nodes : List Node} {cut : Node → Node}
    (h : ∀ node, UpTo .tooDeep (cut node).outline node.outline) :
    UpTo .tooDeep (Node.outlines (nodes.map cut)) (Node.outlines nodes) := by
  induction nodes with
  | nil => exact .refl _ _
  | cons node more ih => exact .bind (h node) fun _ ↦ .bind ih fun _ ↦ .refl _ _

theorem upTo_outline_prune (depth : Nat) :
    ∀ node : Node, UpTo .tooDeep (node.prune depth).outline node.outline := by
  induction depth with
  | zero => exact fun node ↦ .inl (by rw [Node.prune, Node.outline])
  | succ depth ih =>
    intro node
    cases node with
    | program name declarations body =>
      exact .bind (upTo_outlines ih) fun _ ↦ .bind (ih body) fun _ ↦ .refl _ _
    | block statements => exact .bind (upTo_outlines ih) fun _ ↦ .refl _ _
    | assign target value => exact .bind (ih value) fun _ ↦ .refl _ _
    | ifThen condition body | loop condition body =>
      exact .bind (ih condition) fun _ ↦ .bind (ih body) fun _ ↦ .refl _ _
    | ifElse condition body alternative =>
      exact .bind (ih condition) fun _ ↦ .bind (ih body) fun _ ↦ .bind (ih alternative)
        fun _ ↦ .refl _ _
    | binary left operator right =>
      exact .bind (ih left) fun _ ↦ .bind (ih right) fun _ ↦ .refl _ _
    | varDecl | intLit | boolLit | use | hole => exact .refl _ _

theorem upTo_codeFromAll {nodes : List Node} {cut : Node → Node}
    (h : ∀ node first, UpTo (.hole .tooDeep) ((cut node).codeFrom first) (node.codeFrom first)) :
    ∀ first, UpTo (.hole .tooDeep) (Node.codeFromAll first (nodes.map cut))
      (Node.codeFromAll first nodes) := by
  induction nodes with
  | nil => exact fun first ↦ .refl _ _
  | cons node more ih =>
    exact fun first ↦ .bind (h node first) fun _ ↦ .bind (ih _) fun _ ↦ .refl _ _

theorem upTo_codeFrom_prune (depth : Nat) :
    ∀ (node : Node) (first : Label),
      UpTo (.hole .tooDeep) ((node.prune depth).codeFrom first) (node.codeFrom first) := by
  induction depth with
  | zero => exact fun node first ↦ .inl (by rw [Node.prune, Node.codeFrom])
  | succ depth ih =>
    intro node first
    cases node with
    | program name declarations body =>
      exact .bind (upTo_codeFromAll ih first) fun _ ↦ .bind (ih body _) fun _ ↦ .refl _ _
    | block statements => exact upTo_codeFromAll ih first
    | assign target value => exact .bind (ih value _) fun _ ↦ .refl _ _
    | ifThen condition body | loop condition body =>
      exact .bind (ih condition _) fun _ ↦ .bind (ih body _) fun _ ↦ .refl _ _
    | ifElse condition body alternative =>
      exact .bind (ih condition _) fun _ ↦ .bind (ih body _) fun _ ↦ .bind (ih alternative _)
        fun _ ↦ .refl _ _
    | binary left operator right =>
      exact .bind (ih left _) fun _ ↦ .bind (ih right _) fun _ ↦ .refl _ _
    | varDecl | intLit | boolLit | use | hole => exact .refl _ _

/-! ### Checks -/

section Checks

variable {α β : Type}

/-- A check is stopped by the hole where a tree is cut off, whatever the scope. -/
def Check.Struck (check : Check α) : Prop :=
  ∀ before, (check.run.run before).run.1 = .error (.breakdown (.hole .tooDeep))

/-- A check of a part does what the check of the whole does, unless it is struck. -/
def Check.UpToNesting (cut whole : Check α) : Prop :=
  ∀ before, (cut.run.run before).run.1 = .error (.breakdown (.hole .tooDeep)) ∨
    (cut.run.run before).run = (whole.run.run before).run

theorem Check.run_bind_of_error {check : Check α} {before : Scope} {fault : CheckFault}
    (h : (check.run.run before).run.1 = .error fault) (next : α → Check β) :
    ((check >>= next).run.run before).run.1 = .error fault := by
  rw [Check.run_bind]
  rcases hrun : (check.run.run before).run with ⟨found | a, after⟩ <;> rw [hrun] at h <;> cases h
  rfl

theorem Check.Struck.bind {check : Check α} (h : check.Struck) (next : α → Check β) :
    (check >>= next).Struck :=
  fun before ↦ Check.run_bind_of_error (h before) next

theorem Check.UpToNesting.refl (check : Check α) : check.UpToNesting check :=
  fun _ ↦ .inr rfl

theorem Check.UpToNesting.bind {cut whole : Check α} {next other : α → Check β}
    (h : cut.UpToNesting whole) (hnext : ∀ a, (next a).UpToNesting (other a)) :
    (cut >>= next).UpToNesting (whole >>= other) := by
  intro before
  rcases h before with hstruck | hsame
  · exact .inl (Check.run_bind_of_error hstruck next)
  · rw [Check.run_bind, Check.run_bind, hsame]
    rcases (whole.run.run before).run with ⟨fault | a, after⟩
    · exact .inr rfl
    · exact hnext a after

/-- The first token is the same, or the check comes to the hole before it asks for the token. -/
theorem struck_or_firstToken_prune (depth : Nat) :
    ∀ node : Node, (node.prune depth).findType.Struck ∨
      (node.prune depth).firstToken = node.firstToken := by
  induction depth with
  | zero => exact fun node ↦ .inl fun before ↦ by rw [Node.prune, Node.findType]; rfl
  | succ depth ih =>
    intro node
    cases node with
    | binary left operator right =>
      rcases ih left with hstruck | hsame
      · exact .inl (hstruck.bind _)
      · exact .inr hsame
    | _ => exact .inr rfl

/-- A condition is asked for its first token only where its check has come to an end. -/
theorem upToNesting_condition {statement : String} {cut whole : Node} {next other : Unit → Check β}
    (h : cut.findType.UpToNesting whole.findType)
    (hfirst : cut.findType.Struck ∨ cut.firstToken = whole.firstToken)
    (hnext : (next ()).UpToNesting (other ())) :
    (cut.findType >>= fun type ↦ requireBoolean statement cut type >>= next).UpToNesting
      (whole.findType >>= fun type ↦ requireBoolean statement whole type >>= other) := by
  rcases hfirst with hstruck | hsame
  · exact fun before ↦ .inl (hstruck.bind _ before)
  · refine h.bind fun type ↦ .bind ?_ fun _ ↦ hnext
    unfold requireBoolean
    rw [hsame]
    exact .refl _

theorem upToNesting_findTypes {nodes : List Node} {cut : Node → Node}
    (h : ∀ node, (cut node).findType.UpToNesting node.findType) :
    (Node.findTypes (nodes.map cut)).UpToNesting (Node.findTypes nodes) := by
  induction nodes with
  | nil => exact .refl _
  | cons node more ih => exact .bind (h node) fun _ ↦ ih

theorem upToNesting_findType_prune (depth : Nat) :
    ∀ node : Node, (node.prune depth).findType.UpToNesting node.findType := by
  induction depth with
  | zero => exact fun node before ↦ .inl (by rw [Node.prune, Node.findType]; rfl)
  | succ depth ih =>
    have hfirst := struck_or_firstToken_prune depth
    intro node
    cases node with
    | program name declarations body =>
      exact .bind (upToNesting_findTypes ih) fun _ ↦ .bind (ih body) fun _ ↦ .refl _
    | block statements => exact .bind (upToNesting_findTypes ih) fun _ ↦ .refl _
    | assign target value => exact .bind (.refl _) fun _ ↦ .bind (ih value) fun _ ↦ .refl _
    | ifThen condition body | loop condition body =>
      exact upToNesting_condition (ih condition) (hfirst condition)
        (.bind (ih body) fun _ ↦ .refl _)
    | ifElse condition body alternative =>
      exact upToNesting_condition (ih condition) (hfirst condition)
        (.bind (ih body) fun _ ↦ .bind (ih alternative) fun _ ↦ .refl _)
    | binary left operator right =>
      exact .bind (ih left) fun _ ↦ .bind (ih right) fun _ ↦ .refl _
    | varDecl | intLit | boolLit | use | hole => exact .refl _

end Checks

/-! ### Passes within limits -/

theorem Passes.whole_faithful : Passes.whole.Faithful where
  read _ _ := .inr rfl
  outline _ := .inr rfl
  check _ := .inr rfl
  code _ := .inr rfl

/-- The passes that look so many levels deep give up, or do what they do without any limit. -/
theorem Passes.within_faithful (reading looking : Nat) : (within reading looking).Faithful where
  read stream lines := (stream.readProgramWithin_eq_or reading lines).imp_right (congrArg Prod.fst)
  outline program := upTo_outline_prune looking program.node
  check program := upToNesting_findType_prune looking program.node .empty
  code program := upTo_codeFrom_prune looking program.node 0

end StackCompiler
