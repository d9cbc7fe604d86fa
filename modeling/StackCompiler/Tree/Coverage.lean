import StackCompiler.Tree.Node

/-!
# Coverage of passes

A pass over trees has to say what it does with every kind of construct. A family of passes grows
one pass at a time: a new pass takes over what the last one handles and adds kinds of its own. It
is refused, with the kinds that are missing, unless it then handles them all
(`Coverage.extend_ok_iff`). So a pass that is accepted gets over every construct of a tree
(`Coverage.visit_of_extend`).
-/

set_option autoImplicit false
set_option relaxedAutoImplicit false

namespace StackCompiler

/-- A pass and the names of the kinds that it handles. -/
structure Coverage where
  pass : String
  handled : List String
  deriving DecidableEq, Repr

namespace Coverage

/-- The pass that all others are made from handles nothing. -/
def root (pass : String) : Coverage := ⟨pass, []⟩

/-- The kinds of construct that are not handled, in their fixed order. -/
def missing (handled : List String) : List NodeKind :=
  NodeKind.all.filter fun kind => !handled.contains kind.name

/-- The words for something that a pass has no rule for. -/
def refusal (pass object : String) : String :=
  s!"{pass} does not handle {object}"

/-- A new pass with further kinds, or the words that refuse it. -/
def extend (base : Coverage) (pass : String) (further : List String) :
    Except String Coverage :=
  let handled := further ++ base.handled
  match missing handled with
  | [] => .ok ⟨pass, handled⟩
  | kinds => .error (refusal pass (", ".intercalate (kinds.map NodeKind.name)))

/-- Hands an object of a named kind to the pass, which answers the kind. -/
def visit (coverage : Coverage) (kind : String) : Except String String :=
  if coverage.handled.contains kind then .ok kind else .error (refusal coverage.pass kind)

theorem missing_eq_nil_iff (handled : List String) :
    missing handled = [] ↔ ∀ kind : NodeKind, kind.name ∈ handled := by
  simp only [missing, List.filter_eq_nil_iff, Bool.not_eq_true', Bool.not_eq_false]
  constructor
  · intro h kind
    simpa using h kind (NodeKind.mem_all kind)
  · intro h kind _
    simpa using h kind

theorem extend_ok_iff {base : Coverage} {pass : String} {further : List String} :
    (∃ coverage, base.extend pass further = .ok coverage) ↔
      ∀ kind : NodeKind, kind.name ∈ further ∨ kind.name ∈ base.handled := by
  simp only [← List.mem_append, ← missing_eq_nil_iff]
  unfold extend
  constructor
  · rintro ⟨coverage, h⟩
    dsimp only at h
    split at h
    · assumption
    · cases h
  · intro hnone
    exact ⟨⟨pass, further ++ base.handled⟩, by simp only [hnone]⟩

/-- A pass that is accepted has a rule for every node that is no hole. -/
theorem visit_of_extend {base coverage : Coverage} {pass : String} {further : List String}
    (h : base.extend pass further = .ok coverage) {node : Node}
    (hnode : ∀ gap, node ≠ .hole gap) : coverage.visit node.kindName = .ok node.kindName := by
  have hall : ∀ kind : NodeKind, kind.name ∈ coverage.handled := by
    rw [← missing_eq_nil_iff]
    unfold extend at h
    dsimp only at h
    split at h
    · cases h
      assumption
    · cases h
  obtain ⟨kind, hkind⟩ := Node.exists_kindName hnode
  rw [visit, hkind, if_pos (List.contains_iff_mem.mpr (hall kind))]

end Coverage

end StackCompiler
