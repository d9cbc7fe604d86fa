import StackCompiler.Proofs.Execution.Literals
import StackCompiler.Proofs.Outline.Rows
import StackCompiler.Proofs.Outline.Trees
import StackCompiler.Proofs.Scanning.MaximalMunch
import StackCompiler.Proofs.Scanning.Places

/-!
# What the lines of an outline say

The line of a construct names its kind, and in front of the colon stands nothing else, so lines of
two kinds differ (`Node.kindName_eq_of_sketch_eq`). Behind the colon stand lexemes, and a token of a
scan is told from its lexeme (`Token.IsScanned.relocate_eq`). So the outline has all of a tree but
the places of its tokens (`Node.relocate_eq_of_sketch_eq`). Its lines are those of the constructs in
the tree and the titles of their parts, no more and no fewer (`Node.perm_labels`).
-/

set_option autoImplicit false
set_option relaxedAutoImplicit false

namespace StackCompiler

open Scanning Text

/-! ### Tokens of scans -/

/-- A token is one of those that scans give. -/
def Token.IsScanned (token : Token) : Prop :=
  ∃ file text, token ∈ (scan file text).tokens

namespace Token.IsScanned

variable {token other : Token}

theorem not_mem_blanks (h : token.IsScanned) : ∀ c ∈ token.lexeme.toList, c ∉ blanks := by
  obtain ⟨file, text, hmem⟩ := h
  obtain ⟨place, -, -, hblank⟩ := exists_standsAt_of_mem_tokens hmem
  exact hblank

/-- A token of a scan is a word that is read as this token, or the one at the end. -/
theorem reads_or_endOfFile (h : token.IsScanned) :
    Reads token.lexeme.toList token.reading ∨
      token.lexeme.toList = [] ∧ token.kind = .endOfFile := by
  obtain ⟨file, text, hmem⟩ := h
  rcases List.mem_append.mp hmem with hpending | hfinal
  · exact .inl (reads_of_mem_pending hpending)
  · obtain rfl := List.mem_singleton.mp hfinal
    exact .inr ⟨rfl, rfl⟩

theorem kind_eq (h : token.IsScanned) (hother : other.IsScanned)
    (hlexeme : token.lexeme = other.lexeme) : token.kind = other.kind := by
  rcases h.reads_or_endOfFile with hreads | ⟨hempty, hkind⟩ <;>
    rcases hother.reads_or_endOfFile with hotherReads | ⟨hotherEmpty, hotherKind⟩
  · rw [hlexeme] at hreads
    have hreading := hreads.unique hotherReads
    rw [reading, reading, Reading.token.injEq] at hreading
    exact hreading.1
  · exact absurd (hlexeme ▸ hotherEmpty) hreads.ne_nil
  · exact absurd (hlexeme ▸ hempty) hotherReads.ne_nil
  · rw [hkind, hotherKind]

/-- Tokens of scans with the same lexeme are the same token at different places. -/
theorem relocate_eq (h : token.IsScanned) (hother : other.IsScanned)
    (hlexeme : token.lexeme = other.lexeme) (place : Location) :
    token.relocate (fun _ ↦ place) = other.relocate fun _ ↦ place := by
  have hkind := h.kind_eq hother hlexeme
  obtain ⟨file, text, hmem⟩ := h
  obtain ⟨otherFile, otherText, hotherMem⟩ := hother
  have hliteral : token.literal = other.literal := by
    rw [literal_of_mem_tokens hmem, literal_of_mem_tokens hotherMem, hkind, hlexeme]
  rw [relocate, relocate, hkind, hlexeme, hliteral]

end Token.IsScanned

/-! ### Headings -/

namespace NodeKind

theorem toList_heading (kind : NodeKind) (detail : String) :
    (kind.heading detail).toList = kind.name.toList ++ ':' :: ' ' :: detail.toList := by
  simp [heading, ToString.toString]

theorem heading_inj {kind : NodeKind} {detail other : String}
    (h : kind.heading detail = kind.heading other) : detail = other := by
  have hchars := congrArg String.toList h
  rw [toList_heading, toList_heading] at hchars
  simpa [String.toList_inj] using hchars

theorem not_mem_name (kind : NodeKind) : ∀ c ∈ kind.name.toList, c ∉ [':', ' ', '\n'] := by
  have hall : kind.name.toList.all (fun c ↦ c ∉ [':', ' ', '\n']) = true := by
    cases kind <;> rfl
  simpa using hall

theorem exists_name_eq_cons (kind : NodeKind) :
    ∃ c more, kind.name.toList = c :: more ∧ c ≠ ' ' := by
  have hne : kind.name.toList ≠ [] := by cases kind <;> decide
  obtain ⟨c, more, hname⟩ := List.exists_cons_of_ne_nil hne
  have hc := kind.not_mem_name c (by simp [hname])
  exact ⟨c, more, hname, fun hblank ↦ hc (by simp [hblank])⟩

/-- In front of the first colon of a heading stands the name of the kind. -/
theorem takeWhile_name_append (kind : NodeKind) {rest : List Char}
    (hrest : ∀ c ∈ rest.head?, c = ':') :
    (kind.name.toList ++ rest).takeWhile (· != ':') = kind.name.toList := by
  refine takeWhile_append_of_head (fun c hc ↦ ?_) fun c hc ↦ by simp [hrest c hc]
  have hcolon : c ≠ ':' := fun hcolon ↦ kind.not_mem_name c hc (by simp [hcolon])
  simpa using hcolon

theorem isLabel_name_append (kind : NodeKind) {text : String} {rest : List Char}
    (htext : text.toList = kind.name.toList ++ rest) (hrest : '\n' ∉ rest) : IsLabel text := by
  obtain ⟨c, more, hname, hc⟩ := kind.exists_name_eq_cons
  constructor
  · simpa [htext, hname] using hc
  · rw [htext, List.mem_append, not_or]
    exact ⟨fun hmem ↦ kind.not_mem_name _ hmem (by simp), hrest⟩

theorem isLabel_name (kind : NodeKind) : IsLabel kind.name :=
  kind.isLabel_name_append (List.append_nil _).symm List.not_mem_nil

theorem isLabel_heading (kind : NodeKind) {detail : String} (h : '\n' ∉ detail.toList) :
    IsLabel (kind.heading detail) :=
  kind.isLabel_name_append (kind.toList_heading detail) (by simpa using h)

end NodeKind

/-- A name ends at the first blank behind it. -/
theorem Token.IsScanned.takeWhile_lexeme_append {token : Token} (h : token.IsScanned)
    (rest : List Char) :
    (token.lexeme.toList ++ ' ' :: rest).takeWhile (· != ' ') = token.lexeme.toList := by
  refine takeWhile_append_of_head (fun c hc ↦ ?_) (by simp)
  have hblank : c ≠ ' ' := fun hblank ↦ h.not_mem_blanks c hc (by simp [hblank, blanks])
  simpa using hblank

/-- The line of a declaration shows name and type apart. -/
theorem lexemes_eq_of_declared_eq {name type otherName otherType : Token} (h : name.IsScanned)
    (hother : otherName.IsScanned)
    (hdetail : s!"{name.lexeme} : {type.lexeme}" = s!"{otherName.lexeme} : {otherType.lexeme}") :
    name.lexeme = otherName.lexeme ∧ type.lexeme = otherType.lexeme := by
  have hchars : name.lexeme.toList ++ ' ' :: ':' :: ' ' :: type.lexeme.toList =
      otherName.lexeme.toList ++ ' ' :: ':' :: ' ' :: otherType.lexeme.toList := by
    simpa [ToString.toString] using congrArg String.toList hdetail
  have hname := congrArg (List.takeWhile (· != ' ')) hchars
  rw [h.takeWhile_lexeme_append, hother.takeWhile_lexeme_append] at hname
  rw [hname, List.append_cancel_left_eq] at hchars
  exact ⟨String.toList_inj.mp hname, String.toList_inj.mp (by simpa using hchars)⟩

/-- The line of an operation shows its operator between quotes. -/
theorem lexeme_eq_of_quoted_eq {operator other : Token}
    (hdetail : s!"'{operator.lexeme}'" = s!"'{other.lexeme}'") :
    operator.lexeme = other.lexeme := by
  have hchars := congrArg String.toList hdetail
  simpa [ToString.toString, String.toList_inj] using hchars

/-! ### The outline of a tree -/

section Parts

variable {α : Type} {first second third : List α} {some more other : List α}

theorem perm_two_parts (a b : α) (h : first.Perm some) (hsecond : second.Perm more) :
    (a :: (first ++ b :: second)).Perm (a :: b :: (some ++ more)) :=
  .cons a (List.perm_middle.trans (.cons b (h.append hsecond)))

theorem perm_three_parts (a b c : α) (h : first.Perm some) (hsecond : second.Perm more)
    (hthird : third.Perm other) :
    (a :: (first ++ b :: (second ++ c :: third))).Perm
      (a :: b :: c :: (some ++ (more ++ other))) := by
  have hlater := perm_two_parts b c hsecond hthird
  have hall : (first ++ b :: (second ++ c :: third)).Perm (some ++ b :: c :: (more ++ other)) :=
    h.append hlater
  exact .cons a (hall.trans (List.perm_middle.trans (.cons b List.perm_middle)))

end Parts

namespace Node

/-- The line of a construct. -/
def title : Node → String
  | .program name _ _ => NodeKind.program.heading name.lexeme
  | .varDecl name type => NodeKind.varDecl.heading s!"{name.lexeme} : {type.lexeme}"
  | .block _ => NodeKind.block.name
  | .assign target _ => NodeKind.assign.heading target.lexeme
  | .ifThen .. | .ifElse .. => NodeKind.cond.name
  | .loop .. => NodeKind.loop.name
  | .binary _ operator _ => NodeKind.binary.heading s!"'{operator.lexeme}'"
  | .intLit token => NodeKind.intLit.heading token.lexeme
  | .boolLit token => NodeKind.boolLit.heading token.lexeme
  | .use name => NodeKind.use.heading name.lexeme
  | .hole _ => ""

/-- The titles of the parts of a construct. -/
def sections : Node → List String
  | .program .. => ["Declarations:", "Compound Statement:"]
  | .assign .. => ["Expression:"]
  | .ifThen .. => ["Condition:", "Then Branch:"]
  | .ifElse .. => ["Condition:", "Then Branch:", "Else Branch:"]
  | .loop .. => ["Condition:", "Do:"]
  | .binary .. => ["Left:", "Right:"]
  | _ => []

mutual

/-- The outline of a tree without a hole. -/
def sketch : Node → Outline
  | tree@(.program _ declarations body) =>
    .entry tree.title
      [.entry "Declarations:" (sketches declarations), .entry "Compound Statement:" [body.sketch]]
  | tree@(.block statements) => .entry tree.title (sketches statements)
  | tree@(.assign _ value) => .entry tree.title [.entry "Expression:" [value.sketch]]
  | tree@(.ifThen condition body) =>
    .entry tree.title
      [.entry "Condition:" [condition.sketch], .entry "Then Branch:" [body.sketch]]
  | tree@(.ifElse condition body alternative) =>
    .entry tree.title
      [.entry "Condition:" [condition.sketch], .entry "Then Branch:" [body.sketch],
        .entry "Else Branch:" [alternative.sketch]]
  | tree@(.loop condition body) =>
    .entry tree.title [.entry "Condition:" [condition.sketch], .entry "Do:" [body.sketch]]
  | tree@(.binary left _ right) =>
    .entry tree.title [.entry "Left:" [left.sketch], .entry "Right:" [right.sketch]]
  | leaf => .leaf leaf.title

def sketches : List Node → List Outline
  | [] => []
  | node :: more => node.sketch :: sketches more

end

variable {p : Token → Prop}

mutual

theorem Consists.outline_eq : ∀ {node : Node}, node.Consists p → node.outline = .ok node.sketch
  | .program name declarations body, h => by
    obtain ⟨-, hdeclarations, hbody⟩ := h
    rw [outline, hdeclarations.outlines_eq, hbody.outline_eq]
    rfl
  | .block statements, h => by
    rw [outline, AllConsist.outlines_eq h]
    rfl
  | .assign target value, h => by
    rw [outline, Consists.outline_eq h.2]
    rfl
  | .ifThen condition body, h | .loop condition body, h => by
    rw [outline, Consists.outline_eq h.1, Consists.outline_eq h.2]
    rfl
  | .ifElse condition body alternative, h => by
    obtain ⟨hcondition, hbody, halternative⟩ := h
    rw [outline, hcondition.outline_eq, hbody.outline_eq, halternative.outline_eq]
    rfl
  | .binary left operator right, h => by
    obtain ⟨hleft, -, hright⟩ := h
    rw [outline, hleft.outline_eq, hright.outline_eq]
    rfl
  | .varDecl _ _, _ | .intLit _, _ | .boolLit _, _ | .use _, _ => rfl

theorem AllConsist.outlines_eq : ∀ {nodes : List Node}, AllConsist p nodes →
    outlines nodes = .ok (sketches nodes)
  | [], _ => rfl
  | node :: more, h => by
    rw [outlines, Consists.outline_eq h.1, AllConsist.outlines_eq h.2]
    rfl

end

/-! ### One line for each construct and each part -/

mutual

/-- The lines of an outline are those of the constructs and the titles of their parts. -/
theorem perm_labels : ∀ node : Node,
    node.sketch.labels.Perm
      (node.subtrees.flatMap fun subtree ↦ subtree.title :: subtree.sections)
  | .program name declarations body => by
    simpa [sketch, Outline.labels, Outline.labelsOfParts, subtrees, sections] using
      perm_two_parts "Declarations:" "Compound Statement:" (perm_labelsOfAll declarations)
        (perm_labels body)
  | .block statements => by
    simpa [sketch, Outline.labels, subtrees, sections] using perm_labelsOfAll statements
  | .assign target value => by
    simpa [sketch, Outline.labels, Outline.labelsOfParts, subtrees, sections] using
      perm_labels value
  | .ifThen condition body => by
    simpa [sketch, Outline.labels, Outline.labelsOfParts, subtrees, sections] using
      perm_two_parts "Condition:" "Then Branch:" (perm_labels condition) (perm_labels body)
  | .ifElse condition body alternative => by
    simpa [sketch, Outline.labels, Outline.labelsOfParts, subtrees, sections] using
      perm_three_parts "Condition:" "Then Branch:" "Else Branch:" (perm_labels condition)
        (perm_labels body) (perm_labels alternative)
  | .loop condition body => by
    simpa [sketch, Outline.labels, Outline.labelsOfParts, subtrees, sections] using
      perm_two_parts "Condition:" "Do:" (perm_labels condition) (perm_labels body)
  | .binary left operator right => by
    simpa [sketch, Outline.labels, Outline.labelsOfParts, subtrees, sections] using
      perm_two_parts "Left:" "Right:" (perm_labels left) (perm_labels right)
  | .varDecl _ _ | .intLit _ | .boolLit _ | .use _ | .hole _ => .refl _

theorem perm_labelsOfAll : ∀ nodes : List Node,
    (Outline.labelsOfParts (sketches nodes)).Perm
      ((subtreesOfAll nodes).flatMap fun subtree ↦ subtree.title :: subtree.sections)
  | [] => .refl _
  | node :: more => by
    rw [sketches, Outline.labelsOfParts, subtreesOfAll, List.flatMap_append]
    exact (perm_labels node).append (perm_labelsOfAll more)

end

/-! ### Labels -/

theorem isLabel_title : ∀ {node : Node}, node.Consists Token.IsScanned → IsLabel node.title := by
  have hfree {token : Token} (h : token.IsScanned) : '\n' ∉ token.lexeme.toList :=
    fun hmem ↦ h.not_mem_blanks _ hmem (by decide)
  intro node h
  cases node with
  | program name declarations body => exact NodeKind.program.isLabel_heading (hfree h.1)
  | varDecl name type =>
    have hdetail : '\n' ∉ s!"{name.lexeme} : {type.lexeme}".toList := by
      simp [ToString.toString, hfree h.1, hfree h.2]
    exact NodeKind.varDecl.isLabel_heading hdetail
  | block statements => exact NodeKind.block.isLabel_name
  | assign target value => exact NodeKind.assign.isLabel_heading (hfree h.1)
  | ifThen | ifElse => exact NodeKind.cond.isLabel_name
  | loop => exact NodeKind.loop.isLabel_name
  | binary left operator right =>
    have hdetail : '\n' ∉ s!"'{operator.lexeme}'".toList := by
      simp [ToString.toString, hfree h.2.1]
    exact NodeKind.binary.isLabel_heading hdetail
  | intLit token => exact NodeKind.intLit.isLabel_heading (hfree h)
  | boolLit token => exact NodeKind.boolLit.isLabel_heading (hfree h)
  | use name => exact NodeKind.use.isLabel_heading (hfree h)
  | hole gap => exact h.elim

theorem isLabel_of_mem_sections (node : Node) : ∀ title ∈ node.sections, IsLabel title := by
  have hsections : ∀ title ∈ node.sections,
      title.toList.head? ≠ some ' ' ∧ '\n' ∉ title.toList := by
    cases node <;> simp only [sections] <;> decide
  exact fun title htitle ↦ ⟨(hsections title htitle).1, (hsections title htitle).2⟩

theorem labelled_sketch {node : Node} (h : node.Consists Token.IsScanned) :
    node.sketch.Labelled := by
  intro label hlabel
  obtain ⟨subtree, hsubtree, hmem⟩ := List.mem_flatMap.mp (node.perm_labels.mem_iff.mp hlabel)
  rcases List.mem_cons.mp hmem with rfl | hmem
  · exact isLabel_title (h.of_mem_subtrees subtree hsubtree)
  · exact isLabel_of_mem_sections subtree label hmem

/-! ### From the outline back to the tree -/

theorem takeWhile_title {node : Node} (h : node.Consists p) :
    node.title.toList.takeWhile (· != ':') = node.kindName.toList := by
  have hheading (kind : NodeKind) (detail : String) :
      (kind.heading detail).toList.takeWhile (· != ':') = kind.name.toList := by
    rw [kind.toList_heading]
    exact kind.takeWhile_name_append (by simp)
  have hname (kind : NodeKind) : kind.name.toList.takeWhile (· != ':') = kind.name.toList := by
    have hend := kind.takeWhile_name_append (show ∀ c ∈ [].head?, c = ':' from nofun)
    rwa [List.append_nil] at hend
  cases node with
  | program | varDecl | assign | binary | intLit | boolLit | use => exact hheading _ _
  | block | ifThen | ifElse | loop => exact hname _
  | hole gap => exact h.elim

theorem exists_sketch_eq_entry (node : Node) : ∃ parts, node.sketch = .entry node.title parts := by
  cases node <;> exact ⟨_, rfl⟩

/-- Trees with the same outline are of the same kind. -/
theorem kindName_eq_of_sketch_eq {node other : Node} (h : node.Consists p)
    (hother : other.Consists p) (hsketch : node.sketch = other.sketch) :
    node.kindName = other.kindName := by
  obtain ⟨parts, hparts⟩ := node.exists_sketch_eq_entry
  obtain ⟨otherParts, hotherParts⟩ := other.exists_sketch_eq_entry
  rw [hparts, hotherParts, Outline.entry.injEq] at hsketch
  rw [← String.toList_inj, ← takeWhile_title h, ← takeWhile_title hother, hsketch.1]

section Determined

variable (place : Location)

mutual

/-- An outline has all of a tree of scanned tokens but the places of the tokens. -/
theorem relocate_eq_of_sketch_eq : ∀ {node other : Node}, node.Consists Token.IsScanned →
    other.Consists Token.IsScanned → node.sketch = other.sketch →
      node.mapTokens (Token.relocate fun _ ↦ place) = other.mapTokens (Token.relocate fun _ ↦ place)
  | .program name declarations body, other, h, hother, hsketch => by
    have hkind := kindName_eq_of_sketch_eq h hother hsketch
    cases other with
    | program otherName otherDeclarations otherBody =>
      simp only [sketch, Outline.entry.injEq, List.cons.injEq, true_and, and_true] at hsketch
      obtain ⟨htitle, hdeclarations, hbody⟩ := hsketch
      rw [mapTokens, mapTokens, h.1.relocate_eq hother.1 (NodeKind.heading_inj htitle),
        relocate_eq_of_sketches_eq h.2.1 hother.2.1 hdeclarations,
        relocate_eq_of_sketch_eq h.2.2 hother.2.2 hbody]
    | hole gap => exact hother.elim
    | _ => simp [kindName, NodeKind.name] at hkind
  | .varDecl name type, other, h, hother, hsketch => by
    have hkind := kindName_eq_of_sketch_eq h hother hsketch
    cases other with
    | varDecl otherName otherType =>
      have htitle := (Outline.entry.inj hsketch).1
      obtain ⟨hname, htype⟩ :=
        lexemes_eq_of_declared_eq h.1 hother.1 (NodeKind.heading_inj htitle)
      rw [mapTokens, mapTokens, h.1.relocate_eq hother.1 hname, h.2.relocate_eq hother.2 htype]
    | hole gap => exact hother.elim
    | _ => simp [kindName, NodeKind.name] at hkind
  | .block statements, other, h, hother, hsketch => by
    have hkind := kindName_eq_of_sketch_eq h hother hsketch
    cases other with
    | block otherStatements =>
      have hstatements := (Outline.entry.inj hsketch).2
      rw [mapTokens, mapTokens, relocate_eq_of_sketches_eq h hother hstatements]
    | hole gap => exact hother.elim
    | _ => simp [kindName, NodeKind.name] at hkind
  | .assign target value, other, h, hother, hsketch => by
    have hkind := kindName_eq_of_sketch_eq h hother hsketch
    cases other with
    | assign otherTarget otherValue =>
      simp only [sketch, Outline.entry.injEq, List.cons.injEq, true_and, and_true] at hsketch
      obtain ⟨htitle, hvalue⟩ := hsketch
      rw [mapTokens, mapTokens, h.1.relocate_eq hother.1 (NodeKind.heading_inj htitle),
        relocate_eq_of_sketch_eq h.2 hother.2 hvalue]
    | hole gap => exact hother.elim
    | _ => simp [kindName, NodeKind.name] at hkind
  | .ifThen condition body, other, h, hother, hsketch => by
    have hkind := kindName_eq_of_sketch_eq h hother hsketch
    cases other with
    | ifThen otherCondition otherBody =>
      simp only [sketch, Outline.entry.injEq, List.cons.injEq, true_and, and_true] at hsketch
      obtain ⟨-, hcondition, hbody⟩ := hsketch
      rw [mapTokens, mapTokens, relocate_eq_of_sketch_eq h.1 hother.1 hcondition,
        relocate_eq_of_sketch_eq h.2 hother.2 hbody]
    | ifElse => simp [sketch] at hsketch
    | hole gap => exact hother.elim
    | _ => simp [kindName, NodeKind.name] at hkind
  | .ifElse condition body alternative, other, h, hother, hsketch => by
    have hkind := kindName_eq_of_sketch_eq h hother hsketch
    cases other with
    | ifElse otherCondition otherBody otherAlternative =>
      simp only [sketch, Outline.entry.injEq, List.cons.injEq, true_and, and_true] at hsketch
      obtain ⟨-, hcondition, hbody, halternative⟩ := hsketch
      rw [mapTokens, mapTokens, relocate_eq_of_sketch_eq h.1 hother.1 hcondition,
        relocate_eq_of_sketch_eq h.2.1 hother.2.1 hbody,
        relocate_eq_of_sketch_eq h.2.2 hother.2.2 halternative]
    | ifThen => simp [sketch] at hsketch
    | hole gap => exact hother.elim
    | _ => simp [kindName, NodeKind.name] at hkind
  | .loop condition body, other, h, hother, hsketch => by
    have hkind := kindName_eq_of_sketch_eq h hother hsketch
    cases other with
    | loop otherCondition otherBody =>
      simp only [sketch, Outline.entry.injEq, List.cons.injEq, true_and, and_true] at hsketch
      obtain ⟨-, hcondition, hbody⟩ := hsketch
      rw [mapTokens, mapTokens, relocate_eq_of_sketch_eq h.1 hother.1 hcondition,
        relocate_eq_of_sketch_eq h.2 hother.2 hbody]
    | hole gap => exact hother.elim
    | _ => simp [kindName, NodeKind.name] at hkind
  | .binary left operator right, other, h, hother, hsketch => by
    have hkind := kindName_eq_of_sketch_eq h hother hsketch
    cases other with
    | binary otherLeft otherOperator otherRight =>
      simp only [sketch, Outline.entry.injEq, List.cons.injEq, true_and, and_true] at hsketch
      obtain ⟨htitle, hleft, hright⟩ := hsketch
      have hoperator := lexeme_eq_of_quoted_eq (NodeKind.heading_inj htitle)
      rw [mapTokens, mapTokens, relocate_eq_of_sketch_eq h.1 hother.1 hleft,
        h.2.1.relocate_eq hother.2.1 hoperator, relocate_eq_of_sketch_eq h.2.2 hother.2.2 hright]
    | hole gap => exact hother.elim
    | _ => simp [kindName, NodeKind.name] at hkind
  | .intLit token, other, h, hother, hsketch => by
    have hkind := kindName_eq_of_sketch_eq h hother hsketch
    cases other with
    | intLit otherToken =>
      have htitle := (Outline.entry.inj hsketch).1
      rw [mapTokens, mapTokens, h.relocate_eq hother (NodeKind.heading_inj htitle)]
    | hole gap => exact hother.elim
    | _ => simp [kindName, NodeKind.name] at hkind
  | .boolLit token, other, h, hother, hsketch => by
    have hkind := kindName_eq_of_sketch_eq h hother hsketch
    cases other with
    | boolLit otherToken =>
      have htitle := (Outline.entry.inj hsketch).1
      rw [mapTokens, mapTokens, h.relocate_eq hother (NodeKind.heading_inj htitle)]
    | hole gap => exact hother.elim
    | _ => simp [kindName, NodeKind.name] at hkind
  | .use name, other, h, hother, hsketch => by
    have hkind := kindName_eq_of_sketch_eq h hother hsketch
    cases other with
    | use otherName =>
      have htitle := (Outline.entry.inj hsketch).1
      rw [mapTokens, mapTokens, h.relocate_eq hother (NodeKind.heading_inj htitle)]
    | hole gap => exact hother.elim
    | _ => simp [kindName, NodeKind.name] at hkind
  | .hole gap, other, h, hother, hsketch => h.elim

theorem relocate_eq_of_sketches_eq : ∀ {nodes others : List Node},
    AllConsist Token.IsScanned nodes → AllConsist Token.IsScanned others →
      sketches nodes = sketches others →
        mapTokensOfAll (Token.relocate fun _ ↦ place) nodes =
          mapTokensOfAll (Token.relocate fun _ ↦ place) others
  | [], [], _, _, _ => rfl
  | [], _ :: _, _, _, hsketches | _ :: _, [], _, _, hsketches => by simp [sketches] at hsketches
  | node :: more, other :: others, h, hother, hsketches => by
    obtain ⟨hfirst, hmore⟩ := List.cons.inj hsketches
    rw [mapTokensOfAll, mapTokensOfAll, relocate_eq_of_sketch_eq h.1 hother.1 hfirst,
      relocate_eq_of_sketches_eq h.2 hother.2 hmore]

end

end Determined

end Node

end StackCompiler
