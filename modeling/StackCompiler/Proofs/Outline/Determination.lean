import StackCompiler.Grammar.Reading
import StackCompiler.Proofs.Grammar.Soundness
import StackCompiler.Proofs.Outline.Headings

/-!
# A tree is told from what is printed of it

Trees that the rules of the grammar read from tokens of scans (`Node.IsParsed`) can be printed, and
when the same text is printed of two of them, they differ only in the places of their tokens and
have the same code (`Node.print_determines`). On the way from the text to the tree the lines give
the outline (`Outline.eq_of_text_eq`) and the outline gives the tree
(`Node.relocate_eq_of_sketch_eq`).
-/

set_option autoImplicit false
set_option relaxedAutoImplicit false

namespace StackCompiler

open Grammar Text

/-! ### Trees that are read -/

/-- A tree is what a rule of the grammar gives for the front of some tokens of scans. -/
inductive Node.IsParsed : Node → Prop
  | program {depth : Nat} {pending rest : List Token} {found : Program}
      (hscanned : ∀ token ∈ pending, token.IsScanned)
      (hread : Grammar.program depth pending = .ok (found, rest)) : IsParsed found.node
  | statement {depth : Nat} {pending rest : List Token} {found : Stmt}
      (hscanned : ∀ token ∈ pending, token.IsScanned)
      (hread : Grammar.statement depth pending = .ok (found, rest)) : IsParsed found.node
  | expression {depth : Nat} {pending rest : List Token} {found : Expr}
      (hscanned : ∀ token ∈ pending, token.IsScanned)
      (hread : Grammar.expression depth pending = .ok (found, rest)) : IsParsed found.node

namespace Node

/-- A program that is read from a text is such a tree. -/
theorem isParsed_of_readProgramWithin {file text : String} {depth : Nat} {lines : List String}
    {found : Program} {rest : TokenStream}
    (h : (scan file text).stream.readProgramWithin depth lines = (.ok found, rest)) :
    found.node.IsParsed := by
  have hscanned : ∀ token ∈ (scan file text).stream.pending, token.IsScanned :=
    fun token hmem ↦ ⟨file, text, List.mem_append_left _ hmem⟩
  unfold TokenStream.readProgramWithin at h
  cases hread : Grammar.program depth (scan file text).stream.pending with
  | error stop => simp [hread] at h
  | ok result =>
    simp only [hread, Prod.mk.injEq, Except.ok.injEq] at h
    obtain ⟨rfl, -⟩ := h
    exact .program hscanned hread

/-- The tokens in a tree are among those from which it was read. -/
theorem IsParsed.consists {tree : Node} (h : tree.IsParsed) : tree.Consists Token.IsScanned := by
  have hcontent {tokens rest : List Token} (hscanned : ∀ token ∈ tokens ++ rest, token.IsScanned) :
      ∀ token ∈ contentOf tokens, token.IsScanned :=
    fun token hmem ↦ hscanned token (List.mem_append_left _ (List.mem_of_mem_filter hmem))
  cases h with
  | program hscanned hread =>
    obtain ⟨tokens, rfl, hderives, -⟩ := program_sound _ _ _ _ hread
    exact Program.consists_node (hderives.tokens_eq ▸ hcontent hscanned)
  | statement hscanned hread =>
    obtain ⟨tokens, rfl, hreads⟩ := statement_sound _ _ _ _ hread
    exact Stmt.consists_node (hreads.derives.tokens_eq ▸ hcontent hscanned)
  | expression hscanned hread =>
    obtain ⟨tokens, rfl, hderives⟩ := expression_sound _ _ _ _ hread
    exact Expr.consists_node (hderives.tokens_eq ▸ hcontent hscanned)

/-! ### What is printed of a tree -/

/-- An outline is that of a tree, and printing the tree gives its text from any printer on. Visiting
a subtree leaves the level as it is. The lines of the text stand as the outline has it, and are one
for each construct and one for each titled part. -/
structure PrintsAs (tree : Node) (outline : Outline) : Prop where
  outline_eq : tree.outline = .ok outline
  printed (printer : Printer) : ((Printer.print tree).outcome printer).1 = .ok outline.text
  keepsLevel : ∀ subtree ∈ tree.subtrees, ∀ printer : Printer, ∃ written,
    (Printer.visit subtree).outcome printer =
      (.ok (), ⟨printer.output ++ written, printer.level⟩)
  laysOut : outline.LaysOut (lineFeedLines outline.text.toList)
  perm : outline.labels.Perm
    (tree.subtrees.flatMap fun subtree ↦ subtree.title :: subtree.sections)
  length_eq : (lineFeedLines outline.text.toList).length =
    tree.subtrees.length + (tree.subtrees.flatMap sections).length

theorem length_flatMap_title (trees : List Node) :
    (trees.flatMap fun tree ↦ tree.title :: tree.sections).length =
      trees.length + (trees.flatMap sections).length := by
  induction trees with
  | nil => rfl
  | cons tree more ih =>
    rw [List.flatMap_cons, List.flatMap_cons, List.length_append, List.length_append, ih,
      List.length_cons, List.length_cons]
    omega

theorem Consists.printsAs_sketch {tree : Node} (h : tree.Consists Token.IsScanned) :
    tree.PrintsAs tree.sketch where
  outline_eq := h.outline_eq
  printed printer := by
    rw [Printer.outcome_print, h.outline_eq]
    rfl
  keepsLevel subtree hsubtree printer :=
    ⟨_, Printer.outcome_visit (h.of_mem_subtrees subtree hsubtree).outline_eq printer⟩
  laysOut := Outline.laysOut_text (labelled_sketch h)
  perm := tree.perm_labels
  length_eq := by
    have hlabels := congrArg List.length (Outline.laysOut_text (labelled_sketch h)).labels
    rw [List.length_map] at hlabels
    rw [hlabels, tree.perm_labels.length_eq, length_flatMap_title]

/-- Trees of scanned tokens of which the same text is printed differ only in the places of their
tokens. -/
theorem Consists.relocate_eq_of_text_eq {first second : Node}
    (h : first.Consists Token.IsScanned) (hsecond : second.Consists Token.IsScanned)
    (htext : first.sketch.text = second.sketch.text) (place : Location) :
    first.mapTokens (Token.relocate fun _ ↦ place) =
      second.mapTokens (Token.relocate fun _ ↦ place) :=
  relocate_eq_of_sketch_eq place h hsecond
    (Outline.eq_of_text_eq (labelled_sketch h) (labelled_sketch hsecond) htext)

/-- When the same text is printed of two trees, whatever the printers printed before, they are equal
up to the places of their tokens, and have the same code. Every tree can be printed, with a line for
each construct and for each titled part, two spaces further in than the line that it belongs to. -/
theorem print_determines :
    (∀ first second : Node, first.IsParsed → second.IsParsed →
      ∀ printer other : Printer,
        ((Printer.print first).outcome printer).1 = ((Printer.print second).outcome other).1 →
          (∀ place, first.mapTokens (Token.relocate fun _ ↦ place) =
            second.mapTokens (Token.relocate fun _ ↦ place)) ∧
          first.code = second.code) ∧
    ∀ tree : Node, tree.IsParsed → ∃ outline, tree.PrintsAs outline := by
  refine ⟨fun first second hfirst hsecond printer other hprint ↦ ?_,
    fun tree h ↦ ⟨_, h.consists.printsAs_sketch⟩⟩
  have htext : first.sketch.text = second.sketch.text := by
    rw [hfirst.consists.printsAs_sketch.printed, hsecond.consists.printsAs_sketch.printed] at hprint
    exact Except.ok.inj hprint
  have hsame := hfirst.consists.relocate_eq_of_text_eq hsecond.consists htext
  refine ⟨hsame, ?_⟩
  have hplace := hsame ⟨"", 1, 1⟩
  rw [← code_relocate _ first, hplace, code_relocate]

/-- A program with names that are called like titles, the same program over two lines, and what is
printed of both. -/
def titlesTight : String :=
  "program Do;begin while Left do Left:=true;end"

def titlesWide : String :=
  "program Do ;\nbegin while (Left) do Left := true ; end"

def titlesPrinted : String :=
  "\n".intercalate
    ["ProgramNode: Do",
      "  Declarations:",
      "  Compound Statement:",
      "    BeginEndNode",
      "      WhileNode",
      "        Condition:",
      "          VariableUseNode: Left",
      "        Do:",
      "          AssignNode: Left",
      "            Expression:",
      "              BooleanLitNode: true"]

/-- Both trees are printed as the same eleven lines. They are not the same, but their code is. -/
theorem print_determines_titles :
    ∃ first second rest more,
      (scan "a.src" titlesTight).stream.readProgramWithin nestingLimit [] = (.ok first, rest) ∧
      (scan "b.src" titlesWide).stream.readProgramWithin nestingLimit [] = (.ok second, more) ∧
      first.node ≠ second.node ∧
      (∀ place, first.node.mapTokens (Token.relocate fun _ ↦ place) =
        second.node.mapTokens (Token.relocate fun _ ↦ place)) ∧
      first.node.code = second.node.code ∧
      ∃ outline, first.node.PrintsAs outline ∧ outline.text = titlesPrinted ∧
        (lineFeedLines outline.text.toList).length = 11 := by
  have hfirst : ((scan "a.src" titlesTight).stream.readProgramWithin nestingLimit
      []).1.toOption.map (fun program ↦ (program.name.location.file,
        ((Printer.print program.node).outcome .fresh).1,
        program.node.subtrees.length + (program.node.subtrees.flatMap sections).length)) =
      some ("a.src", .ok titlesPrinted, 11) := by
    decide +kernel
  have hsecond : ((scan "b.src" titlesWide).stream.readProgramWithin nestingLimit
      []).1.toOption.map (fun program ↦ (program.name.location.file,
        ((Printer.print program.node).outcome .fresh).1)) = some ("b.src", .ok titlesPrinted) := by
    decide +kernel
  rcases hread : (scan "a.src" titlesTight).stream.readProgramWithin nestingLimit [] with
    ⟨_ | first, rest⟩
  · rw [hread] at hfirst
    cases hfirst
  rcases hother : (scan "b.src" titlesWide).stream.readProgramWithin nestingLimit [] with
    ⟨_ | second, more⟩
  · rw [hother] at hsecond
    cases hsecond
  rw [hread] at hfirst
  rw [hother] at hsecond
  obtain ⟨hfile, hcounted⟩ := Prod.mk.inj (Option.some.inj hfirst)
  obtain ⟨hprint, hcount⟩ := Prod.mk.inj hcounted
  obtain ⟨hotherFile, hotherPrint⟩ := Prod.mk.inj (Option.some.inj hsecond)
  have hne : first.node ≠ second.node := by
    intro hsame
    have hname : first.name = second.name := (Node.program.inj hsame).1
    rw [hname, hotherFile] at hfile
    exact absurd hfile (by decide)
  obtain ⟨hsame, hcode⟩ := print_determines.1 first.node second.node
    (isParsed_of_readProgramWithin hread) (isParsed_of_readProgramWithin hother) .fresh .fresh
    (hprint.trans hotherPrint.symm)
  obtain ⟨outline, hprints⟩ := print_determines.2 first.node (isParsed_of_readProgramWithin hread)
  have htext : outline.text = titlesPrinted :=
    Except.ok.inj ((hprints.printed .fresh).symm.trans hprint)
  exact ⟨first, second, rest, more, rfl, rfl, hne, hsame, hcode, outline, hprints, htext,
    hprints.length_eq.trans hcount⟩

end Node

end StackCompiler
