import StackCompiler.Machine.Emit
import StackCompiler.Proofs.Compilation.Relocation

/-!
# Trees put together from constructs

What is said of trees whatever constructs stand in which places: their subtrees, the tokens that
they consist of (`Node.Consists`), and the trees with other tokens in place of these. If the tokens
are only moved, the code stays as it is (`Node.code_relocate`).
-/

set_option autoImplicit false
set_option relaxedAutoImplicit false

namespace StackCompiler

theorem Instr.ofOperator_relocate (move : Location → Location) (operator : Token) :
    ofOperator (operator.relocate move) = ofOperator operator :=
  rfl

namespace Node

/-! ### Replacing the tokens of a tree -/

section Trees

variable (f : Token → Token)

mutual

def mapTokens : Node → Node
  | .program name declarations body =>
    .program (f name) (mapTokensOfAll declarations) body.mapTokens
  | .varDecl name type => .varDecl (f name) (f type)
  | .block statements => .block (mapTokensOfAll statements)
  | .assign target value => .assign (f target) value.mapTokens
  | .ifThen condition body => .ifThen condition.mapTokens body.mapTokens
  | .ifElse condition body alternative =>
    .ifElse condition.mapTokens body.mapTokens alternative.mapTokens
  | .loop condition body => .loop condition.mapTokens body.mapTokens
  | .binary left operator right => .binary left.mapTokens (f operator) right.mapTokens
  | .intLit token => .intLit (f token)
  | .boolLit token => .boolLit (f token)
  | .use name => .use (f name)
  | .hole gap => .hole gap

def mapTokensOfAll : List Node → List Node
  | [] => []
  | node :: more => node.mapTokens :: mapTokensOfAll more

end

end Trees

mutual

theorem codeFrom_relocate (move : Location → Location) : ∀ (node : Node) (first : Label),
    (node.mapTokens (Token.relocate move)).codeFrom first = node.codeFrom first
  | .program name declarations body, first => by
    simp only [mapTokens, codeFrom, codeFromAll_relocate move declarations,
      codeFrom_relocate move body]
  | .varDecl name type, first => rfl
  | .block statements, first => by
    simp only [mapTokens, codeFrom, codeFromAll_relocate move statements]
  | .assign target value, first => by
    simp only [mapTokens, codeFrom, codeFrom_relocate move value, Token.lexeme_relocate]
  | .ifThen condition body, first | .loop condition body, first => by
    simp only [mapTokens, codeFrom, codeFrom_relocate move condition, codeFrom_relocate move body]
  | .ifElse condition body alternative, first => by
    simp only [mapTokens, codeFrom, codeFrom_relocate move condition, codeFrom_relocate move body,
      codeFrom_relocate move alternative]
  | .binary left operator right, first => by
    simp only [mapTokens, codeFrom, codeFrom_relocate move left, codeFrom_relocate move right,
      Instr.ofOperator_relocate]
  | .intLit token, first | .boolLit token, first | .use token, first | .hole gap, first => rfl

theorem codeFromAll_relocate (move : Location → Location) : ∀ (nodes : List Node) (first : Label),
    codeFromAll first (mapTokensOfAll (Token.relocate move) nodes) = codeFromAll first nodes
  | [], first => rfl
  | node :: more, first => by
    simp only [mapTokensOfAll, codeFromAll, codeFrom_relocate move node,
      codeFromAll_relocate move more]

end

/-- The code of a tree does not depend on where its tokens stand. -/
theorem code_relocate (move : Location → Location) (node : Node) :
    (node.mapTokens (Token.relocate move)).code = node.code :=
  codeFrom_relocate move node 0

/-! ### The tokens of a tree -/

section Consists

variable (p : Token → Prop)

mutual

/-- A tree without a hole, whose tokens all have a property. -/
def Consists : Node → Prop
  | .program name declarations body => p name ∧ AllConsist declarations ∧ body.Consists
  | .varDecl name type => p name ∧ p type
  | .block statements => AllConsist statements
  | .assign target value => p target ∧ value.Consists
  | .ifThen condition body | .loop condition body => condition.Consists ∧ body.Consists
  | .ifElse condition body alternative =>
    condition.Consists ∧ body.Consists ∧ alternative.Consists
  | .binary left operator right => left.Consists ∧ p operator ∧ right.Consists
  | .intLit token | .boolLit token | .use token => p token
  | .hole _ => False

def AllConsist : List Node → Prop
  | [] => True
  | node :: more => node.Consists ∧ AllConsist more

end

end Consists

end Node

section Grammar

variable {p : Token → Prop}

theorem Expr.consists_node {e : Expr} (h : ∀ token ∈ e.tokens, p token) : e.node.Consists p := by
  induction e with
  | binary left operator right ihleft ihright =>
    simp only [tokens, List.forall_mem_append, List.forall_mem_cons] at h
    obtain ⟨hleft, hoperator, hright⟩ := h
    exact ⟨ihleft hleft, hoperator, ihright hright⟩
  | intLit token | boolLit token | use token => exact h token List.mem_cons_self

theorem Stmt.allConsist_nodes {statements : List Stmt}
    (hall : ∀ statement ∈ statements, (∀ token ∈ statement.tokens, p token) →
      statement.node.Consists p) (h : ∀ token ∈ Stmt.tokensOfAll statements, p token) :
    Node.AllConsist p (Stmt.nodes statements) := by
  induction statements with
  | nil => trivial
  | cons statement more ih =>
    obtain ⟨hfirst, hmore⟩ := List.forall_mem_append.mp h
    exact ⟨hall statement List.mem_cons_self hfirst,
      ih (fun other hother ↦ hall other (List.mem_cons_of_mem _ hother)) hmore⟩

theorem Stmt.consists_node {statement : Stmt} (h : ∀ token ∈ statement.tokens, p token) :
    statement.node.Consists p := by
  induction statement with
  | assign target value =>
    obtain ⟨htarget, hvalue⟩ := List.forall_mem_cons.mp h
    exact ⟨htarget, value.consists_node hvalue⟩
  | ifThen condition body ih | loop condition body ih =>
    obtain ⟨hcondition, hbody⟩ := List.forall_mem_append.mp h
    exact ⟨condition.consists_node hcondition, ih hbody⟩
  | ifElse condition body alternative ihbody ihalternative =>
    simp only [tokens, List.forall_mem_append] at h
    obtain ⟨⟨hcondition, hbody⟩, halternative⟩ := h
    exact ⟨condition.consists_node hcondition, ihbody hbody, ihalternative halternative⟩
  | block statements ih => exact Stmt.allConsist_nodes ih h

theorem Decl.allConsist_nodes {declarations : List Decl}
    (h : ∀ token ∈ declarations.flatMap Decl.tokens, p token) :
    Node.AllConsist p (declarations.map Decl.node) := by
  induction declarations with
  | nil => trivial
  | cons decl more ih =>
    obtain ⟨hdecl, hmore⟩ := List.forall_mem_append.mp h
    exact ⟨⟨hdecl _ (by simp [tokens]), hdecl _ (by simp [tokens])⟩, ih hmore⟩

theorem Program.consists_node {program : Program} (h : ∀ token ∈ program.tokens, p token) :
    program.node.Consists p := by
  simp only [tokens, List.forall_mem_append, List.forall_mem_cons] at h
  obtain ⟨⟨hname, hdeclarations⟩, hstatements⟩ := h
  exact ⟨hname, Decl.allConsist_nodes hdeclarations,
    Stmt.allConsist_nodes (fun statement _ ↦ statement.consists_node) hstatements⟩

end Grammar

/-! ### Subtrees -/

namespace Node

mutual

/-- A tree and the trees in it, each in front of those in it. -/
def subtrees : Node → List Node
  | .program name declarations body =>
    .program name declarations body :: (subtreesOfAll declarations ++ body.subtrees)
  | .block statements => .block statements :: subtreesOfAll statements
  | .assign target value => .assign target value :: value.subtrees
  | .ifThen condition body => .ifThen condition body :: (condition.subtrees ++ body.subtrees)
  | .ifElse condition body alternative =>
    .ifElse condition body alternative ::
      (condition.subtrees ++ (body.subtrees ++ alternative.subtrees))
  | .loop condition body => .loop condition body :: (condition.subtrees ++ body.subtrees)
  | .binary left operator right => .binary left operator right :: (left.subtrees ++ right.subtrees)
  | leaf => [leaf]

def subtreesOfAll : List Node → List Node
  | [] => []
  | node :: more => node.subtrees ++ subtreesOfAll more

end

variable {p : Token → Prop}

mutual

/-- Of what a tree consists, its subtrees do. -/
theorem Consists.of_mem_subtrees : ∀ {node : Node}, node.Consists p →
    ∀ subtree ∈ node.subtrees, subtree.Consists p
  | .program name declarations body, h => by
    obtain ⟨-, hdeclarations, hbody⟩ := id h
    rw [subtrees, List.forall_mem_cons, List.forall_mem_append]
    exact ⟨h, hdeclarations.of_mem_subtrees, hbody.of_mem_subtrees⟩
  | .block statements, h => by
    rw [subtrees, List.forall_mem_cons]
    exact ⟨h, AllConsist.of_mem_subtrees h⟩
  | .assign target value, h => by
    rw [subtrees, List.forall_mem_cons]
    exact ⟨h, Consists.of_mem_subtrees h.2⟩
  | .ifThen condition body, h | .loop condition body, h => by
    rw [subtrees, List.forall_mem_cons, List.forall_mem_append]
    exact ⟨h, Consists.of_mem_subtrees h.1, Consists.of_mem_subtrees h.2⟩
  | .ifElse condition body alternative, h => by
    obtain ⟨hcondition, hbody, halternative⟩ := id h
    rw [subtrees, List.forall_mem_cons, List.forall_mem_append, List.forall_mem_append]
    exact ⟨h, hcondition.of_mem_subtrees, hbody.of_mem_subtrees, halternative.of_mem_subtrees⟩
  | .binary left operator right, h => by
    obtain ⟨hleft, -, hright⟩ := id h
    rw [subtrees, List.forall_mem_cons, List.forall_mem_append]
    exact ⟨h, hleft.of_mem_subtrees, hright.of_mem_subtrees⟩
  | .varDecl _ _, h | .intLit _, h | .boolLit _, h | .use _, h => by simpa [subtrees] using h

theorem AllConsist.of_mem_subtrees : ∀ {nodes : List Node}, AllConsist p nodes →
    ∀ subtree ∈ subtreesOfAll nodes, subtree.Consists p
  | [], _ => nofun
  | node :: more, h => by
    rw [subtreesOfAll, List.forall_mem_append]
    exact ⟨Consists.of_mem_subtrees h.1, AllConsist.of_mem_subtrees h.2⟩

end

end Node

end StackCompiler
