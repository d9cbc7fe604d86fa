import StackCompiler.Proofs.Grammar.Acceptance
import StackCompiler.Proofs.Typing.Check

/-!
# Programs that are read and checked

`check_iff_wellTyped` is the main statement: a program that was read passes the check on top of
nothing if and only if it is well-typed, and then the scope that is left holds exactly its
declared variables, and gives every expression in it its one type. That the types in declarations
are names of types is not asked of the program, because the grammar has seen to it
(`DerivesDecls.exists_declares`).
-/

set_option autoImplicit false
set_option relaxedAutoImplicit false

namespace StackCompiler

open Grammar

/-- Declarations that tokens derive declare variables. -/
theorem Grammar.DerivesDecls.exists_declares {tokens : List Token} {declarations : List Decl}
    (h : DerivesDecls tokens declarations) :
    ∃ entries, List.Forall₂ Decl.Declares declarations entries := by
  induction h with
  | nil => exact ⟨[], .nil⟩
  | @cons _ name _ type _ _ _ _ _ _ htype _ _ ih =>
    obtain ⟨entries, hentries⟩ := ih
    rcases htype with htype | htype
    · exact ⟨⟨name, .integer⟩ :: entries, .cons ⟨rfl, by rw [htype]; rfl⟩ hentries⟩
    · exact ⟨⟨name, .boolean⟩ :: entries, .cons ⟨rfl, by rw [htype]; rfl⟩ hentries⟩

/-- A well-typed program that tokens derive passes the check. -/
theorem Program.WellTyped.exists_check_eq_ok {tokens : List Token} {program : Program}
    (h : program.WellTyped) (hderives : DerivesProgram tokens program) :
    ∃ found scope, program.node.check .empty = (.ok found, scope) := by
  cases hderives with
  | intro _ _ _ hdeclarations _ =>
    obtain ⟨entries, hentries⟩ := hdeclarations.exists_declares
    exact ⟨none, ⟨entries⟩, Program.check_eq_ok.mpr ⟨rfl, hentries, h⟩⟩

/-- A program that was read passes the check exactly if its declared names are distinct and its
body is well-typed for the declared types. What is left then is the list of its declared
variables in their order, on top of which the check of every expression in the program gives the
only type that the expression has. -/
theorem check_iff_wellTyped {stream rest : TokenStream} {depth : Nat} {lines : List String}
    {program : Program} (hread : stream.readProgramWithin depth lines = (.ok program, rest)) :
    ((∃ found scope, program.node.check .empty = (.ok found, scope)) ↔ program.WellTyped) ∧
    ∀ found scope, program.node.check .empty = (.ok found, scope) →
      List.Forall₂ Decl.Declares program.declarations scope.entries ∧
      ∀ e ∈ program.expressions, ∃ type, e.node.check scope = (.ok (some type), scope) ∧
        e.HasType program.types type ∧ ∀ other, e.HasType program.types other → other = type := by
  obtain ⟨tokens, -, hderives, -⟩ := TokenStream.derives_of_readProgramWithin hread
  refine ⟨⟨?_, fun htyped ↦ htyped.exists_check_eq_ok hderives⟩, ?_⟩
  · rintro ⟨found, scope, hcheck⟩
    exact (Program.check_eq_ok.mp hcheck).2.2
  · intro found scope hcheck
    obtain ⟨-, hdeclares, htyped⟩ := Program.check_eq_ok.mp hcheck
    refine ⟨hdeclares, fun e he ↦ ?_⟩
    obtain ⟨type, htype⟩ := htyped.exists_hasType e he
    have hscope : e.HasType scope.types type := by
      rw [types_eq_of_declares hdeclares]
      exact htype
    exact ⟨type, Expr.findType_yields.mpr ⟨type, rfl, rfl, hscope⟩, htype,
      fun other hother ↦ hother.unique htype⟩

/-- The tokens of `program p; var x : integer; var b : boolean; begin b := x < 1; end`. -/
def comparison : TokenStream :=
  let token (kind : TokenKind) (lexeme : String) : Token := ⟨kind, lexeme, none, ⟨"", 1, 1⟩⟩
  .endingAt ⟨"", 1, 1⟩ [token .programKw "program", token .ident "p", token .semicolon ";",
    token .varKw "var", token .ident "x", token .colon ":", token .integerKw "integer",
    token .semicolon ";", token .varKw "var", token .ident "b", token .colon ":",
    token .booleanKw "boolean", token .semicolon ";", token .beginKw "begin", token .ident "b",
    token .assign ":=", token .ident "x", token .less "<",
    ⟨.intLit, "1", some (.int 1), ⟨"", 1, 1⟩⟩,
    token .semicolon ";", token .endKw "end"]

/-- The program that is read from these tokens passes the check, and so it is well-typed. -/
theorem comparison_wellTyped :
    ∃ program rest found scope, comparison.readProgramWithin nestingLimit [] = (.ok program, rest) ∧
      program.node.check .empty = (.ok found, scope) ∧ program.WellTyped := by
  obtain ⟨program, rest, hread, found, scope, hcheck⟩ : ∃ program rest,
      comparison.readProgramWithin nestingLimit [] = (.ok program, rest) ∧
        ∃ found scope, program.node.check .empty = (.ok found, scope) :=
    ⟨_, _, rfl, _, _, rfl⟩
  exact ⟨program, rest, found, scope, hread, hcheck,
    (check_iff_wellTyped hread).1.mp ⟨found, scope, hcheck⟩⟩

end StackCompiler
