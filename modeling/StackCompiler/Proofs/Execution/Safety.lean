import StackCompiler.Proofs.Execution.TypedCode
import StackCompiler.Proofs.Typing.Check

/-!
# Checked programs run safely

`safe_of_reaches` is the main statement: whatever the machine reaches with the code of a program
that passed the check is safe (`Machine.Safe`). The operands of connectives and of conditional
jumps are truth values, declared variables keep their types and no others are used, and the
machine goes on unless it is at `halt` or at a division that refuses its operands.

The invariant is that the rest of the code, from the line of the configuration on, takes stacks of
some types to the empty stack, and the stack has values of these types (`Machine.Typed`). Steps keep
it (`Machine.Typed.step`), a jump because the code behind every label is code for the empty
stack.
-/

set_option autoImplicit false
set_option relaxedAutoImplicit false

namespace StackCompiler

open Machine

variable {machine : Machine} {types : TypeEnv} {config next : Config}

/-! ### Safe configurations -/

/-- What a configuration promises for the instruction on its line. -/
structure Machine.Safe (machine : Machine) (types : TypeEnv) (config : Config) : Prop where
  connective : ∀ operation, machine.code[config.line]? = some (.apply operation) →
    operation = .and ∨ operation = .or → ∃ left right stack,
      config.stack = right :: left :: stack ∧ Ty.boolean.Holds left ∧ Ty.boolean.Holds right
  condition : ∀ target, machine.code[config.line]? = some (.jumpIfZero target) →
    ∃ value stack, config.stack = value :: stack ∧ Ty.boolean.Holds value
  store : ∀ name, machine.code[config.line]? = some (.store name) →
    ∃ type value stack, types name = some type ∧ config.stack = value :: stack ∧ type.Holds value
  load : ∀ name, machine.code[config.line]? = some (.load name) → ∃ type, types name = some type
  fits : config.store.Fits types
  progress : machine.step? config = none → machine.AtHalt config ∨
    machine.code[config.line]? = some (.apply .div) ∧ ∃ left right stack,
      config.stack = right :: left :: stack ∧ machine.divide left right = none

/-! ### The invariant -/

/-- The whole code of a machine, without its last line, is for the empty stack. -/
def Machine.WellTyped (machine : Machine) (types : TypeEnv) : Prop :=
  ∃ piece, machine.code = piece ++ [.halt] ∧ CodeTyped types machine.code piece [] []

/-- The stack of a configuration has the types that the rest of the code is for, and the store fits
the types of the variables. -/
structure Machine.Typed (machine : Machine) (types : TypeEnv) (config : Config) : Prop where
  exists_rest : ∃ piece stack, machine.code.drop config.line = piece ++ [.halt] ∧
    CodeTyped types machine.code piece stack [] ∧ List.Forall₂ Ty.Holds stack config.stack
  fits : config.store.Fits types

theorem Machine.WellTyped.start (h : machine.WellTyped types) {store : Store}
    (hfits : store.Fits types) : machine.Typed types (start store) := by
  obtain ⟨piece, hcode, htyped⟩ := h
  exact ⟨⟨piece, [], hcode, htyped, .nil⟩, hfits⟩

theorem getElem?_of_drop_eq {code rest : List Instr} {line : Nat} {instruction : Instr}
    (h : code.drop line = instruction :: rest) :
    code[line]? = some instruction ∧ code.drop (line + 1) = rest := by
  constructor
  · rw [← List.head?_drop, h]
    rfl
  · rw [← List.tail_drop, h]
    rfl

theorem getElem?_of_lineOf? {code : List Instr} {label : Label} {target : Nat}
    (h : lineOf? code label = some target) : code[target]? = some (.label label) := by
  obtain ⟨hlength, htarget, -⟩ := List.findIdx?_eq_some_iff_getElem.mp h
  rw [List.getElem?_eq_getElem hlength, eq_of_beq htarget]

/-- Every line that a jump leads to is for the empty stack. -/
theorem Machine.WellTyped.typed_of_lineOf? (h : machine.WellTyped types) {label : Label}
    {target : Nat} (htarget : lineOf? machine.code label = some target) {store : Store}
    (hfits : store.Fits types) : machine.Typed types ⟨target, [], store⟩ := by
  obtain ⟨piece, hcode, htyped⟩ := h
  have hline := getElem?_of_lineOf? htarget
  rw [hcode] at hline
  have hinside : target < piece.length := by
    refine Nat.lt_of_not_le fun hbehind ↦ ?_
    rw [List.getElem?_append_right hbehind] at hline
    have hlast := List.mem_of_getElem? hline
    simp at hlast
  rw [List.getElem?_append_left hinside] at hline
  refine ⟨⟨piece.drop target, [], ?_, htyped.drop_of_label hline, .nil⟩, hfits⟩
  rw [hcode, List.drop_append_of_le_length (Nat.le_of_lt hinside)]

/-- Well-typed code uses declared variables only. -/
theorem Machine.WellTyped.declared (h : machine.WellTyped types) {name : String}
    (huse : .load name ∈ machine.code ∨ .store name ∈ machine.code) :
    ∃ type, types name = some type := by
  obtain ⟨piece, hcode, htyped⟩ := h
  rw [hcode] at huse
  rcases huse with huse | huse
  · have hmem : .load name ∈ piece := by simpa using huse
    obtain ⟨first, second, hload⟩ := htyped.exists_typed_of_mem hmem
    cases hload with
    | load hname => exact ⟨_, hname⟩
  · have hmem : .store name ∈ piece := by simpa using huse
    obtain ⟨first, second, hstore⟩ := htyped.exists_typed_of_mem hmem
    cases hstore with
    | store hname => exact ⟨_, hname⟩

theorem exists_lineOf? {code : List Instr} {label : Label} (h : .label label ∈ code) :
    ∃ target, lineOf? code label = some target := by
  rw [← Option.isSome_iff_exists, lineOf?, List.findIdx?_isSome, List.any_eq_true]
  exact ⟨_, h, beq_self_eq_true _⟩

/-! ### Steps -/

/-- An instruction that is performed leaves values of its types, on the next line or on one that a
label marks. -/
theorem Instr.Typed.of_perform? {divide : Division} {code : List Instr} {instruction : Instr}
    {before after : List Ty} (h : instruction.Typed types code before after)
    (hstack : List.Forall₂ Ty.Holds before config.stack) (hfits : config.store.Fits types)
    (hperform : instruction.perform? divide code config = some next) :
    List.Forall₂ Ty.Holds after next.stack ∧ next.store.Fits types ∧
      (next.line = config.line + 1 ∨
        after = [] ∧ ∃ label, lineOf? code label = some next.line) := by
  obtain ⟨line, values, store⟩ := config
  cases h with
  | push hvalue =>
    cases hperform
    exact ⟨.cons hvalue hstack, hfits, .inl rfl⟩
  | load hname =>
    obtain ⟨value, hvalue, hholds⟩ := hfits _ _ hname
    obtain ⟨loaded, hloaded, rfl⟩ := Option.map_eq_some_iff.mp hperform
    cases hvalue.symm.trans hloaded
    exact ⟨.cons hholds hstack, hfits, .inl rfl⟩
  | store hname =>
    cases hstack with
    | cons hholds hrest =>
      cases hperform
      exact ⟨hrest, hfits.set hname hholds, .inl rfl⟩
  | apply hkind hjoins =>
    rcases hstack with _ | ⟨hright, _ | ⟨hleft, hrest⟩⟩
    obtain ⟨value, hvalue, rfl⟩ := Option.map_eq_some_iff.mp hperform
    obtain ⟨operation, hsame, happly⟩ := hjoins.exists_result?_eq hleft hright divide
    cases hkind.symm.trans hsame
    rw [happly] at hvalue
    exact ⟨.cons (hjoins.holds_join hvalue) hrest, hfits, .inl rfl⟩
  | jump htarget =>
    obtain ⟨target, hline, rfl⟩ := Option.map_eq_some_iff.mp hperform
    exact ⟨hstack, hfits, .inr ⟨rfl, _, hline⟩⟩
  | jumpIfZero htarget =>
    rcases hstack with _ | ⟨hholds, hrest⟩
    simp only [perform?] at hperform
    split at hperform
    · obtain ⟨target, hline, rfl⟩ := Option.map_eq_some_iff.mp hperform
      exact ⟨hrest, hfits, .inr ⟨rfl, _, hline⟩⟩
    · cases hperform
      exact ⟨hrest, hfits, .inl rfl⟩
  | label mark =>
    cases hperform
    exact ⟨hstack, hfits, .inl rfl⟩

/-- An instruction is performed on values of its types, unless it is a division that refuses
them. -/
theorem Instr.Typed.of_perform?_eq_none {divide : Division} {code : List Instr}
    {instruction : Instr} {before after : List Ty} (h : instruction.Typed types code before after)
    (hstack : List.Forall₂ Ty.Holds before config.stack) (hfits : config.store.Fits types)
    (hperform : instruction.perform? divide code config = none) :
    instruction = .apply .div ∧ ∃ left right stack, config.stack = right :: left :: stack ∧
      divide left right = none := by
  obtain ⟨line, values, store⟩ := config
  cases h with
  | push hvalue => cases hperform
  | load hname =>
    obtain ⟨value, hvalue, -⟩ := hfits _ _ hname
    cases hvalue.symm.trans (Option.map_eq_none_iff.mp hperform)
  | store hname =>
    rcases hstack with _ | ⟨hholds, hrest⟩
    cases hperform
  | @apply operation _ _ _ _ _ hkind hjoins =>
    rcases hstack with _ | ⟨hright, _ | ⟨hleft, hrest⟩⟩
    have hnone := Option.map_eq_none_iff.mp hperform
    cases operation <;> simp only [Operation.result?, reduceCtorEq] at hnone
    exact ⟨rfl, _, _, _, rfl, hnone⟩
  | jump htarget =>
    obtain ⟨target, hline⟩ := exists_lineOf? htarget
    simp [perform?, Config.goTo?, hline] at hperform
  | jumpIfZero htarget =>
    rcases hstack with _ | ⟨hholds, hrest⟩
    obtain ⟨target, hline⟩ := exists_lineOf? htarget
    simp only [perform?, Config.goTo?, hline, Option.map_some] at hperform
    split at hperform <;> cases hperform
  | label mark => cases hperform

/-- Only truth values are joined by connectives. -/
theorem TokenKind.Joins.of_connective {kind : TokenKind} {first second result : Ty}
    (h : kind.Joins first second result) {operation : Operation}
    (hkind : Operation.ofKind? kind = some operation)
    (hconnective : operation = .and ∨ operation = .or) : first = .boolean ∧ second = .boolean := by
  cases h with
  | arithmetic h =>
    rcases h with rfl | rfl | rfl | rfl <;> cases hkind <;> simp at hconnective
  | logical _ => exact ⟨rfl, rfl⟩
  | comparison type h =>
    rcases h with rfl | rfl | rfl <;> cases hkind <;> simp at hconnective

namespace Machine.Typed

/-- A configuration is at `halt`, or the instruction on its line and the code behind it have the
types that its stack needs. -/
theorem atHalt_or_exists_instr (h : machine.Typed types config) :
    machine.AtHalt config ∨ ∃ instruction piece before after,
      machine.code[config.line]? = some instruction ∧
      instruction.Typed types machine.code before after ∧
      List.Forall₂ Ty.Holds before config.stack ∧
      machine.code.drop (config.line + 1) = piece ++ [.halt] ∧
      CodeTyped types machine.code piece after [] := by
  obtain ⟨⟨piece, stack, hdrop, htyped, hstack⟩, -⟩ := h
  cases htyped with
  | nil => exact .inl (getElem?_of_drop_eq hdrop).1
  | cons hfirst hrest =>
    obtain ⟨hline, hbehind⟩ := getElem?_of_drop_eq hdrop
    exact .inr ⟨_, _, _, _, hline, hfirst, hstack, hbehind, hrest⟩

/-- The successor of a configuration whose stack and store have the right types is of that kind
too. -/
theorem step (hmachine : machine.WellTyped types) (h : machine.Typed types config)
    (hstep : machine.step? config = some next) : machine.Typed types next := by
  obtain hhalt | ⟨instruction, piece, before, after, hline, hinstruction, hstack, hbehind, hrest⟩ :=
    h.atHalt_or_exists_instr
  · rw [hhalt.step?_eq_none] at hstep
    cases hstep
  · rw [step?, hline] at hstep
    obtain ⟨hvalues, hfits, hnext | ⟨rfl, label, hlabel⟩⟩ :=
      hinstruction.of_perform? hstack h.fits hstep
    · exact ⟨⟨piece, after, by rw [hnext, hbehind], hrest, hvalues⟩, hfits⟩
    · obtain ⟨line, values, store⟩ := next
      cases hvalues
      exact hmachine.typed_of_lineOf? hlabel hfits

theorem run? (hmachine : machine.WellTyped types) (count : Nat) :
    ∀ {config}, machine.Typed types config → machine.run? count config = some next →
      machine.Typed types next := by
  induction count with
  | zero =>
    intro config h hrun
    cases hrun
    exact h
  | succ count ih =>
    intro config h hrun
    obtain ⟨middle, hstep, hrest⟩ := Option.bind_eq_some_iff.mp hrun
    exact ih (h.step hmachine hstep) hrest

theorem safe (h : machine.Typed types config) : machine.Safe types config := by
  obtain ⟨line, values, store⟩ := config
  obtain hhalt | ⟨instruction, piece, before, after, hline, hinstruction, hstack, -⟩ :=
    h.atHalt_or_exists_instr
  · rw [AtHalt] at hhalt
    exact ⟨by simp [hhalt], by simp [hhalt], by simp [hhalt], by simp [hhalt], h.fits,
      fun _ ↦ .inl hhalt⟩
  · refine ⟨?_, ?_, ?_, ?_, h.fits, ?_⟩
    · intro operation hoperation hconnective
      cases hline.symm.trans hoperation
      cases hinstruction with
      | apply hkind hjoins =>
        obtain ⟨rfl, rfl⟩ := hjoins.of_connective hkind hconnective
        rcases hstack with _ | ⟨hright, _ | ⟨hleft, -⟩⟩
        exact ⟨_, _, _, rfl, hleft, hright⟩
    · intro target htarget
      cases hline.symm.trans htarget
      cases hinstruction
      rcases hstack with _ | ⟨hvalue, -⟩
      exact ⟨_, _, rfl, hvalue⟩
    · intro name hname
      cases hline.symm.trans hname
      cases hinstruction with
      | store hdeclared =>
        rcases hstack with _ | ⟨hvalue, -⟩
        exact ⟨_, _, _, hdeclared, rfl, hvalue⟩
    · intro name hname
      cases hline.symm.trans hname
      cases hinstruction with
      | load hdeclared => exact ⟨_, hdeclared⟩
    · intro hstep
      rw [step?, hline] at hstep
      obtain ⟨rfl, hrefused⟩ := hinstruction.of_perform?_eq_none hstack h.fits hstep
      exact .inr ⟨hline, hrefused⟩

end Machine.Typed

/-! ### Programs -/

/-- The code of a program that passed the check uses declared variables only, and run on any store
that fits the declarations and with any division, it only reaches configurations that are safe for
the declared types. The literals have to be integers that can be written, which those of a program
that is read from a text are (`literalsAreIntegers_of_scan`, `literalsAreWritable_of_scan`). -/
theorem safe_of_reaches {program : Program} {found : Option Ty} {scope : Scope}
    (hcheck : program.node.check .empty = (.ok found, scope))
    (hliterals : LiteralsAreIntegers program.expressions)
    (hwritable : LiteralsAreWritable program.expressions) :
    ∃ code labels, program.node.code = .ok (code, labels) ∧
      (∀ name, .load name ∈ code ∨ .store name ∈ code → ∃ type, scope.types name = some type) ∧
      ∀ (divide : Division) (store : Store), store.Fits scope.types →
        ∀ config, Machine.Reaches ⟨code, divide⟩ (start store) config →
          Machine.Safe ⟨code, divide⟩ scope.types config := by
  obtain ⟨-, hdeclares, htyped⟩ := Program.check_eq_ok.mp hcheck
  rw [types_eq_of_declares hdeclares]
  have hmachine : ∀ divide, Machine.WellTyped ⟨program.code, divide⟩ program.types :=
    fun divide ↦ htyped.exists_codeTyped hliterals
  refine ⟨program.code, _, htyped.code_node hwritable, ?_,
    fun divide store hfits config hreaches ↦ ?_⟩
  · exact fun name huse ↦ (hmachine fun _ _ ↦ none).declared huse
  · obtain ⟨count, hrun⟩ := hreaches
    have htypes := (hmachine divide).start hfits
    exact (Machine.Typed.run? (hmachine divide) count htypes hrun).safe

/-- The program `var b : boolean; begin b := b and true; end`. -/
def conjunction : Program :=
  let token (kind : TokenKind) (lexeme : String) : Token := ⟨kind, lexeme, none, ⟨"", 1, 1⟩⟩
  let b := token .ident "b"
  { name := token .ident "p"
    declarations := [⟨b, token .booleanKw "boolean"⟩]
    statements := [.assign b
      (.binary (.use b) (token .andKw "and") (.boolLit (token .trueKw "true")))] }

/-- Where `b` is true, two steps lead to the conjunction, which is safe there. -/
theorem safe_conjunction :
    ∃ code labels, conjunction.node.code = .ok (code, labels) ∧ ∃ config,
      Machine.Reaches ⟨code, fun _ _ ↦ none⟩ (start fun _ ↦ some 1) config ∧
      code[config.line]? = some (.apply .and) ∧
      Machine.Safe ⟨code, fun _ _ ↦ none⟩ (conjunction.node.check .empty).2.types config := by
  have hliterals : LiteralsAreIntegers conjunction.expressions := by
    intro token htoken
    simp [conjunction, Program.expressions, Stmt.expressionsOfAll, Stmt.expressions,
      Expr.parts] at htoken
  obtain ⟨code, labels, hcode, -, h⟩ :=
    safe_of_reaches (rfl : conjunction.node.check .empty = (.ok _, _)) hliterals (by decide +kernel)
  have hfits : Store.Fits (fun _ ↦ some 1) (conjunction.node.check .empty).2.types := by
    intro name type _
    cases type with
    | integer => exact ⟨1, rfl, trivial⟩
    | boolean => exact ⟨1, rfl, .inr rfl⟩
  cases hcode
  exact ⟨_, _, rfl, ⟨2, [1, 1], fun _ ↦ some 1⟩, ⟨2, rfl⟩, rfl, h _ _ hfits _ ⟨2, rfl⟩⟩

end StackCompiler
