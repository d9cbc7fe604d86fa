import StackCompiler.Proofs.Execution.Layout
import StackCompiler.Proofs.Typing.Check

/-!
# Code does what the program does

`halts_iff_runs` is the main statement: the code of a program that passed the check, run on a store
that fits its declarations, halts with a store if and only if the program comes to an end with that
store, and then nothing is left on the stack.

One direction follows the run of the program: an expression leaves its value on the stack
(`Expr.HasType.reaches_value`), a statement leaves its store (`Stmt.Runs.reaches`). The other
follows the run of the machine (`Stmt.endsBefore`): as long as it is still going to halt, no
expression on its way can have been without a value, because the machine would have got stuck
there (`Expr.HasType.faults`), and every turn of a loop takes steps off the run.
-/

set_option autoImplicit false
set_option relaxedAutoImplicit false

namespace StackCompiler

open Machine

variable {machine : Machine} {types : TypeEnv} {store final : Store} {line : Nat}

/-! ### Machines that get stuck -/

/-- From a configuration the machine gets stuck at a line that does not halt. -/
def Machine.Faults (machine : Machine) (first : Config) : Prop :=
  ∃ last, machine.Reaches first last ∧ machine.step? last = none ∧ ¬ machine.AtHalt last

theorem Machine.Faults.of_reaches {first middle : Config} (h : machine.Reaches first middle)
    (hfaults : machine.Faults middle) : machine.Faults first := by
  obtain ⟨last, hlast, hstuck⟩ := hfaults
  exact ⟨last, h.trans hlast, hstuck⟩

/-- A machine that halts does not get stuck. -/
theorem Machine.Faults.not_atHalt {first last : Config} (h : machine.Faults first)
    (hreaches : machine.Reaches first last) : ¬ machine.AtHalt last := by
  obtain ⟨stuck, hstuck, hend, hnot⟩ := h
  intro hhalt
  rw [hreaches.eq_of_step?_eq_none hstuck hhalt.step?_eq_none hend] at hhalt
  exact hnot hhalt

/-! ### Expressions -/

/-- The code of an operator replaces two values of the right types by what the operator makes of
them, and stops where it makes nothing of them. -/
theorem TokenKind.Joins.step?_eq {kind : TokenKind} {first second result : Ty}
    (h : kind.Joins first second result)
    (hat : machine.HasAt line ((Operation.ofKind? kind).map Instr.apply).toList)
    {left right : Int} (hleft : first.Holds left) (hright : second.Holds right)
    (stack : List Int) (store : Store) :
    ¬ machine.AtHalt ⟨line, right :: left :: stack, store⟩ ∧
      machine.step? ⟨line, right :: left :: stack, store⟩ =
        (kind.join? machine.divide left right).map fun value ↦
          ⟨line + ((Operation.ofKind? kind).map Instr.apply).toList.length, value :: stack,
            store⟩ := by
  obtain ⟨operation, hoperation, hsame⟩ := h.exists_result?_eq hleft hright machine.divide
  rw [hoperation] at hat ⊢
  constructor
  · rw [AtHalt, hat.getElem?]
    simp
  · rw [hat.step?, ← hsame]
    rfl

namespace Expr.HasType

/-- The code of an expression leaves its value on the stack. -/
theorem reaches_value {e : Expr} {type : Ty} (h : e.HasType types type)
    (hfits : store.Fits types) (hat : machine.HasAt line e.code) {value : Int}
    (hvalue : e.value? machine.divide store = some value) (stack : List Int) :
    machine.Reaches ⟨line, stack, store⟩ ⟨line + e.code.length, value :: stack, store⟩ := by
  induction h generalizing line value stack with
  | intLit token =>
    simp only [value?] at hvalue
    split at hvalue
    · rename_i found hliteral
      cases hvalue
      simp only [code, hliteral] at hat ⊢
      exact .of_step (hat.step? stack store)
    · cases hvalue
  | boolLit token =>
    cases hvalue
    exact .of_step (hat.step? stack store)
  | use hname =>
    simp only [value?] at hvalue
    refine .of_step ?_
    rw [code] at hat
    rw [hat.step?]
    simp [Instr.perform?, hvalue, Config.next, code]
  | @binary left right operator _ _ _ hleft hright hjoins ihleft ihright =>
    simp only [value?, Option.bind_eq_bind, Option.bind_eq_some_iff] at hvalue
    obtain ⟨first, hfirst, second, hsecond, hvalue⟩ := hvalue
    rw [code] at hat ⊢
    have hoperands := (ihleft hat.left.left hfirst stack).trans
      (ihright hat.left.right hsecond (first :: stack))
    have hoperator := hat.right
    rw [List.length_append, ← Nat.add_assoc] at hoperator
    have hstep := (hjoins.step?_eq hoperator (hleft.holds_value hfits hfirst)
      (hright.holds_value hfits hsecond) stack store).2
    rw [hvalue] at hstep
    rw [List.length_append, List.length_append, ← Nat.add_assoc, ← Nat.add_assoc]
    exact hoperands.trans (.of_step hstep)

/-- The machine gets stuck in the code of an expression that has no value. -/
theorem faults {e : Expr} {type : Ty} (h : e.HasType types type) (hfits : store.Fits types)
    (hat : machine.HasAt line e.code) (hvalue : e.value? machine.divide store = none)
    (stack : List Int) : machine.Faults ⟨line, stack, store⟩ := by
  induction h generalizing line stack with
  | intLit token =>
    rw [code] at hat
    refine ⟨_, .refl _, ?_, by simp [AtHalt, hat.getElem?]⟩
    rw [hat.step?]
    rcases hliteral : token.literal with _ | ⟨value⟩ | value
    · rfl
    · simp [value?, hliteral] at hvalue
    · rfl
  | boolLit token => cases hvalue
  | use hname =>
    obtain ⟨found, hfound, -⟩ := hfits _ _ hname
    cases hfound.symm.trans hvalue
  | @binary left right operator _ _ _ hleft hright hjoins ihleft ihright =>
    rw [code] at hat
    cases hfirst : left.value? machine.divide store with
    | none => exact ihleft hat.left.left hfirst stack
    | some first =>
      have hreaches := hleft.reaches_value hfits hat.left.left hfirst stack
      cases hsecond : right.value? machine.divide store with
      | none => exact .of_reaches hreaches (ihright hat.left.right hsecond _)
      | some second =>
        have hoperands := hreaches.trans
          (hright.reaches_value hfits hat.left.right hsecond (first :: stack))
        have hoperator := hat.right
        rw [List.length_append, ← Nat.add_assoc] at hoperator
        obtain ⟨hnot, hstep⟩ := hjoins.step?_eq hoperator (hleft.holds_value hfits hfirst)
          (hright.holds_value hfits hsecond) stack store
        simp only [value?, hfirst, hsecond, Option.bind_eq_bind, Option.bind_some] at hvalue
        rw [hvalue] at hstep
        exact ⟨_, hoperands, hstep, hnot⟩

/-- On the way to a halt, an expression has a value. -/
theorem exists_value {e : Expr} {type : Ty} (h : e.HasType types type) (hfits : store.Fits types)
    (hat : machine.HasAt line e.code) {stack : List Int} {last : Config}
    (hreaches : machine.Reaches ⟨line, stack, store⟩ last) (hhalt : machine.AtHalt last) :
    ∃ value, e.value? machine.divide store = some value ∧ type.Holds value := by
  cases hvalue : e.value? machine.divide store with
  | none => exact absurd hhalt ((h.faults hfits hat hvalue stack).not_atHalt hreaches)
  | some value => exact ⟨value, rfl, h.holds_value hfits hvalue⟩

end Expr.HasType

/-! ### Conditions -/

namespace Expr.HasType

variable {condition : Expr} {body alternative : List Instr} {finish : Nat}

/-- A condition that is true leads into the body of a branch, and from behind it on. -/
theorem reaches_body (h : condition.HasType types .boolean) (hfits : store.Fits types)
    (hbranch : machine.BranchAt line condition.code body alternative finish)
    (hvalue : condition.value? machine.divide store = some 1) (stack : List Int) :
    ∃ start, machine.HasAt start body ∧
      machine.Reaches ⟨line, stack, store⟩ ⟨start, stack, store⟩ ∧
      ∀ final, machine.Reaches ⟨start + body.length, stack, final⟩ ⟨finish, stack, final⟩ := by
  obtain ⟨start, hstart, hways⟩ := hbranch.exists_body
  have htest := h.reaches_value hfits hbranch.has_condition hvalue stack
  exact ⟨start, hstart, htest.trans (hways stack store).1, fun final ↦ (hways stack final).2⟩

/-- A condition that is false leads into the alternative of a branch, and from behind it on. -/
theorem reaches_alternative (h : condition.HasType types .boolean) (hfits : store.Fits types)
    (hbranch : machine.BranchAt line condition.code body alternative finish)
    (hvalue : condition.value? machine.divide store = some 0) (stack : List Int) :
    ∃ start, machine.HasAt start alternative ∧
      machine.Reaches ⟨line, stack, store⟩ ⟨start, stack, store⟩ ∧
      ∀ final, machine.Reaches ⟨start + alternative.length, stack, final⟩
        ⟨finish, stack, final⟩ := by
  obtain ⟨start, hstart, hways⟩ := hbranch.exists_alternative
  have htest := h.reaches_value hfits hbranch.has_condition hvalue stack
  exact ⟨start, hstart, htest.trans (hways stack store).1, fun final ↦ (hways stack final).2⟩

/-- A condition that is true leads into the body of a loop, and from behind it back. -/
theorem reaches_turn (h : condition.HasType types .boolean) (hfits : store.Fits types)
    (hloop : machine.LoopAt line condition.code body finish)
    (hvalue : condition.value? machine.divide store = some 1) (stack : List Int) :
    ∃ start, machine.HasAt start body ∧
      machine.Reaches ⟨line + 1, stack, store⟩ ⟨start, stack, store⟩ ∧
      ∀ middle, machine.Reaches ⟨start + body.length, stack, middle⟩ ⟨line, stack, middle⟩ := by
  obtain ⟨start, hstart, hways⟩ := hloop.exists_body
  have htest := h.reaches_value hfits hloop.has_condition hvalue stack
  exact ⟨start, hstart, htest.trans (hways stack store).1, fun middle ↦ (hways stack middle).2⟩

/-- On the way to a halt, a condition is false or true. -/
theorem value?_zero_or_one (h : condition.HasType types .boolean) (hfits : store.Fits types)
    (hat : machine.HasAt line condition.code) {stack : List Int} {last : Config}
    (hreaches : machine.Reaches ⟨line, stack, store⟩ last) (hhalt : machine.AtHalt last) :
    condition.value? machine.divide store = some 0 ∨
      condition.value? machine.divide store = some 1 := by
  obtain ⟨value, hvalue, hzero | hone⟩ := h.exists_value hfits hat hreaches hhalt
  · rw [hzero] at hvalue
    exact .inl hvalue
  · rw [hone] at hvalue
    exact .inr hvalue

end Expr.HasType

/-! ### Statements that come to an end -/

/-- The code of a statement that comes to an end leaves its store, and the stack as it was. -/
theorem Stmt.Runs.reaches {statement : Stmt} (h : statement.Runs machine.divide store final)
    (htyped : statement.WellTyped types) (hfits : store.Fits types)
    (hunique : machine.LabelsUnique) {first : Label}
    (hat : machine.HasAt line (statement.code first)) (stack : List Int) :
    machine.Reaches ⟨line, stack, store⟩
      ⟨line + (statement.code first).length, stack, final⟩ := by
  induction h generalizing line first with
  | assign hvalue =>
    cases htyped with
    | assign htarget htype =>
      rw [code] at hat
      have hload := htype.reaches_value hfits hat.left hvalue stack
      refine hload.trans (.of_step ?_)
      rw [hat.right.step?]
      simp [Instr.perform?, Config.next, code, Nat.add_assoc]
  | ifThenTrue hcondition _ ih =>
    cases htyped with
    | ifThen htype hbody =>
      obtain ⟨start, hstart, henter, hleave⟩ :=
        htype.reaches_body hfits (HasAt.branchAt hat hunique) hcondition stack
      have hinside := ih hbody hfits hstart
      exact (henter.trans hinside).trans (hleave _)
  | ifThenFalse hcondition =>
    cases htyped with
    | ifThen htype _ =>
      obtain ⟨start, -, henter, hleave⟩ :=
        htype.reaches_alternative hfits (HasAt.branchAt hat hunique) hcondition stack
      exact henter.trans (hleave _)
  | ifElseTrue hcondition _ ih =>
    cases htyped with
    | ifElse htype hbody _ =>
      obtain ⟨start, hstart, henter, hleave⟩ :=
        htype.reaches_body hfits (HasAt.branchAt hat hunique) hcondition stack
      have hinside := ih hbody hfits hstart
      exact (henter.trans hinside).trans (hleave _)
  | ifElseFalse hcondition _ ih =>
    cases htyped with
    | ifElse htype _ halternative =>
      obtain ⟨start, hstart, henter, hleave⟩ :=
        htype.reaches_alternative hfits (HasAt.branchAt hat hunique) hcondition stack
      have hinside := ih halternative hfits hstart
      exact (henter.trans hinside).trans (hleave _)
  | loopTrue hcondition hruns _ ihbody ihmore =>
    have hloop := htyped
    cases htyped with
    | loop htype hbody =>
      have hlayout := HasAt.loopAt hat hunique
      obtain ⟨start, hstart, henter, hback⟩ :=
        htype.reaches_turn hfits hlayout hcondition stack
      have hbegin := (Reaches.of_step (hlayout.step?_eq stack _)).trans henter
      have hturn := (hbegin.trans (ihbody hbody hfits hstart)).trans (hback _)
      exact hturn.trans (ihmore hloop (hruns.fits hbody hfits) hat)
  | loopFalse hcondition =>
    cases htyped with
    | loop htype _ =>
      have hlayout := HasAt.loopAt hat hunique
      have htest := htype.reaches_value hfits hlayout.has_condition hcondition stack
      have hbegin := (Reaches.of_step (hlayout.step?_eq stack _)).trans htest
      exact hbegin.trans (hlayout.leave stack _)
  | blockNil => exact .refl _
  | blockCons hstatement _ ihfirst ihmore =>
    cases htyped with
    | block h =>
      obtain ⟨hfirst, hmore⟩ := List.forall_mem_cons.mp h
      rw [code, codeOfAll] at hat ⊢
      have hrest := ihmore (.block hmore) (hstatement.fits hfirst hfits) hat.right
      rw [List.length_append, ← Nat.add_assoc]
      exact (ihfirst hfirst hfits hat.left).trans hrest

/-! ### Code that halts -/

/-- A statement comes to an end if the machine halts after a run that begins in front of its code
on a store that fits its types. -/
def Stmt.EndsBefore (statement : Stmt) (machine : Machine) (types : TypeEnv) : Prop :=
  ∀ {line first count store stack last}, statement.WellTyped types → Store.Fits store types →
    machine.HasAt line (statement.code first) →
    machine.run? count ⟨line, stack, store⟩ = some last → machine.AtHalt last →
    ∃ final, statement.Runs machine.divide store final

theorem Stmt.endsBefore_block (hunique : machine.LabelsUnique) {statements : List Stmt}
    (ih : ∀ statement ∈ statements, statement.EndsBefore machine types) :
    (Stmt.block statements).EndsBefore machine types := by
  induction statements with
  | nil =>
    intro _ _ _ store _ _ _ _ _ _ _
    exact ⟨store, .blockNil⟩
  | cons statement more ihmore =>
    intro line first count store stack last htyped hfits hat hrun hhalt
    cases htyped with
    | block h =>
      obtain ⟨hfirst, hmore⟩ := List.forall_mem_cons.mp h
      rw [code, codeOfAll] at hat
      obtain ⟨middle, hmiddle⟩ := ih statement List.mem_cons_self hfirst hfits hat.left hrun hhalt
      have hreaches := hmiddle.reaches hfirst hfits hunique hat.left stack
      obtain ⟨rest, -, hrest⟩ := exists_rest_of_reaches hrun hhalt.step?_eq_none hreaches
      obtain ⟨final, hfinal⟩ := ihmore (fun other hother ↦ ih other (List.mem_cons_of_mem _ hother))
        (.block hmore) (hmiddle.fits hfirst hfits) hat.right hrest hhalt
      exact ⟨final, .blockCons hmiddle hfinal⟩

theorem Stmt.endsBefore (hunique : machine.LabelsUnique) (statement : Stmt) :
    statement.EndsBefore machine types := by
  induction statement with
  | assign target value =>
    intro line first count store stack last htyped hfits hat hrun hhalt
    cases htyped with
    | assign htarget htype =>
      obtain ⟨result, hvalue, -⟩ := htype.exists_value hfits hat.left ⟨count, hrun⟩ hhalt
      exact ⟨_, .assign hvalue⟩
  | ifThen condition body ih =>
    intro line first count store stack last htyped hfits hat hrun hhalt
    have hbranch := HasAt.branchAt hat hunique
    cases htyped with
    | ifThen htype hbody =>
      rcases htype.value?_zero_or_one hfits hbranch.has_condition ⟨count, hrun⟩ hhalt with
        hvalue | hvalue
      · exact ⟨store, .ifThenFalse hvalue⟩
      · obtain ⟨start, hstart, henter, -⟩ := htype.reaches_body hfits hbranch hvalue stack
        obtain ⟨rest, -, hrest⟩ := exists_rest_of_reaches hrun hhalt.step?_eq_none henter
        obtain ⟨final, hfinal⟩ := ih hbody hfits hstart hrest hhalt
        exact ⟨final, .ifThenTrue hvalue hfinal⟩
  | ifElse condition body alternative ihbody ihalternative =>
    intro line first count store stack last htyped hfits hat hrun hhalt
    have hbranch := HasAt.branchAt hat hunique
    cases htyped with
    | ifElse htype hbody halternative =>
      rcases htype.value?_zero_or_one hfits hbranch.has_condition ⟨count, hrun⟩ hhalt with
        hvalue | hvalue
      · obtain ⟨start, hstart, henter, -⟩ := htype.reaches_alternative hfits hbranch hvalue stack
        obtain ⟨rest, -, hrest⟩ := exists_rest_of_reaches hrun hhalt.step?_eq_none henter
        obtain ⟨final, hfinal⟩ := ihalternative halternative hfits hstart hrest hhalt
        exact ⟨final, .ifElseFalse hvalue hfinal⟩
      · obtain ⟨start, hstart, henter, -⟩ := htype.reaches_body hfits hbranch hvalue stack
        obtain ⟨rest, -, hrest⟩ := exists_rest_of_reaches hrun hhalt.step?_eq_none henter
        obtain ⟨final, hfinal⟩ := ihbody hbody hfits hstart hrest hhalt
        exact ⟨final, .ifElseTrue hvalue hfinal⟩
  | loop condition body ih =>
    intro line first count store stack last htyped hfits hat hrun hhalt
    have hlayout := HasAt.loopAt hat hunique
    cases htyped with
    | loop htype hbody =>
    -- Every turn starts with a step, so what is left of the run after it is shorter.
    induction count using Nat.strongRecOn generalizing store with
    | _ count ihcount =>
      obtain ⟨tested, hless, htested⟩ :=
        exists_rest_of_step hrun hhalt.step?_eq_none (hlayout.step?_eq stack store)
      rcases htype.value?_zero_or_one hfits hlayout.has_condition ⟨tested, htested⟩ hhalt with
        hvalue | hvalue
      · exact ⟨store, .loopFalse hvalue⟩
      · obtain ⟨start, hstart, henter, hback⟩ := htype.reaches_turn hfits hlayout hvalue stack
        obtain ⟨inner, hinner, hrest⟩ :=
          exists_rest_of_reaches htested hhalt.step?_eq_none henter
        obtain ⟨middle, hmiddle⟩ := ih hbody hfits hstart hrest hhalt
        have hturn := (hmiddle.reaches hbody hfits hunique hstart stack).trans (hback middle)
        obtain ⟨later, hlater, hagain⟩ := exists_rest_of_reaches hrest hhalt.step?_eq_none hturn
        have hshorter : later < count := by omega
        obtain ⟨final, hfinal⟩ := ihcount later hshorter (hmiddle.fits hbody hfits) hagain
        exact ⟨final, .loopTrue hvalue hmiddle hfinal⟩
  | block statements ih => exact endsBefore_block hunique ih

/-! ### Programs -/

theorem Program.labelsUnique {program : Program} (hcode : machine.code = program.code) :
    machine.LabelsUnique := by
  intro label
  rw [hcode]
  exact program.count_label_le_one label

theorem Program.hasAt {program : Program} (hcode : machine.code = program.code) :
    machine.HasAt 0 ((Stmt.block program.statements).code 0 ++ [.halt]) :=
  ⟨[], [], by simp [hcode, Program.code], rfl⟩

/-- What the run of a program leaves, the machine halts with. -/
theorem Program.Runs.exists_halts {program : Program}
    (h : program.Runs machine.divide store final) (hcode : machine.code = program.code)
    (htyped : program.WellTyped) (hfits : store.Fits program.types) :
    ∃ line, machine.Halts store ⟨line, [], final⟩ := by
  have hat := Program.hasAt hcode
  have hreaches := Stmt.Runs.reaches h (.block htyped.body) hfits (Program.labelsUnique hcode)
    hat.left []
  exact ⟨_, hreaches, hat.right.getElem?⟩

/-- Where the machine halts is where the run of the program leads. -/
theorem Machine.Halts.exists_runs {program : Program} {last : Config}
    (h : machine.Halts store last) (hcode : machine.code = program.code)
    (htyped : program.WellTyped) (hfits : store.Fits program.types) :
    last.stack = [] ∧ program.Runs machine.divide store last.store := by
  obtain ⟨⟨count, hrun⟩, hhalt⟩ := h
  obtain ⟨final, hruns⟩ := Stmt.endsBefore (Program.labelsUnique hcode) (.block program.statements)
    (.block htyped.body) hfits (Program.hasAt hcode).left hrun hhalt
  obtain ⟨line, hreaches, hsame⟩ := Program.Runs.exists_halts hruns hcode htyped hfits
  obtain rfl := Reaches.eq_of_step?_eq_none ⟨count, hrun⟩ hreaches hhalt.step?_eq_none
    hsame.step?_eq_none
  exact ⟨rfl, hruns⟩

/-- The code of a program that passed the check, run on any store that fits the declarations and
with any division, halts with a store exactly if the program comes to an end with that store, and
then the stack is empty. There is no code for a literal that cannot be written; those of a program
that is read from a text can be (`literalsAreWritable_of_scan`). -/
theorem halts_iff_runs {program : Program} {found : Option Ty} {scope : Scope}
    (hcheck : program.node.check .empty = (.ok found, scope))
    (hwritable : LiteralsAreWritable program.expressions) :
    ∃ code labels, program.node.code = .ok (code, labels) ∧
      ∀ (divide : Division) (store : Store), store.Fits scope.types →
        (∀ final, (∃ last, Machine.Halts ⟨code, divide⟩ store last ∧ last.store = final) ↔
          program.Runs divide store final) ∧
        ∀ last, Machine.Halts ⟨code, divide⟩ store last → last.stack = [] := by
  obtain ⟨-, hdeclares, htyped⟩ := Program.check_eq_ok.mp hcheck
  refine ⟨program.code, _, htyped.code_node hwritable,
    fun divide store hfits ↦ ⟨fun final ↦ ⟨?_, ?_⟩, ?_⟩⟩
  all_goals rw [types_eq_of_declares hdeclares] at hfits
  · rintro ⟨last, hlast, rfl⟩
    exact (hlast.exists_runs rfl htyped hfits).2
  · intro hruns
    have hhalts : ∃ line, Machine.Halts ⟨program.code, divide⟩ store ⟨line, [], final⟩ :=
      Program.Runs.exists_halts hruns rfl htyped hfits
    obtain ⟨line, hlast⟩ := hhalts
    exact ⟨_, hlast, rfl⟩
  · intro last hlast
    exact (hlast.exists_runs rfl htyped hfits).1

/-- The program `var x : integer; begin while 0 < x do x := x - 1; end`. -/
def countdown : Program :=
  let token (kind : TokenKind) (lexeme : String) : Token := ⟨kind, lexeme, none, ⟨"", 1, 1⟩⟩
  let number (value : Int) : Expr := .intLit ⟨.intLit, "", some (.int value), ⟨"", 1, 1⟩⟩
  let x := token .ident "x"
  { name := token .ident "p"
    declarations := [⟨x, token .integerKw "integer"⟩]
    statements := [.loop (.binary (number 0) (token .less "<") (.use x))
      (.assign x (.binary (.use x) (token .minus "-") (number 1)))] }

/-- Where `x` is one, the loop takes one turn and the code halts with zero in `x`. -/
theorem halts_countdown :
    LiteralsAreWritable countdown.expressions ∧
      ∃ code labels, countdown.node.code = .ok (code, labels) ∧
        ∃ last, Machine.Halts ⟨code, fun _ _ ↦ none⟩ (fun _ ↦ some 1) last ∧
        last.store "x" = some 0 ∧ last.stack = [] := by
  have hwritable : LiteralsAreWritable countdown.expressions := by decide +kernel
  obtain ⟨code, labels, hcode, h⟩ :=
    halts_iff_runs (rfl : countdown.node.check .empty = (.ok _, _)) hwritable
  have hfits : Store.Fits (fun _ ↦ some 1) (countdown.node.check .empty).2.types := by
    intro name type _
    cases type with
    | integer => exact ⟨1, rfl, trivial⟩
    | boolean => exact ⟨1, rfl, .inr rfl⟩
  have hruns : countdown.Runs (fun _ _ ↦ none) (fun _ ↦ some 1)
      (Store.set (fun _ ↦ some 1) "x" 0) :=
    .blockCons (.loopTrue rfl (.assign rfl) (.loopFalse rfl)) .blockNil
  obtain ⟨last, hlast, hstore⟩ := ((h _ _ hfits).1 _).mpr hruns
  exact ⟨hwritable, code, labels, hcode, last, hlast, by rw [hstore]; rfl,
    (h _ _ hfits).2 last hlast⟩

end StackCompiler
