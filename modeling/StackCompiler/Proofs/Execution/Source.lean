import StackCompiler.Proofs.Execution.Store

/-!
# Execution of programs

What programs mean, without a machine. An expression has a value if every variable in it has one,
every division in it accepts its operands, and every `and` and `or` in it finds truth values; both
operands are always looked at (`Expr.value?`). A statement that runs takes a store to a store, and
`Stmt.Runs` relates the two if it comes to an end: a statement that faults or runs forever takes a
store to none.

Well-typed programs keep the types: the value of an expression is one of its type
(`Expr.HasType.holds_value`), and a store that fits the types still does so after a statement
(`Stmt.Runs.fits`).
-/

set_option autoImplicit false
set_option relaxedAutoImplicit false

namespace StackCompiler

/-- The truth value that an integer stands for. -/
def truth? : Int → Option Bool
  | 0 => some false
  | 1 => some true
  | _ => none

/-- A connective of truth values as one of integers. -/
def connect? (connective : Bool → Bool → Bool) (left right : Int) : Option Int := do
  let first ← truth? left
  let second ← truth? right
  return (connective first second).toInt

/-- What an operator makes of two values. -/
def TokenKind.join? (divide : Division) : TokenKind → Int → Int → Option Int
  | plus, left, right => some (left + right)
  | minus, left, right => some (left - right)
  | times, left, right => some (left * right)
  | TokenKind.divide, left, right => divide left right
  | andKw, left, right => connect? Bool.and left right
  | orKw, left, right => connect? Bool.or left right
  | less, left, right => some (decide (left < right)).toInt
  | greater, left, right => some (decide (right < left)).toInt
  | equal, left, right => some (decide (left = right)).toInt
  | _, _, _ => none

/-- The value of an expression, if it has one. -/
def Expr.value? (divide : Division) (store : Store) : Expr → Option Int
  | binary left operator right => do
    let first ← left.value? divide store
    let second ← right.value? divide store
    operator.kind.join? divide first second
  | intLit token =>
    match token.literal with
    | some (.int value) => some value
    | _ => none
  | boolLit token => some token.truth.toInt
  | use name => store name.lexeme

/-- A statement comes to an end when it runs on a store, and leaves another store. -/
inductive Stmt.Runs (divide : Division) : Stmt → Store → Store → Prop
  | assign {target : Token} {value : Expr} {store : Store} {result : Int}
      (hvalue : value.value? divide store = some result) :
      Runs divide (.assign target value) store (store.set target.lexeme result)
  | ifThenTrue {condition : Expr} {body : Stmt} {store final : Store}
      (hcondition : condition.value? divide store = some 1) (hbody : Runs divide body store final) :
      Runs divide (.ifThen condition body) store final
  | ifThenFalse {condition : Expr} {body : Stmt} {store : Store}
      (hcondition : condition.value? divide store = some 0) :
      Runs divide (.ifThen condition body) store store
  | ifElseTrue {condition : Expr} {body alternative : Stmt} {store final : Store}
      (hcondition : condition.value? divide store = some 1) (hbody : Runs divide body store final) :
      Runs divide (.ifElse condition body alternative) store final
  | ifElseFalse {condition : Expr} {body alternative : Stmt} {store final : Store}
      (hcondition : condition.value? divide store = some 0)
      (halternative : Runs divide alternative store final) :
      Runs divide (.ifElse condition body alternative) store final
  | loopTrue {condition : Expr} {body : Stmt} {store middle final : Store}
      (hcondition : condition.value? divide store = some 1) (hbody : Runs divide body store middle)
      (hmore : Runs divide (.loop condition body) middle final) :
      Runs divide (.loop condition body) store final
  | loopFalse {condition : Expr} {body : Stmt} {store : Store}
      (hcondition : condition.value? divide store = some 0) :
      Runs divide (.loop condition body) store store
  | blockNil {store : Store} : Runs divide (.block []) store store
  | blockCons {statement : Stmt} {more : List Stmt} {store middle final : Store}
      (hstatement : Runs divide statement store middle)
      (hmore : Runs divide (.block more) middle final) :
      Runs divide (.block (statement :: more)) store final

/-- A program comes to an end when it runs on a store, and leaves another store. -/
def Program.Runs (program : Program) (divide : Division) (store final : Store) : Prop :=
  (Stmt.block program.statements).Runs divide store final

/-! ### Types at run time -/

variable {divide : Division} {types : TypeEnv} {store final : Store}

theorem Ty.holds_boolean_iff {value : Int} :
    Ty.boolean.Holds value ↔ ∃ truth : Bool, value = truth.toInt := by
  simp [Holds]

theorem TokenKind.Joins.holds_join {kind : TokenKind} {first second result : Ty}
    (h : kind.Joins first second result) {left right value : Int}
    (hvalue : kind.join? divide left right = some value) : result.Holds value := by
  cases h with
  | arithmetic h => trivial
  | logical h =>
    rcases h with rfl | rfl
    all_goals
      simp only [join?, connect?, Option.bind_eq_bind, Option.bind_eq_some_iff] at hvalue
      obtain ⟨_, -, _, -, hvalue⟩ := hvalue
      cases hvalue
      exact Ty.holds_toInt ..
  | comparison type h =>
    rcases h with rfl | rfl | rfl
    all_goals
      cases hvalue
      exact Ty.holds_toInt ..

/-- The value of an expression is one of its type. -/
theorem Expr.HasType.holds_value {e : Expr} {type : Ty} (h : e.HasType types type)
    (hfits : store.Fits types) {value : Int} (hvalue : e.value? divide store = some value) :
    type.Holds value := by
  cases h with
  | intLit token => trivial
  | boolLit token =>
    cases hvalue
    exact Ty.holds_toInt ..
  | use hname =>
    obtain ⟨found, hfound, hholds⟩ := hfits _ _ hname
    cases hfound.symm.trans hvalue
    exact hholds
  | binary hleft hright hoperator =>
    simp only [value?, Option.bind_eq_bind, Option.bind_eq_some_iff] at hvalue
    obtain ⟨first, -, second, -, hvalue⟩ := hvalue
    exact hoperator.holds_join hvalue

/-- A statement that keeps the rules for types leaves a store that fits them. -/
theorem Stmt.Runs.fits {statement : Stmt} (h : statement.Runs divide store final)
    (htyped : statement.WellTyped types) (hfits : store.Fits types) : final.Fits types := by
  induction h with
  | assign hvalue =>
    cases htyped with
    | assign htarget htype => exact hfits.set htarget (htype.holds_value hfits hvalue)
  | ifThenTrue _ _ ih =>
    cases htyped with
    | ifThen _ hbody => exact ih hbody hfits
  | ifThenFalse _ => exact hfits
  | ifElseTrue _ _ ih =>
    cases htyped with
    | ifElse _ hbody _ => exact ih hbody hfits
  | ifElseFalse _ _ ih =>
    cases htyped with
    | ifElse _ _ halternative => exact ih halternative hfits
  | loopTrue _ _ _ ihbody ihmore =>
    have hloop := htyped
    cases htyped with
    | loop _ hbody => exact ihmore hloop (ihbody hbody hfits)
  | loopFalse _ => exact hfits
  | blockNil => exact hfits
  | blockCons _ _ ihfirst ihmore =>
    cases htyped with
    | block h =>
      obtain ⟨hfirst, hmore⟩ := List.forall_mem_cons.mp h
      exact ihmore (.block hmore) (ihfirst hfirst hfits)

end StackCompiler
