import Mathlib.Logic.Function.Basic
import StackCompiler.Proofs.Typing.Judgement

/-!
# Stores

What programs and code have in common when they run: variables hold unbounded integers, the truth
values are `1` and `0`, and division is a function that may refuse its operands. A store fits the
types of the declared variables if each of them has a value, and one of its type (`Store.Fits`).
-/

set_option autoImplicit false
set_option relaxedAutoImplicit false

namespace StackCompiler

/-- The values of variables. -/
abbrev Store := String → Option Int

/-- What division gives for two operands, if it accepts them. -/
abbrev Division := Int → Int → Option Int

/-- The store with a new value for a variable. -/
def Store.set (store : Store) (name : String) (value : Int) : Store :=
  Function.update store name (some value)

/-- A value is one of a type. -/
def Ty.Holds : Ty → Int → Prop
  | integer, _ => True
  | boolean, value => value = 0 ∨ value = 1

/-- Every declared variable has a value of its type. -/
def Store.Fits (store : Store) (types : TypeEnv) : Prop :=
  ∀ name type, types name = some type → ∃ value, store name = some value ∧ type.Holds value

theorem Ty.holds_integer (value : Int) : integer.Holds value :=
  trivial

theorem Ty.holds_toInt (type : Ty) (truth : Bool) : type.Holds truth.toInt := by
  cases type with
  | integer => trivial
  | boolean => cases truth <;> simp [Holds]

theorem Store.Fits.set {store : Store} {types : TypeEnv} (h : store.Fits types) {name : String}
    {type : Ty} {value : Int} (hname : types name = some type) (hvalue : type.Holds value) :
    (store.set name value).Fits types := by
  intro other found hother
  by_cases hsame : other = name
  · subst hsame
    cases hname.symm.trans hother
    exact ⟨value, Function.update_self .., hvalue⟩
  · rw [Store.set, Function.update_of_ne hsame]
    exact h other found hother

end StackCompiler
