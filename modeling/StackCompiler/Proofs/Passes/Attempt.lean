/-!
# Attempts

An attempt changes a state step by step and may be stopped; the state then stays as it is at that
moment. `Attempt.Gives` says how an attempt ends: with a state, or stopped for some reason, whatever
state is left behind. There is one law for each way to put attempts together, so a pass that works
on a state of its own can be compared with a function that has none.
-/

set_option autoImplicit false
set_option relaxedAutoImplicit false

namespace StackCompiler

/-- A change of a state that may be stopped halfway. -/
abbrev Attempt (ε σ α : Type) := ExceptT ε (StateM σ) α

namespace Attempt

variable {ε σ α : Type}

/-- What an attempt gives, and the state that it leaves. -/
def outcome (attempt : Attempt ε σ α) (state : σ) : Except ε α × σ :=
  (attempt.run.run state).run

theorem outcome_bind {β : Type} (attempt : Attempt ε σ α) (next : α → Attempt ε σ β) (state : σ) :
    (attempt >>= next).outcome state = match attempt.outcome state with
      | (.ok a, middle) => (next a).outcome middle
      | (.error stop, middle) => (.error stop, middle) := by
  change (StateT.run (ExceptT.bindCont next (attempt.outcome state).1)
    (attempt.outcome state).2).run = _
  rcases attempt.outcome state with ⟨_ | _, middle⟩ <;> rfl

/-- An attempt ends in a state, or is stopped. -/
def Gives (attempt : Attempt ε σ Unit) (state : σ) : Except ε σ → Prop
  | .ok after => attempt.outcome state = (.ok (), after)
  | .error stop => ∃ left, attempt.outcome state = (.error stop, left)

variable {attempt next : Attempt ε σ Unit} {state middle : σ} {result : Except ε σ}

theorem Gives.pure (state : σ) : Gives (Pure.pure () : Attempt ε σ Unit) state (.ok state) :=
  rfl

theorem Gives.modify (change : σ → σ) (state : σ) :
    Gives (MonadState.modifyGet fun s ↦ ((), change s) : Attempt ε σ Unit) state
      (.ok (change state)) :=
  rfl

theorem Gives.throw (stop : ε) (state : σ) :
    Gives (throw stop : Attempt ε σ Unit) state (.error stop) :=
  ⟨state, rfl⟩

/-- What comes behind an attempt that is not stopped goes on from its state. -/
theorem Gives.step (h : Gives attempt state (.ok middle)) (hnext : Gives next middle result) :
    Gives (attempt >>= fun _ ↦ next) state result := by
  have hrun : (attempt >>= fun _ ↦ next).outcome state = next.outcome middle := by
    rw [outcome_bind, show attempt.outcome state = (.ok (), middle) from h]
  cases result with
  | ok after => exact hrun.trans hnext
  | error stop =>
    obtain ⟨left, hleft⟩ := hnext
    exact ⟨left, hrun.trans hleft⟩

/-- An attempt that does what a function says is followed by what is done with the value of the
function. -/
theorem Gives.bind {value : Except ε α} {stateOf : α → σ} {later : α → Except ε σ}
    (h : Gives attempt state (stateOf <$> value))
    (hnext : ∀ a, Gives next (stateOf a) (later a)) :
    Gives (attempt >>= fun _ ↦ next) state (value >>= later) := by
  cases value with
  | ok a => exact Gives.step h (hnext a)
  | error stop =>
    obtain ⟨left, hleft⟩ := h
    refine ⟨left, ?_⟩
    rw [outcome_bind, hleft]

end Attempt

end StackCompiler
