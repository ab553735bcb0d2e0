import Mathlib

/-!
# Outcomes of actions that may fail

An action on a state ends with a value or with a failure, and it leaves a state in
either case.  `Yields` says what holds of a run from a given state, with one
postcondition for each ending; its rules follow the way actions are put together.
-/

set_option autoImplicit false

namespace LsmStore.Foundation

variable {ε σ α β : Type}

/-- Run from the state, the action ends with a value and a state in `Done`, or it
fails and leaves a state in `Failed`. -/
def Yields (action : EStateM ε σ α) (state : σ) (Done : α → σ → Prop) (Failed : ε → σ → Prop) :
    Prop :=
  match action state with
  | .ok value next => Done value next
  | .error failure next => Failed failure next

namespace Yields

variable {action : EStateM ε σ α} {state : σ} {Done Done' : α → σ → Prop}
  {Failed Failed' : ε → σ → Prop}

theorem intro (done : ∀ {value next}, action state = .ok value next → Done value next)
    (failed : ∀ {failure next}, action state = .error failure next → Failed failure next) :
    Yields action state Done Failed := by
  unfold Yields
  cases ran : action state with
  | ok value next => exact done ran
  | error failure next => exact failed ran

theorem ok (yields : Yields action state Done Failed) {value : α} {next : σ}
    (done : action state = .ok value next) : Done value next := by
  rwa [Yields, done] at yields

theorem error (yields : Yields action state Done Failed) {failure : ε} {next : σ}
    (failed : action state = .error failure next) : Failed failure next := by
  rwa [Yields, failed] at yields

/-- Weaker postconditions. -/
theorem imp (yields : Yields action state Done Failed)
    (done : ∀ value next, Done value next → Done' value next)
    (failed : ∀ failure next, Failed failure next → Failed' failure next) :
    Yields action state Done' Failed' :=
  intro (fun ran => done _ _ (yields.ok ran)) (fun ran => failed _ _ (yields.error ran))

theorem and (yields : Yields action state Done Failed) (also : Yields action state Done' Failed') :
    Yields action state (fun value next => Done value next ∧ Done' value next)
      (fun failure next => Failed failure next ∧ Failed' failure next) :=
  intro (fun ran => ⟨yields.ok ran, also.ok ran⟩) (fun ran => ⟨yields.error ran, also.error ran⟩)

/-- **Sequencing**: the second action runs from where the first one succeeded. -/
theorem bind {next : α → EStateM ε σ β} {Last : β → σ → Prop}
    (first : Yields action state Done Failed)
    (second : ∀ value mid, Done value mid → Yields (next value) mid Last Failed) :
    Yields (action >>= next) state Last Failed := by
  unfold Yields
  change match EStateM.bind action next state with
    | .ok value after => Last value after
    | .error failure after => Failed failure after
  unfold EStateM.bind
  cases ran : action state with
  | ok value mid => exact second value mid (first.ok ran)
  | error failure mid => exact first.error ran

end Yields

/-! ## What an action does to the state, however it ends -/

/-- From every state the action leads to a related one, with a value or without. -/
def Moves (related : σ → σ → Prop) (action : EStateM ε σ α) : Prop :=
  ∀ state, Yields action state (fun _ next => related state next) (fun _ next => related state next)

namespace Moves

variable {related : σ → σ → Prop}

theorem bind (trans : ∀ first second third, related first second → related second third →
    related first third) {action : EStateM ε σ α} {next : α → EStateM ε σ β}
    (first : Moves related action) (second : ∀ value, Moves related (next value)) :
    Moves related (action >>= next) := by
  intro state
  refine (first state).bind fun value mid reached => ?_
  exact (second value mid).imp (fun _ _ further => trans _ _ _ reached further)
    (fun _ _ further => trans _ _ _ reached further)

theorem imp {other : σ → σ → Prop} {action : EStateM ε σ α} (moves : Moves related action)
    (implies : ∀ first second, related first second → other first second) :
    Moves other action :=
  fun state => (moves state).imp (fun _ _ => implies _ _) (fun _ _ => implies _ _)

theorem pure (refl : ∀ state, related state state) (value : α) :
    Moves related (Pure.pure value : EStateM ε σ α) :=
  fun state => refl state

theorem throw (refl : ∀ state, related state state) (failure : ε) :
    Moves related (MonadExcept.throw failure : EStateM ε σ α) :=
  fun state => refl state

end Moves

end LsmStore.Foundation
