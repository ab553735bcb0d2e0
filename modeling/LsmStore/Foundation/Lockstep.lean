import Mathlib

/-!
# Two actions in step

Two runs of an action from different states may not be told apart from outside: they
return the same value or fail in the same way, and the states they leave are as alike as
the ones they began in.  `InStep` says so for a relation between states; its rules follow
the way actions are put together.
-/

set_option autoImplicit false

namespace LsmStore.Foundation

variable {ε σ α β : Type} {related : σ → σ → Prop}

/-- The same value or the same failure, and related states. -/
inductive EndsAlike (related : σ → σ → Prop) :
    EStateM.Result ε σ α → EStateM.Result ε σ α → Prop
  | ok {next next' : σ} (value : α) (reached : related next next') :
      EndsAlike related (.ok value next) (.ok value next')
  | error {next next' : σ} (failure : ε) (reached : related next next') :
      EndsAlike related (.error failure next) (.error failure next')

/-- From related states the two actions end alike. -/
def InStep (related : σ → σ → Prop) (first second : EStateM ε σ α) : Prop :=
  ∀ state shadow, related state shadow → EndsAlike related (first state) (second shadow)

namespace EndsAlike

variable {left right : EStateM.Result ε σ α}

theorem of_ok (alike : EndsAlike related left right) {value : α} {next : σ}
    (isOk : left = .ok value next) : ∃ next', right = .ok value next' ∧ related next next' := by
  cases alike with
  | ok value reached => cases isOk; exact ⟨_, rfl, reached⟩
  | error failure reached => cases isOk

theorem of_ok' (alike : EndsAlike related left right) {value : α} {next' : σ}
    (isOk : right = .ok value next') : ∃ next, left = .ok value next ∧ related next next' := by
  cases alike with
  | ok value reached => cases isOk; exact ⟨_, rfl, reached⟩
  | error failure reached => cases isOk

theorem of_error' (alike : EndsAlike related left right) {failure : ε} {next' : σ}
    (isError : right = .error failure next') :
    ∃ next, left = .error failure next ∧ related next next' := by
  cases alike with
  | ok value reached => cases isError
  | error failure reached => cases isError; exact ⟨_, rfl, reached⟩

/-- Actions that end alike, followed by actions in step. -/
theorem bind {first second : EStateM ε σ α} {next next' : α → EStateM ε σ β} {state shadow : σ}
    (begins : EndsAlike related (first state) (second shadow))
    (then_ : ∀ value state shadow, related state shadow →
      EndsAlike related (next value state) (next' value shadow)) :
    EndsAlike related ((first >>= next) state) ((second >>= next') shadow) := by
  change EndsAlike related (EStateM.bind first next state) (EStateM.bind second next' shadow)
  unfold EStateM.bind
  cases ran : first state with
  | ok value mid =>
      obtain ⟨mid', ran', reached'⟩ := begins.of_ok ran
      rw [ran']
      exact then_ value mid mid' reached'
  | error failure mid =>
      rw [ran] at begins
      generalize second shadow = ended at begins ⊢
      cases begins with
      | error failure reached' => exact .error failure reached'

end EndsAlike

namespace InStep

theorem pure (value : α) : InStep related (Pure.pure value : EStateM ε σ α) (Pure.pure value) :=
  fun _ _ reached => .ok value reached

theorem throw (failure : ε) :
    InStep related (MonadExcept.throw failure : EStateM ε σ α) (MonadExcept.throw failure) :=
  fun _ _ reached => .error failure reached

/-- **Sequencing**: actions in step, followed by actions in step. -/
theorem bind {first second : EStateM ε σ α} {next next' : α → EStateM ε σ β}
    (inStep : InStep related first second) (then_ : ∀ value, InStep related (next value) (next' value)) :
    InStep related (first >>= next) (second >>= next') := by
  intro state shadow reached
  exact (inStep state shadow reached).bind then_

end InStep

end LsmStore.Foundation
