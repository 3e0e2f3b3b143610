import RegisterCode.Error

/-! Operations on a state that may fail. A failed operation hands its state back
as well, so whoever goes on after a failure sees how far the operation came. -/
namespace RegisterCode

abbrev Action (σ : Type) : Type → Type :=
  EStateM Error σ

namespace Action

/-- Run an operation on one part of the state. The part is taken out before the
operation starts, `hole` standing in its place, so that it is updated in place. -/
@[noinline] def focus {σ τ α : Type} (part : σ → τ) (put : τ → σ → σ) (hole : τ)
    (action : Action τ α) : Action σ α := fun state =>
  let inner := part state
  let state := put hole state
  match action inner with
  | .ok value inner => .ok value (put inner state)
  | .error error inner => .error error (put inner state)

@[inline] def ofExcept {σ α : Type} (outcome : Except Error α) : Action σ α := fun state =>
  match outcome with
  | .ok value => .ok value state
  | .error error => .error error state

end Action

end RegisterCode
