/-! # Computations that may fail

`Stateful σ ε α` is a computation on a state that gives a value or fails. Unlike an exception, a
failure does not undo anything: the state it leaves behind is part of the result. -/

namespace Lineage

def Stateful (σ ε α : Type) : Type :=
  σ → Except ε α × σ

namespace Stateful

variable {σ ε α : Type}

instance : Monad (Stateful σ ε) where
  pure value := fun state => (.ok value, state)
  bind first next := fun state =>
    match first state with
    | (.ok value, state) => next value state
    | (.error error, state) => (.error error, state)

/-- Fails and changes nothing. -/
def fail (error : ε) : Stateful σ ε α :=
  fun state => (.error error, state)

/-- Looks at the state. -/
def read (look : σ → α) : Stateful σ ε α :=
  fun state => (.ok (look state), state)

/-- Changes the state. -/
def change (step : σ → σ) : Stateful σ ε Unit :=
  fun state => (.ok (), step state)

/-- A found value, or a failure. -/
def require (found : Option α) (error : ε) : Stateful σ ε α :=
  match found with
  | some value => pure value
  | none => fail error

end Stateful

end Lineage
