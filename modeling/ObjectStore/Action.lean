/-!
# Actions

What stores do, they do to a state and may fail at: an action answers a value or an error, and leaves
a state in either case.
-/

namespace ObjectStore

/-- Acts on a state `σ` and answers a value, or an error in `ε`. -/
abbrev Action (σ ε α : Type) := ExceptT ε (StateM σ) α

namespace Action

variable {σ ε ε' α : Type}

/-- What an action answers and leaves behind. -/
def exec (a : Action σ ε α) (s : σ) : Except ε α × σ :=
  StateT.run (ExceptT.run a) s

/-- The answer of an action, also where it is an error. -/
def outcome (a : Action σ ε α) : StateM σ (Except ε α) :=
  ExceptT.run a

/-- Answers with a value or error already known. -/
def answer : Except ε α → Action σ ε α
  | .ok a => pure a
  | .error e => throw e

/-- The same action, with its errors turned into others. -/
def mapError (f : ε → ε') (a : Action σ ε α) : Action σ ε' α :=
  ExceptT.adapt f a

/-- Does what cannot fail. -/
def always (a : StateM σ α) : Action σ ε α :=
  ExceptT.lift a

end Action

end ObjectStore
