import ObjectStore.Engine.Error

/-!
# Depot errors

Why a depot refused, and the flat status that a caller in another process is told.
-/

namespace ObjectStore

/-- The stage of a depot's life. -/
inductive DepotState where
  | uninitialized
  | ready
  | closed
  deriving DecidableEq, Repr

/-- The name of a stage. -/
def DepotState.name : DepotState → String
  | .uninitialized => "uninitialized"
  | .ready => "ready"
  | .closed => "closed"

/-- A failure of a depot. -/
inductive DepotError where
  /-- What the caller gave cannot be stored. -/
  | invalidParameters (reason : String)
  /-- What is stored cannot be read back, or metadata cannot be encoded. -/
  | unknown (reason : String)
  /-- A step of a composite operation failed. -/
  | database (reason : String)
  /-- The engine refused. -/
  | storage (cause : StorageError)
  /-- The depot is not ready. -/
  | notReady (state : DepotState)
  deriving DecidableEq, Repr

/-- The text of an error. -/
def DepotError.message : DepotError → String
  | .invalidParameters reason => s!"invalid parameters: {reason}"
  | .unknown reason => s!"unknown error: {reason}"
  | .database reason => s!"database error: {reason}"
  | .storage cause =>
    let reason := cause.message
    s!"storage error: {reason}"
  | .notReady state =>
    let name := state.name
    s!"store is not ready: {name}"

/-- The flat outcome of an operation. -/
inductive Status where
  | ok
  | invalidParameters
  | unknown
  | database
  | notReady
  deriving DecidableEq, Repr

/-- The name of a status. -/
def Status.name : Status → String
  | .ok => "E_OK"
  | .invalidParameters => "E_INVALID_PARAMETERS"
  | .unknown => "E_UNKNOWN"
  | .database => "E_DB_ERROR"
  | .notReady => "E_NOT_READY"

/-- The status of an error. -/
def DepotError.status : DepotError → Status
  | .invalidParameters _ => .invalidParameters
  | .unknown _ => .unknown
  | .database _ => .database
  | .storage _ => .database
  | .notReady _ => .notReady

/-- The status of an answer. -/
def Status.ofAnswer {α : Type} : Except DepotError α → Status
  | .ok _ => .ok
  | .error err => err.status

end ObjectStore
