import ObjectStore.Engine.Basic
import ObjectStore.Manager.Faults

/-!
# Managers

A manager belongs to one application and user and lends the engines of named stores. It keeps one
engine per store id with the number of its loans, and closes the engine with the last of them.

A guarded manager lends every caller a wrapper of its own around the engine; the wrapper counts the
calls and fails those that are switched off. Such a manager takes back the wrappers that it has lent
out, each of them once, and nothing else.
-/

namespace ObjectStore

/-- Names an engine for good. -/
abbrev EngineRef := Nat

/-- Names a manager for good. -/
abbrev ManagerRef := Nat

/-- What a caller holds of an engine: the engine itself, or a wrapper lent out by a guarded
manager. Wrappers differ by their serial numbers. -/
inductive Handle where
  | direct (engine : EngineRef)
  | wrapped (serial : Nat) (manager : ManagerRef) (engine : EngineRef)
  deriving DecidableEq, Repr

/-- The engine behind a handle. -/
def Handle.engine : Handle → EngineRef
  | .direct engine => engine
  | .wrapped _ _ engine => engine

/-- An engine on loan and how often it is lent out. -/
structure Loan where
  engine : EngineRef
  handles : Nat
  deriving DecidableEq, Repr

/-- What a guarded manager has beside its loans. -/
structure Guard where
  /-- The switches and counters of all its wrappers. -/
  faults : Faults := {}
  /-- The wrappers that are lent out: their serial numbers and engines. -/
  wrappers : List (Nat × EngineRef) := []
  deriving DecidableEq, Repr

/-- Lends the engines of named stores. -/
structure Manager where
  /-- The application. -/
  app : String
  /-- The user. -/
  user : String
  /-- The directory above all stores on disk, once it is set. -/
  base : Option String := none
  /-- Whether its engines can reach other devices. -/
  networked : Bool := false
  /-- The loans, by store id. -/
  loans : SortedMap String Loan := ∅
  /-- Present if the manager is guarded. -/
  guard : Option Guard := none
  deriving DecidableEq, Repr

namespace Manager

/-- The directory of a store: below the base directory by its id alone, or by application, user and
id. -/
def storeDirectory (app user base id : String) (options : Options) : String :=
  if options.directoryById then Path.join base id
  else Path.join (Path.join (Path.join base app) user) id

/-- Passes ids that are plain names. -/
def checkId (id : String) : Except StorageError Unit :=
  if id = "" then .error (.invalidArgs "store id is empty")
  else if '/' ∈ id.toList ∨ '\\' ∈ id.toList ∨ id = "." ∨ id = ".." then
    .error (.invalidArgs s!"store id is not a plain name: {id}")
  else .ok ()

/-- Whether a manager still has the given engine: on loan, or behind a wrapper. -/
def holds (m : Manager) (engine : EngineRef) : Bool :=
  m.loans.values.any (fun loan => loan.engine == engine) ||
    m.guard.any fun guard => guard.wrappers.any fun wrapper => wrapper.2 == engine

end Manager

end ObjectStore
