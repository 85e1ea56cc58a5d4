/-!
# Storage errors

Why an engine or a manager refused.
-/

namespace ObjectStore

/-- A failure of an engine or a manager. -/
inductive StorageError where
  /-- The disk refused. -/
  | device (reason : String)
  /-- What is on disk is damaged. -/
  | corrupted (reason : String)
  /-- The engine was closed. -/
  | closed
  /-- There is no store of that id, or the handle is not one of it. -/
  | storeNotFound (id : String)
  /-- The request makes no sense. -/
  | invalidArgs (reason : String)
  /-- The request asks for something that is not on offer. -/
  | notSupported (reason : String)
  /-- The store's directory is in use. -/
  | busy (id : String)
  /-- A fault was switched on. -/
  | injected (reason : String)
  deriving DecidableEq, Repr

/-- The text of an error. -/
def StorageError.message : StorageError → String
  | .device reason => s!"I/O error: {reason}"
  | .corrupted reason => s!"store corrupted: {reason}"
  | .closed => "store is closed"
  | .storeNotFound id => s!"store not found: {id}"
  | .invalidArgs reason => s!"invalid arguments: {reason}"
  | .notSupported reason => s!"not supported: {reason}"
  | .busy id => s!"store busy: {id} is locked by another process"
  | .injected reason => s!"injected fault: {reason}"

end ObjectStore
