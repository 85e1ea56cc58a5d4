import ObjectStore.Engine.Disk
import ObjectStore.Engine.Log
import ObjectStore.Engine.Options

/-!
# Engines

An engine is an open key-value store. An engine in memory is its table; an engine on disk also keeps
every batch in the log of its directory, and the log gives the table back when the directory is
opened again:

```text
<directory>/
  LOCK       held by the engine that has the directory open
  data.log   the batch log
```

A batch is written to the log before it reaches the table. An engine on disk remembers how long its
log is and writes the next record there, whatever has become of the file in the meantime.
-/

namespace ObjectStore

/-- Where an engine keeps its batches. -/
inductive Backing where
  | memory
  /-- In the log of the directory at a place, up to the given length. -/
  | directory (place : List String) (logLength : Nat)
  deriving DecidableEq, Repr

/-- An open key-value store. -/
structure Engine where
  /-- The id that the store was opened under. -/
  id : String
  /-- The options that the store was opened with. -/
  options : Options := {}
  /-- What is stored. -/
  table : Table := ∅
  /-- Whether the store was closed. -/
  isClosed : Bool := false
  /-- Where the batches are kept. -/
  backing : Backing := .memory
  /-- Whether the store can reach other devices. -/
  networked : Bool := false
  deriving DecidableEq, Repr

namespace Engine

/-- The place of a directory's log. -/
def logPlace (directory : List String) : List String :=
  directory ++ ["data.log"]

/-- The place of a directory's lock. -/
def lockPlace (directory : List String) : List String :=
  directory ++ ["LOCK"]

/-- The place of the directory of an engine on disk. -/
def directory? (e : Engine) : Option (List String) :=
  match e.backing with
  | .memory => none
  | .directory place _ => some place

/-! ## Reading and writing -/

/-- The entries whose keys start with `front`, in key order. -/
def scan (e : Engine) (front : Bytes) : Except StorageError (List Entry) :=
  if e.isClosed then .error .closed else .ok (e.table.scan front)

/-- Applies a batch: first to the log, if there is one, then to the table. A batch that changes
nothing leaves no record. -/
def write (e : Engine) (batch : Batch) (disk : Disk) : Except StorageError (Engine × Disk) :=
  if e.isClosed then .error .closed
  else if batch.isEmpty then .ok (e, disk)
  else
    match e.backing with
    | .memory => .ok ({ e with table := e.table.apply batch }, disk)
    | .directory place length =>
      match Log.encode batch with
      | .error err => .error err
      | .ok record =>
        .ok
          ({ e with
              table := e.table.apply batch
              backing := .directory place (length + record.length) },
            disk.writeAt (logPlace place) length record)

/-- Closes an engine; from then on it refuses to read and to write. -/
def close (e : Engine) : Engine :=
  { e with isClosed := true }

/-- Goes on without a directory that was removed. What an engine wrote there could no longer be read by
anyone, so that from then on it keeps its batches in memory. -/
def leave (e : Engine) (removed : List String) : Engine :=
  match e.backing with
  | .memory => e
  | .directory place _ => if removed <+: place then { e with backing := .memory } else e

/-! ## Opening a directory -/

/-- Finds the directory, or makes it if the options allow that. What was made stays there also when the
rest fails. -/
def prepareDirectory (path id : String) (options : Options) (disk : Disk) :
    Except StorageError (List String) × Disk :=
  match disk.find path with
  | .ok (place, .directory) => (.ok place, disk)
  | .ok (_, .file _) =>
    (.error (.invalidArgs s!"store path is not a directory: {path}"), disk)
  | .error _ =>
    if options.createIfMissing then
      match disk.makeDirectories path with
      | (.ok place, disk) => (.ok place, disk)
      | (.error err, disk) => (.error (.device err.message), disk)
    else (.error (.storeNotFound id), disk)

/-- Reads the log of the directory at a place, cuts off its damaged end if the options allow that, and
replays it. -/
def recover (path id : String) (place : List String) (options : Options) (networked : Bool)
    (content : Bytes) (disk : Disk) : Except StorageError Engine × Disk :=
  let found := Log.scan content
  let engine : Engine :=
    { id
      options
      table := Log.replay found.batches
      backing := .directory place found.validLength
      networked }
  match found.damage with
  | none => (.ok engine, disk)
  | some damage =>
    if options.removeCorrupted then
      (.ok engine, disk.truncate (logPlace place) found.validLength)
    else
      let reason := damage.error.message
      (.error (.corrupted s!"{path}: at offset {found.validLength}: {reason}"), disk)

/-- Opens the store in a directory. `held` says whether another engine has the directory at a place
open. What was made on the way stays there also when the opening fails. -/
def openDirectory (path id : String) (options : Options) (networked : Bool)
    (held : List String → Bool) (disk : Disk) : Except StorageError Engine × Disk :=
  match prepareDirectory path id options disk with
  | (.error err, disk) => (.error err, disk)
  | (.ok place, disk) =>
    -- The lock comes first: without it nothing is read and no log is made.
    match disk.openFile? (lockPlace place) with
    | none => (.error (.device PathError.isDirectory.message), disk)
    | some (_, disk) =>
      if held place then (.error (.busy id), disk)
      else
        match disk.openFile? (logPlace place) with
        | none => (.error (.device PathError.isDirectory.message), disk)
        | some (content, disk) => recover path id place options networked content disk

end Engine

end ObjectStore
