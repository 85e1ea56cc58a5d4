import ObjectStore.Action
import ObjectStore.Depot.Error
import ObjectStore.Engine.Table
import ObjectStore.Object.Codec
import ObjectStore.Object.Summary

/-!
# Objects in a key-value store

How objects are put into a flat store of keys and values and found there again. An object is one
entry for its metadata under its group key and one for each record under a member key, written by a
single put; the records carry their positions, because a listing gives them in the order of their ids.

The operations ask nothing of the store but puts, deletes and scans, so they are the same over an
engine in memory, an engine on disk and an engine behind switches.
-/

namespace ObjectStore

/-- What objects ask of a store whose state is part of `σ`. -/
structure KeyValue (σ : Type) where
  /-- Stores all entries or none. -/
  put : List Entry → Action σ StorageError Unit
  /-- Removes all keys or none. -/
  delete : List Bytes → Action σ StorageError Unit
  /-- The entries whose keys start with the given bytes, in key order. -/
  scan : (front : Bytes) → Action σ StorageError (List Entry)

namespace Access

/-! ## Writing -/

/-- The entry of a record at a position of the object with the given group key. -/
def memberEntry (codec : DataCodec) (group : String) (position : Nat) (record : Record) :
    Except DepotError Entry := do
  (Key.checkUid record.uid).mapError fun fault => .invalidParameters fault.message
  if position < UInt32.size then
    match codec.encodeRecord (UInt32.ofNat position) record with
    | .error err =>
      let uid := record.uid
      let reason := err.message
      throw (.invalidParameters s!"encode record {uid}: {reason}")
    | .ok value => return { key := Utf8.encode (Key.member group record.uid), value }
  else throw (.invalidParameters "too many records")

/-- The entries of the records from a position on. -/
def memberEntries (codec : DataCodec) (group : String) :
    (position : Nat) → List Record → Except DepotError (List Entry)
  | _, [] => return []
  | position, record :: records => do
    let entry ← memberEntry codec group position record
    let entries ← memberEntries codec group (position + 1) records
    return entry :: entries

/-- The entry of the metadata. -/
def metadataEntry (codec : DataCodec) (metadata : Metadata) : Except DepotError Entry :=
  match codec.encodeMetadata metadata with
  | .error err =>
    let reason := err.message
    .error (.unknown s!"encode runtime: {reason}")
  | .ok value => .ok { key := Utf8.encode metadata.groupKey, value }

/-- The metadata of an object that is to be written. -/
def requireMetadata (o : DataObject) : Except DepotError Metadata :=
  match o.metadata with
  | some metadata => .ok metadata
  | none => .error (.invalidParameters "unified data has no runtime")

/-- All entries of an object: those of the records in order, then that of the metadata. -/
def entriesOf (codec : DataCodec) (o : DataObject) : Except DepotError (List Entry) := do
  let metadata ← requireMetadata o
  (Key.checkGroup metadata.groupKey).mapError fun fault => .invalidParameters fault.message
  let members ← memberEntries codec metadata.groupKey 0 o.records
  let own ← metadataEntry codec metadata
  return members ++ [own]

/-! ## Reading -/

/-- What a row of entries gives before the first that cannot be decoded. -/
structure Gathered where
  /-- The metadata. -/
  metadata : Option Metadata := none
  /-- The records with their positions, in the order of the entries. -/
  members : List (UInt32 × Record) := []
  /-- Why the row was not read to its end. -/
  failure : Option DepotError := none

/-- Decodes the entries of the group with the given key up to the first that cannot be decoded. -/
def gather (codec : DataCodec) (group : Bytes) : List Entry → Gathered
  | [] => {}
  | e :: entries =>
    if e.key = group then
      match codec.decodeMetadata e.value with
      | .error err =>
        let reason := err.message
        { failure := some (.unknown s!"decode runtime: {reason}") }
      | .ok metadata =>
        let later := gather codec group entries
        { later with metadata := later.metadata.or (some metadata) }
    else
      match codec.decodeRecord e.value with
      | .error err =>
        let reason := err.message
        { failure := some (.unknown s!"decode record: {reason}") }
      | .ok member =>
        let later := gather codec group entries
        { later with members := member :: later.members }

/-- The object that was gathered: the records by position, equal positions in the order found. -/
def Gathered.object (g : Gathered) : DataObject where
  metadata := g.metadata
  records := (g.members.mergeSort fun a b => a.1 ≤ b.1).map (·.2)

variable {σ : Type} (kv : KeyValue σ) (codec : DataCodec)

/-- The entries whose keys start with a text. -/
def scanText (front : String) : Action σ DepotError (List Entry) :=
  (kv.scan (Utf8.encode front)).mapError .storage

/-- Reads what belongs to a key, as far as it can be read, and says what went wrong. -/
def read (key : String) : StateM σ (DataObject × Option DepotError) := do
  match ← (scanText kv key).outcome with
  | .error err => return ({}, some err)
  | .ok entries =>
    -- A scan also finds keys that only start alike; the segment boundary tells them apart.
    let gathered := gather codec (Utf8.encode key) (entries.filter fun e => Key.belongsTo e.key key)
    return (gathered.object, gathered.failure)

/-! ## Operations -/

/-- Stores an object over whatever is stored of it. -/
def put (o : DataObject) : Action σ DepotError Unit := do
  let entries ← Action.answer (entriesOf codec o)
  (kv.put entries).mapError .storage

/-- The object under a key; without metadata and records if nothing is stored. -/
def get (key : String) : Action σ DepotError DataObject := do
  match ← Action.always (read kv codec key) with
  | (o, none) => return o
  | (_, some err) => throw err

/-- The sizes of the records under a key. -/
def getSummary (key : String) : Action σ DepotError Summary := do
  let o ← (get kv codec key).mapError fun err =>
    let reason := err.message
    .database s!"get {key}: {reason}"
  return Summary.ofRecords o.records

/-- Removes the entries whose keys start with a text and pass a test. Asks for a delete only if
there are any. -/
def removeUnder (front : String) (p : Bytes → Bool) : Action σ DepotError Unit := do
  let entries ← scanText kv front
  match (entries.map Entry.key).filter p with
  | [] => return ()
  | keys => (kv.delete keys).mapError .storage

/-- Removes what belongs to a key. -/
def delete (key : String) : Action σ DepotError Unit :=
  removeUnder kv key fun k => Key.belongsTo k key

/-- Removes what belongs to each of the keys in turn, up to the first failure. -/
def deleteAll : List String → Action σ DepotError Unit
  | [] => return ()
  | key :: keys => do
    delete kv key
    deleteAll keys

/-- Puts an object in the place of what is stored of it. -/
def update (o : DataObject) : Action σ DepotError Unit := do
  let metadata ← Action.answer (requireMetadata o)
  let group := metadata.groupKey
  (delete kv group).mapError fun err =>
    let reason := err.message
    .database s!"delete {group}: {reason}"
  (put kv codec o).mapError fun err =>
    let reason := err.message
    .database s!"put {group}: {reason}"

/-- The objects whose group keys start with a text, each as far as it can be read. -/
def getAll (front : String) : Action σ DepotError (List DataObject) := do
  let entries ← scanText kv front
  let groups := (entries.map fun e => Utf8.lossy e.key).filter Key.isGroupShaped
  Action.always <| groups.mapM fun group => do
    let found ← read kv codec group
    return found.1

/-- Removes everything. Only what the engine refuses counts as a failure. -/
def clear : Action σ DepotError Unit := do
  match ← Action.always (removeUnder kv keyScheme fun _ => true).outcome with
  | .ok () => return ()
  | .error err => if err.status = .database then throw err else return ()

end Access

end ObjectStore
