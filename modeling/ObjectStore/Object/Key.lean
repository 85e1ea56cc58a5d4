import ObjectStore.Bytes.Utf8

/-!
# Keys

An object is stored as one entry for the object itself and one entry per record:

```text
udmf://<intention>/<bundle>/<group>          the object (group key)
udmf://<intention>/<bundle>/<group>/<uid>    one record (member key)
```

The number of slashes alone tells the two apart in a listing, so neither segments nor record ids may
hold one. Group keys are compared with stored keys as bytes, at a segment boundary: `…/g1` is not a
member of `…/g`.
-/

namespace ObjectStore

/-- The key of an object: its three segments, and its text once that is known. -/
structure ObjectKey where
  /-- The text of the key; empty until it is built or parsed. -/
  cached : String := ""
  /-- What the data is meant for. -/
  intention : String := ""
  /-- The bundle that made the data. -/
  bundle : String := ""
  /-- The id of the group within the bundle. -/
  group : String := ""
  deriving DecidableEq, Repr

/-- The start of every key; what is stored below it is the whole store. -/
def keyScheme : String := "udmf://"

namespace ObjectKey

/-- The text that the segments spell. -/
def build (k : ObjectKey) : String :=
  keyScheme ++ k.intention ++ "/" ++ k.bundle ++ "/" ++ k.group

/-- A key made of its segments, with its text. -/
def ofSegments (intention bundle group : String) : ObjectKey :=
  let key : ObjectKey := { intention, bundle, group }
  { key with cached := key.build }

/-- The text of a key: the cached one if there is one, else what the segments spell. -/
def text (k : ObjectKey) : String :=
  if k.cached = "" then k.build else k.cached

/-- Reads `udmf://<intention>/<bundle>/<group>` with three segments, none of them empty. -/
def parse? (s : String) : Option ObjectKey :=
  match s.toList.splitOn '/' with
  | [scheme, [], intention, bundle, group] =>
    if scheme = ['u', 'd', 'm', 'f', ':'] ∧ intention ≠ [] ∧ bundle ≠ [] ∧ group ≠ [] then
      some
        { cached := s
          intention := String.ofList intention
          bundle := String.ofList bundle
          group := String.ofList group }
    else none
  | _ => none

/-- Whether the text of a key is a group key. -/
def isValid (k : ObjectKey) : Bool :=
  (parse? k.text).isSome

end ObjectKey

namespace Key

/-- The key of a record in a group. -/
def member (group uid : String) : String :=
  group ++ "/" ++ uid

/-- The number of slashes in a key. -/
def slashCount (key : String) : Nat :=
  key.toList.count '/'

/-- Whether a key has as many slashes as a group key. -/
def isGroupShaped (key : String) : Bool :=
  slashCount key == 4

/-- Whether a stored key is the group key itself or lies below it. -/
def belongsTo (key : Bytes) (group : String) : Bool :=
  match Bytes.after? (Utf8.encode group) key with
  | none => false
  | some [] => true
  | some (b :: _) => b == '/'.toUInt8

/-! ## Checks -/

/-- Why a key or a record id cannot be stored. -/
inductive Fault where
  | notGroupKey (key : String)
  | emptyUid
  | slashInUid (uid : String)
  deriving DecidableEq, Repr

/-- The text of a fault. -/
def Fault.message : Fault → String
  | .notGroupKey key => s!"not a group key: {key}"
  | .emptyUid => "record uid is empty"
  | .slashInUid uid => s!"record uid contains '/': {uid}"

/-- Passes group keys that parse. -/
def checkGroup (key : String) : Except Fault Unit :=
  if (ObjectKey.parse? key).isSome then .ok () else .error (.notGroupKey key)

/-- Passes record ids that can be the last segment of a key. -/
def checkUid (uid : String) : Except Fault Unit :=
  if uid = "" then .error .emptyUid
  else if '/' ∈ uid.toList then .error (.slashInUid uid)
  else .ok ()

end Key

end ObjectStore
