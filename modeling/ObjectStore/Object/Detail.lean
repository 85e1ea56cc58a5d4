import ObjectStore.Bytes.Utf8
import ObjectStore.Object.Size
import ObjectStore.SortedMap

/-!
# Details

Free-form values that a record's payload carries beside its fixed fields, and their size in bytes.
-/

namespace ObjectStore

/-- A single details value. -/
inductive DetailValue where
  | int (n : Int32)
  | long (n : Int64)
  | bool (b : Bool)
  | text (s : String)
  | bytes (bs : Bytes)
  deriving DecidableEq, Repr

/-- The byte footprint of a value. -/
def DetailValue.byteSize : DetailValue → Nat
  | .int _ => 4
  | .long _ => 8
  | .bool _ => 1
  | .text s => s.utf8ByteSize
  | .bytes bs => bs.length

/-- Details, in byte order of their names. -/
abbrev Details := SortedMap String DetailValue

/-- The byte footprint of details: every name and every value. -/
def Details.byteSize (details : Details) : Nat :=
  totalSize (fun (name, value) => name.utf8ByteSize + value.byteSize) details.entries

end ObjectStore
