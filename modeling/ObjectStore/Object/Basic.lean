import ObjectStore.Object.Record
import ObjectStore.Object.Metadata

/-!
# Objects

An object is a list of records with metadata. What a store holds under a key may lack the metadata,
so an object read back may lack it too.
-/

namespace ObjectStore

/-- A unified data object. -/
structure DataObject where
  metadata : Option Metadata := none
  records : List Record := []
  deriving DecidableEq, Repr

namespace DataObject

/-- An object is empty if it has neither metadata nor records. -/
def isEmpty (o : DataObject) : Bool :=
  o.metadata.isNone && o.records.isEmpty

/-- The byte size of all records. -/
def byteSize (o : DataObject) : Nat :=
  totalSize Record.byteSize o.records

/-- The kinds of the records, in order. -/
def kinds (o : DataObject) : List Kind :=
  o.records.map Record.kind

/-- The group key that an object is stored under, if it has metadata. -/
def groupKey? (o : DataObject) : Option String :=
  o.metadata.map Metadata.groupKey

end DataObject

end ObjectStore
