import ObjectStore.Object.Record

/-!
# Summaries

How many bytes the records of each kind take, and all records together.
-/

namespace ObjectStore

/-- Byte sizes per type identifier. -/
structure Summary where
  /-- The bytes of each kind that occurs. -/
  sizes : SortedMap String Nat := ∅
  /-- The bytes of all records. -/
  total : Nat := 0
  deriving DecidableEq, Repr

namespace Summary

/-- Counts one more record. -/
def add (s : Summary) (r : Record) : Summary :=
  let identifier := r.kind.identifier
  { sizes := s.sizes.insert identifier ((s.sizes.get? identifier).getD 0 + r.byteSize)
    total := s.total + r.byteSize }

/-- The summary of a list of records. -/
def ofRecords (rs : List Record) : Summary :=
  rs.foldl add {}

end Summary

end ObjectStore
