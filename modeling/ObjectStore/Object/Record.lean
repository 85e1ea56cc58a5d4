import ObjectStore.Object.Payload

/-!
# Records

A record is a payload with the id that names it within its object.
-/

namespace ObjectStore

/-- One record of an object. -/
structure Record where
  /-- The id of the record within its object. -/
  uid : String
  /-- What the record carries. -/
  value : Payload
  deriving DecidableEq, Repr

namespace Record

/-- The kind of a record. -/
def kind (r : Record) : Kind :=
  r.value.kind

/-- The byte size of a record is that of its payload. -/
def byteSize (r : Record) : Nat :=
  r.value.byteSize

/-- A random id: 128 bits as 32 hexadecimal digits, with the digits that mark the version (`4`) and
the variant (`8` to `b`) of a random identifier in their places. -/
def randomUid (bits : BitVec 128) : String :=
  let high := Bytes.hexDigits 12 (bits.extractLsb' 80 48).toNat
  let middle := Bytes.hexDigits 3 (bits.extractLsb' 64 12).toNat
  let low := Bytes.hexDigits 16 (0b10#2 ++ bits.extractLsb' 0 62).toNat
  high ++ "4" ++ middle ++ low

/-- A record whose id is made of the given random bits. -/
def fresh (bits : BitVec 128) (value : Payload) : Record where
  uid := randomUid bits
  value := value

end Record

end ObjectStore
