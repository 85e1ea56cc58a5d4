import ObjectStore.Bytes.Crc32
import ObjectStore.Bytes.Reader
import ObjectStore.Engine.Error
import ObjectStore.Engine.Table

/-!
# Batch logs

An engine on disk keeps every batch as one record of a log:

```text
| "UKVL" | type (1) | payload length (4) | payload | checksum (4) |
```

Numbers have their lowest byte first, and the checksum covers all that stands before it. The payload
is a count and then, for each entry, the key and the value (for each key of a delete, the key), each
with its length in front. `encode` writes a record, `scan` reads a log up to its end or to the first
damage.
-/

namespace ObjectStore.Log

/-- The bytes that open every record. -/
def magic : Bytes := [0x55, 0x4B, 0x56, 0x4C]

/-- The type byte of a batch. -/
def typeByte : Batch → UInt8
  | .put _ => 1
  | .delete _ => 2

/-! ## Writing -/

/-- A length or count, if four bytes can hold it. -/
def encodeLength (n : Nat) : Except StorageError Bytes :=
  if n < UInt32.size then .ok (Bytes.littleEndian 4 n)
  else .error (.invalidArgs s!"length {n} exceeds u32")

/-- A byte string with its length in front. -/
def encodeField (bs : Bytes) : Except StorageError Bytes := do
  let length ← encodeLength bs.length
  return length ++ bs

/-- An entry: its key, then its value. -/
def encodeEntry (e : Entry) : Except StorageError Bytes := do
  let key ← encodeField e.key
  let value ← encodeField e.value
  return key ++ value

/-- The payload of a batch. -/
def encodePayload : Batch → Except StorageError Bytes
  | .put entries => do
    let count ← encodeLength entries.length
    let fields ← entries.mapM encodeEntry
    return count ++ fields.flatten
  | .delete keys => do
    let count ← encodeLength keys.length
    let fields ← keys.mapM encodeField
    return count ++ fields.flatten

/-- The record of a batch with the given payload, without its checksum. -/
def frame (type : UInt8) (length payload : Bytes) : Bytes :=
  magic ++ type :: (length ++ payload)

/-- Appends its checksum to a byte string. -/
def sealed (bs : Bytes) : Bytes :=
  bs ++ Bytes.littleEndian 4 (Crc32.checksum bs).toNat

/-- The record of a batch. -/
def encode (b : Batch) : Except StorageError Bytes := do
  let payload ← encodePayload b
  let length ← encodeLength payload.length
  return sealed (frame (typeByte b) length payload)

/-! ## Damage -/

/-- What is wrong with a record. -/
inductive Damage where
  | truncatedHeader
  | badMagic
  | truncatedBody
  | checksumMismatch (stored computed : UInt32)
  | payloadTooShort
  | unknownType (type : UInt8)
  | payloadTooLong
  deriving DecidableEq, Repr

/-- The storage error that a damaged record is. -/
def Damage.error (damage : Damage) : StorageError :=
  .corrupted <|
    match damage with
    | .truncatedHeader => "truncated record header"
    | .badMagic => "bad record magic"
    | .truncatedBody => "truncated record body"
    | .checksumMismatch stored computed =>
      let storedText := Bytes.hexDigits 8 stored.toNat
      let computedText := Bytes.hexDigits 8 computed.toNat
      s!"checksum mismatch: expected {storedText}, got {computedText}"
    | .payloadTooShort => "unexpected end of payload"
    | .unknownType type => s!"unknown record type {type.toNat}"
    | .payloadTooLong => "trailing bytes in record payload"

/-! ## Reading -/

/-- Takes a length or count. -/
def readLength : Reader Nat :=
  Bytes.ofLittleEndian <$> Reader.take 4

/-- Takes a byte string with its length in front. -/
def readField : Reader Bytes := do
  Reader.take (← readLength)

/-- Takes an entry. -/
def readEntry : Reader Entry := do
  let key ← readField
  let value ← readField
  pure { key, value }

/-- The value that a reader takes, if it takes a payload to its end. -/
def readWhole {α : Type} (r : Reader α) (payload : Bytes) : Except Damage α :=
  match r.run payload with
  | none => .error .payloadTooShort
  | some (a, []) => .ok a
  | some (_, _ :: _) => .error .payloadTooLong

/-- The batch of a record with the given type and payload. -/
def decodePayload (type : UInt8) (payload : Bytes) : Except Damage Batch :=
  match readLength.run payload with
  | none => .error .payloadTooShort
  | some (count, rest) =>
    if type = 1 then (readWhole (readEntry.times count) rest).map .put
    else if type = 2 then (readWhole (readField.times count) rest).map .delete
    else .error (.unknownType type)

/-- The first record of a log and what comes after it. -/
def decodeFront : Bytes → Except Damage (Batch × Bytes)
  | m₀ :: m₁ :: m₂ :: m₃ :: type :: l₀ :: l₁ :: l₂ :: l₃ :: rest =>
    if [m₀, m₁, m₂, m₃] = magic then
      -- The length is not trusted: payload and checksum have to be there.
      match Bytes.splitFront? (Bytes.ofLittleEndian [l₀, l₁, l₂, l₃]) rest with
      | none => .error .truncatedBody
      | some (payload, tail) =>
        match Bytes.splitFront? 4 tail with
        | none => .error .truncatedBody
        | some (stored, after) =>
          let computed := Crc32.checksum (frame type [l₀, l₁, l₂, l₃] payload)
          if UInt32.ofNat (Bytes.ofLittleEndian stored) = computed then
            (decodePayload type payload).map fun batch => (batch, after)
          else
            .error (.checksumMismatch (UInt32.ofNat (Bytes.ofLittleEndian stored)) computed)
    else .error .badMagic
  | _ => .error .truncatedHeader

theorem length_lt_of_decodeFront {bs rest : Bytes} {b : Batch}
    (h : decodeFront bs = .ok (b, rest)) : rest.length < bs.length := by
  unfold decodeFront at h
  split at h
  · split at h
    · split at h
      · cases h
      · rename_i payload tail hpayload
        split at h
        · cases h
        · rename_i stored after hstored
          obtain ⟨rfl, -⟩ := Bytes.splitFront?_eq_some_iff.mp hpayload
          obtain ⟨rfl, -⟩ := Bytes.splitFront?_eq_some_iff.mp hstored
          simp only at h
          split at h
          · cases hdecode : decodePayload _ payload with
            | error e =>
              rw [hdecode] at h
              cases h
            | ok batch =>
              rw [hdecode] at h
              cases h
              simp only [List.length_cons, List.length_append]
              omega
          · cases h
    · cases h
  · cases h

/-- What is found in a log: the batches up to its end or the first damage. -/
structure Scan where
  /-- The batches, in the order in which they were written. -/
  batches : List Batch
  /-- How many bytes the records of these batches take. -/
  validLength : Nat
  /-- What is wrong with the record after them, if the log goes on. -/
  damage : Option Damage
  deriving DecidableEq, Repr

/-- Reads a log up to its end or to the first damage. -/
def scan (bs : Bytes) : Scan :=
  match bs with
  | [] => { batches := [], validLength := 0, damage := none }
  | b :: bs =>
    match h : decodeFront (b :: bs) with
    | .error damage => { batches := [], validLength := 0, damage := some damage }
    | .ok (batch, rest) =>
      have := length_lt_of_decodeFront h
      let later := scan rest
      { batches := batch :: later.batches
        validLength := (b :: bs).length - rest.length + later.validLength
        damage := later.damage }
termination_by bs.length
decreasing_by exact this

/-- The table that a list of batches builds from nothing. -/
def replay (batches : List Batch) : Table :=
  batches.foldl Table.apply ∅

end ObjectStore.Log
