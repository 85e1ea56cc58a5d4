import ObjectStore.Proofs.Bytes.Crc32
import ObjectStore.Proofs.Engine.Canonical

/-!
# Logs of other writers

A record is closed by a checksum of what stands before it, and a log may come from a writer that
computes this checksum in its own way. One look at the table is eight shifts of the register, so the
checksum of the log is the standard one, and every writer that closes its records with the standard
checksum writes the same logs as `encode`, byte for byte.

Main statement: `checksum_standard`, that records are read if and only if a standard writer has written
them.
-/

namespace ObjectStore

namespace Crc32

/-- The table is a shorter way to the standard checksum. -/
theorem checksum_eq_bitwise (bs : Bytes) : checksum bs = bitwise bs := by
  rw [checksum, bitwise, foldl_feedByte_eq]

-- The check value of CRC-32: the text of the digits from one to nine.
example : checksum [0x31, 0x32, 0x33, 0x34, 0x35, 0x36, 0x37, 0x38, 0x39] = 0xCBF43926 := by
  decide +kernel

/-- A function that computes the standard checksum, in whatever way. -/
def IsStandard (sum : Bytes → UInt32) : Prop :=
  ∀ bs, sum bs = bitwise bs

theorem isStandard_bitwise : IsStandard bitwise :=
  fun _ => rfl

theorem isStandard_checksum : IsStandard checksum :=
  checksum_eq_bitwise

/-- There is one standard checksum only. -/
theorem IsStandard.eq_checksum {sum : Bytes → UInt32} (h : IsStandard sum) : sum = checksum := by
  funext bs
  rw [h, isStandard_checksum]

end Crc32

namespace Log

/-- The record of a batch as a writer writes it whose checksum is `sum`. -/
def encodeWith (sum : Bytes → UInt32) (b : Batch) : Except StorageError Bytes := do
  let payload ← encodePayload b
  let length ← encodeLength payload.length
  let body := frame (typeByte b) length payload
  return body ++ Bytes.littleEndian 4 (sum body).toNat

theorem encodeWith_checksum : encodeWith Crc32.checksum = encode := rfl

variable {sum : Bytes → UInt32}

theorem encodeWith_of_isStandard (h : Crc32.IsStandard sum) : encodeWith sum = encode := by
  rw [h.eq_checksum, encodeWith_checksum]

/-- The front of a byte string is read as a batch if and only if it is the record of this batch. -/
theorem decodeFront_eq_ok_iff {bs rest : Bytes} {b : Batch} :
    decodeFront bs = .ok (b, rest) ↔ ∃ record, encode b = .ok record ∧ bs = record ++ rest := by
  constructor
  · exact encode_of_decodeFront
  · intro h
    obtain ⟨record, hrecord, rfl⟩ := h
    exact decodeFront_append hrecord rest

/-- The checksum of the log is the standard one, and so records are read just if a writer has written
them whose checksum is standard: every log of such a writer is read whole, what is read of any bytes is
the log that such a writer writes, and each side writes the same records. -/
theorem checksum_standard :
    (∀ bs, Crc32.checksum bs = Crc32.bitwise bs) ∧
    ∀ sum, Crc32.IsStandard sum →
      (∀ b, encodeWith sum b = encode b) ∧
      (∀ bs b rest, decodeFront bs = .ok (b, rest) ↔
        ∃ record, encodeWith sum b = .ok record ∧ bs = record ++ rest) ∧
      (∀ batches records, batches.mapM (encodeWith sum) = .ok records →
        scan records.flatten =
          { batches, validLength := records.flatten.length, damage := none }) ∧
      ∀ bs, ∃ records, (scan bs).batches.mapM (encodeWith sum) = .ok records ∧
        records.flatten = bs.take (scan bs).validLength := by
  refine ⟨Crc32.checksum_eq_bitwise, fun sum hsum => ?_⟩
  rw [encodeWith_of_isStandard hsum]
  refine ⟨fun _ => rfl, fun _ _ _ => decodeFront_eq_ok_iff, fun batches records h => ?_, fun bs => ?_⟩
  · exact scan_encodeAll (encodeAll_eq_ok_iff.mpr ⟨records, h, rfl⟩)
  · obtain ⟨front, rest, hall, hbs, hlength, -⟩ := encodeAll_scan bs
    have htake : bs.take (scan bs).validLength = front := by
      rw [hlength, hbs, List.take_left' rfl]
    rw [htake]
    exact encodeAll_eq_ok_iff.mp hall

/-- A log of two batches whose checksums were computed bit by bit. -/
theorem checksum_standard_two :
    ∃ records,
      [Batch.put [⟨[], [0, 255]⟩], .delete [[7], []]].mapM (encodeWith Crc32.bitwise) =
          .ok records ∧
        scan records.flatten =
          { batches := [.put [⟨[], [0, 255]⟩], .delete [[7], []]]
            validLength := records.flatten.length
            damage := none } := by
  have hsome : ([Batch.put [⟨[], [0, 255]⟩], .delete [[7], []]].mapM
      (encodeWith Crc32.bitwise)).toOption.isSome = true := by
    decide +kernel
  obtain ⟨records, hrecords⟩ := Option.isSome_iff_exists.mp hsome
  have hwritten := Answer.toOption_eq_some_iff.mp hrecords
  obtain ⟨-, hstandard⟩ := checksum_standard
  obtain ⟨-, -, hread, -⟩ := hstandard Crc32.bitwise Crc32.isStandard_bitwise
  exact ⟨records, hwritten, hread _ _ hwritten⟩

end Log

end ObjectStore
