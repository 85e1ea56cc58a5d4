import ObjectStore.Proofs.Engine.Log

/-!
# Logs have one form

Whatever a reader of the log accepts is, byte for byte, what is written for the value that it answers
(`Canonical`). It follows for fields, entries, payloads and records that no two byte strings are read
as the same batch, and for a scan of any bytes whatever that the part it accepts is the log of the
batches it answers.

Main statement: `scan_exact`, that scanning and writing undo each other.
-/

namespace ObjectStore.Log

/-! ## Readers that accept one form only -/

/-- The bytes that the reader takes are those that are written for its answer. -/
def Canonical {α : Type} (r : Reader α) (write : α → Except StorageError Bytes) : Prop :=
  ∀ ⦃bs a rest⦄, r.run bs = some (a, rest) → ∃ front, write a = .ok front ∧ bs = front ++ rest

/-- What a sequence of two readers takes is split where the first one stops. -/
theorem run_bind_eq_some {α β : Type} {r : Reader α} {f : α → Reader β} {bs rest : Bytes} {b : β}
    (h : (r >>= f).run bs = some (b, rest)) :
    ∃ a middle, r.run bs = some (a, middle) ∧ (f a).run middle = some (b, rest) := by
  rw [Reader.run_bind] at h
  split at h
  · cases h
  · rename_i a middle hr
    exact ⟨a, middle, hr, h⟩

section Digits

variable {digits : Bytes} (h : digits.length = 4)

include h

/-- Four digits stay below the limit. -/
theorem ofLittleEndian_lt_four : Bytes.ofLittleEndian digits < UInt32.size := by
  have hbound := Bytes.ofLittleEndian_lt digits
  rwa [h] at hbound

/-- Four digits are what is written for their number. -/
theorem littleEndian_ofLittleEndian_four :
    Bytes.littleEndian 4 (Bytes.ofLittleEndian digits) = digits := by
  rw [← h, Bytes.littleEndian_ofLittleEndian]

theorem encodeLength_ofLittleEndian :
    encodeLength (Bytes.ofLittleEndian digits) = .ok digits :=
  encodeLength_eq_ok_iff.mpr
    ⟨ofLittleEndian_lt_four h, (littleEndian_ofLittleEndian_four h).symm⟩

end Digits

theorem canonical_readLength : Canonical readLength encodeLength := by
  intro bs n rest h
  obtain ⟨digits, middle, htake, heq⟩ :=
    run_bind_eq_some (f := fun digits => pure (Bytes.ofLittleEndian digits)) h
  cases heq
  obtain ⟨rfl, hfour⟩ := Bytes.splitFront?_eq_some_iff.mp htake
  exact ⟨digits, encodeLength_ofLittleEndian hfour, rfl⟩

theorem canonical_readField : Canonical readField encodeField := by
  intro bs field rest h
  obtain ⟨n, middle, hlength, htake⟩ := run_bind_eq_some h
  obtain ⟨front, hfront, rfl⟩ := canonical_readLength hlength
  obtain ⟨rfl, rfl⟩ := Bytes.splitFront?_eq_some_iff.mp htake
  refine ⟨front ++ field, ?_, by rw [List.append_assoc]⟩
  rw [encodeField, hfront]
  rfl

theorem canonical_readEntry : Canonical readEntry encodeEntry := by
  intro bs e rest h
  obtain ⟨key, middle, hkey, h⟩ := run_bind_eq_some h
  obtain ⟨value, middle', hvalue, h⟩ := run_bind_eq_some h
  cases h
  obtain ⟨front, hfront, rfl⟩ := canonical_readField hkey
  obtain ⟨front', hfront', rfl⟩ := canonical_readField hvalue
  refine ⟨front ++ front', ?_, by rw [List.append_assoc]⟩
  rw [encodeEntry, hfront, hfront']
  rfl

/-- A reader repeated takes what is written for its answers one after the other. -/
theorem Canonical.times {α : Type} {r : Reader α} {write : α → Except StorageError Bytes}
    (hr : Canonical r write) {n : Nat} {bs rest : Bytes} {as : List α}
    (h : (r.times n).run bs = some (as, rest)) :
    as.length = n ∧ ∃ fields, as.mapM write = .ok fields ∧ bs = fields.flatten ++ rest := by
  induction n generalizing bs as with
  | zero =>
      cases h
      exact ⟨rfl, [], rfl, rfl⟩
  | succ n ih =>
      obtain ⟨a, middle, ha, h⟩ := run_bind_eq_some h
      obtain ⟨later, middle', hlater, h⟩ := run_bind_eq_some h
      cases h
      obtain ⟨front, hfront, rfl⟩ := hr ha
      obtain ⟨hlength, fields, hfields, rfl⟩ := ih hlater
      refine ⟨by rw [List.length_cons, hlength], front :: fields, ?_, by simp⟩
      rw [List.mapM_cons, hfront, hfields]
      rfl

/-! ## Payloads and records -/

/-- A payload that is read to its end as values after their number is what is written for them. -/
theorem written_of_readWhole {α : Type} {r : Reader α} {write : α → Except StorageError Bytes}
    (hr : Canonical r write) {n : Nat} {payload : Bytes} {as : List α}
    (h : readWhole (r.times n) payload = .ok as) :
    as.length = n ∧ ∃ fields, as.mapM write = .ok fields ∧ payload = fields.flatten := by
  unfold readWhole at h
  split at h
  · cases h
  · rename_i as' hrun
    cases h
    obtain ⟨hlength, fields, hfields, heq⟩ := hr.times hrun
    exact ⟨hlength, fields, hfields, by rw [heq, List.append_nil]⟩
  · cases h

/-- A payload that is read as a batch is what is written for this batch. -/
theorem encodePayload_of_decodePayload {type : UInt8} {payload : Bytes} {b : Batch}
    (h : decodePayload type payload = .ok b) :
    type = typeByte b ∧ encodePayload b = .ok payload := by
  unfold decodePayload at h
  split at h
  · cases h
  · rename_i count rest hcount
    obtain ⟨front, hfront, rfl⟩ := canonical_readLength hcount
    split at h
    · rename_i htype
      obtain ⟨entries, hwhole, rfl⟩ := Answer.map_eq_ok_iff.mp h
      obtain ⟨rfl, fields, hfields, rfl⟩ := written_of_readWhole canonical_readEntry hwhole
      refine ⟨htype, ?_⟩
      rw [encodePayload, hfront, hfields]
      rfl
    · split at h
      · rename_i htype
        obtain ⟨keys, hwhole, rfl⟩ := Answer.map_eq_ok_iff.mp h
        obtain ⟨rfl, fields, hfields, rfl⟩ := written_of_readWhole canonical_readField hwhole
        refine ⟨htype, ?_⟩
        rw [encodePayload, hfront, hfields]
        rfl
      · cases h

/-- A record that is read is what is written for the batch that it is read as. -/
theorem encode_of_decodeFront {bs rest : Bytes} {b : Batch} (h : decodeFront bs = .ok (b, rest)) :
    ∃ record, encode b = .ok record ∧ bs = record ++ rest := by
  unfold decodeFront at h
  split at h
  · rename_i m₀ m₁ m₂ m₃ type l₀ l₁ l₂ l₃ body
    split at h
    · rename_i hmagic
      split at h
      · cases h
      · rename_i payload tail hpayload
        split at h
        · cases h
        · rename_i stored after hstored
          simp only at h
          split at h
          · rename_i hsum
            obtain ⟨batch, hbatch, heq⟩ := Answer.map_eq_ok_iff.mp h
            cases heq
            obtain ⟨rfl, hlen⟩ := Bytes.splitFront?_eq_some_iff.mp hpayload
            obtain ⟨rfl, hfour⟩ := Bytes.splitFront?_eq_some_iff.mp hstored
            obtain ⟨rfl, hencode⟩ := encodePayload_of_decodePayload hbatch
            -- The length and the checksum stand there as they are written.
            have hlength : encodeLength payload.length = .ok [l₀, l₁, l₂, l₃] := by
              rw [hlen, encodeLength_ofLittleEndian rfl]
            have hchecksum : Bytes.littleEndian 4
                (Crc32.checksum (frame (typeByte b) [l₀, l₁, l₂, l₃] payload)).toNat = stored := by
              rw [← hsum, UInt32.toNat_ofNat_of_lt' (ofLittleEndian_lt_four hfour),
                littleEndian_ofLittleEndian_four hfour]
            refine ⟨sealed (frame (typeByte b) [l₀, l₁, l₂, l₃] payload), ?_, ?_⟩
            · rw [encode, hencode]
              show (encodeLength payload.length >>= _) = _
              rw [hlength]
              rfl
            · rw [sealed, hchecksum, frame, ← hmagic]
              simp only [List.cons_append, List.nil_append, List.append_assoc]
          · cases h
    · cases h
  · cases h

/-! ## Whole logs -/

theorem encodeAll_eq_ok_iff {batches : List Batch} {bs : Bytes} :
    encodeAll batches = .ok bs ↔
      ∃ records, batches.mapM encode = .ok records ∧ records.flatten = bs := by
  induction batches generalizing bs with
  | nil => simp [encodeAll, pure, Except.pure]
  | cons b batches ih =>
      simp only [encodeAll_cons_eq_ok_iff, List.mapM_cons, Answer.bind_eq_ok_iff, ih]
      constructor
      · intro h
        obtain ⟨record, hrecord, later, ⟨records, hrecords, rfl⟩, rfl⟩ := h
        exact ⟨record :: records, ⟨record, hrecord, records, hrecords, rfl⟩, rfl⟩
      · intro h
        obtain ⟨_, ⟨record, hrecord, records, hrecords, heq⟩, rfl⟩ := h
        cases heq
        exact ⟨record, hrecord, records.flatten, ⟨records, hrecords, rfl⟩, rfl⟩

/-- What a scan accepts is the log of the batches that it answers, and it accepts all bytes just when
it finds no damage. -/
theorem encodeAll_scan (bs : Bytes) :
    ∃ front rest, encodeAll (scan bs).batches = .ok front ∧ bs = front ++ rest ∧
      (scan bs).validLength = front.length ∧ ((scan bs).damage = none ↔ rest = []) := by
  -- By induction on the length: a record that is read leaves a shorter log.
  induction hn : bs.length using Nat.strongRecOn generalizing bs with
  | _ n ih =>
    subst hn
    by_cases hnil : bs = []
    · subst hnil
      exact ⟨[], [], by simp [scan_nil, encodeAll], rfl, by simp [scan_nil], by simp [scan_nil]⟩
    · cases hfront : decodeFront bs with
      | error damage =>
          rw [scan_of_error hfront hnil]
          exact ⟨[], bs, rfl, rfl, rfl, by simp [hnil]⟩
      | ok found =>
          obtain ⟨b, later⟩ := found
          have hshort := length_lt_of_decodeFront hfront
          obtain ⟨record, hrecord, rfl⟩ := encode_of_decodeFront hfront
          obtain ⟨front, rest, hall, hlater, hlength, hdamage⟩ := ih _ hshort later rfl
          rw [scan_append hrecord]
          refine ⟨record ++ front, rest, ?_, ?_, ?_, hdamage⟩
          · exact encodeAll_cons_eq_ok_iff.mpr ⟨record, hrecord, front, hall, rfl⟩
          · rw [List.append_assoc, ← hlater]
          · rw [List.length_append, hlength]

/-- Scanning and writing undo each other: records written one after the other are read as the batches
that they were written for, and what a scan of any bytes accepts is, byte for byte, the records of the
batches that it answers. -/
theorem scan_exact :
    (∀ batches records, batches.mapM encode = .ok records →
      scan records.flatten =
        { batches, validLength := records.flatten.length, damage := none }) ∧
    ∀ bs,
      (scan bs).validLength ≤ bs.length ∧
        ((scan bs).damage = none ↔ (scan bs).validLength = bs.length) ∧
        (∃ records, (scan bs).batches.mapM encode = .ok records ∧
          records.flatten = bs.take (scan bs).validLength) ∧
        scan (bs.take (scan bs).validLength) = { scan bs with damage := none } := by
  constructor
  · intro batches records h
    exact scan_encodeAll (encodeAll_eq_ok_iff.mpr ⟨records, h, rfl⟩)
  · intro bs
    obtain ⟨front, rest, hall, hbs, hlength, hdamage⟩ := encodeAll_scan bs
    have htake : bs.take (scan bs).validLength = front := by
      rw [hlength, hbs, List.take_left']
      rfl
    have hbytes : bs.length = front.length + rest.length := by
      rw [hbs, List.length_append]
    refine ⟨?_, ?_, ?_, ?_⟩
    · omega
    · rw [hdamage, hlength, hbytes, ← List.length_eq_zero_iff]
      omega
    · rw [htake]
      exact encodeAll_eq_ok_iff.mp hall
    · rw [htake, scan_encodeAll hall, ← hlength]

theorem scan_exact_two :
    ∃ records,
      [Batch.put [⟨[1], []⟩, ⟨[], [2, 3]⟩], .delete [[], [255]]].mapM encode = .ok records ∧
        scan records.flatten =
          { batches := [.put [⟨[1], []⟩, ⟨[], [2, 3]⟩], .delete [[], [255]]]
            validLength := records.flatten.length
            damage := none } := by
  have hsome : ([Batch.put [⟨[1], []⟩, ⟨[], [2, 3]⟩], .delete [[], [255]]].mapM
      encode).toOption.isSome = true := by
    decide +kernel
  obtain ⟨records, hrecords⟩ := Option.isSome_iff_exists.mp hsome
  have hencode := Answer.toOption_eq_some_iff.mp hrecords
  exact ⟨records, hencode, scan_exact.1 _ _ hencode⟩

end ObjectStore.Log
