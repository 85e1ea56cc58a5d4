import ObjectStore.Engine.Log
import ObjectStore.Proofs.Action
import ObjectStore.Proofs.Bytes.Takes

/-!
# What a log gives back

A log is written record by record, and `encodeAll` is what a list of batches leaves in it. A scan of
such a log gives the batches back, and a scan of its first `n` bytes gives back those batches whose
records lie wholly within them.

Main statements: `scan_encodeAll` and `scan_take_encodeAll`.
-/

namespace ObjectStore.Log

/-- The log that a list of batches leaves behind. -/
def encodeAll : List Batch → Except StorageError Bytes
  | [] => .ok []
  | b :: batches => do
    let record ← encode b
    let later ← encodeAll batches
    return record ++ later

/-- How many of the records of some batches lie wholly within the first `n` bytes of their log. -/
def recordsWithin : List Batch → (n : Nat) → Nat
  | [], _ => 0
  | b :: batches, n =>
    match encode b with
    | .error _ => 0
    | .ok record =>
      if record.length ≤ n then recordsWithin batches (n - record.length) + 1 else 0

theorem encodeAll_cons_eq_ok_iff {b : Batch} {batches : List Batch} {bs : Bytes} :
    encodeAll (b :: batches) = .ok bs ↔
      ∃ record, encode b = .ok record ∧
        ∃ later, encodeAll batches = .ok later ∧ record ++ later = bs := by
  simp only [encodeAll, Answer.bind_eq_ok_iff, pure, Except.pure, Except.ok.injEq]

/-- A record more at the end of a log is a batch more at the end of the list. -/
theorem encodeAll_concat {batches : List Batch} {b : Batch} {bs record : Bytes}
    (h : encodeAll batches = .ok bs) (hb : encode b = .ok record) :
    encodeAll (batches ++ [b]) = .ok (bs ++ record) := by
  induction batches generalizing bs with
  | nil =>
      cases h
      rw [List.nil_append, encodeAll_cons_eq_ok_iff]
      exact ⟨record, hb, [], rfl, by simp⟩
  | cons b' batches ih =>
      obtain ⟨record', hb', later, hlater, rfl⟩ := encodeAll_cons_eq_ok_iff.mp h
      rw [List.cons_append, encodeAll_cons_eq_ok_iff]
      exact ⟨record', hb', later ++ record, ih hlater, by rw [List.append_assoc]⟩

/-! ## Payloads -/

section Payloads

open Reader

theorem encodeLength_eq_ok_iff {n : Nat} {bs : Bytes} :
    encodeLength n = .ok bs ↔ n < UInt32.size ∧ bs = Bytes.littleEndian 4 n := by
  unfold encodeLength
  by_cases h : n < UInt32.size
  · simp [h, eq_comm]
  · simp [h]

/-- Four digits hold a number below the limit. -/
theorem ofLittleEndian_littleEndian_four {n : Nat} (h : n < UInt32.size) :
    Bytes.ofLittleEndian (Bytes.littleEndian 4 n) = n := by
  rw [Bytes.ofLittleEndian_littleEndian]
  exact Nat.mod_eq_of_lt h

theorem takes_readLength {n : Nat} {bs : Bytes} (h : encodeLength n = .ok bs) :
    readLength.Takes bs n := by
  obtain ⟨hlt, rfl⟩ := encodeLength_eq_ok_iff.mp h
  have htake := (Takes.take (Bytes.littleEndian 4 n)).map Bytes.ofLittleEndian
  rwa [Bytes.length_littleEndian, ofLittleEndian_littleEndian_four hlt] at htake

theorem takes_readField {field bs : Bytes} (h : encodeField field = .ok bs) :
    readField.Takes bs field := by
  obtain ⟨length, hlength, heq⟩ := Answer.bind_eq_ok_iff.mp h
  cases heq
  exact (takes_readLength hlength).bind (Takes.take field)

theorem takes_readEntry {e : Entry} {bs : Bytes} (h : encodeEntry e = .ok bs) :
    readEntry.Takes bs e := by
  obtain ⟨key, hkey, h⟩ := Answer.bind_eq_ok_iff.mp h
  obtain ⟨value, hvalue, heq⟩ := Answer.bind_eq_ok_iff.mp h
  cases heq
  exact (takes_readField hkey).bind ((takes_readField hvalue).bind_nil (Takes.pure e))

/-- Values that are written one after the other are taken one after the other. -/
theorem takes_times_of_mapM {ν : Type} {r : Reader ν} {write : ν → Except StorageError Bytes}
    (hr : ∀ v bs, write v = .ok bs → r.Takes bs v) {vs : List ν} {fields : List Bytes}
    (h : vs.mapM write = .ok fields) : (r.times vs.length).Takes fields.flatten vs := by
  induction vs generalizing fields with
  | nil =>
      rw [List.mapM_nil] at h
      cases h
      exact Takes.pure []
  | cons v vs ih =>
      rw [List.mapM_cons] at h
      obtain ⟨field, hv, h⟩ := Answer.bind_eq_ok_iff.mp h
      obtain ⟨later, hvs, heq⟩ := Answer.bind_eq_ok_iff.mp h
      cases heq
      exact (hr v field hv).bind ((ih hvs).bind_nil (Takes.pure _))

theorem readWhole_of_takes {α : Type} {r : Reader α} {payload : Bytes} {a : α}
    (h : r.Takes payload a) : readWhole r payload = .ok a := by
  unfold readWhole
  rw [h.run_nil]

theorem decodePayload_encodePayload {b : Batch} {payload : Bytes}
    (h : encodePayload b = .ok payload) : decodePayload (typeByte b) payload = .ok b := by
  cases b with
  | put entries =>
      obtain ⟨count, hcount, h⟩ := Answer.bind_eq_ok_iff.mp h
      obtain ⟨fields, hfields, heq⟩ := Answer.bind_eq_ok_iff.mp h
      cases heq
      have hentries := takes_times_of_mapM (fun _ _ => takes_readEntry) hfields
      unfold decodePayload
      rw [takes_readLength hcount fields.flatten]
      simp only [typeByte, if_true, readWhole_of_takes hentries]
      rfl
  | delete keys =>
      obtain ⟨count, hcount, h⟩ := Answer.bind_eq_ok_iff.mp h
      obtain ⟨fields, hfields, heq⟩ := Answer.bind_eq_ok_iff.mp h
      cases heq
      have hkeys := takes_times_of_mapM (fun _ _ => takes_readField) hfields
      have htype : (2 : UInt8) ≠ 1 := by decide
      unfold decodePayload
      rw [takes_readLength hcount fields.flatten]
      simp only [typeByte, if_neg htype, if_true, readWhole_of_takes hkeys]
      rfl

end Payloads

/-! ## Records -/

theorem encode_eq_ok {b : Batch} {record : Bytes} (h : encode b = .ok record) :
    ∃ payload, encodePayload b = .ok payload ∧ payload.length < UInt32.size ∧
      record = sealed (frame (typeByte b) (Bytes.littleEndian 4 payload.length) payload) := by
  obtain ⟨payload, hpayload, h⟩ := Answer.bind_eq_ok_iff.mp h
  obtain ⟨length, hlength, heq⟩ := Answer.bind_eq_ok_iff.mp h
  obtain ⟨hlt, rfl⟩ := encodeLength_eq_ok_iff.mp hlength
  cases heq
  exact ⟨payload, hpayload, hlt, rfl⟩

/-- Whether a batch can be encoded can be computed. -/
theorem exists_encode_eq_ok {b : Batch} (h : (encode b).toOption.isSome = true) :
    ∃ record, encode b = .ok record := by
  obtain ⟨record, hrecord⟩ := Option.isSome_iff_exists.mp h
  exact ⟨record, Answer.toOption_eq_some_iff.mp hrecord⟩

theorem splitFront?_append (front rest : Bytes) :
    Bytes.splitFront? front.length (front ++ rest) = some (front, rest) :=
  Bytes.splitFront?_eq_some_iff.mpr ⟨rfl, rfl⟩

/-- The head of a record, with its four digits written out. -/
private theorem sealed_frame_append (type : UInt8) (length : Nat) (payload rest : Bytes) :
    ∃ l₀ l₁ l₂ l₃, Bytes.littleEndian 4 length = [l₀, l₁, l₂, l₃] ∧
      sealed (frame type (Bytes.littleEndian 4 length) payload) ++ rest =
        0x55 :: 0x4B :: 0x56 :: 0x4C :: type :: l₀ :: l₁ :: l₂ :: l₃ ::
          (payload ++
            (Bytes.littleEndian 4
                (Crc32.checksum (frame type [l₀, l₁, l₂, l₃] payload)).toNat ++ rest)) := by
  refine ⟨_, _, _, _, rfl, ?_⟩
  simp only [sealed, frame, magic, Bytes.littleEndian, List.append_assoc, List.cons_append,
    List.nil_append]

/-- A record is read back, whatever comes after it. -/
theorem decodeFront_append {b : Batch} {record : Bytes} (h : encode b = .ok record)
    (rest : Bytes) : decodeFront (record ++ rest) = .ok (b, rest) := by
  obtain ⟨payload, hpayload, hlt, rfl⟩ := encode_eq_ok h
  obtain ⟨l₀, l₁, l₂, l₃, hlength, heq⟩ :=
    sealed_frame_append (typeByte b) payload.length payload rest
  rw [heq]
  generalize hcrc : Crc32.checksum (frame (typeByte b) [l₀, l₁, l₂, l₃] payload) = crc
  -- The stored length and the stored checksum are read back as they were computed.
  have hvalue : Bytes.ofLittleEndian [l₀, l₁, l₂, l₃] = payload.length := by
    rw [← hlength, ofLittleEndian_littleEndian_four hlt]
  have hstored : UInt32.ofNat (Bytes.ofLittleEndian (Bytes.littleEndian 4 crc.toNat)) = crc := by
    rw [ofLittleEndian_littleEndian_four crc.toNat_lt, UInt32.ofNat_toNat]
  have hfour : (Bytes.littleEndian 4 crc.toNat).length = 4 := Bytes.length_littleEndian 4 _
  have htail := splitFront?_append (Bytes.littleEndian 4 crc.toNat) rest
  rw [hfour] at htail
  unfold decodeFront
  simp only [hvalue, splitFront?_append, htail, hstored, hcrc,
    decodePayload_encodePayload hpayload]
  rfl

/-- A record that is cut off is not read as anything. -/
theorem decodeFront_take_error {b : Batch} {record : Bytes} (h : encode b = .ok record) {n : Nat}
    (hn : n < record.length) :
    decodeFront (record.take n) = .error .truncatedHeader ∨
      decodeFront (record.take n) = .error .truncatedBody := by
  obtain ⟨payload, hpayload, hlt, rfl⟩ := encode_eq_ok h
  obtain ⟨l₀, l₁, l₂, l₃, hlength, heq⟩ :=
    sealed_frame_append (typeByte b) payload.length payload []
  rw [List.append_nil, List.append_nil] at heq
  rw [heq] at hn ⊢
  generalize Crc32.checksum (frame (typeByte b) [l₀, l₁, l₂, l₃] payload) = crc at hn ⊢
  have hvalue : Bytes.ofLittleEndian [l₀, l₁, l₂, l₃] = payload.length := by
    rw [← hlength, ofLittleEndian_littleEndian_four hlt]
  have hfour : (Bytes.littleEndian 4 crc.toNat).length = 4 := Bytes.length_littleEndian 4 _
  -- Either the head is not complete, or something of payload and checksum is missing.
  match n, hn with
  | 0, _ | 1, _ | 2, _ | 3, _ | 4, _ | 5, _ | 6, _ | 7, _ | 8, _ => exact .inl rfl
  | n + 9, hn =>
      right
      simp only [List.length_cons, List.length_append, hfour] at hn
      simp only [List.take_succ_cons]
      unfold decodeFront
      simp only [hvalue]
      split
      · split
        · rfl
        · rename_i found tail hfound
          obtain ⟨hbytes, hlen⟩ := Bytes.splitFront?_eq_some_iff.mp hfound
          split
          · rfl
          · rename_i stored after hstored
            -- There are fewer bytes than the two parts together have.
            obtain ⟨rfl, hlen'⟩ := Bytes.splitFront?_eq_some_iff.mp hstored
            have hcount := congrArg List.length hbytes
            simp only [List.length_take, List.length_append, hfour] at hcount
            omega
      · rename_i hmagic
        exact absurd rfl hmagic

/-! ## Whole logs -/

theorem encode_length_pos {b : Batch} {record : Bytes} (h : encode b = .ok record) :
    0 < record.length := by
  obtain ⟨payload, -, -, rfl⟩ := encode_eq_ok h
  simp [sealed, frame, magic]

theorem scan_nil : scan [] = { batches := [], validLength := 0, damage := none } := by
  rw [scan]

theorem scan_of_error {bs : Bytes} {damage : Damage} (h : decodeFront bs = .error damage)
    (hne : bs ≠ []) : scan bs = { batches := [], validLength := 0, damage := some damage } := by
  cases bs with
  | nil => exact absurd rfl hne
  | cons b bs =>
      rw [scan]
      split
      · rename_i damage' h'
        rw [h] at h'
        cases h'
        rfl
      · rename_i h'
        rw [h] at h'
        cases h'

/-- A scan reads the first record and goes on after it. -/
theorem scan_append {b : Batch} {record : Bytes} (h : encode b = .ok record) (rest : Bytes) :
    scan (record ++ rest) =
      { batches := b :: (scan rest).batches
        validLength := record.length + (scan rest).validLength
        damage := (scan rest).damage } := by
  have hfront := decodeFront_append h rest
  -- The scan knows how long the record was only from what is left after it.
  have hlength : (record ++ rest).length - rest.length = record.length := by simp
  generalize hbs : record ++ rest = bs at hfront hlength ⊢
  cases bs with
  | nil =>
      -- A record is never empty.
      have hpos := encode_length_pos h
      rw [(List.append_eq_nil_iff.mp hbs).1] at hpos
      cases hpos
  | cons b' bs =>
      rw [scan]
      split
      · rename_i damage h'
        rw [hfront] at h'
        cases h'
      · rename_i batch rest' h'
        rw [hfront] at h'
        cases h'
        rw [hlength]

/-- A scan reads the records at the front one by one and goes on after them. -/
theorem scan_append_of_encodeAll {batches : List Batch} {bs : Bytes}
    (h : encodeAll batches = .ok bs) (rest : Bytes) :
    scan (bs ++ rest) =
      { batches := batches ++ (scan rest).batches
        validLength := bs.length + (scan rest).validLength
        damage := (scan rest).damage } := by
  induction batches generalizing bs with
  | nil =>
      cases h
      simp
  | cons b batches ih =>
      obtain ⟨record, hb, later, hlater, rfl⟩ := encodeAll_cons_eq_ok_iff.mp h
      rw [List.append_assoc, scan_append hb, ih hlater, List.length_append, Nat.add_assoc,
        List.cons_append]

/-- A log gives its batches back, and none of it is damaged. -/
theorem scan_encodeAll {batches : List Batch} {bs : Bytes} (h : encodeAll batches = .ok bs) :
    scan bs = { batches, validLength := bs.length, damage := none } := by
  have hscan := scan_append_of_encodeAll h []
  rwa [List.append_nil, scan_nil, List.append_nil] at hscan

/-- The bytes of a log determine its batches. -/
theorem encodeAll_injective {batches batches' : List Batch} {bs : Bytes}
    (h : encodeAll batches = .ok bs) (h' : encodeAll batches' = .ok bs) : batches = batches' := by
  have hscan := scan_encodeAll h
  rw [scan_encodeAll h'] at hscan
  exact (congrArg Scan.batches hscan).symm

/-- The first `n` bytes of a log give the batches back whose records lie wholly within them. What is
left of the next record counts as damage. -/
theorem scan_take_encodeAll {batches : List Batch} {bs : Bytes} (h : encodeAll batches = .ok bs)
    {n : Nat} (hn : n ≤ bs.length) :
    ∃ front damage,
      encodeAll (batches.take (recordsWithin batches n)) = .ok front ∧
        front <+: bs.take n ∧ (damage = none → front = bs.take n) ∧
        scan (bs.take n) =
          { batches := batches.take (recordsWithin batches n)
            validLength := front.length
            damage } := by
  induction batches generalizing bs n with
  | nil =>
      cases h
      exact ⟨[], none, rfl, List.nil_prefix, fun _ => by simp, by simp [scan_nil]⟩
  | cons b batches ih =>
      obtain ⟨record, hb, later, hlater, rfl⟩ := encodeAll_cons_eq_ok_iff.mp h
      rw [recordsWithin, hb]
      by_cases hle : record.length ≤ n
      · -- The first record is there as a whole, and the cut is somewhere after it.
        have htake : (record ++ later).take n = record ++ later.take (n - record.length) := by
          rw [List.take_append, List.take_of_length_le hle]
        have hlen : n - record.length ≤ later.length := by
          rw [List.length_append] at hn
          omega
        obtain ⟨front, damage, hfront, hprefix, hwhole, hscan⟩ := ih hlater hlen
        simp only [hle, if_true, List.take_succ_cons, htake]
        refine ⟨record ++ front, damage, ?_, ?_, ?_, ?_⟩
        · exact encodeAll_cons_eq_ok_iff.mpr ⟨record, hb, front, hfront, rfl⟩
        · exact (List.prefix_append_right_inj record).mpr hprefix
        · intro hnone
          rw [hwhole hnone]
        · rw [scan_append hb, hscan, List.length_append]
      · -- The cut is within the first record, so that nothing of the log is left.
        have hlt : n < record.length := Nat.lt_of_not_le hle
        have htake : (record ++ later).take n = record.take n :=
          List.take_append_of_le_length (Nat.le_of_lt hlt)
        simp only [hle, if_false, List.take_zero, htake]
        by_cases hzero : record.take n = []
        · exact ⟨[], none, rfl, List.nil_prefix, fun _ => hzero.symm, by rw [hzero, scan_nil]; rfl⟩
        · have hdamage : ∃ damage, decodeFront (record.take n) = .error damage := by
            rcases decodeFront_take_error hb hlt with herr | herr
            · exact ⟨_, herr⟩
            · exact ⟨_, herr⟩
          obtain ⟨damage, herr⟩ := hdamage
          refine ⟨[], some damage, rfl, List.nil_prefix, fun hnone => ?_, scan_of_error herr hzero⟩
          cases hnone

/-- All records lie within the whole log. -/
theorem recordsWithin_length {batches : List Batch} {bs : Bytes} (h : encodeAll batches = .ok bs) :
    recordsWithin batches bs.length = batches.length := by
  induction batches generalizing bs with
  | nil => rfl
  | cons b batches ih =>
      obtain ⟨record, hb, later, hlater, rfl⟩ := encodeAll_cons_eq_ok_iff.mp h
      rw [recordsWithin, hb, List.length_append]
      simp only [Nat.le_add_right, if_true, Nat.add_sub_cancel_left, ih hlater, List.length_cons]

end ObjectStore.Log
