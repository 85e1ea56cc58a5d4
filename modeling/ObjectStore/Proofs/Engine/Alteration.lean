import ObjectStore.Proofs.Bytes.Crc32
import ObjectStore.Proofs.Engine.Canonical

/-!
# Altered records are found

Bytes of a record may change after it has been written. As long as its length stands as it was, a
record with another magic is refused at once, and one whose other bytes changed in its type, in four
neighbouring bytes of its payload at most or in its stored checksum does not have the checksum that is
stored in it. A scan stops there: it answers the batches before the record, and none after it.

Main statement: `scan_altered`.
-/

namespace ObjectStore.Log

open Bytes (AgreeOutside)

/-- A part of a record of some length, as its first place and the number of its places. -/
inductive Part (length : Nat) : (first count : Nat) → Prop where
  /-- The magic. -/
  | magic : Part length 0 4
  /-- The type byte. -/
  | type : Part length 4 1
  /-- Four neighbouring bytes of the payload, or fewer. -/
  | payload {first count : Nat} (hfirst : 9 ≤ first) (hcount : count ≤ 4)
      (hlast : first + count + 4 ≤ length) : Part length first count
  /-- The stored checksum. -/
  | checksum : Part length (length - 4) 4

/-- A record has become another byte string, by changes in one part of it. -/
structure Altered (record record' : Bytes) : Prop where
  changed : record' ≠ record
  confined : ∃ first count, Part record.length first count ∧
    AgreeOutside first count record record'

/-! ## One record -/

/-- What has been changed in four neighbouring bytes at most, or in its checksum alone, does not carry
the checksum of what stands before it. -/
theorem checksum_ne_of_agreeOutside {front bs : Bytes} {first count : Nat} (hne : bs ≠ sealed front)
    (hagree : AgreeOutside first count (sealed front) bs)
    (hplace : count ≤ 4 ∧ first + count ≤ front.length ∨ front.length ≤ first) :
    Bytes.ofLittleEndian (bs.drop front.length) ≠
      (Crc32.checksum (bs.take front.length)).toNat := by
  intro hsum
  have htake : (sealed front).take front.length = front := List.take_left
  have hdrop : (sealed front).drop front.length =
      Bytes.littleEndian 4 (Crc32.checksum front).toNat := List.drop_left
  have hsame : bs.take front.length = front := by
    rcases hplace with ⟨hcount, hlast⟩ | hfirst
    · -- The checksum stands as it was, and is that of the changed bytes too.
      have hcut := hagree.take front.length
      rw [htake] at hcut
      rw [hagree.drop_eq hlast, hdrop, ofLittleEndian_littleEndian_four (UInt32.toNat_lt _)] at hsum
      exact Crc32.eq_of_checksum_eq hcut hcount (UInt32.toNat_inj.mp hsum).symm
    · rw [hagree.take_eq hfirst, htake]
  have hlength : (bs.drop front.length).length = 4 := by
    rw [List.length_drop, hagree.length_eq, sealed, List.length_append, Bytes.length_littleEndian,
      Nat.add_sub_cancel_left]
  -- With the same bytes in front, the stored checksum is the one that was written.
  have hstored : bs.drop front.length = Bytes.littleEndian 4 (Crc32.checksum front).toNat := by
    rw [← littleEndian_ofLittleEndian_four hlength, hsum, hsame]
  apply hne
  rw [← List.take_append_drop front.length bs, hsame, hstored, sealed]

/-- Four bytes, one by one. -/
theorem exists_four {bs : Bytes} (h : bs.length = 4) : ∃ b₀ b₁ b₂ b₃, bs = [b₀, b₁, b₂, b₃] := by
  match bs, h with
  | [b₀, b₁, b₂, b₃], _ => exact ⟨b₀, b₁, b₂, b₃, rfl⟩

section Frames

variable {type : UInt8} {digits payload : Bytes} (hfour : digits.length = 4)

include hfour

theorem length_frame : (frame type digits payload).length = 9 + payload.length := by
  simp only [frame, magic, List.length_append, List.length_cons, List.length_nil, hfour]
  omega

/-- A frame is refused with four bytes after it that are not its checksum. -/
theorem decodeFront_of_checksum_ne {stored : Bytes}
    (hvalue : Bytes.ofLittleEndian digits = payload.length) (hstored : stored.length = 4)
    (hne : Bytes.ofLittleEndian stored ≠ (Crc32.checksum (frame type digits payload)).toNat)
    (rest : Bytes) :
    ∃ found computed, decodeFront (frame type digits payload ++ stored ++ rest) =
      .error (.checksumMismatch found computed) := by
  obtain ⟨l₀, l₁, l₂, l₃, rfl⟩ := exists_four hfour
  have hsum : UInt32.ofNat (Bytes.ofLittleEndian stored) ≠
      Crc32.checksum (frame type [l₀, l₁, l₂, l₃] payload) := fun heq => by
    rw [← heq, UInt32.toNat_ofNat_of_lt' (ofLittleEndian_lt_four hstored)] at hne
    exact hne rfl
  have htail := splitFront?_append stored rest
  rw [hstored] at htail
  have hbytes : frame type [l₀, l₁, l₂, l₃] payload ++ stored ++ rest =
      0x55 :: 0x4B :: 0x56 :: 0x4C :: type :: l₀ :: l₁ :: l₂ :: l₃ ::
        (payload ++ (stored ++ rest)) := by
    simp only [frame, magic, List.cons_append, List.nil_append, List.append_assoc]
  refine ⟨UInt32.ofNat (Bytes.ofLittleEndian stored),
    Crc32.checksum (frame type [l₀, l₁, l₂, l₃] payload), ?_⟩
  rw [hbytes]
  unfold decodeFront
  simp only [hvalue, splitFront?_append, htail, if_neg hsum]
  rfl

/-- A record is refused whose head stands there and whose last four bytes are not the checksum of
those before them. -/
theorem decodeFront_of_head {record : Bytes} {n : Nat} (hvalue : Bytes.ofLittleEndian digits = n)
    (hhead : record.take 9 = magic ++ type :: digits) (hlength : record.length = 9 + n + 4)
    (hne : Bytes.ofLittleEndian (record.drop (9 + n)) ≠
      (Crc32.checksum (record.take (9 + n))).toNat) (rest : Bytes) :
    ∃ found computed, decodeFront (record ++ rest) = .error (.checksumMismatch found computed) := by
  have hframe : record.take (9 + n) = frame type digits ((record.drop 9).take n) := by
    rw [List.take_add, hhead, frame, List.append_assoc, List.cons_append]
  have hpayload : ((record.drop 9).take n).length = n := by
    rw [List.length_take, List.length_drop, hlength]
    omega
  have hstored : (record.drop (9 + n)).length = 4 := by
    rw [List.length_drop, hlength, Nat.add_sub_cancel_left]
  rw [hframe] at hne
  rw [← List.take_append_drop (9 + n) record, hframe]
  exact decodeFront_of_checksum_ne hfour (hvalue.trans hpayload.symm) hstored hne rest

end Frames

/-- Nothing is read after another magic. -/
theorem decodeFront_of_magic_ne {front rest : Bytes} (hfour : front.length = 4)
    (hne : front ≠ magic) (hrest : 5 ≤ rest.length) :
    decodeFront (front ++ rest) = .error .badMagic := by
  obtain ⟨m₀, m₁, m₂, m₃, rfl⟩ := exists_four hfour
  match rest, hrest with
  | type :: l₀ :: l₁ :: l₂ :: l₃ :: rest, _ => exact if_neg hne

/-- An altered record is refused, for its magic or for its checksum. -/
theorem decodeFront_altered {b : Batch} {record record' : Bytes} (h : encode b = .ok record)
    (haltered : Altered record record') (rest : Bytes) :
    decodeFront (record' ++ rest) = .error .badMagic ∨
      ∃ found computed,
        decodeFront (record' ++ rest) = .error (.checksumMismatch found computed) := by
  obtain ⟨payload, -, hlt, rfl⟩ := encode_eq_ok h
  have hfour : (Bytes.littleEndian 4 payload.length).length = 4 := Bytes.length_littleEndian 4 _
  have hvalue := ofLittleEndian_littleEndian_four hlt
  generalize Bytes.littleEndian 4 payload.length = digits at haltered hfour hvalue
  generalize typeByte b = type at haltered
  have hfront : (frame type digits payload).length = 9 + payload.length := length_frame hfour
  have hsealed : (sealed (frame type digits payload)).length = 9 + payload.length + 4 := by
    rw [sealed, List.length_append, Bytes.length_littleEndian, hfront]
  obtain ⟨hne, first, count, hpart, hagree⟩ := haltered
  have hlength : record'.length = 9 + payload.length + 4 := by rw [hagree.length_eq, hsealed]
  have hsum := fun hplace => checksum_ne_of_agreeOutside hne hagree hplace
  rw [hfront] at hsum
  rw [hsealed] at hpart
  have hhead : 9 ≤ first → record'.take 9 = magic ++ type :: digits := fun hfirst => by
    rw [hagree.take_eq hfirst, sealed, frame, ← List.cons_append, ← List.append_assoc,
      List.append_assoc _ payload]
    exact List.take_left' (by rw [List.length_append, List.length_cons, hfour]; rfl)
  cases hpart with
  | magic =>
      -- What comes after the magic is the same, so that the magic is not.
      left
      have hdrop := hagree.drop_eq (n := 4) (Nat.le_refl _)
      have hmagic : record'.take 4 ≠ magic := fun heq => by
        apply hne
        rw [← List.take_append_drop 4 record', heq, hdrop]
        rfl
      rw [← List.take_append_drop 4 record', List.append_assoc]
      refine decodeFront_of_magic_ne ?_ hmagic ?_
      · rw [List.length_take, hlength]
        omega
      · rw [List.length_append, List.length_drop, hlength]
        omega
  | type =>
      -- Another type byte stands between the magic and the length.
      right
      have hone : ((record'.drop 4).take 1).length = 1 := by
        rw [List.length_take, List.length_drop, hlength]
        omega
      obtain ⟨type', htype⟩ := List.length_eq_one_iff.mp hone
      have htake : record'.take 4 = magic := hagree.take_eq (Nat.le_refl _)
      have hdrop : record'.drop 5 = digits ++ payload ++ _ := hagree.drop_eq (Nat.le_refl _)
      have hhead' : record'.take 9 = magic ++ type' :: digits := by
        rw [show 9 = 4 + (1 + 4) from rfl, List.take_add, List.take_add, htake, htype,
          List.drop_drop, hdrop, List.append_assoc digits, List.take_left' hfour]
        rfl
      exact decodeFront_of_head hfour hvalue hhead' hlength (hsum (.inl ⟨by decide, by omega⟩)) rest
  | payload hfirst hcount hlast =>
      exact .inr (decodeFront_of_head hfour hvalue (hhead hfirst) hlength
        (hsum (.inl ⟨hcount, by omega⟩)) rest)
  | checksum =>
      exact .inr (decodeFront_of_head hfour hvalue (hhead (by omega)) hlength
        (hsum (.inr (by omega))) rest)

/-! ## Whole logs -/

/-- Bytes of a record of a log have been changed in its magic, in its type, in four neighbouring bytes
of its payload at most or in its checksum: a scan answers the batches before it and what is wrong with
it, and nothing that has been changed or comes later. -/
theorem scan_altered {batches : List Batch} {records : List Bytes}
    (h : batches.mapM encode = .ok records) {k : Nat} (hk : k < records.length) {record' : Bytes}
    (haltered : Altered records[k] record') :
    ∃ damage, scan (records.set k record').flatten =
      { batches := batches.take k
        validLength := (records.take k).flatten.length
        damage := some damage } := by
  induction batches generalizing records k with
  | nil =>
      cases h
      cases hk
  | cons b batches ih =>
      rw [List.mapM_cons] at h
      obtain ⟨record, hrecord, h⟩ := Answer.bind_eq_ok_iff.mp h
      obtain ⟨later, hlater, heq⟩ := Answer.bind_eq_ok_iff.mp h
      cases heq
      cases k with
      | zero =>
          -- The changed record is the first one, and not empty.
          obtain ⟨first, count, -, hagree⟩ := haltered.confined
          have hpos : 0 < record'.length := hagree.length_eq ▸ encode_length_pos hrecord
          have hne : record' ++ later.flatten ≠ [] :=
            List.append_ne_nil_of_left_ne_nil (List.length_pos_iff.mp hpos) _
          rw [List.set_cons_zero, List.flatten_cons]
          rcases decodeFront_altered hrecord haltered later.flatten with herr | ⟨_, _, herr⟩
          · exact ⟨_, scan_of_error herr hne⟩
          · exact ⟨_, scan_of_error herr hne⟩
      | succ k =>
          obtain ⟨damage, hscan⟩ := ih hlater (Nat.lt_of_succ_lt_succ hk) haltered
          refine ⟨damage, ?_⟩
          rw [List.set_cons_succ, List.flatten_cons, scan_append hrecord, hscan, List.take_succ_cons,
            List.take_succ_cons, List.flatten_cons, List.length_append]

theorem scan_altered_two :
    ∃ records damage,
      [Batch.put [⟨[1], [2, 3]⟩], .delete [[1]]].mapM encode = .ok records ∧
        scan (records.modify 1 (List.set · 17 7)).flatten =
          { batches := [.put [⟨[1], [2, 3]⟩]], validLength := 28, damage := some damage } := by
  let first : Bytes :=
    [85, 75, 86, 76, 1, 15, 0, 0, 0, 1, 0, 0, 0, 1, 0, 0, 0, 1, 2, 0, 0, 0, 2, 3, 230, 148, 108, 173]
  let second : Bytes :=
    [85, 75, 86, 76, 2, 9, 0, 0, 0, 1, 0, 0, 0, 1, 0, 0, 0, 1, 5, 67, 34, 208]
  have hencode : [Batch.put [⟨[1], [2, 3]⟩], .delete [[1]]].mapM encode = .ok [first, second] :=
    Answer.toOption_eq_some_iff.mp (by decide +kernel)
  -- The deleted key is another one now.
  have haltered : Altered second (second.set 17 7) :=
    { changed := by decide
      confined := ⟨17, 1, .payload (by decide) (by decide) (by decide), .set second 17 7⟩ }
  obtain ⟨damage, hscan⟩ := scan_altered hencode (k := 1) (by decide) haltered
  exact ⟨[first, second], damage, hencode, hscan⟩

end ObjectStore.Log
