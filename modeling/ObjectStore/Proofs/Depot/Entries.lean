import ObjectStore.Proofs.Depot.Access
import ObjectStore.Proofs.Object.Codec

/-!
# The entries of an object

An object that can be stored is one entry for each of its rows, a row being a record with its position,
and one entry for its metadata.

Main statement: `entriesOf_eq_ok`.
-/

namespace ObjectStore.Access

/-- A record with its position in an object. -/
abbrev Row := Record × Nat

/-- The rows of an object, in order. -/
def rowsOf (o : DataObject) : List Row :=
  o.records.zipIdx

/-- The value that is stored for a row. -/
def rowValue (row : Row) : Bytes :=
  (DataCodec.cbor.encodeRecord (UInt32.ofNat row.2) row.1).toOption.getD []

/-- The entry of a row in a group. -/
def rowEntry (group : String) (row : Row) : Entry where
  key := Utf8.encode (Key.member group row.1.uid)
  value := rowValue row

/-- The row can be stored: its record id passes, its position fits, and the value can be read back. -/
structure Storable (row : Row) : Prop where
  uid : Key.checkUid row.1.uid = .ok ()
  position : row.2 < UInt32.size
  decoded : DataCodec.cbor.decodeRecord (rowValue row) = .ok (UInt32.ofNat row.2, row.1)

theorem memberEntry_eq_ok {group : String} {position : Nat} {record : Record} {e : Entry}
    (h : memberEntry .cbor group position record = .ok e) :
    e = rowEntry group (record, position) ∧ Storable (record, position) := by
  obtain ⟨_, huid, h⟩ := Answer.bind_eq_ok_iff.mp h
  rw [Answer.mapError_eq_ok_iff] at huid
  split at h
  · rename_i hposition
    split at h
    · cases h
    · rename_i value hvalue
      cases h
      -- The value of the row is the one that was encoded, and so it can be decoded.
      have hrow : rowValue (record, position) = value := by
        simp [rowValue, hvalue, Except.toOption]
      refine ⟨by rw [rowEntry, hrow], huid, hposition, ?_⟩
      rw [hrow]
      exact DataCodec.decodeRecord_of_encodeRecord hvalue
  · cases h

theorem memberEntries_eq_ok {group : String} {position : Nat} {records : List Record}
    {es : List Entry} (h : memberEntries .cbor group position records = .ok es) :
    es = (records.zipIdx position).map (rowEntry group) ∧
      ∀ row ∈ records.zipIdx position, Storable row := by
  -- Positions go up from record to record, so that the induction is over all of them.
  induction records generalizing position es with
  | nil =>
      cases h
      exact ⟨rfl, fun row hrow => by cases hrow⟩
  | cons record records ih =>
      obtain ⟨e, he, h⟩ := Answer.bind_eq_ok_iff.mp h
      obtain ⟨later, hlater, h⟩ := Answer.bind_eq_ok_iff.mp h
      cases h
      obtain ⟨rfl, hstorable⟩ := memberEntry_eq_ok he
      obtain ⟨rfl, hrows⟩ := ih hlater
      refine ⟨rfl, fun row hrow => ?_⟩
      rcases List.mem_cons.mp hrow with rfl | hrow
      · exact hstorable
      · exact hrows row hrow

theorem metadataEntry_eq_ok {m : Metadata} {e : Entry} (h : metadataEntry .cbor m = .ok e) :
    e.key = Utf8.encode m.groupKey ∧ DataCodec.cbor.decodeMetadata e.value = .ok m := by
  unfold metadataEntry at h
  split at h
  · cases h
  · rename_i value hvalue
    cases h
    exact ⟨rfl, DataCodec.decodeMetadata_of_encodeMetadata hvalue⟩

/-- What an object that can be stored is stored as. -/
theorem entriesOf_eq_ok {o : DataObject} {es : List Entry} (h : entriesOf .cbor o = .ok es) :
    ∃ m own,
      o.metadata = some m ∧ (ObjectKey.parse? m.groupKey).isSome ∧
        es = (rowsOf o).map (rowEntry m.groupKey) ++ [own] ∧
        (∀ row ∈ rowsOf o, Storable row) ∧
        own.key = Utf8.encode m.groupKey ∧
        DataCodec.cbor.decodeMetadata own.value = .ok m := by
  -- Every check on the way has passed: metadata, group key, records, and the value of the metadata.
  obtain ⟨m, hm, h⟩ := Answer.bind_eq_ok_iff.mp h
  obtain ⟨_, hgroup, h⟩ := Answer.bind_eq_ok_iff.mp h
  obtain ⟨members, hmembers, h⟩ := Answer.bind_eq_ok_iff.mp h
  obtain ⟨own, hown, h⟩ := Answer.bind_eq_ok_iff.mp h
  cases h
  rw [Answer.mapError_eq_ok_iff, Key.checkGroup_eq_ok_iff] at hgroup
  obtain ⟨rfl, hrows⟩ := memberEntries_eq_ok hmembers
  obtain ⟨hkey, hvalue⟩ := metadataEntry_eq_ok hown
  refine ⟨m, own, ?_, hgroup, rfl, hrows, hkey, hvalue⟩
  unfold requireMetadata at hm
  split at hm
  · rename_i hsome
    cases hm
    exact hsome
  · cases hm

/-! ## Keys -/

section Keys

variable {codec : DataCodec}

theorem key_of_memberEntry {group : String} {position : Nat} {record : Record} {e : Entry}
    (h : memberEntry codec group position record = .ok e) :
    e.key = Utf8.encode (Key.member group record.uid) := by
  obtain ⟨_, -, h⟩ := Answer.bind_eq_ok_iff.mp h
  split at h
  · split at h
    · cases h
    · cases h
      rfl
  · cases h

theorem belongsTo_of_mem_memberEntries {group : String} {position : Nat} {records : List Record}
    {es : List Entry} (h : memberEntries codec group position records = .ok es) :
    ∀ e ∈ es, Key.belongsTo e.key group = true := by
  induction records generalizing position es with
  | nil =>
      cases h
      intro e he
      cases he
  | cons record records ih =>
      obtain ⟨own, hown, h⟩ := Answer.bind_eq_ok_iff.mp h
      obtain ⟨later, hlater, h⟩ := Answer.bind_eq_ok_iff.mp h
      cases h
      intro e he
      rcases List.mem_cons.mp he with rfl | he
      · rw [key_of_memberEntry hown]
        exact Key.belongsTo_member _ _
      · exact ih hlater e he

/-- All entries of an object belong to its group, whatever the codec makes of the values. -/
theorem belongsTo_of_mem_entriesOf {o : DataObject} {es : List Entry} {m : Metadata}
    (h : entriesOf codec o = .ok es) (hm : o.metadata = some m) :
    ∀ e ∈ es, Key.belongsTo e.key m.groupKey = true := by
  obtain ⟨m', hm', h⟩ := Answer.bind_eq_ok_iff.mp h
  obtain ⟨_, -, h⟩ := Answer.bind_eq_ok_iff.mp h
  obtain ⟨members, hmembers, h⟩ := Answer.bind_eq_ok_iff.mp h
  obtain ⟨own, hown, h⟩ := Answer.bind_eq_ok_iff.mp h
  cases h
  rw [requireMetadata, hm] at hm'
  cases hm'
  intro e he
  rcases List.mem_append.mp he with he | he
  · exact belongsTo_of_mem_memberEntries hmembers e he
  · rw [List.mem_singleton.mp he]
    unfold metadataEntry at hown
    split at hown
    · cases hown
    · cases hown
      exact Key.belongsTo_self _

end Keys

end ObjectStore.Access
