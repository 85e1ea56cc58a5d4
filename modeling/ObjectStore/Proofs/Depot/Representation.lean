import ObjectStore.Proofs.Depot.Entries

/-!
# Tables of whole objects

A table represents objects if every key in it is a group key or a member key, every value can be read
back as what its key says, and no member is there without its group. Everything that is done with
objects keeps it that way, also a delete of a text that is no group key at all: such a text matches a
member wherever it matches the group.

Main statements: `closedUnderAccess_represented` and `Represented.overlay`.
-/

namespace ObjectStore

namespace Table

/-- What a key and a value stand for in a table of whole objects. -/
inductive Represents (t : Table) : Bytes → Bytes → Prop where
  /-- The metadata of an object under its group key. -/
  | group {g : String} {value : Bytes} {m : Metadata} :
      (ObjectKey.parse? g).isSome →
      DataCodec.cbor.decodeMetadata value = .ok m → m.groupKey = g →
      Represents t (Utf8.encode g) value
  /-- A record under its member key, next to the metadata of its object. -/
  | member {g uid : String} {value : Bytes} {position : UInt32} {r : Record} :
      (ObjectKey.parse? g).isSome → Key.checkUid uid = .ok () →
      DataCodec.cbor.decodeRecord value = .ok (position, r) → r.uid = uid →
      t.contains (Utf8.encode g) = true →
      Represents t (Utf8.encode (Key.member g uid)) value

/-- Every key in the table is a group key or a member key with the value that it should have. -/
def Represented (t : Table) : Prop :=
  ∀ k v, t.get? k = some v → t.Represents k v

theorem represented_empty : Represented ∅ := by
  intro k v h
  cases h

/-- What stands for something goes on doing so where the group key of a member is still there. -/
theorem Represents.mono {t u : Table} {k v : Bytes} (h : t.Represents k v)
    (hgroup : ∀ g, Key.belongsTo k g = true → t.contains (Utf8.encode g) = true →
      u.contains (Utf8.encode g) = true) : u.Represents k v := by
  cases h with
  | group hg hdecode hkey => exact .group hg hdecode hkey
  | @member g uid _ _ _ hg huid hdecode hr hcontains =>
      exact .member hg huid hdecode hr (hgroup g (Key.belongsTo_member g uid) hcontains)

/-- What stands for something is below the key scheme. -/
theorem Represents.startsWith {t : Table} {k v : Bytes} (h : t.Represents k v) :
    k.startsWith (Utf8.encode keyScheme) = true := by
  rw [Bytes.startsWith_iff]
  cases h with
  | group hg => exact Key.keyScheme_isPrefix_of_parse? hg
  | member hg =>
      rw [Key.encode_member]
      exact (Key.keyScheme_isPrefix_of_parse? hg).trans (List.prefix_append _ _)

/-! ## Changes -/

theorem Represented.put {t : Table} (h : t.Represented) {o : DataObject} {es : List Entry}
    (hes : Access.entriesOf .cbor o = .ok es) : (t.applyPut es).Represented := by
  obtain ⟨m, own, -, hgroup, rfl, hrows, hkey, hvalue⟩ := Access.entriesOf_eq_ok hes
  intro k v hget
  rcases of_get?_applyPut hget with ⟨e, he, rfl, rfl⟩ | hold
  · rcases List.mem_append.mp he with he | he
    · obtain ⟨row, hrow, rfl⟩ := List.mem_map.mp he
      have hstorable := hrows row hrow
      -- The metadata comes in the same batch as the records.
      refine .member hgroup hstorable.uid hstorable.decoded rfl ?_
      exact (contains_applyPut _ _ _).mpr
        (.inl ⟨own, List.mem_append_right _ List.mem_cons_self, hkey⟩)
    · rw [List.mem_singleton.mp he, hkey]
      exact .group hgroup hvalue rfl
  · refine (h k v hold).mono fun g _ hcontains => ?_
    exact (contains_applyPut _ _ _).mpr (.inr hcontains)

/-- To put everything from one table into another keeps the objects of both whole. -/
theorem Represented.overlay {t u : Table} (ht : t.Represented) (hu : u.Represented) :
    (t.applyPut (u.entries.map entryOf)).Represented := by
  intro k v hget
  rcases of_get?_applyPut hget with ⟨e, he, rfl, rfl⟩ | hold
  · obtain ⟨e, hmem, rfl⟩ := List.mem_map.mp he
    refine (hu _ _ (SortedMap.get?_eq_some_iff.mpr hmem)).mono fun g _ hcontains => ?_
    -- The group key of a member is in the same table as the member, so that it is put too.
    obtain ⟨v', hv'⟩ := Option.isSome_iff_exists.mp hcontains
    have hgroup := List.mem_map_of_mem (f := entryOf) (SortedMap.get?_eq_some_iff.mp hv')
    exact (contains_applyPut _ _ _).mpr (.inl ⟨_, hgroup, rfl⟩)
  · refine (ht k v hold).mono fun g _ hcontains => ?_
    exact (contains_applyPut _ _ _).mpr (.inr hcontains)

/-- Whatever the key text, what is left are whole objects. -/
theorem Represented.without {t : Table} (h : t.Represented) (key : String) :
    (t.without key).Represented := by
  intro k v hget
  rw [Table.without, SortedMap.get?_filter, Option.filter_eq_some_iff] at hget
  obtain ⟨hold, hkept⟩ := hget
  refine (h k v hold).mono fun g hbelongs hcontains => ?_
  -- If the group key went, all that belongs to the group went with it.
  have hstays : Key.belongsTo (Utf8.encode g) key = false := by
    rw [← Bool.not_eq_true]
    intro hgone
    rw [Key.belongsTo_trans hbelongs hgone] at hkept
    cases hkept
  obtain ⟨v', hv'⟩ := Option.isSome_iff_exists.mp hcontains
  simp [Table.without, SortedMap.contains, SortedMap.get?_filter, hv', hstays, Option.filter]

/-- Nothing is outside of the key scheme. -/
theorem Represented.foreign {t : Table} (h : t.Represented) : t.foreign.Represented := by
  intro k v hget
  rw [Table.foreign, SortedMap.get?_filter, Option.filter_eq_some_iff] at hget
  rw [(h k v hget.1).startsWith] at hget
  cases hget.2

/-- The operations on objects lead from tables of whole objects to such tables. -/
theorem closedUnderAccess_represented : Access.ClosedUnderAccess .cbor Represented where
  put h hes := h.put hes
  delete key h := h.without key
  clear h := h.foreign

end Table

end ObjectStore
