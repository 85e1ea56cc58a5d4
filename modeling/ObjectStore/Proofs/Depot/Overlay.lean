import ObjectStore.Proofs.Depot.History

/-!
# Reading objects that were written one over the other

Objects of one group that are put one after the other leave the metadata of the last one and the latest
row of each record id, and these come by the bytes of the record ids. What is read there is the object
that `History.overlaid` makes of them.

Main statement: `object_of_under`.
-/

namespace ObjectStore

/-- A common front part does not matter for the order of byte strings. -/
theorem Bytes.compare_append_left (front a b : Bytes) :
    compare (front ++ a) (front ++ b) = compare a b := by
  induction front with
  | nil => rfl
  | cons f front ih =>
      have hself : compare f f = .eq := Std.ReflCmp.compare_self
      rw [List.cons_append, List.cons_append, List.compare_cons_cons, hself, ih]
      rfl

namespace Access.History

variable {g : String}

/-- The entries of an object; none if it cannot be stored. -/
def stored (o : DataObject) : List Entry :=
  (entriesOf .cbor o).toOption.getD []

/-- An object of a group that can be stored. -/
def Written (g : String) (o : DataObject) : Prop :=
  o.groupKey? = some g ∧ ∃ es, entriesOf .cbor o = .ok es

theorem stored_of_ok {o : DataObject} {es : List Entry} (h : entriesOf .cbor o = .ok es) :
    stored o = es := by
  rw [stored, h]
  rfl

theorem stored_of_written {o : DataObject} (h : Written g o) :
    ∃ m own,
      o.metadata = some m ∧ stored o = (rowsOf o).map (rowEntry g) ++ [own] ∧
        (∀ row ∈ rowsOf o, Storable row) ∧ own.key = Utf8.encode g ∧
        DataCodec.cbor.decodeMetadata own.value = .ok m := by
  obtain ⟨hgroup, es, hes⟩ := h
  obtain ⟨m, own, hm, -, rfl, hrows, hkey, hvalue⟩ := entriesOf_eq_ok hes
  have hg : m.groupKey = g := by simpa [DataObject.groupKey?, hm] using hgroup
  subst hg
  exact ⟨m, own, hm, stored_of_ok hes, hrows, hkey, hvalue⟩

/-! ## What the entries leave in a table -/

/-- A list of entries of some rows is the list of the entries of a list of such rows. -/
theorem exists_rows {es : List Entry} {rows : List Row}
    (h : ∀ e ∈ es, ∃ row ∈ rows, rowEntry g row = e) :
    ∃ rows' : List Row, es = rows'.map (rowEntry g) ∧ ∀ row ∈ rows', row ∈ rows := by
  induction es with
  | nil => exact ⟨[], rfl, fun row hrow => by cases hrow⟩
  | cons e es ih =>
      obtain ⟨row, hrow, rfl⟩ := h e List.mem_cons_self
      obtain ⟨rows', rfl, hrows⟩ := ih fun e' he' => h e' (List.mem_cons_of_mem _ he')
      exact ⟨row :: rows', rfl, List.forall_mem_cons.mpr ⟨hrow, hrows⟩⟩

section Entries

variable (hg : (ObjectKey.parse? g).isSome) {objects : List DataObject}
  (hobjects : ∀ o ∈ objects, Written g o)

include hg hobjects

/-- Apart from the metadata the entries are those of the rows. -/
theorem filter_stored :
    (objects.flatMap stored).filter (fun e => e.key ≠ Utf8.encode g) =
      (objects.flatMap rowsOf).map (rowEntry g) := by
  induction objects with
  | nil => rfl
  | cons o objects ih =>
      obtain ⟨m, own, -, hstored, -, hkey, -⟩ := stored_of_written (hobjects o List.mem_cons_self)
      have hrest := ih fun o' ho' => hobjects o' (List.mem_cons_of_mem o ho')
      -- The test passes all entries of rows and stops the entry of the metadata.
      have hrows : ((rowsOf o).map (rowEntry g)).filter (fun e => e.key ≠ Utf8.encode g) =
          (rowsOf o).map (rowEntry g) := by
        refine List.filter_eq_self.mpr fun e he => ?_
        obtain ⟨row, -, rfl⟩ := List.mem_map.mp he
        exact decide_eq_true (Key.member_ne_group hg hg)
      rw [List.flatMap_cons, List.filter_append, hrest, hstored, List.filter_append, hrows,
        List.flatMap_cons, List.map_append]
      simp [hkey]

omit hg in
theorem storable_of_mem_rows {row : Row} (hrow : row ∈ objects.flatMap rowsOf) : Storable row := by
  obtain ⟨o, ho, hrow⟩ := List.mem_flatMap.mp hrow
  obtain ⟨m, own, -, -, hrows, -, -⟩ := stored_of_written (hobjects o ho)
  exact hrows row hrow

/-- Under another key than the group key there is the last row with that key. -/
theorem get?_of_ne {k : Bytes} (hk : k ≠ Utf8.encode g) :
    (Table.applyPut ∅ (objects.flatMap stored)).get? k =
      ((objects.flatMap rowsOf).reverse.find? fun row => (rowEntry g row).key = k).map rowValue := by
  -- An entry with this key passes the test for other keys than the group key.
  have hfind : (objects.flatMap stored).reverse.find? (fun e => e.key = k) =
      ((objects.flatMap stored).filter fun e => e.key ≠ Utf8.encode g).reverse.find?
        fun e => e.key = k := by
    rw [← List.filter_reverse, List.find?_filter]
    congr 1
    funext e
    by_cases he : e.key = k
    · simp [he, hk]
    · simp [he]
  rw [Table.get?_applyPut, hfind, filter_stored hg hobjects, ← List.map_reverse, List.find?_map,
    Option.map_map, SortedMap.get?_empty, Option.or_none]
  rfl

theorem get?_member (uid : String) :
    (Table.applyPut ∅ (objects.flatMap stored)).get? (Utf8.encode (Key.member g uid)) =
      ((objects.flatMap rowsOf).reverse.find? fun row => row.1.uid = uid).map rowValue := by
  rw [get?_of_ne hg hobjects (Key.member_ne_group hg hg)]
  congr 2
  funext row
  by_cases huid : row.1.uid = uid
  · simp [huid, rowEntry]
  · have hkey : (rowEntry g row).key ≠ Utf8.encode (Key.member g uid) := fun h =>
      huid (Key.member_injective h)
    simp [huid, hkey]

/-- The entries under other keys than the group key are those of the latest rows. -/
theorem mem_entries_iff {e : Entry} (he : e.key ≠ Utf8.encode g) :
    (Table.applyPut ∅ (objects.flatMap stored)).get? e.key = some e.value ↔
      ∃ row ∈ latest (objects.flatMap rowsOf), rowEntry g row = e := by
  constructor
  · intro hget
    rw [get?_of_ne hg hobjects he] at hget
    obtain ⟨row, hfind, hvalue⟩ := Option.map_eq_some_iff.mp hget
    have hkey : (rowEntry g row).key = e.key := by simpa using List.find?_some hfind
    have hentry : rowEntry g row = e := by
      cases e
      simp only [rowEntry] at hkey hvalue ⊢
      rw [hkey, hvalue]
    refine ⟨row, mem_latest_iff.mpr ?_, hentry⟩
    rw [← hfind]
    congr 1
    funext row'
    by_cases huid : row'.1.uid = row.1.uid
    · simp [huid, rowEntry, ← hkey]
    · have hne : (rowEntry g row').key ≠ e.key := fun h =>
        huid (Key.member_injective (h.trans hkey.symm))
      simp [huid, hne]
  · rintro ⟨row, hrow, rfl⟩
    rw [mem_latest_iff] at hrow
    exact (get?_member hg hobjects row.1.uid).trans (by rw [hrow]; rfl)

/-- In the listing of the table the latest rows come by their ids. -/
theorem exists_rows_of_entries :
    ∃ rows : List Row,
      ((Table.applyPut ∅ (objects.flatMap stored)).entries.map Table.entryOf).filter
          (fun e => e.key ≠ Utf8.encode g) = rows.map (rowEntry g) ∧
        rows.Pairwise (fun a b => compare (Utf8.encode a.1.uid) (Utf8.encode b.1.uid) = .lt) ∧
        rows.Perm (latest (objects.flatMap rowsOf)) := by
  generalize hu : Table.applyPut ∅ (objects.flatMap stored) = u
  have hentries {e : Entry} (he : e.key ≠ Utf8.encode g) :
      e ∈ u.entries.map Table.entryOf ↔
        ∃ row ∈ latest (objects.flatMap rowsOf), rowEntry g row = e := by
    rw [← mem_entries_iff hg hobjects he, hu, SortedMap.get?_eq_some_iff, List.mem_map]
    constructor
    · rintro ⟨e', hmem, rfl⟩
      exact hmem
    · intro hmem
      exact ⟨(e.key, e.value), hmem, rfl⟩
  have hlisted : ∀ e ∈ (u.entries.map Table.entryOf).filter fun e => e.key ≠ Utf8.encode g,
      ∃ row ∈ latest (objects.flatMap rowsOf), rowEntry g row = e := by
    intro e he
    obtain ⟨hmem, hne⟩ := List.mem_filter.mp he
    exact (hentries (by simpa using hne)).mp hmem
  obtain ⟨rows, hrows, hlatest⟩ := exists_rows hlisted
  -- Member keys of one group are in the order of the record ids.
  have hsorted : rows.Pairwise fun a b =>
      compare (Utf8.encode a.1.uid) (Utf8.encode b.1.uid) = .lt := by
    have hkeys : (rows.map (rowEntry g)).Pairwise fun a b => compare a.key b.key = .lt := by
      rw [← hrows]
      exact (List.pairwise_map.mpr u.sorted).filter _
    refine (List.pairwise_map.mp hkeys).imp fun {a b} hab => ?_
    have hslash : compare Key.slash Key.slash = .eq := Std.ReflCmp.compare_self
    simpa [rowEntry, Key.encode_member, Bytes.compare_append_left, hslash] using hab
  refine ⟨rows, hrows, hsorted, ?_⟩
  have hdistinct : rows.Pairwise fun a b => a.1.uid ≠ b.1.uid := by
    refine hsorted.imp fun hlt heq => ?_
    rw [heq] at hlt
    simp at hlt
  have hnodup {l : List Row} (h : l.Pairwise fun a b => a.1.uid ≠ b.1.uid) : l.Nodup := by
    refine h.imp fun {a b} hne heq => hne ?_
    rw [heq]
  rw [List.perm_ext_iff_of_nodup (hnodup hdistinct) (hnodup (latest_pairwise _))]
  intro row
  refine ⟨hlatest row, fun hrow => ?_⟩
  -- The entry of a latest row is listed, and the row that it is listed for has the same id.
  have hne : (rowEntry g row).key ≠ Utf8.encode g := Key.member_ne_group hg hg
  have hmem : rowEntry g row ∈ rows.map (rowEntry g) := by
    rw [← hrows]
    exact List.mem_filter.mpr ⟨(hentries hne).mpr ⟨row, hrow, rfl⟩, by simpa using hne⟩
  obtain ⟨row', hrow', heq⟩ := List.mem_map.mp hmem
  have huid : row'.1.uid = row.1.uid := Key.member_injective (congrArg Entry.key heq)
  rw [← eq_of_uid_eq (latest_pairwise _) (hlatest row' hrow') hrow huid]
  exact hrow'

end Entries

/-! ## Gathering -/

/-- A row as it is read: the position as it was written, and the record. -/
def memberOf (row : Row) : UInt32 × Record :=
  (UInt32.ofNat row.2, row.1)

/-- What is gathered from entries that can all be read. -/
theorem gather_of_decoded {codec : DataCodec} {group : Bytes} {m : Metadata} {es : List Entry}
    {members : List (UInt32 × Record)}
    (hgroup : ∀ e ∈ es, e.key = group → codec.decodeMetadata e.value = .ok m)
    (hmembers : (es.filter fun e => e.key ≠ group).map (fun e => codec.decodeRecord e.value) =
      members.map .ok) :
    gather codec group es =
      { metadata := if es.any fun e => e.key = group then some m else none
        members
        failure := none } := by
  induction es generalizing members with
  | nil =>
      rw [List.filter_nil, List.map_nil, eq_comm, List.map_eq_nil_iff] at hmembers
      subst hmembers
      rfl
  | cons e es ih =>
      have hgroup' : ∀ e' ∈ es, e'.key = group → codec.decodeMetadata e'.value = .ok m :=
        fun e' he' => hgroup e' (List.mem_cons_of_mem e he')
      by_cases hkey : e.key = group
      · rw [List.filter_cons_of_neg (by simpa using hkey)] at hmembers
        -- Later metadata goes before this one, but it is the same.
        rw [gather, if_pos hkey, hgroup e List.mem_cons_self hkey, ih hgroup' hmembers]
        simp only [List.any_cons, hkey, decide_true, Bool.true_or, if_true]
        split <;> rfl
      · rw [List.filter_cons_of_pos (by simpa using hkey), List.map_cons] at hmembers
        obtain ⟨member, members, rfl, hmember, hrest⟩ := List.map_eq_cons_iff.mp hmembers.symm
        rw [gather, if_neg hkey, ← hmember, ih hgroup' hrest.symm]
        simp only [List.any_cons, hkey, decide_false, Bool.false_or]

/-- What is gathered from the entries of rows that can be stored. -/
theorem gather_eq {m : Metadata} {es : List Entry} {rows : List Row}
    (hgroup : ∀ e ∈ es, e.key = Utf8.encode g → DataCodec.cbor.decodeMetadata e.value = .ok m)
    (hrows : es.filter (fun e => e.key ≠ Utf8.encode g) = rows.map (rowEntry g))
    (hstorable : ∀ row ∈ rows, Storable row) :
    gather .cbor (Utf8.encode g) es =
      { metadata := if es.any fun e => e.key = Utf8.encode g then some m else none
        members := rows.map memberOf
        failure := none } := by
  refine gather_of_decoded hgroup ?_
  rw [hrows, List.map_map, List.map_map]
  exact List.map_congr_left fun row hrow => (hstorable row hrow).decoded

/-- Members that were read are in the order of their rows. -/
theorem mergeSort_memberOf {rows : List Row} (hstorable : ∀ row ∈ rows, Storable row) :
    ((rows.map memberOf).mergeSort fun a b => a.1 ≤ b.1).map (·.2) =
      (rows.mergeSort positionLe).map (·.1) := by
  have hle : ∀ a ∈ rows, ∀ b ∈ rows,
      positionLe a b = decide ((memberOf a).1 ≤ (memberOf b).1) := by
    intro a ha b hb
    have ha' := (hstorable a ha).position
    have hb' := (hstorable b hb).position
    simp only [positionLe, memberOf, UInt32.le_iff_toNat_le, UInt32.toNat_ofNat_of_lt' ha',
      UInt32.toNat_ofNat_of_lt' hb']
  -- Positions fit, so that they are in the same order as numbers.
  rw [← List.map_mergeSort hle, List.map_map]
  rfl

/-- The metadata that lies on top is that of the last object. -/
theorem get?_group (objects : List DataObject) {last : DataObject} {own : Entry}
    (hstored : stored last = (rowsOf last).map (rowEntry g) ++ [own])
    (hkey : own.key = Utf8.encode g) :
    (Table.applyPut ∅ ((objects ++ [last]).flatMap stored)).get? (Utf8.encode g) =
      some own.value := by
  rw [Table.get?_applyPut, List.flatMap_append, List.flatMap_singleton, hstored,
    ← List.append_assoc, List.reverse_append]
  simp [hkey]

/-- A table where the objects of a group lie one over the other holds the object that they make. -/
theorem object_of_under (hg : (ObjectKey.parse? g).isSome) {objects : List DataObject}
    (hobjects : ∀ o ∈ objects, Written g o) {t : Table}
    (ht : t.under g = Table.applyPut ∅ (objects.flatMap stored)) :
    t.object .cbor g = .ok (overlaid objects) := by
  suffices hgathered : (t.gathered .cbor g).failure = none ∧
      (t.gathered .cbor g).object = overlaid objects by
    rw [Table.object, hgathered.1, hgathered.2]
  rw [Table.gathered_eq_under, ht]
  rcases List.eq_nil_or_concat objects with rfl | ⟨before, last, rfl⟩
  -- Nothing was written, so that there is neither metadata nor a record.
  · have hentries : (Table.applyPut ∅ (([] : List DataObject).flatMap stored)).entries = [] := rfl
    rw [hentries]
    simp [gather, Gathered.object, overlaid, latest]
  obtain ⟨rows, hrows, hsorted, hperm⟩ := exists_rows_of_entries hg hobjects
  have hstorable : ∀ row ∈ rows, Storable row := fun row hrow =>
    storable_of_mem_rows hobjects (mem_of_mem_latest (hperm.subset hrow))
  obtain ⟨m, own, hm, hstored, -, hkey, hvalue⟩ :=
    stored_of_written (hobjects last (by simp))
  have hget := get?_group before hstored hkey
  rw [← List.concat_eq_append] at hget
  generalize Table.applyPut ∅ ((before.concat last).flatMap stored) = u at hrows hget
  -- The group key is listed, and only with the metadata of the last object.
  have hgroup : ∀ e ∈ u.entries.map Table.entryOf, e.key = Utf8.encode g →
      DataCodec.cbor.decodeMetadata e.value = .ok m := by
    intro e he hegroup
    obtain ⟨e', hmem, rfl⟩ := List.mem_map.mp he
    have hget' := SortedMap.get?_eq_some_iff.mpr hmem
    rw [show e'.1 = Utf8.encode g from hegroup, hget] at hget'
    rw [Table.value_entryOf, ← Option.some.inj hget']
    exact hvalue
  have hany : (u.entries.map Table.entryOf).any (fun e => e.key = Utf8.encode g) = true := by
    refine List.any_eq_true.mpr ⟨Table.entryOf (Utf8.encode g, own.value), ?_, by simp⟩
    exact List.mem_map_of_mem (SortedMap.get?_eq_some_iff.mp hget)
  -- All entries can be read, and the rows come by their ids.
  rw [gather_eq hgroup hrows hstorable, hany]
  refine ⟨rfl, ?_⟩
  unfold Gathered.object overlaid
  rw [mergeSort_memberOf hstorable, mergeSort_position_eq hsorted hperm]
  simp [hm]

end Access.History

end ObjectStore
