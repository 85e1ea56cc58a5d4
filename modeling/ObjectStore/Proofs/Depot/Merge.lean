import ObjectStore.Proofs.Depot.Refinement
import ObjectStore.Proofs.Depot.Representation

/-!
# One table put over another

A push puts everything that one table holds over another table. Entries go over entries, and an object
is many of them: where both tables hold an object under a group key, the metadata and all records of the
one on top are found afterwards, and of the other one the records whose ids the one on top does not have.

Main statement: `merged_of_overlay`.
-/

namespace ObjectStore

/-! ## Objects put over objects -/

namespace DataObject

variable {mine theirs after : DataObject}

/-- The records whose ids another object does not have. -/
def others (theirs mine : DataObject) : List Record :=
  theirs.records.filter fun r => r.uid ∉ mine.records.map Record.uid

/-- The metadata of one object, all of its records, and between them the records of another object whose
ids it does not have, each in their order. -/
structure Merged (mine theirs after : DataObject) : Prop where
  metadata : after.metadata = mine.metadata
  records : after.records.Perm (mine.records ++ theirs.others mine)
  mine_sublist : mine.records.Sublist after.records
  others_sublist : (theirs.others mine).Sublist after.records

/-- Where the other object has no other ids nothing of it is left. -/
theorem Merged.eq_of_others_eq_nil (h : Merged mine theirs after) (hnone : theirs.others mine = []) :
    after = mine := by
  have hperm := h.records
  rw [hnone, List.append_nil] at hperm
  have hrecords := h.mine_sublist.eq_of_length hperm.length_eq.symm
  have hmetadata := h.metadata
  cases after
  cases mine
  simp_all

end DataObject

namespace Table

open Access Access.History

/-! ## What is found in both tables -/

/-- All entries of one table put over another table. -/
def overlay (t u : Table) : Table :=
  t.applyPut (u.entries.map entryOf)

/-- The table on top answers first. -/
theorem get?_overlay (t u : Table) (k : Bytes) : (t.overlay u).get? k = (u.get? k).or (t.get? k) := by
  have hfind : ((u.entries.map entryOf).reverse.find? fun e => e.key = k).map Entry.value =
      u.get? k := by
    cases hget : u.get? k with
    | none =>
        rw [Option.map_eq_none_iff, List.find?_eq_none]
        intro e he hkey
        obtain ⟨e', hmem, rfl⟩ := List.mem_map.mp (List.mem_reverse.mp he)
        have hsome := SortedMap.get?_eq_some_iff.mpr hmem
        rw [show e'.1 = k from of_decide_eq_true hkey, hget] at hsome
        cases hsome
    | some v =>
        -- The entry is there, and no other entry has its key.
        have hmem := List.mem_map_of_mem (f := entryOf) (SortedMap.get?_eq_some_iff.mp hget)
        have hsome : ((u.entries.map entryOf).reverse.find? fun e => e.key = k).isSome := by
          rw [List.find?_isSome]
          exact ⟨_, List.mem_reverse.mpr hmem, by simp⟩
        obtain ⟨e, he⟩ := Option.isSome_iff_exists.mp hsome
        obtain ⟨e', hmem', rfl⟩ :=
          List.mem_map.mp (List.mem_reverse.mp (List.mem_of_find?_eq_some he))
        have hfound := List.find?_some he
        have hkey : e'.1 = k := of_decide_eq_true hfound
        have hget' := SortedMap.get?_eq_some_iff.mpr hmem'
        rw [hkey, hget] at hget'
        rw [he, Option.map_some, value_entryOf, hget']
  rw [overlay, get?_applyPut, hfind]

/-- To put the same over it once more changes nothing. -/
theorem overlay_overlay (t u : Table) : (t.overlay u).overlay u = t.overlay u := by
  apply SortedMap.ext_get?
  intro k
  rw [get?_overlay, get?_overlay]
  cases u.get? k <;> simp

theorem overlay_self (t : Table) : t.overlay t = t := by
  apply SortedMap.ext_get?
  intro k
  rw [get?_overlay]
  cases t.get? k <;> simp

/-! ## The rows of a group -/

section Rows

variable {t u : Table} {g : String}

/-- A row is stored in a group: under its member key there is a value that is read as the row. -/
def Stores (t : Table) (g : String) (row : Row) : Prop :=
  ∃ value position, t.get? (Utf8.encode (Key.member g row.1.uid)) = some value ∧
    DataCodec.cbor.decodeRecord value = .ok (position, row.1) ∧ position.toNat = row.2

/-- The metadata that is stored of a group. -/
def metadataOf (g : String) (t : Table) : Option Metadata :=
  (t.get? (Utf8.encode g)).bind fun value => (DataCodec.cbor.decodeMetadata value).toOption

/-- A member that was read, as a row. -/
def rowOf (member : UInt32 × Record) : Row :=
  (member.2, member.1.toNat)

/-- What lies under a group key of a table of whole objects is the metadata or a record. -/
theorem Represented.cases_of_under (ht : t.Represented) (hg : (ObjectKey.parse? g).isSome)
    {k v : Bytes} (hget : (t.under g).get? k = some v) :
    (k = Utf8.encode g ∧ ∃ m, DataCodec.cbor.decodeMetadata v = .ok m) ∨
      ∃ position r, k = Utf8.encode (Key.member g r.uid) ∧
        DataCodec.cbor.decodeRecord v = .ok (position, r) := by
  rw [get?_under] at hget
  split at hget
  · rename_i hbelongs
    cases ht k v hget with
    | @group g' _ m hg' hdecode hkey =>
        have hsame := Key.eq_of_belongsTo hg' hg (Key.belongsTo_self g') hbelongs
        exact .inl ⟨by rw [hsame], m, hdecode⟩
    | @member g' uid _ position r hg' huid hdecode hr hcontains =>
        have hsame := Key.eq_of_belongsTo hg' hg (Key.belongsTo_member g' uid) hbelongs
        exact .inr ⟨position, r, by rw [hsame, hr], hdecode⟩
  · cases hget

theorem nodup_of_ids {rows : List Row}
    (h : rows.Pairwise fun a b => compare (Utf8.encode a.1.uid) (Utf8.encode b.1.uid) = .lt) :
    rows.Nodup := by
  refine h.imp fun {a b} hlt heq => ?_
  rw [heq] at hlt
  simp at hlt

/-- Members that were read are in the order of their rows. -/
theorem mergeSort_rowOf (members : List (UInt32 × Record)) :
    (members.mergeSort fun a b => a.1 ≤ b.1).map (·.2) =
      ((members.map rowOf).mergeSort positionLe).map Prod.fst := by
  have hle : ∀ a ∈ members, ∀ b ∈ members,
      decide (a.1 ≤ b.1) = positionLe (rowOf a) (rowOf b) := by
    intro a _ b _
    simp only [positionLe, rowOf, UInt32.le_iff_toNat_le]
    rfl
  rw [← List.map_mergeSort hle, List.map_map]
  rfl

section Entries

variable {es : List Entry} (hes : ∀ e, e ∈ es ↔ (t.under g).get? e.key = some e.value)

include hes

theorem metadata_of_entries (ht : t.Represented) (hg : (ObjectKey.parse? g).isSome) :
    ∃ m, (∀ e ∈ es, e.key = Utf8.encode g → DataCodec.cbor.decodeMetadata e.value = .ok m) ∧
      (if es.any fun e => e.key = Utf8.encode g then some m else none) = t.metadataOf g := by
  have hself : (t.under g).get? (Utf8.encode g) = t.get? (Utf8.encode g) := by
    rw [get?_under, if_pos (Key.belongsTo_self g)]
  have hgroup {e : Entry} (he : e ∈ es) (hkey : e.key = Utf8.encode g) :
      t.get? (Utf8.encode g) = some e.value := by
    rw [← hself, ← hkey]
    exact (hes e).mp he
  unfold metadataOf
  cases hget : t.get? (Utf8.encode g) with
  | none =>
      have hnone : ∀ e ∈ es, e.key ≠ Utf8.encode g := by
        intro e he hkey
        rw [hgroup he hkey] at hget
        cases hget
      refine ⟨{}, fun e he hkey => absurd hkey (hnone e he), ?_⟩
      rw [if_neg]
      · rfl
      · simpa using hnone
  | some v =>
      obtain ⟨-, m, hm⟩ | ⟨position, r, hkey, -⟩ := ht.cases_of_under hg (hself.trans hget)
      · refine ⟨m, fun e he hkey => ?_, ?_⟩
        · have hvalue := hgroup he hkey
          rw [hget, Option.some.injEq] at hvalue
          rw [← hvalue]
          exact hm
        · have hmem : { key := Utf8.encode g, value := v } ∈ es := (hes _).mpr (hself.trans hget)
          rw [if_pos (List.any_eq_true.mpr ⟨_, hmem, by simp⟩)]
          simp [hm, Except.toOption]
      · exact absurd hkey.symm (Key.member_ne_group hg hg)

end Entries

/-- In a table of whole objects every group can be read, as the metadata and the rows that are stored of
it. The rows come by their ids. -/
theorem Represented.exists_rows (ht : t.Represented) (hg : (ObjectKey.parse? g).isSome) :
    ∃ rows : List Row,
      t.object .cbor g =
        .ok { metadata := t.metadataOf g, records := (rows.mergeSort rowLe).map Prod.fst } ∧
      rows.Pairwise (fun a b => compare (Utf8.encode a.1.uid) (Utf8.encode b.1.uid) = .lt) ∧
      ∀ row, row ∈ rows ↔ t.Stores g row := by
  have hes (e : Entry) : e ∈ (t.under g).entries.map entryOf ↔
      (t.under g).get? e.key = some e.value := by
    rw [SortedMap.get?_eq_some_iff, List.mem_map]
    constructor
    · rintro ⟨e', hmem, rfl⟩
      exact hmem
    · intro hmem
      exact ⟨(e.key, e.value), hmem, rfl⟩
  have hsorted : ((t.under g).entries.map entryOf).Pairwise
      fun a b => compare a.key b.key = .lt := List.pairwise_map.mpr (t.under g).sorted
  rw [object, gathered_eq_under]
  generalize (t.under g).entries.map entryOf = es at hes hsorted
  obtain ⟨m, hm, hmetadata⟩ := metadata_of_entries hes ht hg
  -- Apart from the metadata there are records, each under its member key.
  have hrecord {e : Entry} (he : e ∈ es.filter fun e => e.key ≠ Utf8.encode g) :
      ∃ position r, e.key = Utf8.encode (Key.member g r.uid) ∧
        DataCodec.cbor.decodeRecord e.value = .ok (position, r) := by
    obtain ⟨hmem, hne⟩ := List.mem_filter.mp he
    rcases ht.cases_of_under hg ((hes e).mp hmem) with ⟨hkey, -⟩ | hrecord
    · exact absurd hkey (by simpa using hne)
    · exact hrecord
  have hmembers := Answer.map_eq_map_ok (f := fun e : Entry => DataCodec.cbor.decodeRecord e.value)
    (l := es.filter fun e => e.key ≠ Utf8.encode g) fun e he => by
      obtain ⟨position, r, -, hdecode⟩ := hrecord he
      exact ⟨(position, r), hdecode⟩
  have hdecoded := gather_of_decoded hm hmembers
  have hunder (r : Record) : (t.under g).get? (Utf8.encode (Key.member g r.uid)) =
      t.get? (Utf8.encode (Key.member g r.uid)) := by
    rw [get?_under, if_pos (Key.belongsTo_member g r.uid)]
  have hmem (member : UInt32 × Record) :
      member ∈ (es.filter fun e => e.key ≠ Utf8.encode g).filterMap
          (fun e => (DataCodec.cbor.decodeRecord e.value).toOption) ↔
        ∃ value, t.get? (Utf8.encode (Key.member g member.2.uid)) = some value ∧
          DataCodec.cbor.decodeRecord value = .ok member := by
    rw [List.mem_filterMap]
    constructor
    · rintro ⟨e, he, hvalue⟩
      obtain ⟨position, r, hkey, hdecode⟩ := hrecord he
      rw [hdecode] at hvalue
      cases hvalue
      refine ⟨e.value, ?_, hdecode⟩
      rw [← hunder, ← hkey]
      exact (hes e).mp (List.mem_filter.mp he).1
    · rintro ⟨value, hget, hdecode⟩
      rw [← hunder] at hget
      have he := (hes { key := Utf8.encode (Key.member g member.2.uid), value }).mpr hget
      refine ⟨_, List.mem_filter.mpr ⟨he, ?_⟩, by rw [hdecode]; rfl⟩
      simpa using Key.member_ne_group hg hg
  -- Member keys of one group are in the order of the record ids.
  have hids : ((es.filter fun e => e.key ≠ Utf8.encode g).filterMap
      fun e => (DataCodec.cbor.decodeRecord e.value).toOption).Pairwise
        fun a b => compare (Utf8.encode a.2.uid) (Utf8.encode b.2.uid) = .lt := by
    rw [List.pairwise_filterMap]
    refine (hsorted.filter _).imp_of_mem fun {a b} ha hb hab member hmember member' hmember' => ?_
    obtain ⟨position, r, hkey, hdecode⟩ := hrecord ha
    obtain ⟨position', r', hkey', hdecode'⟩ := hrecord hb
    rw [hdecode] at hmember
    rw [hdecode'] at hmember'
    cases hmember
    cases hmember'
    have hslash : compare Key.slash Key.slash = .eq := Std.ReflCmp.compare_self
    simpa [hkey, hkey', Key.encode_member, Bytes.compare_append_left, hslash] using hab
  generalize (es.filter fun e => e.key ≠ Utf8.encode g).filterMap
    (fun e => (DataCodec.cbor.decodeRecord e.value).toOption) = members at hmem hids hdecoded
  have hrows : (members.map rowOf).Pairwise fun a b =>
      compare (Utf8.encode a.1.uid) (Utf8.encode b.1.uid) = .lt := List.pairwise_map.mpr hids
  refine ⟨members.map rowOf, ?_, hrows, fun row => ?_⟩
  · rw [hdecoded, ← hmetadata, ← mergeSort_position_eq hrows (.refl _)]
    simp only [Gathered.object, mergeSort_rowOf]
  · rw [List.mem_map]
    constructor
    · rintro ⟨member, hmember, rfl⟩
      obtain ⟨value, hget, hdecode⟩ := (hmem member).mp hmember
      exact ⟨value, member.1, hget, hdecode, rfl⟩
    · rintro ⟨value, position, hget, hdecode, hposition⟩
      refine ⟨(position, row.1), (hmem _).mpr ⟨value, hget, hdecode⟩, ?_⟩
      rw [rowOf, hposition]

/-! ## Reading one table put over another -/

/-- What is on top is stored, and what is below and has another id. -/
theorem stores_overlay_iff {row : Row} :
    (t.overlay u).Stores g row ↔
      u.Stores g row ∨
        t.Stores g row ∧ u.get? (Utf8.encode (Key.member g row.1.uid)) = none := by
  unfold Stores
  rw [get?_overlay]
  cases u.get? (Utf8.encode (Key.member g row.1.uid)) with
  | none => simp
  | some v => simp

/-- A record id is free in a table of whole objects if no row has it. -/
theorem Represented.get?_member_eq_none_iff (hu : u.Represented) (hg : (ObjectKey.parse? g).isSome)
    {rows : List Row} (hrows : ∀ row, row ∈ rows ↔ u.Stores g row) (uid : String) :
    u.get? (Utf8.encode (Key.member g uid)) = none ↔ ∀ row ∈ rows, row.1.uid ≠ uid := by
  constructor
  · intro hnone row hrow huid
    obtain ⟨value, position, hget, -⟩ := (hrows row).mp hrow
    rw [huid, hnone] at hget
    cases hget
  · intro hfree
    cases hget : u.get? (Utf8.encode (Key.member g uid)) with
    | none => rfl
    | some v =>
        have hunder : (u.under g).get? (Utf8.encode (Key.member g uid)) = some v := by
          rw [get?_under, if_pos (Key.belongsTo_member g uid), hget]
        rcases hu.cases_of_under hg hunder with ⟨hkey, -⟩ | ⟨position, r, hkey, hdecode⟩
        · exact absurd hkey (Key.member_ne_group hg hg)
        · have huid := Key.member_injective hkey
          subst huid
          exact absurd rfl (hfree (r, position.toNat)
            ((hrows _).mpr ⟨v, position, hget, hdecode, rfl⟩))

/-- Where a table of whole objects is put over another, each of its objects is merged with what the other
table holds under the group key. -/
theorem merged_of_overlay (ht : t.Represented) (hu : u.Represented)
    (hg : (ObjectKey.parse? g).isSome) (hlive : u.contains (Utf8.encode g) = true) :
    ∃ mine theirs after, u.object .cbor g = .ok mine ∧ t.object .cbor g = .ok theirs ∧
      (t.overlay u).object .cbor g = .ok after ∧ mine.Merged theirs after := by
  obtain ⟨tops, htops, hids, hstores⟩ := hu.exists_rows hg
  obtain ⟨belows, hbelows, hids', hstores'⟩ := ht.exists_rows hg
  obtain ⟨rows, hrows, hids'', hstores''⟩ := (ht.overlay hu).exists_rows hg
  have hfree := hu.get?_member_eq_none_iff hg hstores
  refine ⟨_, _, _, htops, hbelows, hrows, ?_⟩
  -- The rows on top, and those below whose ids are free.
  let mine := tops.mergeSort rowLe
  let rest := (belows.mergeSort rowLe).filter fun row =>
    row.1.uid ∉ (mine.map Prod.fst).map Record.uid
  have hmine (row : Row) : row ∈ mine ↔ u.Stores g row := by
    rw [← hstores]
    exact List.mem_mergeSort
  have hrest (row : Row) : row ∈ rest ↔
      t.Stores g row ∧ u.get? (Utf8.encode (Key.member g row.1.uid)) = none := by
    rw [hfree, ← hstores', List.mem_filter, List.mem_mergeSort]
    simp [mine]
  have hperm : rows.Perm (mine ++ rest) := by
    have hdisjoint : ∀ a ∈ mine, ∀ b ∈ rest, a ≠ b := by
      intro a ha b hb heq
      rw [← heq] at hb
      exact (hfree a.1.uid).mp ((hrest a).mp hb).2 a ((hstores a).mpr ((hmine a).mp ha)) rfl
    have hnodup : (mine ++ rest).Nodup := by
      refine List.nodup_append.mpr ⟨?_, ?_, hdisjoint⟩
      · exact (List.mergeSort_perm tops rowLe).nodup_iff.mpr (nodup_of_ids hids)
      · exact ((List.mergeSort_perm belows rowLe).nodup_iff.mpr (nodup_of_ids hids')).filter _
    rw [List.perm_ext_iff_of_nodup (nodup_of_ids hids'') hnodup]
    intro row
    rw [List.mem_append, hmine, hrest, hstores'']
    exact stores_overlay_iff
  have hsort : rows.mergeSort rowLe = (mine ++ rest).mergeSort rowLe := by
    rw [← mergeSort_position_eq hids'' (.refl _), mergeSort_position_eq hids'' hperm]
  have hmineSorted : mine.Pairwise fun a b => rowLe a b = true :=
    List.pairwise_mergeSort rowLe_trans rowLe_total tops
  have hrestSorted : rest.Pairwise fun a b => rowLe a b = true :=
    (List.pairwise_mergeSort rowLe_trans rowLe_total belows).filter _
  have hothers : DataObject.others
      { metadata := t.metadataOf g, records := (belows.mergeSort rowLe).map Prod.fst }
      { metadata := u.metadataOf g, records := mine.map Prod.fst } = rest.map Prod.fst :=
    List.filter_map
  constructor
  case metadata =>
    obtain ⟨v, hv⟩ := Option.isSome_iff_exists.mp hlive
    show (t.overlay u).metadataOf g = u.metadataOf g
    simp [metadataOf, get?_overlay, hv]
  case records =>
    rw [hothers, ← List.map_append, hsort]
    exact (List.mergeSort_perm _ rowLe).map _
  case mine_sublist =>
    rw [hsort]
    exact (List.sublist_mergeSort rowLe_trans rowLe_total hmineSorted
      (List.sublist_append_left _ _)).map _
  case others_sublist =>
    rw [hothers, hsort]
    exact (List.sublist_mergeSort rowLe_trans rowLe_total hrestSorted
      (List.sublist_append_right _ _)).map _

end Rows

end Table

end ObjectStore
