import ObjectStore.Proofs.Depot.Reading
import ObjectStore.Proofs.Depot.Representation

/-!
# Objects are not mixed

Any text can be asked for: a group key, a member key, the beginning of a key, or anything else. In a table of
whole objects only a group key that is stored is answered with an object, and that with its own records alone.
Where the text has something else under it, there is a value that is not what it should be: a record where
metadata are expected, or metadata where a record is expected.

Main statement: `Represented.unmixed`.
-/

namespace ObjectStore.Table

/-- Some stored key is the text, or starts with the text and a slash. -/
def Touches (t : Table) (key : String) : Prop :=
  ∃ k, t.contains k = true ∧ (k = Utf8.encode key ∨ Utf8.encode (key ++ "/") <+: k)

theorem touches_iff {t : Table} {key : String} :
    t.Touches key ↔ t.keys.any (fun k => Key.belongsTo k key) = true := by
  simp only [Touches, List.any_eq_true, Key.belongsTo_iff_isPrefix, SortedMap.mem_keys_iff,
    SortedMap.contains]

instance (t : Table) (key : String) : Decidable (t.Touches key) :=
  decidable_of_iff _ touches_iff.symm

/-- An object is what is stored of a group: the metadata under the group key, and for each entry below it the
record that it is the member key of, by position. -/
structure Holds (t : Table) (g : String) (o : DataObject) : Prop where
  group : t.HasGroup g
  metadata : ∃ value m, t.get? (Utf8.encode g) = some value ∧
    DataCodec.cbor.decodeMetadata value = .ok m ∧ m.groupKey = g ∧ o.metadata = some m
  records : ∃ members : List (UInt32 × Record),
    (t.below g).map Entry.key = members.map (fun a => Utf8.encode (Key.member g a.2.uid)) ∧
    (t.below g).map (fun e => DataCodec.cbor.decodeRecord e.value) = members.map .ok ∧
    o.records = (members.mergeSort fun a b => a.1 ≤ b.1).map (·.2)

/-- What is answered for a text has nothing to do with what is stored under other texts. -/
structure Unmixed (t : Table) (key : String) (answer : Except DepotError DataObject) : Prop where
  stored : t.HasGroup key → ∃ o, answer = .ok o ∧ t.Holds key o
  other : ¬ t.HasGroup key → t.Touches key → ∃ err, answer = .error err ∧ err.status = .unknown
  nothing : ¬ t.HasGroup key → ¬ t.Touches key → answer = .ok {}

/-- An object that is not empty is the object of the group that was asked for. -/
theorem Unmixed.holds {t : Table} {key : String} {o : DataObject} (h : t.Unmixed key (.ok o))
    (ho : o ≠ {}) : t.Holds key o := by
  by_cases hgroup : t.HasGroup key
  · obtain ⟨o', heq, hholds⟩ := h.stored hgroup
    cases heq
    exact hholds
  · by_cases htouches : t.Touches key
    · obtain ⟨err, heq, -⟩ := h.other hgroup htouches
      cases heq
    · have heq := h.nothing hgroup htouches
      cases heq
      exact absurd rfl ho

section Represented

variable {t : Table} {key : String} {value : Bytes}

/-- What is stored under a group key are its metadata. -/
theorem Represented.metadata_of_group (ht : t.Represented) (hg : (ObjectKey.parse? key).isSome)
    (hget : t.get? (Utf8.encode key) = some value) :
    ∃ m, DataCodec.cbor.decodeMetadata value = .ok m ∧ m.groupKey = key := by
  have hrepresents := ht _ _ hget
  generalize hk : Utf8.encode key = k at hrepresents
  cases hrepresents with
  | group _ hdecode hkey => exact ⟨_, hdecode, hkey.trans (Utf8.encode_injective hk).symm⟩
  | member hg' => exact absurd hk.symm (Key.member_ne_group hg' hg)

/-- What is stored below a group key are its records. -/
theorem Represented.record_of_below (ht : t.Represented) (hg : (ObjectKey.parse? key).isSome)
    {e : Entry} (he : e ∈ t.below key) :
    ∃ a, DataCodec.cbor.decodeRecord e.value = .ok a ∧ e.key = Utf8.encode (Key.member key a.2.uid) := by
  obtain ⟨hget, hprefix⟩ := mem_below_iff.mp he
  have hbelongs : Key.belongsTo e.key key = true := Key.belongsTo_iff_isPrefix.mpr (.inr hprefix)
  have hrepresents := ht _ _ hget
  generalize hk : e.key = k at hrepresents hbelongs
  cases hrepresents with
  | @group g _ _ hg' =>
      obtain rfl := Key.eq_of_belongsTo hg' hg (Key.belongsTo_self g) hbelongs
      exact absurd hk (key_ne_of_mem_below he)
  | @member g uid _ _ _ hg' _ hdecode hr =>
      obtain rfl := Key.eq_of_belongsTo hg' hg (Key.belongsTo_member g uid) hbelongs
      exact ⟨_, hdecode, by rw [hr]⟩

/-- A stored group key is answered with what is stored of the group. -/
theorem Represented.holds (ht : t.Represented) (hgroup : t.HasGroup key) :
    ∃ o, t.object .cbor key = .ok o ∧ t.Holds key o := by
  obtain ⟨hg, hcontains⟩ := hgroup
  obtain ⟨value, hget⟩ := Option.isSome_iff_exists.mp hcontains
  obtain ⟨m, hm, hkey⟩ := ht.metadata_of_group hg hget
  have hreads := t.reads_gathered .cbor key
  unfold object
  generalize t.gathered .cbor key = gathered at hreads
  cases hreads with
  | undecodable hget' hfails =>
      rw [hget] at hget'
      cases hget'
      rw [hm] at hfails
      cases hfails
  | @cut _ front later bad _ _ _ hbelow _ hfails =>
      have hmem : bad ∈ t.below key := by simp [hbelow]
      obtain ⟨a, ha, -⟩ := ht.record_of_below hg hmem
      rw [ha] at hfails
      cases hfails
  | @whole metadata members hown hbelow =>
      refine ⟨_, rfl, ⟨hg, hcontains⟩, ⟨value, m, hget, hm, hkey, ?_⟩, members, ?_, hbelow, rfl⟩
      · rw [hget, Option.map_some, hm] at hown
        obtain ⟨m', rfl, hm'⟩ := Option.map_eq_some_iff.mp hown.symm
        cases hm'
        rfl
      · refine Answer.map_eq_map_of_ok hbelow fun e he a ha => ?_
        obtain ⟨a', ha', hkey'⟩ := ht.record_of_below hg he
        rw [ha'] at ha
        cases ha
        exact hkey'

/-- Where something else is stored under a text, there is a record under the text itself or there are metadata
below it. -/
theorem Represented.misfit (ht : t.Represented) (hgroup : ¬ t.HasGroup key) (htouches : t.Touches key) :
    (∃ value a, t.get? (Utf8.encode key) = some value ∧ DataCodec.cbor.decodeRecord value = .ok a) ∨
      ∃ e ∈ t.below key, ∃ m, DataCodec.cbor.decodeMetadata e.value = .ok m := by
  have hmetadata {g : String} (hg : t.HasGroup g) (hbelow : Utf8.encode (key ++ "/") <+: Utf8.encode g) :
      ∃ e ∈ t.below key, ∃ m, DataCodec.cbor.decodeMetadata e.value = .ok m := by
    obtain ⟨value, hget⟩ := Option.isSome_iff_exists.mp hg.2
    obtain ⟨m, hm, -⟩ := ht.metadata_of_group hg.1 hget
    exact ⟨{ key := Utf8.encode g, value }, mem_below_iff.mpr ⟨hget, hbelow⟩, m, hm⟩
  obtain ⟨k, hk, hunder⟩ := htouches
  obtain ⟨value, hget⟩ := Option.isSome_iff_exists.mp hk
  cases ht k value hget with
  | group hg =>
      rcases hunder with heq | hbelow
      · cases Utf8.encode_injective heq
        exact absurd ⟨hg, hk⟩ hgroup
      · exact .inr (hmetadata ⟨hg, hk⟩ hbelow)
  | member hg huid hdecode _ hcontains =>
      rcases hunder with heq | hbelow
      · rw [heq] at hget
        exact .inl ⟨value, _, hget, hdecode⟩
      · -- The group key of the member is below the text too, or it is the text.
        rcases Key.below_of_below_member huid hbelow with rfl | hbelow'
        · exact absurd ⟨hg, hcontains⟩ hgroup
        · exact .inr (hmetadata ⟨hg, hcontains⟩ hbelow')

/-- Where something else is stored under a text, not all of it can be read. -/
theorem Represented.failure (ht : t.Represented) (hgroup : ¬ t.HasGroup key) (htouches : t.Touches key) :
    ∃ err, t.object .cbor key = .error err ∧ err.status = .unknown := by
  have hreads := t.reads_gathered .cbor key
  unfold object
  generalize t.gathered .cbor key = gathered at hreads
  cases hreads with
  | undecodable => exact ⟨_, rfl, rfl⟩
  | cut => exact ⟨_, rfl, rfl⟩
  | whole hown hbelow =>
      exfalso
      rcases ht.misfit hgroup htouches with ⟨value, a, hget, ha⟩ | ⟨e, he, m, hm⟩
      · rw [hget, Option.map_some] at hown
        obtain ⟨m, -, hm⟩ := Option.map_eq_some_iff.mp hown.symm
        exact DataCodec.decodeMetadata_ne_ok ha m hm.symm
      · obtain ⟨a, -, ha⟩ := List.mem_map.mp (hbelow ▸ List.mem_map_of_mem he)
        exact DataCodec.decodeMetadata_ne_ok ha.symm m hm

/-- No text is answered with what is stored under another one. -/
theorem Represented.unmixed (ht : t.Represented) (key : String) : t.Unmixed key (t.object .cbor key) where
  stored := ht.holds
  other := ht.failure
  nothing _ hnothing := by
    have hget : t.get? (Utf8.encode key) = none := by
      rw [← Option.not_isSome_iff_eq_none]
      exact fun hsome => hnothing ⟨_, hsome, .inl rfl⟩
    have hbelow : t.below key = [] := by
      refine List.eq_nil_iff_forall_not_mem.mpr fun e he => ?_
      obtain ⟨hget, hprefix⟩ := mem_below_iff.mp he
      exact hnothing ⟨e.key, by simp [SortedMap.contains, hget], .inr hprefix⟩
    rw [object, gathered_eq_under, entries_under, hget, hbelow]
    simp [Access.gather, Access.Gathered.object]

end Represented

end ObjectStore.Table
