import ObjectStore.Proofs.Depot.Reading
import ObjectStore.Proofs.Depot.Representation

/-!
# What a listing gives

A listing tells group keys from member keys by the number of slashes in a text that is made of the key. Where
the keys are what they should be, that is exact: each stored group comes once, in key order, and no member
comes. The values may be anything, and a group that cannot be read to its end is given as far as it can be
read.

Main statement: `Keyed.listing`.
-/

namespace ObjectStore.Table

/-- Every stored key is a group key, or a member key of a group that is stored. The values may be any bytes. -/
def Keyed (t : Table) : Prop :=
  ∀ k, t.contains k = true →
    (∃ g, (ObjectKey.parse? g).isSome ∧ k = Utf8.encode g) ∨
      ∃ g uid, t.HasGroup g ∧ Key.checkUid uid = .ok () ∧ k = Utf8.encode (Key.member g uid)

/-- The keys of whole objects are what they should be. -/
theorem Represented.keyed {t : Table} (ht : t.Represented) : t.Keyed := by
  intro k hk
  obtain ⟨value, hget⟩ := Option.isSome_iff_exists.mp hk
  cases ht k value hget with
  | group hg => exact .inl ⟨_, hg, rfl⟩
  | member hg huid _ _ hcontains => exact .inr ⟨_, _, ⟨hg, hcontains⟩, huid, rfl⟩

/-- Other values under the same keys leave them so. -/
theorem Keyed.applyPut {t : Table} (ht : t.Keyed) {es : List Entry}
    (hes : ∀ e ∈ es, t.contains e.key = true) : (t.applyPut es).Keyed := by
  intro k hk
  have hold : t.contains k = true := by
    rcases (contains_applyPut t es k).mp hk with ⟨e, he, rfl⟩ | hold
    · exact hes e he
    · exact hold
  refine (ht k hold).imp_right ?_
  rintro ⟨g, uid, ⟨hg, hgroup⟩, hrest⟩
  exact ⟨g, uid, ⟨hg, (contains_applyPut t es _).mpr (.inr hgroup)⟩, hrest⟩

/-- What a listing gives for a stored group, beside what a get answers for it. -/
inductive Listed (codec : DataCodec) (t : Table) (g : String) (answer : Except DepotError DataObject) :
    DataObject → Prop where
  /-- The object that a get answers. -/
  | whole {o : DataObject} : answer = .ok o → Listed codec t g answer o
  /-- Nothing, where the metadata cannot be decoded. -/
  | bare {err : DepotError} {value : Bytes} {fault : CodecError} :
      answer = .error err → t.get? (Utf8.encode g) = some value →
      codec.decodeMetadata value = .error fault → Listed codec t g answer {}
  /-- The metadata and the records before the first that cannot be decoded, by position. -/
  | cut {err : DepotError} {value : Bytes} {m : Metadata} {front later : List Entry} {bad : Entry}
      {fault : CodecError} {members : List (UInt32 × Record)} :
      answer = .error err → t.get? (Utf8.encode g) = some value → codec.decodeMetadata value = .ok m →
      t.below g = front ++ bad :: later →
      front.map (fun e => codec.decodeRecord e.value) = members.map .ok →
      codec.decodeRecord bad.value = .error fault →
      Listed codec t g answer
        { metadata := some m, records := (members.mergeSort fun a b => a.1 ≤ b.1).map (·.2) }

/-- The texts that a listing takes for group keys. -/
def groupsOf (t : Table) (front : String) : List String :=
  ((t.scan (Utf8.encode front)).map fun e => Utf8.lossy e.key).filter Key.isGroupShaped

theorem objects_eq (codec : DataCodec) (front : String) (t : Table) :
    t.objects codec front = (t.groupsOf front).map fun g => (t.gathered codec g).object := rfl

section Keyed

variable {t : Table} {k : Bytes} {g front : String} {e : Entry}

/-- Every stored key is a text. -/
theorem Keyed.encode_lossy (ht : t.Keyed) (hk : t.contains k = true) :
    Utf8.encode (Utf8.lossy k) = k := by
  rcases ht k hk with ⟨g, -, rfl⟩ | ⟨g, uid, -, -, rfl⟩
  · rw [Utf8.lossy_encode]
  · rw [Utf8.lossy_encode]

/-- What has the slashes of a group key is one. -/
theorem Keyed.hasGroup (ht : t.Keyed) (hk : t.contains k = true)
    (hshaped : Key.isGroupShaped (Utf8.lossy k) = true) : t.HasGroup (Utf8.lossy k) := by
  rcases ht k hk with ⟨g, hg, rfl⟩ | ⟨g, uid, hgroup, -, rfl⟩
  · rw [Utf8.lossy_encode]
    exact ⟨hg, hk⟩
  · rw [Utf8.lossy_encode, Key.isGroupShaped_member hgroup.1] at hshaped
    cases hshaped

theorem contains_of_mem_scan {front : Bytes} (he : e ∈ t.scan front) : t.contains e.key = true := by
  rw [SortedMap.contains, (mem_scan_iff.mp he).1]
  rfl

theorem Keyed.mem_groupsOf (ht : t.Keyed) :
    g ∈ t.groupsOf front ↔ t.HasGroup g ∧ Utf8.encode front <+: Utf8.encode g := by
  rw [groupsOf, List.mem_filter, List.mem_map]
  constructor
  · rintro ⟨⟨e, he, rfl⟩, hshaped⟩
    have hk := contains_of_mem_scan he
    rw [ht.encode_lossy hk]
    exact ⟨ht.hasGroup hk hshaped, (mem_scan_iff.mp he).2⟩
  · rintro ⟨⟨hg, hk⟩, hprefix⟩
    obtain ⟨value, hget⟩ := Option.isSome_iff_exists.mp hk
    refine ⟨⟨{ key := Utf8.encode g, value }, mem_scan_iff.mpr ⟨hget, hprefix⟩, Utf8.lossy_encode g⟩, ?_⟩
    rw [Key.isGroupShaped, Key.slashCount_of_parse? hg]
    rfl

theorem Keyed.pairwise_groupsOf (ht : t.Keyed) :
    (t.groupsOf front).Pairwise fun a b => compare (Utf8.encode a) (Utf8.encode b) = .lt := by
  have hsorted : (t.scan (Utf8.encode front)).Pairwise fun a b => compare a.key b.key = .lt := by
    rw [scan_eq_filter, List.pairwise_map]
    exact t.sorted.filter _
  refine (List.pairwise_map.mpr (hsorted.imp_of_mem fun {a b} ha hb hlt => ?_)).filter _
  rwa [ht.encode_lossy (contains_of_mem_scan ha), ht.encode_lossy (contains_of_mem_scan hb)]

end Keyed

/-- A group that is stored is given as far as it can be read. -/
theorem listed_gathered {t : Table} {g : String} (hgroup : t.HasGroup g) (codec : DataCodec) :
    t.Listed codec g (t.object codec g) (t.gathered codec g).object := by
  obtain ⟨value, hget⟩ := Option.isSome_iff_exists.mp hgroup.2
  have hreads := t.reads_gathered codec g
  unfold object
  generalize t.gathered codec g = gathered at hreads
  cases hreads with
  | undecodable hget' hfails =>
      have hempty : ({} : Access.Gathered).object = {} := by simp [Access.Gathered.object]
      exact hempty ▸ .bare rfl hget' hfails
  | whole => exact .whole rfl
  | cut hown hbelow hfront hfails =>
      rw [hget, Option.map_some] at hown
      obtain ⟨m, rfl, hm⟩ := Option.map_eq_some_iff.mp hown.symm
      exact .cut rfl hget hm.symm hbelow hfront hfails

/-- A listing of a table whose keys are what they should be. -/
theorem Keyed.listing {t : Table} (ht : t.Keyed) (codec : DataCodec) (front : String) :
    ∃ (groups : List String) (object : String → DataObject),
      t.objects codec front = groups.map object ∧
        groups.Pairwise (fun a b => compare (Utf8.encode a) (Utf8.encode b) = .lt) ∧
        (∀ g, g ∈ groups ↔ t.HasGroup g ∧ Utf8.encode front <+: Utf8.encode g) ∧
        ∀ g ∈ groups, t.Listed codec g (t.object codec g) (object g) :=
  ⟨t.groupsOf front, _, t.objects_eq codec front, ht.pairwise_groupsOf, fun _ => ht.mem_groupsOf,
    fun _ hg => listed_gathered (ht.mem_groupsOf.mp hg).1 codec⟩

end ObjectStore.Table
