import ObjectStore.Proofs.Depot.Access

/-!
# What is read under a text

Whatever text is asked for, what belongs to it is at most one entry under the text itself, which comes first
and is read as metadata, and the entries below it, which are read as records in key order. Reading goes on to
the end or stops at the first value that is not what it should be.

Main statement: `reads_gathered`.
-/

namespace ObjectStore

/-! ## What belongs to a text -/

/-- What is below a text comes after it. -/
theorem Key.compare_lt_of_below {k : Bytes} {key : String} (h : Utf8.encode (key ++ "/") <+: k) :
    compare (Utf8.encode key) k = .lt := by
  rw [encode_append_slash] at h
  have hprefix : Utf8.encode key <+: k := (List.prefix_append _ _).trans h
  have hne : Utf8.encode key ≠ k := by
    rintro rfl
    have hlength := h.length_le
    rw [List.length_append, List.length_singleton] at hlength
    omega
  cases hcompare : compare (Utf8.encode key) k with
  | lt => rfl
  | eq => exact absurd (Std.LawfulEqCmp.eq_of_compare hcompare) hne
  | gt => exact absurd (Std.OrientedCmp.lt_of_gt hcompare) (Bytes.compare_ne_lt_of_isPrefix hprefix)

namespace Table

/-- The text is a group key that is stored. -/
def HasGroup (t : Table) (key : String) : Prop :=
  (ObjectKey.parse? key).isSome = true ∧ t.contains (Utf8.encode key) = true

instance (t : Table) (key : String) : Decidable (t.HasGroup key) :=
  inferInstanceAs (Decidable (_ ∧ _))

/-- The entries below a text, in key order. -/
def below (t : Table) (key : String) : List Entry :=
  t.scan (Utf8.encode (key ++ "/"))

theorem mem_below_iff {t : Table} {key : String} {e : Entry} :
    e ∈ t.below key ↔ t.get? e.key = some e.value ∧ Utf8.encode (key ++ "/") <+: e.key :=
  mem_scan_iff

theorem key_ne_of_mem_below {t : Table} {key : String} {e : Entry} (he : e ∈ t.below key) :
    e.key ≠ Utf8.encode key := by
  intro heq
  have hlt := Key.compare_lt_of_below (mem_below_iff.mp he).2
  rw [heq] at hlt
  simp at hlt

/-- What belongs to a text is the entry under the text itself, if there is one, and then what is below. -/
theorem entries_under (t : Table) (key : String) :
    (t.under key).entries.map entryOf =
      ((t.get? (Utf8.encode key)).map fun value => { key := Utf8.encode key, value }).toList ++
        t.below key := by
  let own := ((t.get? (Utf8.encode key)).map fun value => (Utf8.encode key, value)).toList
  let rest := t.entries.filter fun e => e.1.startsWith (Utf8.encode (key ++ "/"))
  have hown (e : Bytes × Bytes) : e ∈ own ↔ t.get? e.1 = some e.2 ∧ e.1 = Utf8.encode key := by
    rw [Option.mem_toList, Option.map_eq_some_iff]
    constructor
    · rintro ⟨value, hget, rfl⟩
      exact ⟨hget, rfl⟩
    · rintro ⟨hget, hkey⟩
      exact ⟨e.2, hkey ▸ hget, by rw [← hkey]⟩
  have hrest (e : Bytes × Bytes) :
      e ∈ rest ↔ t.get? e.1 = some e.2 ∧ Utf8.encode (key ++ "/") <+: e.1 := by
    rw [List.mem_filter, ← SortedMap.get?_eq_some_iff, Bytes.startsWith_iff]
  have hsorted : (own ++ rest).Pairwise fun a b => compare a.1 b.1 = .lt := by
    refine List.pairwise_append.mpr ⟨?_, t.sorted.filter _, fun a ha b hb => ?_⟩
    · show (Option.toList _).Pairwise _
      cases t.get? (Utf8.encode key) with
      | none => exact .nil
      | some value => exact List.pairwise_singleton _ _
    · rw [((hown a).mp ha).2]
      exact Key.compare_lt_of_below ((hrest b).mp hb).2
  -- Both listings are in key order, so that it is enough that they answer the same.
  let listed : Table := { entries := own ++ rest, sorted := hsorted }
  have hunder : t.under key = listed := by
    refine SortedMap.ext_get? fun k => Option.ext fun value => ?_
    rw [under, SortedMap.get?_filter, Option.filter_eq_some_iff, Key.belongsTo_iff_isPrefix, and_or_left,
      ← hown (k, value), ← hrest (k, value), ← List.mem_append]
    exact (SortedMap.get?_eq_some_iff (m := listed)).symm
  rw [hunder, List.map_append, below, scan_eq_filter]
  congr 1
  show (Option.toList _).map entryOf = _
  cases t.get? (Utf8.encode key) <;> rfl

end Table

/-! ## Reading row by row -/

namespace Access

variable {codec : DataCodec} {group : Bytes} {front : List Entry} {members : List (UInt32 × Record)}

/-- Entries that decode as records are read as members, before whatever comes behind them. -/
theorem gather_append (es : List Entry) (hkeys : ∀ e ∈ front, e.key ≠ group)
    (hfront : front.map (fun e => codec.decodeRecord e.value) = members.map .ok) :
    gather codec group (front ++ es) =
      { gather codec group es with members := members ++ (gather codec group es).members } := by
  induction front generalizing members with
  | nil =>
      rw [List.map_nil, eq_comm, List.map_eq_nil_iff] at hfront
      subst hfront
      rfl
  | cons e front ih =>
      rw [List.map_cons] at hfront
      obtain ⟨member, members, rfl, hmember, hrest⟩ := List.map_eq_cons_iff.mp hfront.symm
      have hkeys' : ∀ e' ∈ front, e'.key ≠ group := fun e' he' => hkeys e' (List.mem_cons_of_mem e he')
      rw [List.cons_append, gather, if_neg (hkeys e List.mem_cons_self), ← hmember, ih hkeys' hrest.symm]
      rfl

/-- Every row of entries starts with those that decode as records, up to the first that does not. -/
theorem exists_front (codec : DataCodec) (es : List Entry) :
    ∃ (front rest : List Entry) (members : List (UInt32 × Record)), es = front ++ rest ∧
      front.map (fun e => codec.decodeRecord e.value) = members.map .ok ∧
        (rest = [] ∨
          ∃ bad later err, rest = bad :: later ∧ codec.decodeRecord bad.value = .error err) := by
  induction es with
  | nil => exact ⟨[], [], [], rfl, rfl, .inl rfl⟩
  | cons e es ih =>
      cases hdecode : codec.decodeRecord e.value with
      | error err => exact ⟨[], e :: es, [], rfl, rfl, .inr ⟨e, es, err, rfl, hdecode⟩⟩
      | ok member =>
          obtain ⟨front, rest, members, rfl, hfront, hrest⟩ := ih
          refine ⟨e :: front, rest, member :: members, rfl, ?_, hrest⟩
          rw [List.map_cons, List.map_cons, hdecode, hfront]

end Access

namespace Table

/-- How reading under a text comes out. -/
inductive Reads (codec : DataCodec) (key : String) (t : Table) : Access.Gathered → Prop where
  /-- The value under the text itself is no metadata, and nothing else is looked at. -/
  | undecodable {value : Bytes} {err : CodecError} :
      t.get? (Utf8.encode key) = some value → codec.decodeMetadata value = .error err →
      Reads codec key t { failure := some (.unknown s!"decode runtime: {err.message}") }
  /-- Everything is read. -/
  | whole {metadata : Option Metadata} {members : List (UInt32 × Record)} :
      (t.get? (Utf8.encode key)).map codec.decodeMetadata = metadata.map .ok →
      (t.below key).map (fun e => codec.decodeRecord e.value) = members.map .ok →
      Reads codec key t { metadata, members }
  /-- Everything is read up to the first entry below the text that is no record. -/
  | cut {metadata : Option Metadata} {front later : List Entry} {bad : Entry} {err : CodecError}
      {members : List (UInt32 × Record)} :
      (t.get? (Utf8.encode key)).map codec.decodeMetadata = metadata.map .ok →
      t.below key = front ++ bad :: later →
      front.map (fun e => codec.decodeRecord e.value) = members.map .ok →
      codec.decodeRecord bad.value = .error err →
      Reads codec key t
        { metadata, members, failure := some (.unknown s!"decode record: {err.message}") }

/-- What is gathered below a text holds no metadata; the metadata come from the text itself. -/
theorem gathered_of_below {codec : DataCodec} {key : String} {t : Table} {metadata : Option Metadata}
    {members : List (UInt32 × Record)} {failure : Option DepotError}
    (hown : (t.get? (Utf8.encode key)).map codec.decodeMetadata = metadata.map .ok)
    (hbelow : Access.gather codec (Utf8.encode key) (t.below key) = { members, failure }) :
    t.gathered codec key = { metadata, members, failure } := by
  rw [gathered_eq_under, entries_under]
  cases hget : t.get? (Utf8.encode key) with
  | none =>
      rw [hget, Option.map_none, eq_comm, Option.map_eq_none_iff] at hown
      subst hown
      exact hbelow
  | some value =>
      rw [hget, Option.map_some, eq_comm, Option.map_eq_some_iff] at hown
      obtain ⟨m, rfl, hm⟩ := hown
      simp only [Option.map_some, Option.toList_some, List.singleton_append, Access.gather, if_true, ← hm,
        hbelow, Option.none_or]

/-- With metadata, or without an entry under the text, it is what is below that decides. -/
theorem reads_of_own {codec : DataCodec} {key : String} {t : Table} {metadata : Option Metadata}
    (hown : (t.get? (Utf8.encode key)).map codec.decodeMetadata = metadata.map .ok) :
    t.Reads codec key (t.gathered codec key) := by
  obtain ⟨front, rest, members, hbelow, hfront, hrest⟩ := Access.exists_front codec (t.below key)
  have hgather := Access.gather_append rest
    (fun e he => key_ne_of_mem_below (hbelow ▸ List.mem_append_left rest he)) hfront
  rw [← hbelow] at hgather
  rcases hrest with rfl | ⟨bad, later, err, rfl, hbad⟩
  · rw [List.append_nil] at hbelow
    rw [gathered_of_below hown hgather]
    simp only [Access.gather, List.append_nil]
    exact .whole hown (hbelow ▸ hfront)
  · have hmem : bad ∈ t.below key := by simp [hbelow]
    rw [Access.gather, if_neg (key_ne_of_mem_below hmem), hbad, List.append_nil] at hgather
    rw [gathered_of_below hown hgather]
    exact .cut hown hbelow hfront hbad

theorem reads_gathered (codec : DataCodec) (key : String) (t : Table) :
    t.Reads codec key (t.gathered codec key) := by
  cases hget : t.get? (Utf8.encode key) with
  | none => exact @reads_of_own codec key t none (by rw [hget]; rfl)
  | some value =>
      cases hdecode : codec.decodeMetadata value with
      | ok m => exact @reads_of_own codec key t (some m) (by rw [hget, Option.map_some, hdecode]; rfl)
      | error err =>
          rw [gathered_eq_under, entries_under, hget]
          simp only [Option.map_some, Option.toList_some, List.singleton_append, Access.gather, if_true,
            hdecode]
          exact .undecodable hget hdecode

end Table

end ObjectStore
