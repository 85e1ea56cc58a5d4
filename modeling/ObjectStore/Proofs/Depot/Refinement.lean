import ObjectStore.Proofs.Depot.Overlay

/-!
# What a table keeps of a history

A table reflects a history if under every group key it has exactly the entries of the objects that the
history keeps there, put one after the other. Group keys do not overlap, so that a change to one group
leaves the entries of all others alone, and every change that succeeds leads from a table that reflects
the changes so far to one that reflects one more.

Main statements: `ensures_act` and `object_of_reflects`.
-/

namespace ObjectStore

/-! ## What changes leave under a group key -/

namespace Table

variable {g : String} {t : Table}

theorem get?_under (t : Table) (g : String) (k : Bytes) :
    (t.under g).get? k = if Key.belongsTo k g then t.get? k else none := by
  rw [under, SortedMap.get?_filter]
  cases t.get? k <;> simp [Option.filter]

/-- What is put into another group stays apart. -/
theorem under_applyPut_of_ne (hg : (ObjectKey.parse? g).isSome) {g' : String}
    (hg' : (ObjectKey.parse? g').isSome) (hne : g' ≠ g) {es : List Entry}
    (hes : ∀ e ∈ es, Key.belongsTo e.key g' = true) : (t.applyPut es).under g = t.under g := by
  have hnone : es.filter (fun e => Key.belongsTo e.key g) = [] := by
    refine List.filter_eq_nil_iff.mpr fun e he hbelongs => hne ?_
    exact Key.eq_of_belongsTo hg' hg (hes e he) hbelongs
  -- Nothing of what is put passes the filter.
  rw [under, filter_applyPut, hnone]
  rfl

/-- What is put into a group is put over what is there. -/
theorem under_applyPut_self {es : List Entry} (hes : ∀ e ∈ es, Key.belongsTo e.key g = true) :
    (t.applyPut es).under g = (t.under g).applyPut es := by
  rw [under, filter_applyPut, List.filter_eq_self.mpr hes]
  rfl

/-- Nothing is left under a key that was removed. -/
theorem under_without_self (t : Table) (g : String) : (t.without g).under g = ∅ := by
  apply SortedMap.ext_get?
  intro k
  rw [get?_under, without, SortedMap.get?_filter, SortedMap.get?_empty]
  split
  · rename_i hbelongs
    cases t.get? k <;> simp [Option.filter, hbelongs]
  · rfl

/-- To remove one group leaves the others. -/
theorem under_without_of_ne (hg : (ObjectKey.parse? g).isSome) {key : String}
    (hkey : (ObjectKey.parse? key).isSome) (hne : key ≠ g) : (t.without key).under g = t.under g := by
  apply SortedMap.ext_get?
  intro k
  rw [get?_under, get?_under, without, SortedMap.get?_filter]
  split
  · rename_i hbelongs
    -- What is in one group is in no other.
    have hkept : Key.belongsTo k key = false := by
      rw [← Bool.not_eq_true]
      intro hbelongs'
      exact hne (Key.eq_of_belongsTo hkey hg hbelongs' hbelongs)
    cases t.get? k <;> simp [Option.filter, hkept]
  · rfl

/-- No group lies outside of the key scheme. -/
theorem under_foreign (hg : (ObjectKey.parse? g).isSome) (t : Table) : t.foreign.under g = ∅ := by
  apply SortedMap.ext_get?
  intro k
  rw [get?_under, foreign, SortedMap.get?_filter, SortedMap.get?_empty]
  split
  · rename_i hbelongs
    have hgroup := Bytes.startsWith_iff.mp (Key.startsWith_of_belongsTo hbelongs)
    have hscheme : k.startsWith (Utf8.encode keyScheme) = true :=
      Bytes.startsWith_iff.mpr ((Key.keyScheme_isPrefix_of_parse? hg).trans hgroup)
    cases t.get? k <;> simp [Option.filter, hscheme]
  · rfl

end Table

namespace Access

open History

/-- All keys that a change is to remove are group keys. The keys of objects are checked when they are
written. -/
def Edit.isKeyed : Edit → Bool
  | .delete key => (ObjectKey.parse? key).isSome
  | .deleteAll keys => keys.all fun key => (ObjectKey.parse? key).isSome
  | _ => true

/-- Under the group key there are the objects, put one over the other. -/
structure Keeps (g : String) (t : Table) (objects : List DataObject) : Prop where
  written : ∀ o ∈ objects, Written g o
  under : t.under g = Table.applyPut ∅ (objects.flatMap stored)

/-- Under every group key there are the objects that the history keeps there. -/
def Reflects (t : Table) (edits : List Edit) : Prop :=
  ∀ g, (ObjectKey.parse? g).isSome → Keeps g t (written g edits)

theorem reflects_empty : Reflects ∅ [] := fun _ _ =>
  { written := fun _ h => absurd h List.not_mem_nil
    under := rfl }

/-- A table that reflects a history holds the objects of the history. -/
theorem object_of_reflects {t : Table} {edits : List Edit} (h : Reflects t edits) {g : String}
    (hg : (ObjectKey.parse? g).isSome) : t.object .cbor g = .ok (History.object g edits) :=
  object_of_under hg (h g hg).written (h g hg).under

namespace Keeps

variable {g : String} {t : Table} {objects : List DataObject}

theorem of_empty (h : t.under g = ∅) : Keeps g t [] where
  written _ ho := absurd ho List.not_mem_nil
  under := h

theorem put (h : Keeps g t objects) (hg : (ObjectKey.parse? g).isSome) {o : DataObject}
    {es : List Entry} (hes : entriesOf .cbor o = .ok es) :
    Keeps g (t.applyPut es) (after g objects (.put o)) := by
  obtain ⟨m, own, hm, hgroup, -⟩ := entriesOf_eq_ok hes
  have hbelongs := belongsTo_of_mem_entriesOf hes hm
  have hkey : o.groupKey? = some m.groupKey := by simp [DataObject.groupKey?, hm]
  simp only [after]
  split
  · rename_i hself
    rw [hkey, Option.some.injEq] at hself
    rw [hself] at hbelongs hkey
    constructor
    · intro o' ho'
      rcases List.mem_append.mp ho' with ho' | ho'
      · exact h.written o' ho'
      · rw [List.mem_singleton.mp ho']
        exact ⟨hkey, es, hes⟩
    · rw [Table.under_applyPut_self hbelongs, h.under, List.flatMap_append, List.flatMap_singleton,
        stored_of_ok hes, Table.applyPut_append]
  · rename_i hother
    rw [hkey, Option.some.injEq] at hother
    exact ⟨h.written, by rw [Table.under_applyPut_of_ne hg hgroup hother hbelongs, h.under]⟩

theorem without (h : Keeps g t objects) (hg : (ObjectKey.parse? g).isSome) {key : String}
    (hkey : (ObjectKey.parse? key).isSome) :
    Keeps g (t.without key) (after g objects (.delete key)) := by
  simp only [after]
  split
  · rename_i hself
    subst hself
    exact .of_empty (Table.under_without_self t key)
  · rename_i hother
    exact ⟨h.written, by rw [Table.under_without_of_ne hg hkey hother, h.under]⟩

theorem withoutAll (h : Keeps g t objects) (hg : (ObjectKey.parse? g).isSome) {keys : List String}
    (hkeys : ∀ key ∈ keys, (ObjectKey.parse? key).isSome) :
    Keeps g (keys.foldl Table.without t) (after g objects (.deleteAll keys)) := by
  induction keys generalizing t objects with
  | nil => exact h
  | cons key keys ih =>
      have hstep := ih (h.without hg (hkeys key List.mem_cons_self)) fun key' hkey' =>
        hkeys key' (List.mem_cons_of_mem key hkey')
      -- The group goes with the first key, with a later one, or not at all.
      have hafter : after g (after g objects (.delete key)) (.deleteAll keys) =
          after g objects (.deleteAll (key :: keys)) := by
        by_cases hlater : g ∈ keys
        · simp [after, hlater]
        · simp [after, hlater, eq_comm]
      rw [← hafter]
      exact hstep

theorem update (h : Keeps g t objects) (hg : (ObjectKey.parse? g).isSome) {o : DataObject}
    {m : Metadata} {es : List Entry} (hm : o.metadata = some m) (hes : entriesOf .cbor o = .ok es) :
    Keeps g ((t.without m.groupKey).applyPut es) (after g objects (.update o)) := by
  obtain ⟨m', own, hm', hgroup, -⟩ := entriesOf_eq_ok hes
  rw [hm, Option.some.injEq] at hm'
  subst hm'
  have hkey : o.groupKey? = some m.groupKey := by simp [DataObject.groupKey?, hm]
  -- An update is a delete of the group and then a put.
  have hafter : after g (after g objects (.delete m.groupKey)) (.put o) =
      after g objects (.update o) := by
    by_cases hself : m.groupKey = g
    · simp [after, hkey, hself]
    · simp [after, hkey, hself]
  rw [← hafter]
  exact (h.without hg hgroup).put hg hes

end Keeps

/-! ## One change -/

section Change

variable {σ : Type} {kv : KeyValue σ} {good : σ → Prop} {content : σ → Table} {s : σ}

theorem closedUnderAccess_true (codec : DataCodec) : ClosedUnderAccess codec fun _ => True :=
  ⟨fun _ _ => trivial, fun _ _ => trivial, fun _ => trivial⟩

/-- A change that succeeds is reflected by the table that it leaves behind. -/
theorem ensures_act (hkv : kv.Lawful good good content fun _ => True) (hs : good s) {edits : List Edit}
    (h : Reflects (content s) edits) {edit : Edit} (hkeyed : edit.isKeyed = true) :
    (edit.act kv .cbor).Ensures s
      (fun _ s' => good s' ∧ Reflects (content s') (edits ++ [edit])) fun _ _ => True := by
  have hclosed := closedUnderAccess_true .cbor
  have hgood : ∀ {s}, good s → True := fun _ => trivial
  -- It is enough to look at one group at a time.
  suffices hkeeps : (edit.act kv .cbor).Ensures s
      (fun _ s' => good s' ∧ ∀ g, (ObjectKey.parse? g).isSome →
        Keeps g (content s') (after g (written g edits) edit)) fun _ _ => True by
    refine hkeeps.weaken ?_ fun _ _ h => h
    rintro _ s' ⟨hs', hkeeps⟩
    refine ⟨hs', fun g hg => ?_⟩
    rw [written_concat]
    exact hkeeps g hg
  cases edit with
  | put o =>
      refine (ensures_put hkv hclosed hgood hs o).weaken ?_ fun _ _ _ => trivial
      rintro _ s' ⟨hs', es, hes, hcontent⟩
      rw [hcontent]
      exact ⟨hs', fun g hg => (h g hg).put hg hes⟩
  | update o =>
      refine (ensures_update hkv hclosed hgood hs o).weaken ?_ fun _ _ _ => trivial
      rintro _ s' ⟨hs', m, es, hm, hes, hcontent⟩
      rw [hcontent]
      exact ⟨hs', fun g hg => (h g hg).update hg hm hes⟩
  | delete key =>
      refine (ensures_delete hkv hclosed hgood hs key).weaken ?_ fun _ _ _ => trivial
      rintro _ s' ⟨hs', hcontent⟩
      rw [hcontent]
      exact ⟨hs', fun g hg => (h g hg).without hg hkeyed⟩
  | deleteAll keys =>
      refine (ensures_deleteAll hkv hclosed hgood hs keys).weaken ?_ fun _ _ _ => trivial
      rintro _ s' ⟨hs', hcontent⟩
      rw [hcontent]
      exact ⟨hs', fun g hg => (h g hg).withoutAll hg (List.all_eq_true.mp hkeyed)⟩
  | clear =>
      refine (ensures_clear hkv hclosed hgood hs).weaken ?_ fun _ _ _ => trivial
      rintro _ s' ⟨hs', hcontent⟩
      rw [hcontent]
      exact ⟨hs', fun g hg => .of_empty (Table.under_foreign hg _)⟩

/-- After an update there is only the object that was written, whatever there was before. -/
theorem ensures_act_update (hkv : kv.Lawful good good content fun _ => True) (hs : good s)
    (o : DataObject) :
    (Edit.act kv .cbor (.update o)).Ensures s
      (fun _ s' => good s' ∧
        ∃ g, o.groupKey? = some g ∧ (ObjectKey.parse? g).isSome ∧ Keeps g (content s') [o])
      fun _ _ => True := by
  refine (ensures_update hkv (closedUnderAccess_true .cbor) (fun _ => trivial) hs o).weaken ?_
    fun _ _ _ => trivial
  rintro _ s' ⟨hs', m, es, hm, hes, hcontent⟩
  obtain ⟨m', own, hm', hgroup, -⟩ := entriesOf_eq_ok hes
  rw [hm, Option.some.injEq] at hm'
  subst hm'
  have hkey : o.groupKey? = some m.groupKey := by simp [DataObject.groupKey?, hm]
  refine ⟨hs', m.groupKey, hkey, hgroup, ?_⟩
  -- The delete has left nothing of the group, so that the put finds it empty.
  have hkeeps := (Keeps.of_empty (Table.under_without_self (content s) m.groupKey)).put hgroup hes
  rw [hcontent]
  simpa [after, hkey] using hkeeps

end Change

/-! ## Objects whose record ids differ -/

/-- The rows of an object have different ids as far as its records have. -/
theorem pairwise_rowsOf_iff {o : DataObject} :
    ((rowsOf o).Pairwise fun a b => a.1.uid ≠ b.1.uid) ↔ (o.records.map Record.uid).Nodup := by
  have huids : (rowsOf o).map (fun row => row.1.uid) = o.records.map Record.uid := by
    rw [← List.zipIdx_map_fst 0 o.records, List.map_map]
    rfl
  rw [← huids, List.nodup_iff_pairwise_ne, List.pairwise_map]

/-- An object with different record ids makes itself. -/
theorem History.overlaid_singleton {o : DataObject} (h : (o.records.map Record.uid).Nodup) :
    overlaid [o] = o := by
  have hpositions : (rowsOf o).Pairwise fun a b => a.2 < b.2 := by
    unfold rowsOf
    rw [List.pairwise_iff_getElem]
    intro i j hi hj hij
    simpa using hij
  -- Positions go up already, so that the sort changes nothing.
  have hsorted : (rowsOf o).mergeSort rowLe = rowsOf o :=
    List.mergeSort_of_pairwise (hpositions.imp fun hlt => rowLe_iff.mpr (.inl hlt))
  unfold overlaid
  rw [List.flatMap_singleton, latest_of_pairwise (pairwise_rowsOf_iff.mpr h), hsorted, rowsOf,
    List.zipIdx_map_fst]
  rfl

end Access

end ObjectStore
