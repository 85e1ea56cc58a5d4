import ObjectStore.Object.Sample
import ObjectStore.Proofs.Depot.Refinement
import ObjectStore.Proofs.World.Healthy

/-!
# What a put keeps of an object

The records of an object lie under keys that are made of their ids, so that of records with the same id
the last one is kept, although the put succeeds. A put into a group that held nothing therefore keeps the
whole object exactly where its record ids differ: then, and only then, there is one entry for each record
beside that of the metadata, and then, and only then, a get answers the object.

Main statements: `kept_of_put` and `lost_of_put`.
-/

namespace ObjectStore

namespace Access

namespace History

/-! ## Rows that are kept -/

/-- The latest rows come in the order in which they were written. -/
theorem latest_sublist (rows : List Row) : (latest rows).Sublist rows := by
  induction rows with
  | nil => exact .slnil
  | cons row rows ih =>
      unfold latest
      split
      · exact ih.cons row
      · exact ih.cons_cons row

/-- All rows are kept only where no id comes twice. -/
theorem length_latest_eq_iff {rows : List Row} :
    (latest rows).length = rows.length ↔ rows.Pairwise fun a b => a.1.uid ≠ b.1.uid := by
  constructor
  · intro hlength
    have hpairwise := latest_pairwise rows
    rw [(latest_sublist rows).eq_of_length hlength] at hpairwise
    exact hpairwise
  · intro hpairwise
    rw [latest_of_pairwise hpairwise]

/-- What objects make has no record id twice. -/
theorem nodup_uids_overlaid (objects : List DataObject) :
    ((overlaid objects).records.map Record.uid).Nodup := by
  have hdistinct : ((latest (objects.flatMap rowsOf)).map fun row => row.1.uid).Nodup := by
    rw [List.nodup_iff_pairwise_ne, List.pairwise_map]
    exact latest_pairwise _
  show ((((latest (objects.flatMap rowsOf)).mergeSort rowLe).map (·.1)).map Record.uid).Nodup
  rw [List.map_map]
  exact ((List.mergeSort_perm _ rowLe).map _).nodup_iff.mpr hdistinct

/-- Only an object with different record ids makes itself. -/
theorem overlaid_singleton_eq_iff {o : DataObject} :
    overlaid [o] = o ↔ (o.records.map Record.uid).Nodup := by
  constructor
  · intro heq
    have hnodup := nodup_uids_overlaid [o]
    rw [heq] at hnodup
    exact hnodup
  · exact overlaid_singleton

end History

open History

/-- Under a group key there is one entry for the metadata and one for each latest row. -/
theorem Keeps.size_under {g : String} {t : Table} {objects : List DataObject}
    (h : Keeps g t objects) (hg : (ObjectKey.parse? g).isSome) (hne : objects ≠ []) :
    (t.under g).size = 1 + (latest (objects.flatMap rowsOf)).length := by
  obtain ⟨rows, hrows, -, hperm⟩ := exists_rows_of_entries hg h.written
  rw [h.under]
  obtain ⟨before, last, rfl⟩ := (List.eq_nil_or_concat objects).resolve_left hne
  obtain ⟨m, own, -, hstored, -, hkey, -⟩ := stored_of_written (h.written last (by simp))
  have hget := get?_group before hstored hkey
  rw [← List.concat_eq_append] at hget
  generalize Table.applyPut ∅ ((before.concat last).flatMap stored) = u at hrows hget ⊢
  -- Without the metadata the rows are left.
  have herased : ((u.erase (Utf8.encode g)).entries.map Table.entryOf) = rows.map (rowEntry g) := by
    rw [← hrows, List.filter_map]
    congr 1
    refine List.filter_congr fun e _ => ?_
    by_cases he : e.1 = Utf8.encode g
    · simp [he]
    · have hcompare : compare (Utf8.encode g) e.1 ≠ .eq := fun heq =>
        he (Std.LawfulEqCmp.eq_of_compare heq).symm
      simp [he, hcompare]
  have hlength := congrArg List.length herased
  rw [List.length_map, List.length_map, hperm.length_eq] at hlength
  rw [SortedMap.size_of_get? hget, SortedMap.size, hlength, Nat.add_comm]

end Access

namespace World

open Access History

/-! ## Puts of a depot -/

section Puts

variable {d : Depot} {handle : Handle} {w w' : World} {o : DataObject} {g : String}

/-- A put that succeeds leaves the object alone in a group that held nothing. -/
theorem keeps_of_put (hphase : d.phase = .ready handle) (hcodec : d.codec = .cbor)
    (hw : Healthy handle w) (hgroup : o.groupKey? = some g)
    (hempty : (content handle w).under g = ∅)
    (hput : (withObjects d fun kv codec => Access.put kv codec o).exec w = (.ok (), w')) :
    Healthy handle w' ∧ (ObjectKey.parse? g).isSome ∧ Keeps g (content handle w') [o] := by
  rw [withObjects_of_phase hphase, hcodec] at hput
  have hensures := ensures_put (lawful_healthy handle) (closedUnderAccess_true .cbor)
    (fun _ => trivial) hw o
  obtain ⟨hw', es, hes, hcontent⟩ := (Action.ensures_iff.mp hensures).1 () w' hput
  obtain ⟨m, own, hm, hg, -⟩ := entriesOf_eq_ok hes
  have hkey : m.groupKey = g := by simpa [DataObject.groupKey?, hm] using hgroup
  subst hkey
  refine ⟨hw', hg, ?_⟩
  have hkeeps := (Keeps.of_empty hempty).put hg hes
  rw [hcontent]
  simpa [after, hgroup] using hkeeps

/-- After a put into a group that held nothing there are the metadata and the latest row of each record
id. That is the whole object, in the number of its entries and as it is read, exactly if its record ids
differ. -/
theorem kept_of_put (hphase : d.phase = .ready handle) (hcodec : d.codec = .cbor)
    (hw : Healthy handle w) (hgroup : o.groupKey? = some g)
    (hempty : (content handle w).under g = ∅)
    (hput : (withObjects d fun kv codec => Access.put kv codec o).exec w = (.ok (), w')) :
    let kept := (content handle w').under g
    let found := ((withObjects d fun kv codec => Access.get kv codec g).exec w').1
    kept.size = 1 + (latest (rowsOf o)).length ∧ found = .ok (overlaid [o]) ∧
      (kept.size = 1 + o.records.length ↔ (o.records.map Record.uid).Nodup) ∧
      (found = .ok o ↔ (o.records.map Record.uid).Nodup) := by
  intro kept found
  obtain ⟨hw', hg, hkeeps⟩ := keeps_of_put hphase hcodec hw hgroup hempty hput
  have hsize : kept.size = 1 + (latest (rowsOf o)).length := by
    have hunder := hkeeps.size_under hg (List.cons_ne_nil o [])
    rwa [List.flatMap_singleton] at hunder
  have hfound : found = .ok (overlaid [o]) := by
    obtain ⟨w'', hget, -⟩ := Access.exec_get_of_readable (readable_healthy handle) .cbor hw' g
    show ((withObjects d fun kv codec => Access.get kv codec g).exec w').1 = _
    rw [withObjects_of_phase hphase, hcodec, hget]
    exact object_of_under hg hkeeps.written hkeeps.under
  refine ⟨hsize, hfound, ?_, ?_⟩
  · have hrows : (rowsOf o).length = o.records.length := List.length_zipIdx
    rw [hsize, Nat.add_left_cancel_iff, ← hrows, length_latest_eq_iff, pairwise_rowsOf_iff]
  · rw [hfound, Except.ok.injEq, overlaid_singleton_eq_iff]

end Puts

/-! ## A record that is lost -/

/-- Two records with the same id. -/
def repeated : DataObject where
  metadata := some { key := { cached := "udmf://drag/com.example.test/g" } }
  records := [⟨"a", .plainText ∅ "first" ""⟩, ⟨"a", .plainText ∅ "second" ""⟩]

/-- A depot on an empty engine in memory, and the world that it is in. -/
def emptyDepot : Depot × World :=
  ({ id := "drag", manager := 0, managerName := "m", phase := .ready (.direct 0) },
    { next := 1, engines := SortedMap.ofList [(0, { id := "drag" })] })

/-- Sample records have different ids, and all of them are kept. -/
theorem kept_of_put_sample :
    let d := emptyDepot.1
    let g := "udmf://drag/com.example.test/g"
    let o := DataObject.sample "g" 3
    ∃ w', (withObjects d fun kv codec => Access.put kv codec o).exec emptyDepot.2 = (.ok (), w') ∧
      ((content (.direct 0) w').under g).size = 4 ∧
      ((withObjects d fun kv codec => Access.get kv codec g).exec w').1 = .ok o := by
  intro d g o
  have hw : Healthy (.direct 0) emptyDepot.2 := ⟨⟨{ id := "drag" }, rfl, rfl⟩, trivial⟩
  have hok : ((withObjects d fun kv codec =>
      Access.put kv codec o).exec emptyDepot.2).1.isOk = true := by decide +kernel
  rcases hput : (withObjects d fun kv codec =>
    Access.put kv codec o).exec emptyDepot.2 with ⟨_ | _, w'⟩
  · rw [hput] at hok
    cases hok
  · have hnodup : (o.records.map Record.uid).Nodup := by decide +kernel
    obtain ⟨-, -, hsize, hfound⟩ := kept_of_put (g := g) rfl rfl hw rfl rfl hput
    exact ⟨w', rfl, hsize.mpr hnodup, hfound.mpr hnodup⟩

/-- Without a condition on the record ids a put that succeeds may lose a record: there are fewer entries
than records and metadata, and a get answers another object. -/
theorem lost_of_put :
    ¬ ∀ (d : Depot) (handle : Handle) (w w' : World) (o : DataObject) (g : String),
      d.phase = .ready handle → d.codec = .cbor → Healthy handle w → o.groupKey? = some g →
      (content handle w).under g = ∅ →
      (withObjects d fun kv codec => Access.put kv codec o).exec w = (.ok (), w') →
      ((content handle w').under g).size = 1 + o.records.length ∧
        ((withObjects d fun kv codec => Access.get kv codec g).exec w').1 = .ok o := by
  intro hall
  have hw : Healthy (.direct 0) emptyDepot.2 := ⟨⟨{ id := "drag" }, rfl, rfl⟩, trivial⟩
  have hlost : ((withObjects emptyDepot.1 fun kv codec =>
      Access.put kv codec repeated).exec emptyDepot.2).1.isOk = true ∧
    ((content (.direct 0) ((withObjects emptyDepot.1 fun kv codec =>
      Access.put kv codec repeated).exec emptyDepot.2).2).under
        "udmf://drag/com.example.test/g").size = 2 := by
    decide +kernel
  obtain ⟨hok, hsize⟩ := hlost
  rcases hput : (withObjects emptyDepot.1 fun kv codec =>
    Access.put kv codec repeated).exec emptyDepot.2 with ⟨_ | _, w'⟩
  · rw [hput] at hok
    cases hok
  · rw [hput] at hsize
    obtain ⟨hkept, -⟩ := hall emptyDepot.1 (.direct 0) emptyDepot.2 w' repeated
      "udmf://drag/com.example.test/g" rfl rfl hw rfl rfl hput
    -- Two records and the metadata would be three entries, and there are two.
    rw [hsize] at hkept
    exact absurd hkept (by decide)

end World

end ObjectStore
