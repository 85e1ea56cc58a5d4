import ObjectStore.Object.Sample
import ObjectStore.Proofs.Depot.Refinement
import ObjectStore.Proofs.World.Healthy

/-!
# Depots refine histories

A depot on a handle that works answers what the history of its changes says, however its table came to
be: over any number of changes that all succeeded, the table reflects the history.

Main statement: `get_of_perform`.
-/

namespace ObjectStore.World

open ObjectStore.Action Access

/-- Carries out changes through a depot, one after the other, up to the first that fails. -/
def perform (d : Depot) (edits : List Edit) : Action World DepotError Unit :=
  forM edits fun edit => withObjects d fun kv codec => edit.act kv codec

variable {d : Depot} {handle : Handle} {w : World}

/-- The table reflects all changes that were carried out. -/
theorem ensures_perform (hphase : d.phase = .ready handle) (hcodec : d.codecFaults = none)
    (hw : Healthy handle w) {edits edits' : List Edit} (h : Reflects (content handle w) edits)
    (hkeyed : ∀ edit ∈ edits', edit.isKeyed = true) :
    (perform d edits').Ensures w
      (fun _ w' => Healthy handle w' ∧ Reflects (content handle w') (edits ++ edits'))
      fun _ _ => True := by
  induction edits' generalizing w edits with
  | nil =>
      rw [List.append_nil]
      exact ensures_pure ⟨hw, h⟩
  | cons edit edits' ih =>
      -- The first change is reflected before the others begin.
      have hact := ensures_act (lawful_healthy handle) hw h (hkeyed edit List.mem_cons_self)
      unfold perform
      rw [List.forM_cons, withObjects_of_ready hphase hcodec]
      refine hact.bind ?_
      rintro _ w' ⟨hw', h'⟩
      rw [List.append_cons]
      exact ih hw' h' fun edit' hedit' => hkeyed edit' (List.mem_cons_of_mem edit hedit')

/-- Changes leave a handle working. -/
theorem healthy_of_perform (hphase : d.phase = .ready handle) (hcodec : d.codecFaults = none)
    (hw : Healthy handle w) (edits : List Edit) :
    (perform d edits).Ensures w (fun _ w' => Healthy handle w') fun _ _ => True := by
  induction edits generalizing w with
  | nil => exact ensures_pure hw
  | cons edit edits ih =>
      unfold perform
      rw [List.forM_cons, withObjects_of_ready hphase hcodec]
      have hact := good_of_act (lawful_healthy handle) (closedUnderAccess_true .cbor)
        (fun _ => trivial) hw edit
      exact (hact.weaken (fun _ _ h => h) fun _ _ _ => trivial).bind fun _ w' hw' => ih hw'

/-- After an update that came last, the group of the object holds the object alone. -/
theorem ensures_perform_update (hphase : d.phase = .ready handle) (hcodec : d.codecFaults = none)
    (hw : Healthy handle w) (edits : List Edit) (o : DataObject) :
    (perform d (edits ++ [.update o])).Ensures w
      (fun _ w' => Healthy handle w' ∧
        ∃ g, o.groupKey? = some g ∧ (ObjectKey.parse? g).isSome ∧ Keeps g (content handle w') [o])
      fun _ _ => True := by
  unfold perform
  rw [List.forM_append, List.forM_cons, withObjects_of_ready hphase hcodec]
  refine (healthy_of_perform hphase hcodec hw edits).bind fun _ w' hw' => ?_
  refine (ensures_act_update (lawful_healthy handle) hw' o).bind ?_
  rintro _ w'' hw''
  exact ensures_pure hw''

/-- A depot that started with nothing answers under every group key the object of its history. Where an
update came last, that is the object that was updated, whatever the depot held before. -/
theorem get_of_perform {w' : World} {edits : List Edit} (hphase : d.phase = .ready handle)
    (hcodec : d.codecFaults = none) (hw : Healthy handle w)
    (hrun : (perform d edits).exec w = (.ok (), w')) :
    (content handle w = ∅ → (∀ edit ∈ edits, edit.isKeyed = true) →
      ∀ g, (ObjectKey.parse? g).isSome →
        ((withObjects d fun kv codec => Access.get kv codec g).exec w').1 =
          .ok (History.object g edits)) ∧
      ∀ before o g, edits = before ++ [.update o] → o.groupKey? = some g →
        (o.records.map Record.uid).Nodup →
        ((withObjects d fun kv codec => Access.get kv codec g).exec w').1 = .ok o := by
  constructor
  · intro hempty hkeyed g hg
    have hreflects : Reflects (content handle w) [] := by
      rw [hempty]
      exact reflects_empty
    have hperform := ensures_perform hphase hcodec hw hreflects hkeyed
    -- All changes have succeeded, so that the whole history is reflected.
    obtain ⟨hw', hreflects'⟩ := (ensures_iff.mp hperform).1 () w' hrun
    rw [get_of_healthy hphase hcodec hw' g]
    exact object_of_reflects hreflects' hg
  · rintro before o g rfl hgroup hnodup
    have hperform := ensures_perform_update hphase hcodec hw before o
    obtain ⟨hw', g', hgroup', hg, hkeeps⟩ := (ensures_iff.mp hperform).1 () w' hrun
    rw [hgroup, Option.some.injEq] at hgroup'
    -- The group holds one object, and its records come back in the order in which it has them.
    subst hgroup'
    rw [get_of_healthy hphase hcodec hw' g, History.object_of_under hg hkeeps.written hkeeps.under,
      History.overlaid_singleton hnodup]

/-- A put, a removal of another group, a put over the first and an update, from nothing in memory. -/
theorem get_of_perform_sample :
    let d : Depot := { id := "drag", manager := 0, managerName := "m", phase := .ready (.direct 0) }
    let w : World := { next := 1, engines := SortedMap.ofList [(0, { id := "drag" })] }
    let g := "udmf://drag/com.example.test/g"
    let edits : List Edit :=
      [.put (DataObject.sample "g" 3), .delete "udmf://drag/com.example.test/h",
        .put (DataObject.sample "g" 1), .update (DataObject.sample "g" 2)]
    ∃ w', (perform d edits).exec w = (.ok (), w') ∧
      ((withObjects d fun kv codec => Access.get kv codec g).exec w').1 =
        .ok (History.object g edits) ∧
      ((withObjects d fun kv codec => Access.get kv codec g).exec w').1 =
        .ok (DataObject.sample "g" 2) := by
  intro d w g edits
  have hw : Healthy (.direct 0) w := ⟨⟨{ id := "drag" }, rfl, rfl⟩, trivial⟩
  have hok : ((perform d edits).exec w).1.isOk = true := by decide +kernel
  rcases hrun : (perform d edits).exec w with ⟨_ | _, w'⟩
  · rw [hrun] at hok
    cases hok
  · have hget := get_of_perform rfl rfl hw hrun
    refine ⟨w', rfl, ?_, ?_⟩
    · exact hget.1 rfl (by decide +kernel) g (by decide +kernel)
    · exact hget.2 (edits.take 3) (DataObject.sample "g" 2) g rfl (by decide +kernel) (by decide +kernel)

end ObjectStore.World
