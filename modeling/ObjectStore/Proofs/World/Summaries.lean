import ObjectStore.Object.Sample
import ObjectStore.Proofs.Action
import ObjectStore.Proofs.Object.Summary
import ObjectStore.Proofs.World.Repeats

/-!
# Summaries of stored objects

A summary is never stored: a depot reads the object of a key and counts its records. It reads once, so a
summary fails where the object cannot be read and nowhere else, and it counts what the records of the
object come to.

Main statement: `summary_additive`.
-/

namespace ObjectStore

open ObjectStore.Action

namespace Access

/-- What is said of a key whose summary cannot be made because of an error. -/
def unreadable (key : String) (err : DepotError) : DepotError :=
  let reason := err.message
  .database s!"get {key}: {reason}"

/-- A summary reads the object once, and leaves behind what this read leaves. -/
theorem exec_getSummary {σ : Type} (kv : KeyValue σ) (codec : DataCodec) (key : String) (s : σ) :
    (getSummary kv codec key).exec s =
      match (get kv codec key).exec s with
      | (.ok o, s') => (.ok (Summary.ofRecords o.records), s')
      | (.error err, s') => (.error (unreadable key err), s') := by
  unfold getSummary
  rw [exec_bind, exec_mapError]
  rcases (get kv codec key).exec s with ⟨err | o, s'⟩
  · rfl
  · rfl

end Access

namespace World

/-- A summary has the identifiers of the kinds that occur as its keys and under each of them the sum of
the sizes of the records of this kind; the values add up to the total, which is the size of the object and
which no counter exceeds. It is the same in every order of the records, and that of two lists one after the
other adds up counter by counter. From a depot that is ready, the summary of a key is that of the records
that a read of the key answers, and where this read fails, it is a database error. -/
theorem summary_additive :
    (∀ rs, (Summary.ofRecords rs).Counts rs ∧
      ∀ n ∈ (Summary.ofRecords rs).sizes.values, n ≤ (Summary.ofRecords rs).total) ∧
    (∀ o : DataObject, (Summary.ofRecords o.records).total = o.byteSize) ∧
    (∀ rs rs', rs.Perm rs' → Summary.ofRecords rs = Summary.ofRecords rs') ∧
    (∀ rs rs',
      (Summary.ofRecords (rs ++ rs')).total =
        (Summary.ofRecords rs).total + (Summary.ofRecords rs').total ∧
      ∀ i, (Summary.ofRecords (rs ++ rs')).sizes.get? i =
        ((Summary.ofRecords rs).sizes.get? i).merge (· + ·) ((Summary.ofRecords rs').sizes.get? i)) ∧
    ∀ (w : World) (d : Depot) (handle : Handle) (key : String), d.phase = .ready handle →
      (withObjects d fun kv codec => Access.getSummary kv codec key).exec w =
        match (withObjects d fun kv codec => Access.get kv codec key).exec w with
        | (.ok o, w') => (.ok (Summary.ofRecords o.records), w')
        | (.error err, w') => (.error (Access.unreadable key err), w') := by
  refine ⟨fun rs => ?_, fun o => ?_, fun rs rs' => ?_, fun rs rs' => ?_, fun w d handle key => ?_⟩
  · exact ⟨Summary.counts_ofRecords rs, fun n => (Summary.counts_ofRecords rs).le_total⟩
  · exact Summary.total_ofRecords o.records
  · exact Summary.ofRecords_perm
  · exact ⟨Summary.total_ofRecords_append rs rs', Summary.get?_ofRecords_append rs rs'⟩
  · intro hphase
    rw [withObjects_of_phase hphase, withObjects_of_phase hphase, Access.exec_getSummary]
    rcases (Access.get (keyValue handle) d.codec key).exec w with ⟨err | o, w'⟩
    · rfl
    · rfl

/-- The three records of a stored object are counted, in whatever order. -/
theorem summary_additive_sample :
    let d := emptyDepot.1
    let g := "udmf://drag/com.example.test/g"
    let o := DataObject.sample "g" 3
    ∃ w, (withObjects d fun kv codec => Access.put kv codec o).exec emptyDepot.2 = (.ok (), w) ∧
      ((withObjects d fun kv codec => Access.getSummary kv codec g).exec w).1 =
        .ok (Summary.ofRecords o.records.reverse) := by
  intro d g o
  have hhealthy : Healthy (.direct 0) emptyDepot.2 := ⟨⟨{ id := "drag" }, rfl, rfl⟩, trivial⟩
  have hok : ((withObjects d fun kv codec =>
      Access.put kv codec o).exec emptyDepot.2).1.isOk = true := by decide +kernel
  rcases hput : (withObjects d fun kv codec =>
    Access.put kv codec o).exec emptyDepot.2 with ⟨_ | _, w⟩
  · rw [hput] at hok
    cases hok
  · obtain ⟨hw, hg, hkeeps⟩ := keeps_of_put (g := g) rfl rfl hhealthy rfl rfl hput
    obtain ⟨w', hget, -⟩ := Access.exec_get_of_readable (readable_healthy (.direct 0)) .cbor hw g
    rw [Access.History.object_of_under hg hkeeps.written hkeeps.under,
      Access.History.overlaid_singleton_eq_iff.mpr (by decide +kernel)] at hget
    have hread : (withObjects d fun kv codec => Access.get kv codec g).exec w = (.ok o, w') := hget
    obtain ⟨-, -, hperm, -, hstore⟩ := summary_additive
    refine ⟨w, rfl, ?_⟩
    rw [hperm _ _ (List.reverse_perm o.records), hstore w d (.direct 0) g rfl, hread]

end World

end ObjectStore
