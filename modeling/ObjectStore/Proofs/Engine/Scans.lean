import Mathlib.Data.List.Induction
import ObjectStore.Engine.Log
import ObjectStore.Proofs.Engine.Table

/-!
# What is live in a table

A batch changes one key after the other, so the batches that a table comes from are one list of changes.
What is under a key is decided by the last change of this key alone: it is live with a value if that
change has put this value.

Main statement: `scan_live`, that a scan gives the live entries whose keys start with the given bytes,
each of them once and in key order.
-/

namespace ObjectStore

/-- The changes that a batch makes, in order: to each key a value that is put there, or none if the key
is deleted. -/
def Batch.changes : Batch → List (Bytes × Option Bytes)
  | .put entries => entries.map fun e => (e.key, some e.value)
  | .delete keys => keys.map fun k => (k, none)

/-- The changes of all batches, in batch-and-position order. -/
def Log.history (batches : List Batch) : List (Bytes × Option Bytes) :=
  batches.flatMap Batch.changes

namespace Table

/-- Makes one change. -/
def change (t : Table) : Bytes × Option Bytes → Table
  | (k, some v) => t.insert k v
  | (k, none) => t.erase k

theorem get?_change (t : Table) (c : Bytes × Option Bytes) (k : Bytes) :
    (t.change c).get? k = if k = c.1 then c.2 else t.get? k := by
  obtain ⟨k', v?⟩ := c
  cases v? with
  | none => exact SortedMap.get?_erase t k' k
  | some v => exact SortedMap.get?_insert t k' v k

theorem apply_eq_foldl (t : Table) (b : Batch) : t.apply b = b.changes.foldl change t := by
  cases b with
  | put entries =>
      rw [Batch.changes, List.foldl_map]
      rfl
  | delete keys =>
      rw [Batch.changes, List.foldl_map]
      rfl

theorem replay_eq_foldl (batches : List Batch) :
    Log.replay batches = (Log.history batches).foldl change ∅ := by
  rw [Log.replay, Log.history, List.foldl_flatMap]
  congr 1
  funext t b
  exact apply_eq_foldl t b

/-! ## The last change of a key -/

/-- The last of the changes that speaks of the key puts the value there. -/
def Live (changes : List (Bytes × Option Bytes)) (k v : Bytes) : Prop :=
  ∃ before after, changes = before ++ (k, some v) :: after ∧ ∀ c ∈ after, c.1 ≠ k

theorem not_live_nil (k v : Bytes) : ¬Live [] k v := by
  intro h
  obtain ⟨before, after, heq, -⟩ := h
  simp at heq

/-- One more change decides what it speaks of and leaves everything else as it was. -/
theorem live_concat_iff {changes : List (Bytes × Option Bytes)} {c : Bytes × Option Bytes}
    {k v : Bytes} :
    Live (changes ++ [c]) k v ↔ if k = c.1 then c.2 = some v else Live changes k v := by
  constructor
  · intro h
    obtain ⟨before, after, heq, hafter⟩ := h
    -- The change that counts is the new one, or the new one comes later and speaks of another key.
    rcases List.eq_nil_or_concat after with rfl | ⟨after, c', rfl⟩
    · obtain ⟨-, hc⟩ := List.append_inj' heq rfl
      obtain rfl : c = (k, some v) := by simpa using hc
      simp
    · rw [List.concat_eq_append] at heq hafter
      rw [← List.cons_append, ← List.append_assoc] at heq
      obtain ⟨hchanges, hc⟩ := List.append_inj' heq rfl
      obtain rfl : c = c' := by simpa using hc
      have hother : c.1 ≠ k := hafter c (by simp)
      rw [if_neg hother.symm]
      exact ⟨before, after, hchanges, fun d hd => hafter d (List.mem_append_left _ hd)⟩
  · intro h
    split at h
    · rename_i hkey
      have hc : c = (k, some v) := Prod.ext hkey.symm h
      exact ⟨changes, [], by rw [hc], by simp⟩
    · rename_i hkey
      obtain ⟨before, after, rfl, hafter⟩ := h
      refine ⟨before, after ++ [c], by simp, fun d hd => ?_⟩
      rcases List.mem_append.mp hd with hd | hd
      · exact hafter d hd
      · rw [List.mem_singleton.mp hd]
        exact fun heq => hkey heq.symm

/-- A table answers what is live. -/
theorem get?_foldl_change (changes : List (Bytes × Option Bytes)) (k v : Bytes) :
    (changes.foldl change ∅).get? k = some v ↔ Live changes k v := by
  induction changes using List.reverseRecOn with
  | nil => simp [not_live_nil]
  | append_singleton changes c ih =>
      rw [List.foldl_append, List.foldl_cons, List.foldl_nil, get?_change, live_concat_iff]
      split
      · rfl
      · exact ih

/-! ## Scans -/

/-- Keys stand in a scan as they stand in the table: one below the other. -/
theorem ascending_scan (t : Table) (front : Bytes) :
    ((t.scan front).map Entry.key).Pairwise fun k k' => compare k k' = .lt := by
  rw [scan_eq_filter, List.map_map, List.pairwise_map]
  exact t.sorted.filter _

/-- No key stands in a scan twice. -/
theorem nodup_scan (t : Table) (front : Bytes) : ((t.scan front).map Entry.key).Nodup := by
  apply (ascending_scan t front).imp
  intro k k' hlt heq
  subst heq
  simp at hlt

/-- Whatever batches a table comes from, a scan gives exactly the live entries whose keys start with the
given bytes, each key once, in strictly ascending order. -/
theorem scan_live (batches : List Batch) (front : Bytes) :
    (∀ e, e ∈ (Log.replay batches).scan front ↔
      front <+: e.key ∧ Live (Log.history batches) e.key e.value) ∧
    (((Log.replay batches).scan front).map Entry.key).Nodup ∧
    (((Log.replay batches).scan front).map Entry.key).Pairwise fun k k' => compare k k' = .lt := by
  refine ⟨fun e => ?_, nodup_scan _ front, ascending_scan _ front⟩
  rw [mem_scan_iff, replay_eq_foldl, get?_foldl_change]
  exact And.comm

/-- Within one batch the later entry counts, and a later batch can delete it. -/
example :
    ((Log.replay [.put [⟨[1], [0]⟩, ⟨[1, 255], [2]⟩, ⟨[1], [3]⟩, ⟨[], [4]⟩, ⟨[1, 0], [5]⟩, ⟨[2], [6]⟩],
      .delete [[1, 0], [9]]]).scan [1]) = [⟨[1], [3]⟩, ⟨[1, 255], [2]⟩] := by
  decide

end Table

end ObjectStore
