import Mathlib.Algebra.GroupWithZero.Nat
import Mathlib.Algebra.Order.BigOperators.Group.List
import Mathlib.Algebra.Order.Group.Nat
import Mathlib.Data.List.Induction
import ObjectStore.Object.Basic
import ObjectStore.Object.Summary
import ObjectStore.Proofs.SortedMap

/-!
# What summaries count

A summary is built one record after the other, with a counter for each kind and one for all records. It
is determined by the sums that it stands for (`Summary.Counts`), which do not depend on the order of the
records, and the summary of two lists one after the other adds up counter by counter.

Main statements: `counts_ofRecords`, `ofRecords_perm` and `get?_ofRecords_append`.
-/

namespace ObjectStore

/-! ## Sums of values -/

namespace SortedMap

variable {κ : Type} [Ord κ] [DecidableEq κ] [Std.TransOrd κ] [Std.LawfulEqOrd κ]

/-- The values of a map are the value under a key and those under the others. -/
theorem sum_values_insert (m : SortedMap κ Nat) (k : κ) (n : Nat) :
    (m.insert k n).values.sum = n + (m.erase k).values.sum := by
  have hperm := (perm_entries_insert m k n).map (·.2)
  rw [values, hperm.sum_nat, List.map_cons, List.sum_cons, values]

/-- What is added to a counter is added to the sum of all counters, also where the counter is new. -/
theorem sum_values_add (m : SortedMap κ Nat) (k : κ) (n : Nat) :
    (m.insert k ((m.get? k).getD 0 + n)).values.sum = m.values.sum + n := by
  have hold : m.values.sum = (m.get? k).getD 0 + (m.erase k).values.sum := by
    cases hget : m.get? k with
    | none => rw [erase_of_get? hget, Option.getD_none, Nat.zero_add]
    | some n' =>
        have hsum := sum_values_insert m k n'
        rwa [insert_of_get? hget] at hsum
  rw [sum_values_insert, hold]
  omega

end SortedMap

namespace Kind

theorem identifier_injective : Function.Injective identifier := by
  intro k k' h
  have hfound := ofIdentifier?_identifier k
  rw [h, ofIdentifier?_identifier] at hfound
  exact (Option.some.inj hfound).symm

end Kind

namespace Summary

/-- The records of a kind. -/
def ofKind (k : Kind) (rs : List Record) : List Record :=
  rs.filter fun r => r.kind = k

theorem ofKind_append (k : Kind) (rs rs' : List Record) :
    ofKind k (rs ++ rs') = ofKind k rs ++ ofKind k rs' :=
  List.filter_append ..

@[simp]
theorem ofKind_singleton (k : Kind) (r : Record) :
    ofKind k [r] = if r.kind = k then [r] else [] := by
  by_cases hk : r.kind = k <;> simp [ofKind, hk]

theorem ofKind_eq_nil_iff {k : Kind} {rs : List Record} :
    ofKind k rs = [] ↔ k ∉ rs.map Record.kind := by
  simp [ofKind, List.filter_eq_nil_iff]

/-! ## One record more -/

theorem ofRecords_concat (rs : List Record) (r : Record) :
    ofRecords (rs ++ [r]) = (ofRecords rs).add r := by
  rw [ofRecords, List.foldl_append]
  rfl

theorem get?_add (s : Summary) (r : Record) (i : String) :
    (s.add r).sizes.get? i =
      if i = r.kind.identifier then some ((s.sizes.get? i).getD 0 + r.byteSize)
      else s.sizes.get? i := by
  rw [add, SortedMap.get?_insert]
  split
  · rename_i h
    rw [h]
  · rfl

theorem total_ofRecords (rs : List Record) :
    (ofRecords rs).total = totalSize Record.byteSize rs := by
  induction rs using List.reverseRecOn with
  | nil => rfl
  | append_singleton rs r ih => simp [ofRecords_concat, add, ih]

/-- The counters of the kinds add up to the counter of all records. -/
theorem sum_values_ofRecords (rs : List Record) :
    (ofRecords rs).sizes.values.sum = (ofRecords rs).total := by
  induction rs using List.reverseRecOn with
  | nil => rfl
  | append_singleton rs r ih =>
      rw [ofRecords_concat]
      show (SortedMap.insert _ _ _).values.sum = (ofRecords rs).total + r.byteSize
      rw [SortedMap.sum_values_add, ih]

/-- A kind has a counter if one of the records is of this kind, also if their sizes are zero. -/
theorem get?_ofRecords (rs : List Record) (k : Kind) :
    (ofRecords rs).sizes.get? k.identifier =
      if k ∈ rs.map Record.kind then some (totalSize Record.byteSize (ofKind k rs)) else none := by
  induction rs using List.reverseRecOn with
  | nil => rfl
  | append_singleton rs r ih =>
      rw [ofRecords_concat, get?_add, ih, ofKind_append, totalSize_append]
      by_cases hk : r.kind = k
      · -- The record counts: its size comes to what was counted of the kind, or to nothing.
        subst hk
        by_cases hmem : r.kind ∈ rs.map Record.kind
        · simp [hmem]
        · simp [ofKind_eq_nil_iff.mpr hmem, hmem]
      · have hne : k.identifier ≠ r.kind.identifier :=
          fun h => hk (Kind.identifier_injective h).symm
        simp [hne, hk, Ne.symm hk]

/-- Nothing but identifiers of kinds has a counter. -/
theorem exists_kind_of_get?_ofRecords {rs : List Record} {i : String} {n : Nat}
    (h : (ofRecords rs).sizes.get? i = some n) : ∃ k : Kind, k.identifier = i := by
  induction rs using List.reverseRecOn generalizing n with
  | nil => cases h
  | append_singleton rs r ih =>
      rw [ofRecords_concat, get?_add] at h
      split at h
      · rename_i hi
        exact ⟨r.kind, hi.symm⟩
      · exact ih h

/-! ## What a summary stands for -/

/-- A summary of the records: each kind that occurs has its sum under its identifier, and nothing else
has one. -/
structure Counts (s : Summary) (rs : List Record) : Prop where
  /-- The keys are the identifiers of the kinds that occur. -/
  keys : ∀ i, i ∈ s.sizes.keys ↔ ∃ r ∈ rs, r.kind.identifier = i
  /-- Under each of them is the sum of the sizes of the records of the kind. -/
  sizes : ∀ r ∈ rs, s.sizes.get? r.kind.identifier =
    some (totalSize Record.byteSize (ofKind r.kind rs))
  /-- The total is the sum of the sizes of all records. -/
  total : s.total = totalSize Record.byteSize rs
  /-- The values add up to it. -/
  sum_values : s.sizes.values.sum = s.total

/-- No counter is ever above the counter of all records. -/
theorem Counts.le_total {s : Summary} {rs : List Record} (h : s.Counts rs) {n : Nat}
    (hn : n ∈ s.sizes.values) : n ≤ s.total := by
  rw [← h.sum_values]
  exact List.le_sum_of_mem hn

theorem counts_ofRecords (rs : List Record) : (ofRecords rs).Counts rs where
  keys i := by
    rw [SortedMap.mem_keys_iff, Option.isSome_iff_exists]
    constructor
    · intro h
      obtain ⟨n, hn⟩ := h
      obtain ⟨k, rfl⟩ := exists_kind_of_get?_ofRecords hn
      rw [get?_ofRecords] at hn
      split at hn
      · rename_i hmem
        obtain ⟨r, hr, rfl⟩ := List.mem_map.mp hmem
        exact ⟨r, hr, rfl⟩
      · cases hn
    · intro h
      obtain ⟨r, hr, rfl⟩ := h
      rw [get?_ofRecords, if_pos (List.mem_map_of_mem hr)]
      exact ⟨_, rfl⟩
  sizes r hr := by
    rw [get?_ofRecords, if_pos (List.mem_map_of_mem hr)]
  total := total_ofRecords rs
  sum_values := sum_values_ofRecords rs

/-- The records determine the summary. -/
theorem Counts.unique {s s' : Summary} {rs : List Record} (h : s.Counts rs) (h' : s'.Counts rs) :
    s = s' := by
  have hsizes : s.sizes = s'.sizes := by
    apply SortedMap.ext_get?
    intro i
    by_cases hi : ∃ r ∈ rs, r.kind.identifier = i
    · obtain ⟨r, hr, rfl⟩ := hi
      rw [h.sizes r hr, h'.sizes r hr]
    · have hnone : s.sizes.get? i = none := by
        rw [← Option.not_isSome_iff_eq_none, ← SortedMap.mem_keys_iff, h.keys]
        exact hi
      have hnone' : s'.sizes.get? i = none := by
        rw [← Option.not_isSome_iff_eq_none, ← SortedMap.mem_keys_iff, h'.keys]
        exact hi
      rw [hnone, hnone']
  have htotal : s.total = s'.total := by rw [h.total, h'.total]
  obtain ⟨sizes, total⟩ := s
  obtain ⟨sizes', total'⟩ := s'
  simp only at hsizes htotal
  rw [hsizes, htotal]

/-- The order of the records does not matter to what a summary stands for. -/
theorem Counts.perm {s : Summary} {rs rs' : List Record} (h : s.Counts rs) (hperm : rs.Perm rs') :
    s.Counts rs' where
  keys i := by
    rw [h.keys]
    exact exists_congr fun r => and_congr_left' hperm.mem_iff
  sizes r hr := by
    rw [h.sizes r (hperm.mem_iff.mpr hr)]
    congr 1
    exact totalSize_perm _ (hperm.filter _)
  total := by rw [h.total, totalSize_perm _ hperm]
  sum_values := h.sum_values

theorem ofRecords_perm {rs rs' : List Record} (hperm : rs.Perm rs') :
    ofRecords rs = ofRecords rs' :=
  ((counts_ofRecords rs).perm hperm).unique (counts_ofRecords rs')

/-! ## Two lists one after the other -/

theorem total_ofRecords_append (rs rs' : List Record) :
    (ofRecords (rs ++ rs')).total = (ofRecords rs).total + (ofRecords rs').total := by
  simp [total_ofRecords]

/-- Counters add up; where only one of two lists has a counter, it stays. -/
theorem get?_ofRecords_append (rs rs' : List Record) (i : String) :
    (ofRecords (rs ++ rs')).sizes.get? i =
      ((ofRecords rs).sizes.get? i).merge (· + ·) ((ofRecords rs').sizes.get? i) := by
  induction rs' using List.reverseRecOn with
  | nil =>
      rw [List.append_nil]
      show _ = Option.merge _ _ none
      rw [Option.merge_none_right]
  | append_singleton rs' r ih =>
      rw [← List.append_assoc, ofRecords_concat, ofRecords_concat, get?_add, get?_add, ih]
      split
      · cases (ofRecords rs).sizes.get? i <;> cases (ofRecords rs').sizes.get? i <;>
          simp [Nat.add_assoc]
      · rfl

end Summary

end ObjectStore
