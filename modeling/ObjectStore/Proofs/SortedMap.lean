import ObjectStore.SortedMap

/-!
# Answers and listings of sorted maps

What each way of making a sorted map answers, and how answers and listing hang together.

Main statements: `get?_filter`, and `ofList_entries`, that the listing of a map makes the map again.
-/

namespace ObjectStore.SortedMap

variable {κ ν : Type} [Ord κ]

@[simp]
theorem get?_empty (k : κ) : (∅ : SortedMap κ ν).get? k = none := rfl

theorem get?_map {ν' : Type} (f : ν → ν') (m : SortedMap κ ν) (k : κ) :
    (m.map f).get? k = (m.get? k).map f := by
  simp [map, get?, List.find?_map, Function.comp_def]

/-- Two maps with the same listing are equal. -/
theorem ext_entries {m n : SortedMap κ ν} (h : m.entries = n.entries) : m = n := by
  cases m
  cases n
  subst h
  rfl

section Laws

variable [Std.TransOrd κ] [Std.LawfulEqOrd κ]

theorem get?_filter (p : κ → ν → Bool) (m : SortedMap κ ν) (k : κ) :
    (m.filter p).get? k = (m.get? k).filter (p k) := by
  ext v
  rw [get?_eq_some_iff, Option.filter_eq_some_iff, get?_eq_some_iff]
  exact List.mem_filter

/-- What is left after a removal was there before. -/
theorem get?_of_get?_erase [DecidableEq κ] {m : SortedMap κ ν} {k k' : κ} {v : ν}
    (h : (m.erase k).get? k' = some v) : m.get? k' = some v := by
  rw [get?_erase] at h
  split at h
  · cases h
  · exact h

theorem mem_values_iff {m : SortedMap κ ν} {v : ν} : v ∈ m.values ↔ ∃ k, m.get? k = some v := by
  simp only [values, List.mem_map, Prod.exists, get?_eq_some_iff]
  constructor
  · rintro ⟨k, v', hmem, rfl⟩
    exact ⟨k, hmem⟩
  · rintro ⟨k, hmem⟩
    exact ⟨k, v, hmem, rfl⟩

theorem mem_keys_iff {m : SortedMap κ ν} {k : κ} : k ∈ m.keys ↔ (m.get? k).isSome := by
  simp only [keys, List.mem_map, Prod.exists, Option.isSome_iff_exists, get?_eq_some_iff]
  constructor
  · rintro ⟨k', v, hmem, rfl⟩
    exact ⟨v, hmem⟩
  · rintro ⟨v, hmem⟩
    exact ⟨k, v, hmem, rfl⟩

omit [Std.TransOrd κ] in
theorem nodup_keys (m : SortedMap κ ν) : m.keys.Nodup := by
  rw [keys, List.nodup_iff_pairwise_ne, List.pairwise_map]
  refine m.sorted.imp fun {a b} hlt heq => ?_
  rw [heq] at hlt
  simp at hlt

theorem insert_of_get? [DecidableEq κ] {m : SortedMap κ ν} {k : κ} {v : ν} (h : m.get? k = some v) :
    m.insert k v = m := by
  apply ext_get?
  intro k'
  rw [get?_insert]
  split
  · rename_i heq
    rw [heq, h]
  · rfl

theorem erase_of_get? [DecidableEq κ] {m : SortedMap κ ν} {k : κ} (h : m.get? k = none) :
    m.erase k = m := by
  apply ext_get?
  intro k'
  rw [get?_erase]
  split
  · rename_i heq
    rw [heq, h]
  · rfl

omit [Std.TransOrd κ] in
theorem nodup_entries (m : SortedMap κ ν) : m.entries.Nodup :=
  List.Pairwise.of_map Prod.fst (fun _ _ hne heq => hne (congrArg Prod.fst heq)) (nodup_keys m)

/-- A map lists the pair that was put, and apart from its key what it listed before. -/
theorem perm_entries_insert [DecidableEq κ] (m : SortedMap κ ν) (k : κ) (v : ν) :
    (m.insert k v).entries.Perm ((k, v) :: (m.erase k).entries) := by
  have hnew : (k, v) ∉ (m.erase k).entries := by
    rw [← get?_eq_some_iff, get?_erase, if_pos rfl]
    simp
  rw [List.perm_ext_iff_of_nodup (nodup_entries _) (List.nodup_cons.mpr ⟨hnew, nodup_entries _⟩)]
  rintro ⟨k', v'⟩
  rw [List.mem_cons, ← get?_eq_some_iff, ← get?_eq_some_iff, get?_insert, get?_erase]
  by_cases h : k' = k
  · simp [h, eq_comm]
  · simp [h]

/-- A key that is there counts as one. -/
theorem size_of_get? [DecidableEq κ] {m : SortedMap κ ν} {k : κ} {v : ν} (h : m.get? k = some v) :
    m.size = (m.erase k).size + 1 := by
  have hperm := perm_entries_insert m k v
  rw [insert_of_get? h] at hperm
  simpa [size] using hperm.length_eq

/-! ## Making a map from its listing -/

omit [Std.LawfulEqOrd κ] in
/-- A key above all keys of a list goes to its end. -/
theorem insertInto_of_forall_lt {k : κ} {v : ν} {es : List (κ × ν)}
    (h : ∀ e ∈ es, compare e.1 k = .lt) : insertInto k v es = es ++ [(k, v)] := by
  induction es with
  | nil => rfl
  | cons e es ih =>
    have hgt : compare k e.1 = .gt := Std.OrientedCmp.gt_of_lt (h e List.mem_cons_self)
    have hes := ih fun e' he' => h e' (List.mem_cons_of_mem e he')
    simp only [insertInto, hgt, hes, List.cons_append]

theorem entries_insertAll (m : SortedMap κ ν) {es : List (κ × ν)}
    (h : (m.entries ++ es).Pairwise fun a b => compare a.1 b.1 = .lt) :
    (m.insertAll es).entries = m.entries ++ es := by
  induction es generalizing m with
  | nil => simp [insertAll]
  | cons e es ih =>
    have hlt : ∀ e' ∈ m.entries, compare e'.1 e.1 = .lt := fun e' he' =>
      (List.pairwise_append.mp h).2.2 e' he' e List.mem_cons_self
    have hinsert : (m.insert e.1 e.2).entries = m.entries ++ [e] := insertInto_of_forall_lt hlt
    have hstep : m.insertAll (e :: es) = (m.insert e.1 e.2).insertAll es := rfl
    rw [hstep, ih _ (by simpa [hinsert] using h), hinsert]
    simp

/-- The listing of a map makes the map again. -/
theorem ofList_entries (m : SortedMap κ ν) : ofList m.entries = m := by
  apply ext_entries
  have hsorted : ((empty : SortedMap κ ν).entries ++ m.entries).Pairwise
      fun a b => compare a.1 b.1 = .lt := by
    simpa [empty] using m.sorted
  have h := entries_insertAll empty hsorted
  simpa [ofList, empty] using h

end Laws

end ObjectStore.SortedMap
