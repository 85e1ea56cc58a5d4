import ObjectStore.Engine.Table
import ObjectStore.Proofs.SortedMap

/-!
# What tables answer

The keys that start with given bytes stand next to each other in key order, so a scan finds all of
them and nothing else, and a delete of what a scan has found filters the table.

Main statements: `scan_eq_filter`, `applyDelete_scan`, and `filter_applyPut`, that what is put and
what is kept can be told apart key by key.
-/

namespace ObjectStore

/-! ## Keys with a common front part -/

namespace Bytes

/-- A front part does not come after the whole. -/
theorem compare_ne_lt_of_isPrefix {front k : Bytes} (h : front <+: k) : compare k front ≠ .lt := by
  induction front generalizing k with
  | nil => cases k <;> simp
  | cons f front ih =>
      obtain ⟨rest, rfl⟩ := h
      have hself : compare f f = .eq := Std.ReflCmp.compare_self
      rw [List.cons_append, List.compare_cons_cons, hself]
      exact ih (List.prefix_append front rest)

/-- What lies between a front part and a whole starts with the front part too. -/
theorem isPrefix_of_between {front a b : Bytes} (hfront : compare a front ≠ .lt)
    (hab : compare a b = .lt) (hb : front <+: b) : front <+: a := by
  induction front generalizing a b with
  | nil => exact List.nil_prefix
  | cons f front ih =>
      obtain ⟨rest, rfl⟩ := hb
      cases a with
      | nil => simp at hfront
      | cons c a =>
          rw [List.compare_cons_cons] at hfront
          rw [List.cons_append, List.compare_cons_cons] at hab
          -- The first byte is at least `f` and at most `f`.
          cases hcf : compare c f with
          | lt => simp [hcf] at hfront
          | gt => simp [hcf] at hab
          | eq =>
              have hc : c = f := Std.LawfulEqCmp.eq_of_compare hcf
              subst hc
              rw [hcf] at hfront hab
              have ha := ih hfront hab (List.prefix_append front rest)
              exact List.cons_prefix_cons.mpr ⟨rfl, ha⟩

end Bytes

namespace Table

/-! ## Scans -/

/-- The pair of a key and a value as an entry. -/
def entryOf (e : Bytes × Bytes) : Entry where
  key := e.1
  value := e.2

@[simp]
theorem key_entryOf (e : Bytes × Bytes) : (entryOf e).key = e.1 := rfl

@[simp]
theorem value_entryOf (e : Bytes × Bytes) : (entryOf e).value = e.2 := rfl

private theorem takeWhile_startsWith {front : Bytes} {es : List (Bytes × Bytes)}
    (hsorted : es.Pairwise fun a b => compare a.1 b.1 = .lt)
    (hfront : ∀ e ∈ es, compare e.1 front ≠ .lt) :
    es.takeWhile (fun e => e.1.startsWith front) = es.filter fun e => e.1.startsWith front := by
  induction es with
  | nil => rfl
  | cons e es ih =>
      obtain ⟨hhead, htail⟩ := List.pairwise_cons.mp hsorted
      have hes := ih htail fun e' he' => hfront e' (List.mem_cons_of_mem e he')
      cases hstarts : Bytes.startsWith e.1 front with
      | true => simp only [List.takeWhile_cons, List.filter_cons, hstarts, if_true, hes]
      | false =>
          -- No later key starts with `front` either, because the head would stand between.
          have hrest : es.filter (fun e' => e'.1.startsWith front) = [] := by
            rw [List.filter_eq_nil_iff]
            intro e' he' hstarts'
            have hprefix := Bytes.isPrefix_of_between (hfront e List.mem_cons_self) (hhead e' he')
              (Bytes.startsWith_iff.mp hstarts')
            rw [Bytes.startsWith_iff.mpr hprefix] at hstarts
            cases hstarts
          simp [hstarts, hrest]

private theorem takeWhile_dropWhile_startsWith (front : Bytes) {es : List (Bytes × Bytes)}
    (hsorted : es.Pairwise fun a b => compare a.1 b.1 = .lt) :
    ((es.dropWhile fun e => compare e.1 front == .lt).takeWhile fun e => e.1.startsWith front) =
      es.filter fun e => e.1.startsWith front := by
  induction es with
  | nil => rfl
  | cons e es ih =>
      obtain ⟨hhead, htail⟩ := List.pairwise_cons.mp hsorted
      by_cases hlt : compare e.1 front = .lt
      · -- The head is before `front`, so it is passed over and does not start with it.
        have hstarts : Bytes.startsWith e.1 front = false := by
          rw [← Bool.not_eq_true]
          intro h
          exact Bytes.compare_ne_lt_of_isPrefix (Bytes.startsWith_iff.mp h) hlt
        rw [List.dropWhile_cons_of_pos (by simp [hlt]), ih htail]
        simp [hstarts]
      -- From here on no key is before `front`.
      · rw [List.dropWhile_cons_of_neg (by simp [hlt])]
        refine takeWhile_startsWith hsorted fun e' he' => ?_
        rcases List.mem_cons.mp he' with rfl | he'
        · exact hlt
        · intro hlt'
          exact hlt (Std.TransCmp.lt_trans (hhead e' he') hlt')

/-- A scan gives exactly the entries whose keys start with `front`. -/
theorem scan_eq_filter (t : Table) (front : Bytes) :
    t.scan front = (t.entries.filter fun e => e.1.startsWith front).map entryOf := by
  unfold scan
  rw [takeWhile_dropWhile_startsWith front t.sorted]
  rfl

theorem mem_scan_iff {t : Table} {front : Bytes} {e : Entry} :
    e ∈ t.scan front ↔ t.get? e.key = some e.value ∧ front <+: e.key := by
  rw [scan_eq_filter, SortedMap.get?_eq_some_iff]
  simp only [List.mem_map, List.mem_filter, Bytes.startsWith_iff]
  constructor
  · rintro ⟨e', ⟨hmem, hstarts⟩, rfl⟩
    exact ⟨hmem, hstarts⟩
  · rintro ⟨hmem, hstarts⟩
    exact ⟨(e.key, e.value), ⟨hmem, hstarts⟩, rfl⟩

/-- A scan for nothing gives everything. -/
theorem scan_nil (t : Table) : t.scan [] = t.entries.map entryOf := by
  rw [scan_eq_filter, List.filter_eq_self.mpr]
  intro e _
  exact Bytes.startsWith_iff.mpr List.nil_prefix

/-! ## Batches and filters -/

theorem applyPut_append (t : Table) (es es' : List Entry) :
    t.applyPut (es ++ es') = (t.applyPut es).applyPut es' :=
  List.foldl_append

/-- What is found after a put was put or was there before. -/
theorem of_get?_applyPut {t : Table} {es : List Entry} {k v : Bytes}
    (h : (t.applyPut es).get? k = some v) :
    (∃ e ∈ es, e.key = k ∧ e.value = v) ∨ t.get? k = some v := by
  rw [get?_applyPut, Option.or_eq_some_iff] at h
  rcases h with h | ⟨-, h⟩
  · obtain ⟨e, hfind, hvalue⟩ := Option.map_eq_some_iff.mp h
    have hmem := List.mem_reverse.mp (List.mem_of_find?_eq_some hfind)
    have hkey := List.find?_some hfind
    exact .inl ⟨e, hmem, of_decide_eq_true hkey, hvalue⟩
  · exact .inr h

theorem contains_applyPut (t : Table) (es : List Entry) (k : Bytes) :
    (t.applyPut es).contains k = true ↔ (∃ e ∈ es, e.key = k) ∨ t.contains k = true := by
  unfold SortedMap.contains
  rw [get?_applyPut, Option.isSome_or, Bool.or_eq_true, Option.isSome_map, List.find?_isSome]
  simp

/-- To delete what a scan has found and a test passes keeps everything else. -/
theorem applyDelete_scan (t : Table) (front : Bytes) (p : Bytes → Bool) :
    t.applyDelete (((t.scan front).map Entry.key).filter p) =
      t.filter fun k _ => !(k.startsWith front && p k) := by
  apply SortedMap.ext_get?
  intro k
  rw [get?_applyDelete, SortedMap.get?_filter]
  -- A key is deleted if it is there and passes both tests.
  have hmem : k ∈ ((t.scan front).map Entry.key).filter p ↔
      (k.startsWith front && p k) = true ∧ (t.get? k).isSome := by
    simp only [List.mem_filter, List.mem_map, mem_scan_iff, Bool.and_eq_true, Bytes.startsWith_iff]
    constructor
    · rintro ⟨⟨e, ⟨hget, hstarts⟩, rfl⟩, hk⟩
      exact ⟨⟨hstarts, hk⟩, by simp [hget]⟩
    · rintro ⟨⟨hstarts, hk⟩, hsome⟩
      obtain ⟨v, hv⟩ := Option.isSome_iff_exists.mp hsome
      exact ⟨⟨{ key := k, value := v }, ⟨hv, hstarts⟩, rfl⟩, hk⟩
  cases hget : t.get? k with
  | none => simp
  | some v =>
      rw [hget] at hmem
      cases htest : k.startsWith front && p k with
      | true =>
          rw [htest] at hmem
          simp [hmem, Option.filter]
      | false =>
          rw [htest] at hmem
          simp [hmem, Option.filter]

/-- Storing and then keeping is keeping and then storing what is kept. -/
theorem filter_applyPut (t : Table) (es : List Entry) (p : Bytes → Bool) :
    (t.applyPut es).filter (fun k _ => p k) =
      applyPut (t.filter fun k _ => p k) (es.filter fun e => p e.key) := by
  apply SortedMap.ext_get?
  intro k
  rw [SortedMap.get?_filter, get?_applyPut, get?_applyPut, SortedMap.get?_filter]
  cases hpk : p k with
  | true =>
      -- The last entry with this key is kept by the filter.
      have hfind : (es.filter fun e => p e.key).reverse.find? (fun e => e.key = k) =
          es.reverse.find? fun e => e.key = k := by
        rw [← List.filter_reverse, List.find?_filter]
        congr 1
        funext e
        by_cases hek : e.key = k
        · simp [hek, hpk]
        · simp [hek]
      rw [hfind]
      cases (es.reverse.find? fun e => e.key = k).map Entry.value <;>
        cases t.get? k <;> simp [Option.filter]
  | false =>
      -- No entry with this key is kept.
      have hfind : (es.filter fun e => p e.key).reverse.find? (fun e => e.key = k) = none := by
        rw [List.find?_eq_none]
        intro e he
        rw [List.mem_reverse, List.mem_filter] at he
        intro hek
        rw [decide_eq_true_eq] at hek
        rw [hek, hpk] at he
        cases he.2
      rw [hfind]
      cases (es.reverse.find? fun e => e.key = k).map Entry.value <;>
        cases t.get? k <;> simp [Option.filter]

end Table

end ObjectStore
