import ObjectStore.Proofs.Depot.Edits
import ObjectStore.Proofs.Depot.Entries

/-!
# Histories of objects

What a store should hold is a matter of its history alone: an object has the metadata with which it was
written last, and of each record id the record that was written last under it, since the object was
last removed or replaced. The records come by their positions, and those at the same position by the
bytes of their ids.

Main statements: `mem_latest_iff`, and `mergeSort_position_eq`, that a stable sort by position of rows
that come by their ids gives that order.
-/

namespace ObjectStore.Access

namespace History

/-- The objects that were written to a group since it was last removed or replaced, after one more
change. -/
def after (g : String) (objects : List DataObject) : Edit → List DataObject
  | .put o => if o.groupKey? = some g then objects ++ [o] else objects
  | .update o => if o.groupKey? = some g then [o] else objects
  | .delete key => if key = g then [] else objects
  | .deleteAll keys => if g ∈ keys then [] else objects
  | .clear => []

/-- The objects that were written to a group since it was last removed or replaced, in order. -/
def written (g : String) (edits : List Edit) : List DataObject :=
  edits.foldl (after g) []

/-- Of each record id the last row. -/
def latest : List Row → List Row
  | [] => []
  | row :: rows =>
    if rows.any fun later => later.1.uid = row.1.uid then latest rows else row :: latest rows

/-- The order of rows: by position, and at the same position by the bytes of their ids. -/
def rowLe (a b : Row) : Bool :=
  a.2 < b.2 || a.2 == b.2 && (compare (Utf8.encode a.1.uid) (Utf8.encode b.1.uid)).isLE

/-- The object that objects written one over the other make. -/
def overlaid (objects : List DataObject) : DataObject where
  metadata := objects.getLast?.bind DataObject.metadata
  records := ((latest (objects.flatMap rowsOf)).mergeSort rowLe).map (·.1)

/-- What a group should hold after some changes. -/
def object (g : String) (edits : List Edit) : DataObject :=
  overlaid (written g edits)

theorem written_concat (g : String) (edits : List Edit) (edit : Edit) :
    written g (edits ++ [edit]) = after g (written g edits) edit := by
  simp [written]

/-! ## The last row of each id -/

theorem mem_of_mem_latest {row : Row} {rows : List Row} (h : row ∈ latest rows) : row ∈ rows := by
  induction rows with
  | nil => cases h
  | cons first rows ih =>
      unfold latest at h
      split at h
      · exact List.mem_cons_of_mem _ (ih h)
      · rcases List.mem_cons.mp h with rfl | h
        · exact List.mem_cons_self
        · exact List.mem_cons_of_mem _ (ih h)

/-- The latest rows are those that are found first from the end. -/
theorem mem_latest_iff {row : Row} {rows : List Row} :
    row ∈ latest rows ↔ rows.reverse.find? (fun r => r.1.uid = row.1.uid) = some row := by
  induction rows with
  | nil => simp [latest]
  | cons first rows ih =>
      rw [List.reverse_cons, List.find?_append, latest]
      cases hfind : rows.reverse.find? fun r => r.1.uid = row.1.uid with
      | some found =>
          have hmem := List.mem_reverse.mp (List.mem_of_find?_eq_some hfind)
          have huid : found.1.uid = row.1.uid := by simpa using List.find?_some hfind
          rw [Option.some_or]
          rw [hfind] at ih
          split
          -- A later row has the id, so that the first row is not the latest of its id.
          · exact ih
          · rename_i hlast
            rw [List.mem_cons, ih]
            constructor
            · rintro (rfl | heq)
              · exact absurd (List.any_eq_true.mpr ⟨found, hmem, by simpa using huid⟩) hlast
              · exact heq
            · exact .inr
      | none =>
          rw [Option.none_or]
          rw [hfind] at ih
          have hnone := List.find?_eq_none.mp hfind
          split
          · rename_i hlater
            -- Some later row has the id of the first, so that the first has another id.
            obtain ⟨later, hmem, hlateruid⟩ := List.any_eq_true.mp hlater
            have hne : first.1.uid ≠ row.1.uid := by
              intro heq
              have hlater' := hnone later (List.mem_reverse.mpr hmem)
              rw [← heq] at hlater'
              exact hlater' hlateruid
            simp [ih, hne]
          · rw [List.mem_cons, ih]
            constructor
            · rintro (rfl | hfalse)
              · simp
              · cases hfalse
            -- No later row has the id, so that only the first row can be found.
            · intro hfirst
              have hfirst' := (List.find?_eq_some_iff_append.mp hfirst).2
              obtain ⟨as, bs, heq, -⟩ := hfirst'
              have hsingle : row ∈ [first] := heq ▸ List.mem_append_right as List.mem_cons_self
              exact .inl (List.mem_singleton.mp hsingle)

/-- No id comes twice. -/
theorem latest_pairwise (rows : List Row) :
    (latest rows).Pairwise fun a b => a.1.uid ≠ b.1.uid := by
  induction rows with
  | nil => exact .nil
  | cons first rows ih =>
      unfold latest
      split
      · exact ih
      · rename_i hlast
        refine List.pairwise_cons.mpr ⟨fun row hrow heq => hlast ?_, ih⟩
        exact List.any_eq_true.mpr ⟨row, mem_of_mem_latest hrow, by simp [heq]⟩

/-- Rows with different ids are all latest. -/
theorem latest_of_pairwise {rows : List Row} (h : rows.Pairwise fun a b => a.1.uid ≠ b.1.uid) :
    latest rows = rows := by
  induction rows with
  | nil => rfl
  | cons first rows ih =>
      obtain ⟨hfirst, hrows⟩ := List.pairwise_cons.mp h
      have hlast : ¬ (rows.any fun later => later.1.uid = first.1.uid) = true := by
        rw [List.any_eq_true]
        rintro ⟨later, hmem, huid⟩
        exact hfirst later hmem (of_decide_eq_true huid).symm
      rw [latest, if_neg hlast, ih hrows]

/-- Where no id comes twice, a row is known by its id. -/
theorem eq_of_uid_eq {rows : List Row} (h : rows.Pairwise fun a b => a.1.uid ≠ b.1.uid) {a b : Row}
    (ha : a ∈ rows) (hb : b ∈ rows) (huid : a.1.uid = b.1.uid) : a = b := by
  induction rows with
  | nil => cases ha
  | cons row rows ih =>
      obtain ⟨hrow, hrows⟩ := List.pairwise_cons.mp h
      rcases List.mem_cons.mp ha with rfl | ha'
      · rcases List.mem_cons.mp hb with rfl | hb'
        · rfl
        -- The head has the id, and no row after it has the same.
        · exact absurd huid (hrow b hb')
      · rcases List.mem_cons.mp hb with rfl | hb'
        · exact absurd huid.symm (hrow a ha')
        · exact ih hrows ha' hb'

/-! ## The order of rows -/

theorem rowLe_iff {a b : Row} :
    rowLe a b = true ↔
      a.2 < b.2 ∨ a.2 = b.2 ∧ (compare (Utf8.encode a.1.uid) (Utf8.encode b.1.uid)).isLE = true := by
  simp [rowLe]

theorem rowLe_trans (a b c : Row) (hab : rowLe a b = true) (hbc : rowLe b c = true) :
    rowLe a c = true := by
  rw [rowLe_iff] at *
  rcases hab with hab | ⟨hab, hab'⟩
  · rcases hbc with hbc | ⟨hbc, -⟩
    · exact .inl (Nat.lt_trans hab hbc)
    · exact .inl (hbc ▸ hab)
  · rcases hbc with hbc | ⟨hbc, hbc'⟩
    · exact .inl (hab ▸ hbc)
    · exact .inr ⟨hab.trans hbc, Std.TransCmp.isLE_trans hab' hbc'⟩

theorem rowLe_total (a b : Row) : (rowLe a b || rowLe b a) = true := by
  rw [Bool.or_eq_true, rowLe_iff, rowLe_iff]
  rcases Nat.lt_trichotomy a.2 b.2 with h | h | h
  · exact .inl (.inl h)
  · cases hcompare : compare (Utf8.encode a.1.uid) (Utf8.encode b.1.uid) with
    | lt => exact .inl (.inr ⟨h, rfl⟩)
    | eq => exact .inl (.inr ⟨h, rfl⟩)
    | gt =>
        have hlt := Std.OrientedCmp.lt_of_gt hcompare
        exact .inr (.inr ⟨h.symm, by rw [hlt]; rfl⟩)
  · exact .inr (.inl h)

/-- Rows at the same position with the same id are in the way of each other. -/
theorem uid_eq_of_rowLe {a b : Row} (hab : rowLe a b = true) (hba : rowLe b a = true) :
    a.1.uid = b.1.uid := by
  rw [rowLe_iff] at hab hba
  rcases hab with hab | ⟨heq, hab⟩
  · rcases hba with hba | ⟨heq, -⟩
    · omega
    · omega
  · rcases hba with hba | ⟨-, hba⟩
    · omega
    · exact Utf8.encode_injective
        (Std.LawfulEqCmp.eq_of_compare (Std.OrientedCmp.isLE_antisymm hab hba))

/-- The order by positions alone. -/
def positionLe (a b : Row) : Bool :=
  a.2 ≤ b.2

theorem positionLe_trans (a b c : Row) (hab : positionLe a b = true) (hbc : positionLe b c = true) :
    positionLe a c = true := by
  simp only [positionLe, decide_eq_true_eq] at *
  omega

theorem positionLe_total (a b : Row) : (positionLe a b || positionLe b a) = true := by
  simp only [positionLe, Bool.or_eq_true, decide_eq_true_eq]
  omega

/-- The sort by position leaves rows at the same position in the order of their ids. -/
theorem pairwise_mergeSort_position {rows : List Row}
    (h : rows.Pairwise fun a b => compare (Utf8.encode a.1.uid) (Utf8.encode b.1.uid) = .lt) :
    (rows.mergeSort positionLe).Pairwise fun a b => rowLe a b = true := by
  induction rows with
  | nil => simp
  | cons row rows ih =>
      obtain ⟨hrow, hrows⟩ := List.pairwise_cons.mp h
      -- The sort puts the first row before all rows that are not at a smaller position.
      obtain ⟨front, back, hsorted, hrest, hfront⟩ :=
        List.mergeSort_cons positionLe_trans positionLe_total row rows
      have hpairwise := List.pairwise_mergeSort positionLe_trans positionLe_total (row :: rows)
      have hih := ih hrows
      rw [hsorted] at hpairwise ⊢
      rw [hrest] at hih
      obtain ⟨hfronts, hbacks, hacross⟩ := List.pairwise_append.mp hih
      obtain ⟨-, hback, -⟩ := List.pairwise_append.mp hpairwise
      -- Rows before it have smaller positions, and rows after it larger ones or larger ids.
      have hbefore (b : Row) (hb : b ∈ front) : rowLe b row = true := by
        have hlt := hfront b hb
        simp only [positionLe, Bool.not_eq_true', decide_eq_false_iff_not] at hlt
        exact rowLe_iff.mpr (.inl (by omega))
      have hafter (b : Row) (hb : b ∈ back) : rowLe row b = true := by
        have hmem : b ∈ rows := by
          have hmem' : b ∈ rows.mergeSort positionLe := by
            rw [hrest]
            exact List.mem_append_right _ hb
          exact List.mem_mergeSort.mp hmem'
        have hle := (List.pairwise_cons.mp hback).1 b hb
        simp only [positionLe, decide_eq_true_eq] at hle
        rcases Nat.lt_or_eq_of_le hle with hlt | heq
        · exact rowLe_iff.mpr (.inl hlt)
        · exact rowLe_iff.mpr (.inr ⟨heq, by rw [hrow b hmem]; rfl⟩)
      -- What was in order before the first row came in stays in order around it.
      refine List.pairwise_append.mpr ⟨hfronts, List.pairwise_cons.mpr ⟨hafter, hbacks⟩, ?_⟩
      intro a ha b hb
      rcases List.mem_cons.mp hb with rfl | hb
      · exact hbefore a ha
      · exact hacross a ha b hb

/-- Rows that come by their ids are in the order of rows after a sort by position. -/
theorem mergeSort_position_eq {rows rows' : List Row}
    (h : rows.Pairwise fun a b => compare (Utf8.encode a.1.uid) (Utf8.encode b.1.uid) = .lt)
    (hperm : rows.Perm rows') : rows.mergeSort positionLe = rows'.mergeSort rowLe := by
  have hperm' : (rows.mergeSort positionLe).Perm (rows'.mergeSort rowLe) :=
    (List.mergeSort_perm rows positionLe).trans
      (hperm.trans (List.mergeSort_perm rows' rowLe).symm)
  have hdistinct : rows.Pairwise fun a b => a.1.uid ≠ b.1.uid := by
    refine h.imp fun hlt heq => ?_
    rw [heq] at hlt
    simp at hlt
  -- Two rows that are in the way of each other have the same id, and so they are the same row.
  have hunique : ∀ a b, a ∈ rows.mergeSort positionLe → b ∈ rows'.mergeSort rowLe →
      rowLe a b = true → rowLe b a = true → a = b := by
    intro a b ha hb hab hba
    have ha' := List.mem_mergeSort.mp ha
    have hb' := List.mem_mergeSort.mp (hperm'.mem_iff.mpr hb)
    exact eq_of_uid_eq hdistinct ha' hb' (uid_eq_of_rowLe hab hba)
  exact List.Perm.eq_of_pairwise hunique (pairwise_mergeSort_position h)
    (List.pairwise_mergeSort rowLe_trans rowLe_total rows') hperm'

end History

end ObjectStore.Access
