/-!
# Sorted maps

A sorted map is a list of pairs whose keys strictly ascend. The order is part of the type, so every
listing of a map is in key order without repetition, and two maps with the same answers are equal.
Engine tables, details, size summaries and name tables are all sorted maps.

Main statements: `get?_insert` and `get?_erase` say what each change does to the answers, `ext_get?`
that the answers determine the map.
-/

namespace ObjectStore

/-- Pairs in strictly ascending key order. -/
structure SortedMap (κ ν : Type) [Ord κ] where
  /-- The pairs, in key order. -/
  entries : List (κ × ν)
  /-- Keys strictly ascend. -/
  sorted : entries.Pairwise fun a b => compare a.1 b.1 = .lt
  deriving DecidableEq, Repr

namespace SortedMap

variable {κ ν : Type} [Ord κ]

/-- No pairs. -/
def empty : SortedMap κ ν where
  entries := []
  sorted := .nil

instance : EmptyCollection (SortedMap κ ν) := ⟨empty⟩

instance : Inhabited (SortedMap κ ν) := ⟨empty⟩

/-- The keys, in order. -/
def keys (m : SortedMap κ ν) : List κ :=
  m.entries.map (·.1)

/-- The values, in key order. -/
def values (m : SortedMap κ ν) : List ν :=
  m.entries.map (·.2)

/-- The number of pairs. -/
def size (m : SortedMap κ ν) : Nat :=
  m.entries.length

/-- The value stored under a key. -/
def get? (m : SortedMap κ ν) (k : κ) : Option ν :=
  (m.entries.find? fun e => compare k e.1 == .eq).map (·.2)

/-- Whether something is stored under a key. -/
def contains (m : SortedMap κ ν) (k : κ) : Bool :=
  (m.get? k).isSome

/-! ## Changes -/

/-- Puts a pair into its place in an ascending list, in place of a pair with the same key. -/
def insertInto (k : κ) (v : ν) : List (κ × ν) → List (κ × ν)
  | [] => [(k, v)]
  | e :: rest =>
    match compare k e.1 with
    | .lt => (k, v) :: e :: rest
    | .eq => (k, v) :: rest
    | .gt => e :: insertInto k v rest

theorem mem_insertInto {k : κ} {v : ν} {a : κ × ν} {es : List (κ × ν)}
    (h : a ∈ insertInto k v es) : a = (k, v) ∨ a ∈ es := by
  induction es with
  | nil => simpa [insertInto] using h
  | cons e rest ih =>
    unfold insertInto at h
    split at h
    · simpa using h
    · rcases List.mem_cons.mp h with h | h
      · exact .inl h
      · exact .inr (List.mem_cons_of_mem _ h)
    · rcases List.mem_cons.mp h with h | h
      · exact .inr (h ▸ List.mem_cons_self)
      · exact (ih h).imp id (List.mem_cons_of_mem _)

theorem insertInto_pairwise [Std.TransOrd κ] [Std.LawfulEqOrd κ] {k : κ} {v : ν}
    {es : List (κ × ν)} (h : es.Pairwise fun a b => compare a.1 b.1 = .lt) :
    (insertInto k v es).Pairwise fun a b => compare a.1 b.1 = .lt := by
  induction es with
  | nil => simp [insertInto]
  | cons e rest ih =>
    obtain ⟨hhead, htail⟩ := List.pairwise_cons.mp h
    unfold insertInto
    split
    · rename_i hlt
      refine List.pairwise_cons.mpr ⟨fun a ha => ?_, h⟩
      rcases List.mem_cons.mp ha with rfl | ha
      · exact hlt
      · exact Std.TransCmp.lt_trans hlt (hhead a ha)
    · rename_i heq
      have hk : k = e.1 := Std.LawfulEqCmp.eq_of_compare heq
      subst hk
      exact List.pairwise_cons.mpr ⟨hhead, htail⟩
    · -- Below the head stand the new pair, which is greater, and the old ones.
      rename_i hgt
      refine List.pairwise_cons.mpr ⟨fun a ha => ?_, ih htail⟩
      rcases mem_insertInto ha with rfl | ha
      · exact Std.OrientedCmp.lt_of_gt hgt
      · exact hhead a ha

/-- Stores a value under a key, in place of any value there. -/
def insert [Std.TransOrd κ] [Std.LawfulEqOrd κ] (m : SortedMap κ ν) (k : κ) (v : ν) :
    SortedMap κ ν where
  entries := insertInto k v m.entries
  sorted := insertInto_pairwise m.sorted

/-- Changes every value and no key. -/
def map {ν' : Type} (f : ν → ν') (m : SortedMap κ ν) : SortedMap κ ν' where
  entries := m.entries.map fun e => (e.1, f e.2)
  sorted := List.pairwise_map.mpr m.sorted

theorem map_map_of_leftInverse {ν' : Type} {f : ν → ν'} {g : ν' → ν} (h : ∀ v, g (f v) = v)
    (m : SortedMap κ ν) : (m.map f).map g = m := by
  obtain ⟨es, hes⟩ := m
  simp [map, Function.comp_def, h]

/-- Keeps the pairs that pass a test. -/
def filter (p : κ → ν → Bool) (m : SortedMap κ ν) : SortedMap κ ν where
  entries := m.entries.filter fun e => p e.1 e.2
  sorted := m.sorted.filter _

/-- Removes what is stored under a key. -/
def erase (m : SortedMap κ ν) (k : κ) : SortedMap κ ν :=
  m.filter fun k' _ => !(compare k k' == .eq)

/-- Stores pairs one after the other, so that of equal keys the last one stays. -/
def insertAll [Std.TransOrd κ] [Std.LawfulEqOrd κ] (m : SortedMap κ ν) (es : List (κ × ν)) :
    SortedMap κ ν :=
  es.foldl (fun m e => m.insert e.1 e.2) m

/-- The map of a list of pairs; of equal keys the last one stays. -/
def ofList [Std.TransOrd κ] [Std.LawfulEqOrd κ] (es : List (κ × ν)) : SortedMap κ ν :=
  insertAll empty es

/-! ## Answers after a change -/

theorem find?_insertInto [DecidableEq κ] [Std.TransOrd κ] [Std.LawfulEqOrd κ] (k : κ) (v : ν)
    (k' : κ) (es : List (κ × ν)) :
    ((insertInto k v es).find? fun e => compare k' e.1 == .eq).map (·.2) =
      if k' = k then some v else (es.find? fun e => compare k' e.1 == .eq).map (·.2) := by
  have hself : (compare k k == .eq) = true := by simp
  have hiff (a b : κ) : (compare a b == .eq) = true ↔ a = b := by
    simp
  induction es with
  | nil =>
    by_cases h : k' = k
    · simp [insertInto, h]
    · simp [insertInto, h]
  | cons e rest ih =>
    unfold insertInto
    split
    · by_cases h : k' = k
      · simp [h]
      · simp [h]
    · rename_i heq
      have hk : k = e.1 := Std.LawfulEqCmp.eq_of_compare heq
      by_cases h : k' = k
      · simp [h]
      · have h' : ¬ k' = e.1 := hk ▸ h
        simp [h, h']
    · -- The new pair goes further down, past a pair with another key.
      rename_i hgt
      have hne : k ≠ e.1 := by
        rintro rfl
        simp at hgt
      by_cases h : k' = e.1
      · have h' : ¬ k' = k := fun hk => hne (hk ▸ h)
        subst h
        simp [h']
      · have hfalse : (compare k' e.1 == .eq) = false := by simpa using h
        rw [List.find?_cons, List.find?_cons, hfalse]
        exact ih

theorem get?_insert [DecidableEq κ] [Std.TransOrd κ] [Std.LawfulEqOrd κ] (m : SortedMap κ ν)
    (k : κ) (v : ν) (k' : κ) : (m.insert k v).get? k' = if k' = k then some v else m.get? k' :=
  find?_insertInto k v k' m.entries

theorem get?_erase [DecidableEq κ] [Std.TransOrd κ] [Std.LawfulEqOrd κ] (m : SortedMap κ ν) (k k' : κ) :
    (m.erase k).get? k' = if k' = k then none else m.get? k' := by
  obtain ⟨es, hes⟩ := m
  simp only [erase, filter, get?]
  clear hes
  induction es with
  | nil => simp
  | cons e rest ih =>
    by_cases hk : k = e.1
    · have : (compare k e.1 == .eq) = true := by simp [hk]
      simp only [List.filter_cons, this, Bool.not_true, Bool.false_eq_true, if_false, ih]
      by_cases h : k' = k
      · simp [h]
      · have h' : ¬ k' = e.1 := hk ▸ h
        simp [h, h']
    · have hfalse : (compare k e.1 == .eq) = false := by simpa using hk
      simp only [List.filter_cons, hfalse, Bool.not_false, if_true, List.find?_cons]
      by_cases h : k' = e.1
      · have h' : ¬ k' = k := fun hkk => hk (hkk ▸ h)
        subst h
        simp [h']
      · have hfalse' : (compare k' e.1 == .eq) = false := by simpa using h
        simp only [hfalse', ih]

theorem get?_eq_some_iff [Std.TransOrd κ] [Std.LawfulEqOrd κ] {m : SortedMap κ ν} {k : κ} {v : ν} :
    m.get? k = some v ↔ (k, v) ∈ m.entries := by
  obtain ⟨es, hes⟩ := m
  simp only [get?]
  induction es with
  | nil => simp
  | cons e rest ih =>
    obtain ⟨hhead, htail⟩ := List.pairwise_cons.mp hes
    by_cases h : k = e.1
    · subst h
      -- Keys ascend strictly, so the key of the head does not come again.
      have hnot : ∀ v', (e.1, v') ∉ rest := fun v' hmem => by
        have := hhead _ hmem
        simp at this
      simp [hnot, Prod.ext_iff, eq_comm]
    · have hfalse : (compare k e.1 == .eq) = false := by simpa using h
      rw [List.find?_cons, hfalse]
      refine (ih htail).trans ?_
      simp [Prod.ext_iff, h]

theorem ext_get? [Std.TransOrd κ] [Std.LawfulEqOrd κ] {m n : SortedMap κ ν}
    (h : ∀ k, m.get? k = n.get? k) : m = n := by
  have hmem (a : κ × ν) : a ∈ m.entries ↔ a ∈ n.entries := by
    rw [← get?_eq_some_iff (m := m), ← get?_eq_some_iff (m := n), h]
  obtain ⟨es, hes⟩ := m
  obtain ⟨fs, hfs⟩ := n
  -- Two ascending lists with the same members are equal: their heads are both least.
  suffices es = fs by subst this; rfl
  clear h
  simp only at hmem
  induction es generalizing fs with
  | nil =>
    cases fs with
    | nil => rfl
    | cons f fs => simpa using hmem f
  | cons e es ih =>
    cases fs with
    | nil => simpa using hmem e
    | cons f fs =>
      obtain ⟨he, hestail⟩ := List.pairwise_cons.mp hes
      obtain ⟨hf, hfstail⟩ := List.pairwise_cons.mp hfs
      have hef : e = f := by
        rcases List.mem_cons.mp ((hmem e).mp List.mem_cons_self) with h | h
        · exact h
        · rcases List.mem_cons.mp ((hmem f).mpr List.mem_cons_self) with h' | h'
          · exact h'.symm
          · have h₁ := hf _ h
            have h₂ := he _ h'
            have := Std.TransCmp.lt_trans h₁ h₂
            simp at this
      subst hef
      have hrest : es = fs := by
        refine ih hestail fs hfstail fun a => ?_
        constructor
        · intro ha
          rcases List.mem_cons.mp ((hmem a).mp (List.mem_cons_of_mem _ ha)) with rfl | h
          · have := he _ ha
            simp at this
          · exact h
        · intro ha
          rcases List.mem_cons.mp ((hmem a).mpr (List.mem_cons_of_mem _ ha)) with rfl | h
          · have := hf _ ha
            simp at this
          · exact h
      rw [hrest]

end SortedMap

end ObjectStore
