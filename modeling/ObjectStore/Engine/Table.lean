import ObjectStore.Bytes
import ObjectStore.SortedMap

/-!
# Tables and batches

The content of an engine is a table: values under byte-string keys, in key order. It changes by
batches, each of which is one put of entries or one delete of keys, and it is read by front part of
the key.

Main statements: `get?_applyPut` and `get?_applyDelete`, which say what a batch does to each key.
-/

namespace ObjectStore

/-- A key with its value. -/
structure Entry where
  key : Bytes
  value : Bytes
  deriving DecidableEq, Repr

/-- A change that happens as a whole. -/
inductive Batch where
  | put (entries : List Entry)
  | delete (keys : List Bytes)
  deriving DecidableEq, Repr

/-- Whether a batch changes nothing. -/
def Batch.isEmpty : Batch → Bool
  | .put entries => entries.isEmpty
  | .delete keys => keys.isEmpty

/-- The content of an engine. -/
abbrev Table := SortedMap Bytes Bytes

namespace Table

/-- Stores entries one after the other. -/
def applyPut (t : Table) (entries : List Entry) : Table :=
  entries.foldl (fun t e => t.insert e.key e.value) t

/-- Removes keys one after the other; a key that is not there changes nothing. -/
def applyDelete (t : Table) (keys : List Bytes) : Table :=
  keys.foldl (fun t k => t.erase k) t

/-- Applies a batch. -/
def apply (t : Table) : Batch → Table
  | .put entries => t.applyPut entries
  | .delete keys => t.applyDelete keys

/-- The entries whose keys start with `front`: from the first key that is not before `front` as long
as the keys start with it. -/
def scan (t : Table) (front : Bytes) : List Entry :=
  ((t.entries.dropWhile fun e => compare e.1 front == .lt).takeWhile
    fun e => e.1.startsWith front).map fun e => { key := e.1, value := e.2 }

theorem applyPut_cons (t : Table) (e : Entry) (entries : List Entry) :
    t.applyPut (e :: entries) = applyPut (t.insert e.key e.value) entries := rfl

theorem get?_applyPut (t : Table) (entries : List Entry) (k : Bytes) :
    (t.applyPut entries).get? k =
      ((entries.reverse.find? fun e => e.key = k).map Entry.value).or (t.get? k) := by
  induction entries generalizing t with
  | nil => simp [applyPut]
  | cons e entries ih =>
    rw [applyPut_cons, ih, SortedMap.get?_insert]
    simp only [List.reverse_cons, List.find?_append, List.find?_cons, List.find?_nil]
    by_cases h : k = e.key
    · subst h
      simp
    · have h' : ¬ e.key = k := fun h' => h h'.symm
      simp [h, h']

theorem get?_applyDelete (t : Table) (keys : List Bytes) (k : Bytes) :
    (t.applyDelete keys).get? k = if k ∈ keys then none else t.get? k := by
  induction keys generalizing t with
  | nil => simp [applyDelete]
  | cons k' keys ih =>
    have hstep : t.applyDelete (k' :: keys) = applyDelete (t.erase k') keys := rfl
    rw [hstep, ih, SortedMap.get?_erase]
    by_cases h : k = k'
    · simp [h]
    · simp [h]

end Table

end ObjectStore
