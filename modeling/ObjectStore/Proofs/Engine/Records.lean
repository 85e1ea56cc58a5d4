import Mathlib.Algebra.Order.BigOperators.Group.List
import Mathlib.Algebra.Order.Ring.Nat
import ObjectStore.Proofs.Engine.Log

/-!
# Which batches a log takes

The lengths and counts in a log have four bytes each, so that not every batch has a record. It is the
payload as a whole that decides: its fields are not longer than the payload, and there are not more of
them than it has bytes. So a batch can be written exactly if four bytes can say how long its payload is.

Main statement: `exists_encode_iff`.
-/

namespace ObjectStore.Log

/-- The length of an entry in a payload. -/
def entryLength (e : Entry) : Nat :=
  (4 + e.key.length) + (4 + e.value.length)

/-- The length of the payload of a delete. -/
def deleteLength (keys : List Bytes) : Nat :=
  4 + (keys.map fun k => 4 + k.length).sum

/-- The length of the payload of a batch. -/
def payloadLength : Batch → Nat
  | .put entries => 4 + (entries.map entryLength).sum
  | .delete keys => deleteLength keys

/-- Fewer keys make no longer delete. -/
theorem deleteLength_le_of_sublist {keys others : List Bytes} (h : keys.Sublist others) :
    deleteLength keys ≤ deleteLength others := by
  unfold deleteLength
  apply Nat.add_le_add_left
  exact (h.map _).sum_le_sum fun n _ => Nat.zero_le n

/-- The order of the keys does not matter for the length. -/
theorem deleteLength_perm {keys keys' : List Bytes} (h : keys.Perm keys') :
    deleteLength keys = deleteLength keys' := by
  unfold deleteLength
  rw [(h.map _).sum_nat]

/-! ## Rows of fields -/

/-- What is short enough is written, and takes the given number of bytes. -/
structure Writes {α : Type} (write : α → Except StorageError Bytes) (size : α → Nat) : Prop where
  pos : ∀ a, 0 < size a
  short : ∀ a, size a < UInt32.size → ∃ bs, write a = .ok bs
  length : ∀ a bs, write a = .ok bs → bs.length = size a

theorem length_of_encodeLength {n : Nat} {bs : Bytes} (h : encodeLength n = .ok bs) :
    bs.length = 4 := by
  obtain ⟨-, rfl⟩ := encodeLength_eq_ok_iff.mp h
  exact Bytes.length_littleEndian 4 n

theorem writes_encodeField : Writes encodeField fun bs => 4 + bs.length where
  pos bs := by omega
  short bs h := by
    rw [encodeField, encodeLength_eq_ok_iff.mpr ⟨by omega, rfl⟩]
    exact ⟨_, rfl⟩
  length bs field h := by
    obtain ⟨length, hlength, heq⟩ := Answer.bind_eq_ok_iff.mp h
    cases heq
    rw [List.length_append, length_of_encodeLength hlength]

theorem writes_encodeEntry : Writes encodeEntry entryLength where
  pos e := by
    unfold entryLength
    omega
  short e h := by
    unfold entryLength at h
    obtain ⟨key, hkey⟩ := writes_encodeField.short e.key (by omega)
    obtain ⟨value, hvalue⟩ := writes_encodeField.short e.value (by omega)
    rw [encodeEntry, hkey, hvalue]
    exact ⟨_, rfl⟩
  length e field h := by
    obtain ⟨key, hkey, h⟩ := Answer.bind_eq_ok_iff.mp h
    obtain ⟨value, hvalue, heq⟩ := Answer.bind_eq_ok_iff.mp h
    cases heq
    rw [List.length_append, writes_encodeField.length e.key key hkey,
      writes_encodeField.length e.value value hvalue, entryLength]

namespace Writes

variable {α : Type} {write : α → Except StorageError Bytes} {size : α → Nat}

theorem length_le_sum (h : Writes write size) (row : List α) : row.length ≤ (row.map size).sum := by
  have hpos : ∀ n ∈ row.map size, 1 ≤ n := by
    intro n hn
    obtain ⟨a, -, rfl⟩ := List.mem_map.mp hn
    exact h.pos a
  have hle := List.length_le_sum_of_one_le (row.map size) hpos
  rwa [List.length_map] at hle

theorem exists_mapM (h : Writes write size) {row : List α} (hsum : (row.map size).sum < UInt32.size) :
    ∃ fields, row.mapM write = .ok fields := by
  induction row with
  | nil => exact ⟨[], rfl⟩
  | cons a row ih =>
    rw [List.map_cons, List.sum_cons] at hsum
    obtain ⟨field, hfield⟩ := h.short a (by omega)
    obtain ⟨fields, hfields⟩ := ih (by omega)
    rw [List.mapM_cons, hfield, hfields]
    exact ⟨_, rfl⟩

theorem length_of_mapM (h : Writes write size) {row : List α} {fields : List Bytes}
    (hrow : row.mapM write = .ok fields) : fields.flatten.length = (row.map size).sum := by
  induction row generalizing fields with
  | nil =>
    rw [List.mapM_nil] at hrow
    cases hrow
    rfl
  | cons a row ih =>
    rw [List.mapM_cons] at hrow
    obtain ⟨field, hfield, hrow⟩ := Answer.bind_eq_ok_iff.mp hrow
    obtain ⟨later, hlater, heq⟩ := Answer.bind_eq_ok_iff.mp hrow
    cases heq
    rw [List.flatten_cons, List.length_append, h.length a field hfield, ih hlater, List.map_cons,
      List.sum_cons]

end Writes

/-! ## Records -/

section Counted

variable {α : Type} {write : α → Except StorageError Bytes} {size : α → Nat} {row : List α}

/-- A row of fields with its count in front. -/
theorem Writes.exists_counted (h : Writes write size) (hsum : 4 + (row.map size).sum < UInt32.size) :
    ∃ bs, (do
      let count ← encodeLength row.length
      let fields ← row.mapM write
      return count ++ fields.flatten) = Except.ok bs := by
  have hcount := h.length_le_sum row
  obtain ⟨fields, hfields⟩ : ∃ fields, row.mapM write = .ok fields := h.exists_mapM (by omega)
  rw [encodeLength_eq_ok_iff.mpr ⟨by omega, rfl⟩, hfields]
  exact ⟨_, rfl⟩

theorem Writes.length_of_counted (h : Writes write size) {bs : Bytes}
    (hbs : (do
      let count ← encodeLength row.length
      let fields ← row.mapM write
      return count ++ fields.flatten) = Except.ok bs) : bs.length = 4 + (row.map size).sum := by
  obtain ⟨count, hcount, hbs⟩ := Answer.bind_eq_ok_iff.mp hbs
  obtain ⟨fields, hfields, heq⟩ := Answer.bind_eq_ok_iff.mp hbs
  cases heq
  rw [List.length_append, length_of_encodeLength hcount, h.length_of_mapM hfields]

end Counted

theorem exists_encodePayload {b : Batch} (h : payloadLength b < UInt32.size) :
    ∃ payload, encodePayload b = .ok payload := by
  cases b with
  | put entries => exact writes_encodeEntry.exists_counted h
  | delete keys => exact writes_encodeField.exists_counted h

theorem length_of_encodePayload {b : Batch} {payload : Bytes} (h : encodePayload b = .ok payload) :
    payload.length = payloadLength b := by
  cases b with
  | put entries => exact writes_encodeEntry.length_of_counted h
  | delete keys => exact writes_encodeField.length_of_counted h

/-- A batch can be written exactly if four bytes can say how long its payload is. -/
theorem exists_encode_iff {b : Batch} :
    (∃ record, encode b = .ok record) ↔ payloadLength b < UInt32.size := by
  constructor
  · rintro ⟨record, hrecord⟩
    obtain ⟨payload, hpayload, hlength, -⟩ := encode_eq_ok hrecord
    rwa [length_of_encodePayload hpayload] at hlength
  · intro h
    obtain ⟨payload, hpayload⟩ := exists_encodePayload h
    rw [← length_of_encodePayload hpayload] at h
    rw [encode, hpayload, Answer.ok_bind, encodeLength_eq_ok_iff.mpr ⟨h, rfl⟩, Answer.ok_bind]
    exact ⟨_, rfl⟩

end ObjectStore.Log
