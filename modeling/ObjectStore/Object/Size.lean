/-!
# Sizes

The size of a collection is the sum of the sizes of its elements, in whatever order they stand.
-/

namespace ObjectStore

variable {α : Type} (size : α → Nat)

/-- The sizes of the elements of a list, taken together. -/
def totalSize : List α → Nat
  | [] => 0
  | a :: as => size a + totalSize as

@[simp]
theorem totalSize_nil : totalSize size [] = 0 := rfl

@[simp]
theorem totalSize_cons (a : α) (as : List α) :
    totalSize size (a :: as) = size a + totalSize size as := rfl

@[simp]
theorem totalSize_append (as bs : List α) :
    totalSize size (as ++ bs) = totalSize size as + totalSize size bs := by
  induction as with
  | nil => simp
  | cons a as ih => simp [ih, Nat.add_assoc]

theorem totalSize_perm {as bs : List α} (h : as.Perm bs) : totalSize size as = totalSize size bs := by
  induction h with
  | nil => rfl
  | cons a _ ih => simp [ih]
  | swap a b as =>
    simp only [totalSize_cons]
    omega
  | trans _ _ ih₁ ih₂ => exact ih₁.trans ih₂

end ObjectStore
