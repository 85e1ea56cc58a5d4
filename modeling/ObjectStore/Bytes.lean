/-!
# Byte strings

Byte strings are lists of bytes, so that everything said about them is said by the theory of lists.
This module holds what formats made of bytes need: numbers written with a fixed count of base-256
digits, splitting off a front part of known length, and removing a known front part.

Main statements: `ofLittleEndian_littleEndian` and `littleEndian_ofLittleEndian` (digits and numbers
determine each other), `splitFront?_eq_some_iff` and `after?_eq_some_iff` (the front part really is
the front part).
-/

namespace ObjectStore

/-- A byte string. -/
abbrev Bytes := List UInt8

namespace Bytes

/-! ## Fixed-width numbers -/

/-- How many numbers `width` base-256 digits can tell apart. -/
def capacity : (width : Nat) → Nat
  | 0 => 1
  | width + 1 => 256 * capacity width

/-- The lowest `width` base-256 digits of a number, the lowest digit first. -/
def littleEndian : (width : Nat) → Nat → Bytes
  | 0, _ => []
  | width + 1, n => UInt8.ofNat n :: littleEndian width (n / 256)

/-- The number whose base-256 digits these are, the lowest digit first. -/
def ofLittleEndian : Bytes → Nat
  | [] => 0
  | b :: rest => b.toNat + 256 * ofLittleEndian rest

/-- The lowest `width` base-256 digits of a number, the highest digit first. -/
def bigEndian (width n : Nat) : Bytes :=
  (littleEndian width n).reverse

/-- The number whose base-256 digits these are, the highest digit first. -/
def ofBigEndian (bs : Bytes) : Nat :=
  ofLittleEndian bs.reverse

theorem capacity_mono {m n : Nat} (h : m ≤ n) : capacity m ≤ capacity n := by
  induction h with
  | refl => exact Nat.le_refl _
  | step _ ih => exact Nat.le_trans ih (Nat.le_mul_of_pos_left _ (by decide))

@[simp]
theorem length_littleEndian (width n : Nat) : (littleEndian width n).length = width := by
  induction width generalizing n with
  | zero => rfl
  | succ width ih => simp [littleEndian, ih]

@[simp]
theorem length_bigEndian (width n : Nat) : (bigEndian width n).length = width := by
  simp [bigEndian]

theorem ofLittleEndian_littleEndian (width n : Nat) :
    ofLittleEndian (littleEndian width n) = n % capacity width := by
  induction width generalizing n with
  | zero => simp [littleEndian, ofLittleEndian, capacity, Nat.mod_one]
  | succ width ih =>
    have hb : (UInt8.ofNat n).toNat = n % 256 := UInt8.toNat_ofNat'
    -- The lowest digit is the remainder, and the digits above it write the quotient.
    rw [littleEndian, ofLittleEndian, ih, hb, capacity, Nat.mod_mul]

theorem ofLittleEndian_lt (bs : Bytes) : ofLittleEndian bs < capacity bs.length := by
  induction bs with
  | nil => simp [ofLittleEndian, capacity]
  | cons b rest ih =>
    have hb := b.toNat_lt
    simp only [ofLittleEndian, List.length_cons, capacity]
    omega

theorem littleEndian_ofLittleEndian (bs : Bytes) :
    littleEndian bs.length (ofLittleEndian bs) = bs := by
  induction bs with
  | nil => rfl
  | cons b rest ih =>
    have hb := b.toNat_lt
    -- Quotient and remainder give back the higher digits and the lowest one.
    have hdiv : (b.toNat + 256 * ofLittleEndian rest) / 256 = ofLittleEndian rest := by omega
    have hmod : UInt8.ofNat (b.toNat + 256 * ofLittleEndian rest) = b := by
      apply UInt8.toNat_inj.mp
      simp only [UInt8.toNat_ofNat']
      omega
    simp [littleEndian, ofLittleEndian, hdiv, hmod, ih]

theorem ofBigEndian_bigEndian (width n : Nat) :
    ofBigEndian (bigEndian width n) = n % capacity width := by
  simp [ofBigEndian, bigEndian, ofLittleEndian_littleEndian]

/-- The `width` hexadecimal digits of a number, in lower case. -/
def hexDigits (width n : Nat) : String :=
  String.ofList (digits width n).reverse
where
  /-- The lowest digits, the lowest first. -/
  digits : Nat → Nat → List Char
    | 0, _ => []
    | width + 1, n => Nat.digitChar (n % 16) :: digits width (n / 16)

/-! ## Front parts -/

/-- The first `n` bytes and the bytes after them, if there are that many. -/
def splitFront? : Nat → Bytes → Option (Bytes × Bytes)
  | 0, bs => some ([], bs)
  | _ + 1, [] => none
  | n + 1, b :: bs => (splitFront? n bs).map fun (front, rest) => (b :: front, rest)

theorem splitFront?_eq_some_iff {n : Nat} {bs front rest : Bytes} :
    splitFront? n bs = some (front, rest) ↔ bs = front ++ rest ∧ front.length = n := by
  induction n generalizing bs front with
  | zero => cases front <;> simp [splitFront?, eq_comm]
  | succ n ih =>
    cases bs with
    | nil => cases front <;> simp [splitFront?]
    | cons b bs =>
      cases front with
      | nil => simp [splitFront?]
      | cons c front =>
        simp only [splitFront?, Option.map_eq_some_iff, Prod.exists, Prod.mk.injEq, List.cons.injEq,
          List.cons_append, List.length_cons, Nat.succ_inj]
        constructor
        · rintro ⟨x, y, h, ⟨rfl, rfl⟩, rfl⟩
          exact ⟨⟨rfl, (ih.mp h).1⟩, (ih.mp h).2⟩
        · rintro ⟨⟨rfl, h⟩, hlen⟩
          exact ⟨front, rest, ih.mpr ⟨h, hlen⟩, ⟨rfl, rfl⟩, rfl⟩

/-- What follows `front` in a byte string that starts with it. -/
def after? : (front : Bytes) → Bytes → Option Bytes
  | [], bs => some bs
  | _ :: _, [] => none
  | f :: front, b :: bs => if f = b then after? front bs else none

theorem after?_eq_some_iff {front bs rest : Bytes} :
    after? front bs = some rest ↔ bs = front ++ rest := by
  induction front generalizing bs with
  | nil => simp [after?, eq_comm]
  | cons f front ih =>
    cases bs with
    | nil => simp [after?]
    | cons b bs =>
      by_cases h : f = b
      · simp [after?, h, ih]
      · simp [after?, h, Ne.symm h]

/-- Whether a byte string starts with `front`. -/
def startsWith (bs front : Bytes) : Bool :=
  (after? front bs).isSome

theorem startsWith_iff {bs front : Bytes} : bs.startsWith front = true ↔ front <+: bs := by
  rw [startsWith, Option.isSome_iff_exists]
  exact exists_congr fun rest => after?_eq_some_iff.trans eq_comm

end Bytes

end ObjectStore
