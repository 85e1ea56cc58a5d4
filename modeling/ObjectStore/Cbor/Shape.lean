import ObjectStore.Cbor.Head
import ObjectStore.SortedMap

/-!
# Shapes

A shape says how the values of a type are laid out as items. Each shape has a type of values (`Val`),
one way to write a value (`write`) and, in the module on reading, many forms that read as it.

* records are maps from field names to values, the fields in their order;
* a choice is a one-entry map from the name of the variant to its payload, or the bare name where
  the variant has no payload;
* a pair is an array of two, a byte list is an array of numbers.

All lengths are definite and all heads have their shortest form. Lengths that need more
than 64 bits cannot be written; `fits` tells.
-/

namespace ObjectStore.Cbor

/-! ## Number types -/

/-- The number types that values are made of. -/
inductive Word where
  | u8
  | u32
  | u64
  | i32
  | i64
  deriving DecidableEq, Repr

namespace Word

/-- The numbers of a type. -/
@[reducible]
def Val : Word → Type
  | .u8 => UInt8
  | .u32 => UInt32
  | .u64 => UInt64
  | .i32 => Int32
  | .i64 => Int64

/-- The integer that a number stands for. -/
def toInt : (w : Word) → w.Val → Int
  | .u8, n => UInt8.toNat n
  | .u32, n => UInt32.toNat n
  | .u64, n => UInt64.toNat n
  | .i32, n => Int32.toInt n
  | .i64, n => Int64.toInt n

/-- The least integer of a type. -/
def low : Word → Int
  | .i32 => -2147483648
  | .i64 => -9223372036854775808
  | _ => 0

/-- The least integer above a type. -/
def bound : Word → Int
  | .u8 => 256
  | .u32 => 4294967296
  | .u64 => 18446744073709551616
  | .i32 => 2147483648
  | .i64 => 9223372036854775808

/-- The number that stands for an integer in range; outside it, some number. -/
def ofInt : (w : Word) → Int → w.Val
  | .u8, n => UInt8.ofNat n.toNat
  | .u32, n => UInt32.ofNat n.toNat
  | .u64, n => UInt64.ofNat n.toNat
  | .i32, n => Int32.ofInt n
  | .i64, n => Int64.ofInt n

/-- The number that stands for an integer, if the integer is in range. -/
def ofInt? (w : Word) (n : Int) : Option w.Val :=
  if w.low ≤ n ∧ n < w.bound then some (w.ofInt n) else none

theorem low_le_toInt (w : Word) (v : w.Val) : w.low ≤ w.toInt v := by
  cases w with
  | u8 => exact Int.natCast_nonneg _
  | u32 => exact Int.natCast_nonneg _
  | u64 => exact Int.natCast_nonneg _
  | i32 => exact Int32.le_toInt v
  | i64 => exact Int64.le_toInt v

theorem toInt_lt_bound (w : Word) (v : w.Val) : w.toInt v < w.bound := by
  cases w with
  | u8 => exact Int.ofNat_lt.mpr (UInt8.toNat_lt v)
  | u32 => exact Int.ofNat_lt.mpr (UInt32.toNat_lt v)
  | u64 => exact Int.ofNat_lt.mpr (UInt64.toNat_lt v)
  | i32 => exact Int32.toInt_lt v
  | i64 => exact Int64.toInt_lt v

theorem ofInt_toInt (w : Word) (v : w.Val) : w.ofInt (w.toInt v) = v := by
  cases w with
  | u8 => exact UInt8.ofNat_toNat
  | u32 => exact UInt32.ofNat_toNat
  | u64 => exact UInt64.ofNat_toNat
  | i32 => exact Int32.ofInt_toInt v
  | i64 => exact Int64.ofInt_toInt v

theorem ofInt?_toInt (w : Word) (v : w.Val) : w.ofInt? (w.toInt v) = some v := by
  rw [ofInt?, if_pos ⟨low_le_toInt w v, toInt_lt_bound w v⟩, ofInt_toInt]

end Word

/-! ## Shapes and their values -/

mutual

/-- How the values of a type are laid out. -/
inductive Shape where
  | word (w : Word)
  | bool
  | text
  | list (element : Shape)
  | dict (value : Shape)
  | option (value : Shape)
  | pair (first second : Shape)
  | record (fields : Fields)
  | choice (variants : Variants)

/-- The fields of a record, in order. -/
inductive Fields where
  | nil
  | cons (name : String) (shape : Shape) (rest : Fields)

/-- The variants of a choice: bare names, and names with a payload. -/
inductive Variants where
  | nil
  | unit (name : String) (rest : Variants)
  | payload (name : String) (shape : Shape) (rest : Variants)

end

mutual

/-- The values of a shape. -/
@[reducible]
def Shape.Val : Shape → Type
  | .word w => w.Val
  | .bool => Bool
  | .text => String
  | .list element => List element.Val
  | .dict value => SortedMap String value.Val
  | .option value => Option value.Val
  | .pair first second => first.Val × second.Val
  | .record fields => fields.Vals
  | .choice variants => variants.Val

/-- One value for each field. -/
@[reducible]
def Fields.Vals : Fields → Type
  | .nil => Unit
  | .cons _ shape rest => shape.Val × rest.Vals

/-- The payload of one variant. -/
@[reducible]
def Variants.Val : Variants → Type
  | .nil => Empty
  | .unit _ rest => Unit ⊕ rest.Val
  | .payload _ shape rest => shape.Val ⊕ rest.Val

end

/-- The number of fields. -/
def Fields.length : Fields → Nat
  | .nil => 0
  | .cons _ _ rest => rest.length + 1

/-! ## Writing -/

/-- The bytes of an integer; a negative one is written as `-1 - n`. -/
def writeInt (n : Int) : Bytes :=
  if 0 ≤ n then Head.write 0 n.toNat else Head.write 1 (-1 - n).toNat

/-- The bytes of a text. -/
def writeText (s : String) : Bytes :=
  Head.write 3 s.utf8ByteSize ++ Utf8.encode s

mutual

/-- The bytes of a value. -/
def Shape.write : (s : Shape) → s.Val → Bytes
  | .word w, n => writeInt (w.toInt n)
  | .bool, b => if b then Head.write 7 21 else Head.write 7 20
  | .text, s => writeText s
  | .list element, vs => Head.write 4 vs.length ++ vs.flatMap element.write
  | .dict value, m =>
    Head.write 5 m.entries.length ++ m.entries.flatMap fun e => writeText e.1 ++ value.write e.2
  | .option _, none => Head.write 7 22
  | .option value, some v => value.write v
  | .pair first second, (a, b) => Head.write 4 2 ++ first.write a ++ second.write b
  | .record fields, vs => Head.write 5 fields.length ++ fields.write vs
  | .choice variants, v => variants.write v

/-- The bytes of named values. -/
def Fields.write : (fs : Fields) → fs.Vals → Bytes
  | .nil, _ => []
  | .cons name shape rest, (v, vs) => writeText name ++ shape.write v ++ rest.write vs

/-- The bytes of a variant. -/
def Variants.write : (vs : Variants) → vs.Val → Bytes
  | .unit name _, .inl _ => writeText name
  | .unit _ rest, .inr v => rest.write v
  | .payload name shape _, .inl v => Head.write 5 1 ++ writeText name ++ shape.write v
  | .payload _ _ rest, .inr v => rest.write v

end

/-! ## Lengths that can be written -/

mutual

/-- Whether every length in a value can be written. -/
def Shape.fits : (s : Shape) → s.Val → Bool
  | .word _, _ => true
  | .bool, _ => true
  | .text, s => s.utf8ByteSize < UInt64.size
  | .list element, vs => vs.length < UInt64.size && vs.all element.fits
  | .dict value, m =>
    m.entries.length < UInt64.size &&
      m.entries.all fun e => e.1.utf8ByteSize < UInt64.size && value.fits e.2
  | .option _, none => true
  | .option value, some v => value.fits v
  | .pair first second, (a, b) => first.fits a && second.fits b
  | .record fields, vs => fields.fits vs
  | .choice variants, v => variants.fits v

/-- Whether every length in the values of a record can be written. -/
def Fields.fits : (fs : Fields) → fs.Vals → Bool
  | .nil, _ => true
  | .cons _ shape rest, (v, vs) => shape.fits v && rest.fits vs

/-- Whether every length in the payload of a variant can be written. -/
def Variants.fits : (vs : Variants) → vs.Val → Bool
  | .unit _ _, .inl _ => true
  | .unit _ rest, .inr v => rest.fits v
  | .payload _ shape _, .inl v => shape.fits v
  | .payload _ _ rest, .inr v => rest.fits v

end

end ObjectStore.Cbor
