import ObjectStore.Bytes

/-!
# Hexadecimal text

Byte strings as lower-case hexadecimal text, two digits per byte.
-/

namespace ObjectStore.Bytes

/-- The two digits of each byte. -/
def toHex (bs : Bytes) : String :=
  String.join (bs.map fun b => hexDigits 2 b.toNat)

/-- The value of a digit, in either case. -/
def hexValue? (c : Char) : Option Nat :=
  if '0' ≤ c ∧ c ≤ '9' then some (c.toNat - '0'.toNat)
  else if 'a' ≤ c ∧ c ≤ 'f' then some (c.toNat - 'a'.toNat + 10)
  else if 'A' ≤ c ∧ c ≤ 'F' then some (c.toNat - 'A'.toNat + 10)
  else none

/-- The bytes of pairs of digits. -/
def ofHexChars? : List Char → Option Bytes
  | [] => some []
  | [_] => none
  | a :: b :: rest => do
    let high ← hexValue? a
    let low ← hexValue? b
    let bs ← ofHexChars? rest
    return UInt8.ofNat (16 * high + low) :: bs

/-- The byte string of a hexadecimal text. -/
def ofHex? (s : String) : Option Bytes :=
  ofHexChars? s.toList

end ObjectStore.Bytes
