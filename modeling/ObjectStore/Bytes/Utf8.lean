import ObjectStore.Bytes

/-!
# Texts as bytes

Texts are stored and compared by their UTF-8 form. `encode` gives that form, `decode?` takes it back
and refuses everything that is not one, and `lossy` makes a text of any byte string by putting the
replacement character in the place of each ill-formed part.

Main statement: `decode?_eq_some_iff`, which says that `decode?` accepts exactly the forms that
`encode` gives, so a text and its bytes determine each other.
-/

namespace ObjectStore.Utf8

/-- The UTF-8 form of a text. -/
def encode (s : String) : Bytes :=
  s.toUTF8.data.toList

/-- The text whose UTF-8 form this is. -/
def decode? (bs : Bytes) : Option String :=
  String.fromUTF8? ⟨bs.toArray⟩

theorem decode?_eq_some_iff {bs : Bytes} {s : String} : decode? bs = some s ↔ encode s = bs := by
  unfold decode? encode String.fromUTF8?
  split
  · rename_i h
    simp only [Option.some.injEq]
    constructor
    · rintro rfl
      rfl
    · rintro rfl
      exact String.toByteArray_inj.mp rfl
  · rename_i h
    simp only [reduceCtorEq, false_iff]
    rintro rfl
    exact h s.isValidUTF8

@[simp]
theorem decode?_encode (s : String) : decode? (encode s) = some s :=
  decode?_eq_some_iff.mpr rfl

theorem encode_injective {s t : String} (h : encode s = encode t) : s = t := by
  have hs := decode?_encode s
  rw [h, decode?_encode] at hs
  exact (Option.some.inj hs).symm

@[simp]
theorem encode_append (s t : String) : encode (s ++ t) = encode s ++ encode t := by
  simp [encode]

theorem length_encode (s : String) : (encode s).length = s.utf8ByteSize :=
  Array.length_toList

/-! ## Lossy reading -/

/-- How many bytes follow a lead byte, and the least and greatest value of the first of them;
`none` for a byte that leads nothing. -/
def following? (lead : UInt8) : Option (Nat × UInt8 × UInt8) :=
  if lead < 0x80 then some (0, 0x80, 0xBF)
  else if lead < 0xC2 then none
  else if lead < 0xE0 then some (1, 0x80, 0xBF)
  else if lead = 0xE0 then some (2, 0xA0, 0xBF)
  else if lead = 0xED then some (2, 0x80, 0x9F)
  else if lead < 0xF0 then some (2, 0x80, 0xBF)
  else if lead = 0xF0 then some (3, 0x90, 0xBF)
  else if lead < 0xF4 then some (3, 0x80, 0xBF)
  else if lead = 0xF4 then some (3, 0x80, 0x8F)
  else none

/-- The longest front part of at most `n` bytes that can follow a lead byte: the first within
`low` and `high`, each later one within `0x80` and `0xBF`. -/
def tails : (n : Nat) → (low high : UInt8) → Bytes → Bytes
  | n + 1, low, high, b :: rest =>
    if low ≤ b ∧ b ≤ high then b :: tails n 0x80 0xBF rest else []
  | _, _, _, _ => []

/-- The character spelled by a lead byte and all its following bytes. -/
def assemble (lead : UInt8) (tail : Bytes) : Char :=
  let top := match tail.length with
    | 0 => lead.toNat
    | 1 => lead.toNat % 32
    | 2 => lead.toNat % 16
    | _ => lead.toNat % 8
  Char.ofNat (tail.foldl (fun n b => 64 * n + b.toNat % 64) top)

/-- The mark that stands for an ill-formed part. -/
def replacement : Char := '\uFFFD'

/-- The characters of a byte string. A lead byte with as many of its following bytes as are well
formed is one part; a part that is not complete reads as one replacement character. -/
def lossyChars (bs : Bytes) : List Char :=
  match bs with
  | [] => []
  | lead :: rest =>
    match following? lead with
    | none => replacement :: lossyChars rest
    | some (n, low, high) =>
      let tail := tails n low high rest
      let char := if tail.length = n then assemble lead tail else replacement
      char :: lossyChars (rest.drop tail.length)
termination_by bs.length

/-- The text of a byte string, with a replacement character for each ill-formed part. -/
def lossy (bs : Bytes) : String :=
  String.ofList (lossyChars bs)

end ObjectStore.Utf8
