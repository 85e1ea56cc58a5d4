import ObjectStore.Bytes.Reader
import ObjectStore.Bytes.Utf8

/-!
# Item heads

Every item opens with a head: a major type and an argument, which is a number, a length, a count or
a tag. Writing takes the shortest form of the argument; reading takes all forms. Strings are read
here too, in one part or in segments up to a stop.

Main statement: `Head.read_write`, that the shortest form of a head reads back as that head.
-/

namespace ObjectStore.Cbor

/-- The opening of an item. A length or count that is `none` is given by a later stop. -/
inductive Head where
  | unsigned (n : Nat)
  /-- The number `-1 - n`. -/
  | negative (n : Nat)
  | bytes (length : Option Nat)
  | text (length : Option Nat)
  | array (count : Option Nat)
  | map (count : Option Nat)
  | tag (n : Nat)
  | simple (n : Nat)
  | float
  | stop
  deriving DecidableEq, Repr

namespace Head

/-! ## Writing -/

/-- The bytes of a head with the given major type and argument, in the shortest form. -/
def write (major n : Nat) : Bytes :=
  if n < 24 then [UInt8.ofNat (32 * major + n)]
  else if n < UInt8.size then UInt8.ofNat (32 * major + 24) :: Bytes.bigEndian 1 n
  else if n < UInt16.size then UInt8.ofNat (32 * major + 25) :: Bytes.bigEndian 2 n
  else if n < UInt32.size then UInt8.ofNat (32 * major + 26) :: Bytes.bigEndian 4 n
  else UInt8.ofNat (32 * major + 27) :: Bytes.bigEndian 8 n

/-! ## Reading -/

/-- The head with the given major type, argument form and argument. The forms `28` to `30` mean
nothing, and only strings, arrays, maps and the stop go without an argument (form `31`). -/
def ofParts? (major form n : Nat) : Option Head :=
  if form = 31 then
    match major with
    | 2 => some (.bytes none)
    | 3 => some (.text none)
    | 4 => some (.array none)
    | 5 => some (.map none)
    | 7 => some .stop
    | _ => none
  else if 28 ≤ form then none
  else
    match major with
    | 0 => some (.unsigned n)
    | 1 => some (.negative n)
    | 2 => some (.bytes (some n))
    | 3 => some (.text (some n))
    | 4 => some (.array (some n))
    | 5 => some (.map (some n))
    | 6 => some (.tag n)
    | _ => if form ≤ 24 then some (.simple n) else some .float

/-- How many bytes hold the argument of a form from `24` to `27`. -/
def argumentWidth : (form : Nat) → Nat
  | 24 => 1
  | 25 => 2
  | 26 => 4
  | _ => 8

/-- The argument of a head: the form itself below `24`, else the `1`, `2`, `4` or `8` bytes that
follow. -/
def argument (form : Nat) : Reader Nat :=
  if form < 24 then pure form
  else if form < 28 then Bytes.ofBigEndian <$> Reader.take (argumentWidth form)
  else pure 0

/-- Takes a head. -/
def read : Reader Head := do
  let b ← Reader.byte
  let n ← argument (b.toNat % 32)
  Reader.ofOption (ofParts? (b.toNat / 32) (b.toNat % 32) n)

theorem read_cons_short {major n : Nat} (hmajor : major < 8) (hn : n < 24) (rest : Bytes) :
    read.run (UInt8.ofNat (32 * major + n) :: rest) =
      (Reader.ofOption (ofParts? major n n)).run rest := by
  have hb : (UInt8.ofNat (32 * major + n)).toNat = 32 * major + n := by
    rw [UInt8.toNat_ofNat']
    omega
  have hform : (32 * major + n) % 32 = n := by omega
  have hdiv : (32 * major + n) / 32 = major := by omega
  simp only [read, Reader.run_bind, Reader.byte, hb, hform, hdiv, argument, if_pos hn,
    Reader.run_pure]

theorem read_cons_wide {major form n : Nat} (hmajor : major < 8) (hlow : 24 ≤ form)
    (hhigh : form < 28) (hn : n < Bytes.capacity (argumentWidth form)) (rest : Bytes) :
    read.run (UInt8.ofNat (32 * major + form) :: (Bytes.bigEndian (argumentWidth form) n ++ rest)) =
      (Reader.ofOption (ofParts? major form n)).run rest := by
  have hb : (UInt8.ofNat (32 * major + form)).toNat = 32 * major + form := by
    rw [UInt8.toNat_ofNat']
    omega
  have hform : (32 * major + form) % 32 = form := by omega
  have hdiv : (32 * major + form) / 32 = major := by omega
  have htake : (Reader.take (argumentWidth form)).run (Bytes.bigEndian (argumentWidth form) n ++ rest) =
      some (Bytes.bigEndian (argumentWidth form) n, rest) :=
    Bytes.splitFront?_eq_some_iff.mpr ⟨rfl, Bytes.length_bigEndian _ _⟩
  simp only [read, Reader.run_bind, Reader.byte, hb, hform, hdiv, argument,
    if_neg (Nat.not_lt.mpr hlow), if_pos hhigh, Reader.run_map, htake, Bytes.ofBigEndian_bigEndian,
    Nat.mod_eq_of_lt hn]

/-- The shortest form of a head reads back, up to the arguments that eight bytes can hold. -/
theorem read_write {major n : Nat} (hmajor : major < 8) (hn : n < UInt64.size) (rest : Bytes) :
    ∃ form, form < 28 ∧ (n < 24 → form = n) ∧ (24 ≤ n → 24 ≤ form) ∧
      read.run (write major n ++ rest) = (Reader.ofOption (ofParts? major form n)).run rest := by
  unfold write
  split
  · -- Below `24` the argument is its own form.
    rename_i h
    exact ⟨n, by omega, fun _ => rfl, fun _ => by omega, read_cons_short hmajor h rest⟩
  · -- From `24` on the form tells the width, and the width has room for the argument.
    rename_i h24
    split
    · rename_i h
      exact ⟨24, by omega, fun _ => by omega, fun _ => by omega,
        read_cons_wide hmajor (Nat.le_refl _) (by omega) h rest⟩
    · split
      · rename_i h
        exact ⟨25, by omega, fun _ => by omega, fun _ => by omega,
          read_cons_wide hmajor (by omega) (by omega) h rest⟩
      · split
        · rename_i h
          exact ⟨26, by omega, fun _ => by omega, fun _ => by omega,
            read_cons_wide hmajor (by omega) (by omega) h rest⟩
        · exact ⟨27, by omega, fun _ => by omega, fun _ => by omega,
            read_cons_wide hmajor (by omega) (by omega) hn rest⟩

/-- Takes heads as long as they are tags, starting from a head already taken. -/
def skipTags (h : Head) : Reader Head :=
  Reader.loop
    (fun
      | .tag _ => Sum.inl <$> read
      | h => pure (.inr h))
    h

/-- Takes a head after any tags. -/
def readUntagged : Reader Head := do
  skipTags (← read)

end Head

/-! ## Strings -/

/-- Takes the segments of a string up to its stop. A segment may itself be open-ended, and then has a
stop of its own; `lengthOf` tells which heads open a segment. -/
def segments (lengthOf : Head → Option (Option Nat)) : Reader (List Bytes) :=
  Reader.loop
    (fun (depth, acc) => do
      match ← Head.read with
      | .stop =>
        -- A stop closes the innermost open segment, or else the string.
        match depth with
        | 0 => pure (.inr acc.reverse)
        | depth + 1 => pure (.inl (depth, acc))
      | h =>
        match lengthOf h with
        | none => Reader.fail
        | some none => pure (.inl (depth + 1, acc))
        | some (some n) => do
          let segment ← Reader.take n
          pure (.inl (depth, segment :: acc)))
    ((0, []) : Nat × List Bytes)

/-- Takes the content of a byte string. -/
def byteContent : (length : Option Nat) → Reader Bytes
  | some n => Reader.take n
  | none =>
    List.flatten <$> segments fun
      | .bytes length => some length
      | _ => none

/-- Takes the content of a text. Each segment has to be well formed by itself. -/
def textContent : (length : Option Nat) → Reader String
  | some n => do
    let front ← Reader.take n
    Reader.ofOption (Utf8.decode? front)
  | none => do
    let parts ← segments fun
      | .text length => some length
      | _ => none
    let texts ← Reader.ofOption (parts.mapM Utf8.decode?)
    pure (String.join texts)

end ObjectStore.Cbor
