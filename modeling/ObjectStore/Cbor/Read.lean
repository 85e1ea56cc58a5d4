import ObjectStore.Cbor.Shape

/-!
# Reading by shape

`Shape.readAfter` takes a value of a shape off the front of a byte string, from a head already taken.
It accepts more than `Shape.write` gives: heads of any width, strings, arrays and maps without a
length, tags in front of values and names, fields in any order, fields that no one knows, byte
strings for lists of numbers, and large numbers spelled as tagged byte strings.

Nesting is limited: every array, map and choice takes one level of `depth`, and so does every tag in
content that is skipped, unless it belongs to the spelling of a number.
-/

namespace ObjectStore.Cbor

/-! ## Content of no interest -/

/-- Goes one level deeper, if there is one left. -/
def nested {α : Type} (depth : Nat) (r : Nat → Reader α) : Reader α :=
  match depth with
  | 0 => Reader.fail
  | depth + 1 => r depth

/-- The longest byte string that is read as one number in content of no interest. -/
def wideNumberLimit : Nat := 16

/-- The length of the byte string whose head comes after a tag, if the two stand for one number: tag
`2` or `3` and not too many bytes. -/
def wideNumber? (tag : Nat) : Head → Option Nat
  | .bytes (some n) => if (tag = 2 ∨ tag = 3) ∧ n ≤ wideNumberLimit then some n else none
  | _ => none

/-- Takes the digits of a number behind a tag. The number has to fit a signed word of
`wideNumberLimit` bytes if it is negative, so that only half of the digits will do after tag `3`. -/
def skipWideNumber (tag n : Nat) : Reader Unit := do
  let bs ← Reader.take n
  if tag = 3 ∧ Bytes.capacity wideNumberLimit / 2 ≤ Bytes.ofBigEndian bs then Reader.fail
  else pure ()

/-- Takes the rest of any well-formed item from its head; `inner` takes the rest of the items inside
it from theirs. -/
def skipAfter (inner : Option (Head → Reader Unit)) : Head → Reader Unit
  | .unsigned _ => pure ()
  | .negative _ => pure ()
  | .float => pure ()
  | .bytes length => (fun _ => ()) <$> byteContent length
  | .text length => (fun _ => ()) <$> textContent length
  | .array count => do
    let inner ← Reader.ofOption inner
    (fun _ => ()) <$> Reader.counted (Head.read >>= inner) count
  | .map count => do
    let inner ← Reader.ofOption inner
    (fun _ => ()) <$> Reader.counted (Head.read >>= inner >>= fun _ => Head.read >>= inner) count
  | .tag tag => do
    let h ← Head.read
    match wideNumber? tag h with
    | some n => skipWideNumber tag n
    | none =>
      let inner ← Reader.ofOption inner
      inner h
  | .simple n => if 20 ≤ n ∧ n ≤ 23 then pure () else Reader.fail
  | .stop => Reader.fail

/-- Takes the rest of any well-formed item that nests no deeper than `depth`, from its head. -/
def skipFrom : (depth : Nat) → Head → Reader Unit
  | 0 => skipAfter none
  | depth + 1 => skipAfter (some (skipFrom depth))

/-- Takes any well-formed item that nests no deeper than `depth`. -/
def skipItem (depth : Nat) : Reader Unit :=
  Head.read >>= skipFrom depth

/-! ## Numbers, texts and names -/

/-- Takes an integer from its head: a plain number, or after tag `2` or `3` a byte string of
base-256 digits; other tags are skipped. -/
def integerAfter (h : Head) : Reader Int :=
  Reader.loop
    (fun
      | .unsigned n => pure (.inr (n : Int))
      | .negative n => pure (.inr (-1 - (n : Int)))
      | .tag 2 => do
        match ← Head.read with
        | .bytes length => (fun bs => .inr (Bytes.ofBigEndian bs : Int)) <$> byteContent length
        | _ => Reader.fail
      | .tag 3 => do
        match ← Head.read with
        | .bytes length => (fun bs => .inr (-1 - (Bytes.ofBigEndian bs : Int))) <$> byteContent length
        | _ => Reader.fail
      | .tag _ => Sum.inl <$> Head.read
      | _ => Reader.fail)
    h

/-- Takes a text from its head. -/
def textAfter (h : Head) : Reader String := do
  match ← Head.skipTags h with
  | .text length => textContent length
  | _ => Reader.fail

/-- The longest name of a field or variant, in bytes. -/
def nameLimit : Nat := 4096

/-- Takes the name of a field or variant from its head: a text or byte string of known length and not
too long. -/
def nameAfter : Head → Reader Bytes
  | .text (some n) => do
    if nameLimit < n then Reader.fail
    else
      let name ← Reader.take n
      let _ ← Reader.ofOption (Utf8.decode? name)
      pure name
  | .bytes (some n) => if nameLimit < n then Reader.fail else Reader.take n
  | _ => Reader.fail

/-- Takes the name of a field or variant, after any tags. -/
def readName : Reader Bytes := do
  nameAfter (← Head.readUntagged)

/-! ## Values -/

/-- A byte of a byte string as an element of a list; numbers alone can be spelled so. -/
def Shape.ofByte? : (s : Shape) → UInt8 → Option s.Val
  | .word w, b => w.ofInt? b.toNat
  | .bool, _ => none
  | .text, _ => none
  | .list _, _ => none
  | .dict _, _ => none
  | .option _, _ => none
  | .pair _ _, _ => none
  | .record _, _ => none
  | .choice _, _ => none

/-- One entry of a record's map: the value of a field, or something of no interest. -/
@[reducible]
def Fields.Entry : Fields → Type
  | .nil => Unit
  | .cons _ shape rest => shape.Val ⊕ rest.Entry

/-- The values of all fields, if there is exactly one entry for each. -/
def Fields.collect? : (fs : Fields) → List fs.Entry → Option fs.Vals
  | .nil, _ => some ()
  | .cons _ _ rest, es =>
    match es.filterMap Sum.getLeft? with
    | [v] => (rest.collect? (es.filterMap Sum.getRight?)).map fun vs => (v, vs)
    | _ => none

mutual

/-- Takes a value of a shape from its head. -/
def Shape.readAfter : (s : Shape) → (depth : Nat) → Head → Reader s.Val
  | .word w, _, h => do
    let n ← integerAfter h
    Reader.ofOption (w.ofInt? n)
  | .bool, _, h => do
    match ← Head.skipTags h with
    | .simple 20 => pure false
    | .simple 21 => pure true
    | _ => Reader.fail
  | .text, _, h => textAfter h
  | .list element, depth, h => do
    match ← Head.skipTags h with
    | .array count =>
      nested depth fun depth =>
        Reader.counted (Head.read >>= fun h => element.readAfter depth h) count
    | .bytes length => do
      let bs ← byteContent length
      Reader.ofOption (bs.mapM element.ofByte?)
    | _ => Reader.fail
  | .dict value, depth, h => do
    match ← Head.skipTags h with
    | .map count =>
      nested depth fun depth => do
        let es ← Reader.counted
          (do
            let key ← textAfter (← Head.read)
            let v ← Head.read >>= fun h => value.readAfter depth h
            pure (key, v))
          count
        pure (SortedMap.ofList es)
    | _ => Reader.fail
  | .option value, depth, h =>
    -- Tags belong to the value, so no tag may stand before an absent one.
    match h with
    | .simple 22 => pure none
    | .simple 23 => pure none
    | h => some <$> value.readAfter depth h
  | .pair first second, depth, h => do
    match ← Head.skipTags h with
    | .array count =>
      -- Exactly two values are taken; what else the array has is left over.
      nested depth fun depth =>
        if count.all (2 ≤ ·) then do
          let a ← Head.read >>= fun h => first.readAfter depth h
          let b ← Head.read >>= fun h => second.readAfter depth h
          pure (a, b)
        else Reader.fail
    | _ => Reader.fail
  | .record fields, depth, h => do
    match ← Head.skipTags h with
    | .map count =>
      nested depth fun depth => do
        let es ← Reader.counted (readName >>= fun name => fields.readEntry depth name) count
        Reader.ofOption (fields.collect? es)
    | _ => Reader.fail
  | .choice variants, depth, h => do
    match ← Head.skipTags h with
    | .map (some 1) =>
      nested depth fun depth => readName >>= fun name => variants.readNamed depth name
    | .text length =>
      -- A bare name; if the variant has a payload, that comes right after the name.
      nested depth fun depth =>
        nameAfter (.text length) >>= fun name => variants.readNamed depth name
    | _ => Reader.fail

/-- Takes the value of a record's entry with the given name. -/
def Fields.readEntry : (fs : Fields) → (depth : Nat) → (name : Bytes) → Reader fs.Entry
  -- A name that is none of the fields: its content is of no interest.
  | .nil, depth, _ => skipItem depth
  | .cons field shape rest, depth, name =>
    if Utf8.encode field = name then
      Sum.inl <$> (Head.read >>= fun h => shape.readAfter depth h)
    else Sum.inr <$> rest.readEntry depth name

/-- Takes the payload of the variant with the given name. -/
def Variants.readNamed : (vs : Variants) → (depth : Nat) → (name : Bytes) → Reader vs.Val
  | .nil, _, _ => Reader.fail
  | .unit variant rest, depth, name =>
    if Utf8.encode variant = name then pure (.inl ())
    else Sum.inr <$> rest.readNamed depth name
  | .payload variant shape rest, depth, name =>
    if Utf8.encode variant = name then
      Sum.inl <$> (Head.read >>= fun h => shape.readAfter depth h)
    else Sum.inr <$> rest.readNamed depth name

end

/-- Takes a value of a shape. -/
def Shape.read (s : Shape) (depth : Nat) : Reader s.Val := do
  s.readAfter depth (← Head.read)

end ObjectStore.Cbor
