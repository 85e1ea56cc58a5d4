import ObjectStore.Proofs.Object.Codec

/-!
# Lengths in stored values

The stored form of a record or of metadata spells out lengths: of texts and byte lists, and of
collections. A value can be encoded just when 64 bits hold each of them (`Record.fits_iff`,
`Metadata.fits_iff`), which is so for every value that an address space has room for.

Main statement: `DataCodec.decode_encode`, that encoding such a value and decoding the bytes answers
the value, for records with their positions and for metadata.
-/

namespace ObjectStore

open Cbor

/-! ## Lengths that are spelled out -/

/-- The lengths in the stored form of details: their number, and the size of each name and value. -/
def Details.lengths (d : Details) : List Nat :=
  d.entries.length :: d.entries.flatMap fun (name, value) => [name.utf8ByteSize, value.byteSize]

/-- The lengths in the stored form of a payload. -/
def Payload.lengths (p : Payload) : List Nat :=
  p.details.lengths ++ p.texts.map String.utf8ByteSize ++ [p.rawSize]

/-- The lengths in the stored form of a record. -/
def Record.lengths (r : Record) : List Nat :=
  r.uid.utf8ByteSize :: r.value.lengths

/-- The lengths in the stored form of a key: those of its text and its segments. -/
def ObjectKey.lengths (k : ObjectKey) : List Nat :=
  [k.cached, k.intention, k.bundle, k.group].map String.utf8ByteSize

/-- The lengths in the stored form of a privilege. -/
def Privilege.lengths (p : Privilege) : List Nat :=
  [p.readPermission, p.writePermission].map String.utf8ByteSize

/-- The lengths in the stored form of metadata. -/
def Metadata.lengths (m : Metadata) : List Nat :=
  m.key.lengths ++ m.privileges.length :: m.privileges.flatMap Privilege.lengths ++
    [m.sourcePackage, m.createPackage, m.deviceId].map String.utf8ByteSize

/-- Whether 64 bits hold each of the lengths. -/
def Addressable (lengths : List Nat) : Prop :=
  ∀ n ∈ lengths, n < UInt64.size

instance (lengths : List Nat) : Decidable (Addressable lengths) :=
  inferInstanceAs (Decidable (∀ n ∈ lengths, n < UInt64.size))

@[simp]
theorem addressable_nil : Addressable [] := by
  simp [Addressable]

@[simp]
theorem addressable_cons {n : Nat} {lengths : List Nat} :
    Addressable (n :: lengths) ↔ n < UInt64.size ∧ Addressable lengths := by
  simp [Addressable]

@[simp]
theorem addressable_append {lengths others : List Nat} :
    Addressable (lengths ++ others) ↔ Addressable lengths ∧ Addressable others := by
  simp [Addressable, or_imp, forall_and]

@[simp]
theorem addressable_flatMap {α : Type} {as : List α} {lengths : α → List Nat} :
    Addressable (as.flatMap lengths) ↔ ∀ a ∈ as, Addressable (lengths a) := by
  simp only [Addressable, List.mem_flatMap]
  grind

/-! ## Lengths that can be written -/

section Fits

@[simp]
theorem fits_word {w : Word} (v : w.Val) : (Shape.word w).fits v = true := rfl

@[simp]
theorem fits_bool (b : Bool) : Shape.bool.fits b = true := rfl

@[simp]
theorem fits_text (s : String) : Shape.text.fits s = decide (s.utf8ByteSize < UInt64.size) := rfl

@[simp]
theorem fits_pair {first second : Shape} (v : first.Val × second.Val) :
    (Shape.pair first second).fits v = (first.fits v.1 && second.fits v.2) := rfl

@[simp]
theorem fits_record {fields : Fields} (vs : fields.Vals) :
    (Shape.record fields).fits vs = fields.fits vs := rfl

@[simp]
theorem fits_choice {variants : Variants} (v : variants.Val) :
    (Shape.choice variants).fits v = variants.fits v := rfl

/-- Every byte can be written, so a byte list can when its length can. -/
@[simp]
theorem fits_bytes (bs : Bytes) :
    (Shape.list (.word .u8)).fits bs = decide (bs.length < UInt64.size) := by
  simp [Shape.fits]

end Fits

theorem DetailValue.fits_eq (v : DetailValue) :
    DetailValue.shape.fits (Layout.toVal v) = decide (v.byteSize < UInt64.size) := by
  cases v with
  | int n => rfl
  | long n => rfl
  | bool b => rfl
  | text s => rfl
  | bytes bs => exact fits_bytes bs

theorem Details.fits_eq (d : Details) :
    Details.shape.fits d.toVal = decide (Addressable d.lengths) := by
  have hentries : d.toVal.entries = d.entries.map fun e => (e.1, Layout.toVal e.2) := rfl
  rw [Bool.eq_iff_iff, decide_eq_true_iff, lengths, addressable_cons, addressable_flatMap]
  unfold Shape.fits
  simp only [hentries, List.length_map, List.all_map, Bool.and_eq_true, decide_eq_true_eq,
    List.all_eq_true, Function.comp_apply, DetailValue.fits_eq, addressable_cons, addressable_nil,
    and_true]

theorem Payload.fits_iff (p : Payload) :
    Payload.shape.fits (Layout.toVal p) ↔ Addressable p.lengths := by
  cases p with
  | file kind d uri =>
    cases kind <;>
      simp [Layout.toVal, Variants.fits, Fields.fits, Details.fits_eq, lengths, details, texts,
        rawSize]
  | applicationDefined typeName rawData =>
    -- Without details there is only their number, none.
    have hnone : Addressable (Details.lengths .empty) := by decide
    simp [Layout.toVal, Variants.fits, Fields.fits, lengths, details, texts, rawSize, hnone]
  | form d card =>
    have hnumber : 4 < UInt64.size := by decide
    simp [Layout.toVal, Variants.fits, Fields.fits, Details.fits_eq, lengths, details, texts,
      rawSize, hnumber]
  | _ =>
    simp [Layout.toVal, Variants.fits, Fields.fits, Details.fits_eq, lengths, details, texts,
      rawSize]

theorem Record.fits_iff (position : UInt32) (r : Record) :
    (Layout.shape (UInt32 × Record)).fits (Layout.toVal (position, r)) ↔ Addressable r.lengths := by
  simp [Layout.shape, Layout.toVal, Fields.fits, lengths, ← Payload.fits_iff]

theorem ObjectKey.fits_eq (k : ObjectKey) :
    ObjectKey.shape.fits (Layout.toVal k) = decide (Addressable k.lengths) := by
  simp [Layout.toVal, Fields.fits, lengths]

theorem Privilege.fits_eq (p : Privilege) :
    Privilege.shape.fits (Layout.toVal p) = decide (Addressable p.lengths) := by
  simp [Layout.toVal, Fields.fits, lengths]

theorem Privilege.fits_list (ps : List Privilege) :
    (Shape.list Privilege.shape).fits (Layout.toVal ps) =
      decide (Addressable (ps.length :: ps.flatMap Privilege.lengths)) := by
  have htoVal : Layout.toVal ps = ps.map Layout.toVal := rfl
  rw [Bool.eq_iff_iff, decide_eq_true_iff, addressable_cons, addressable_flatMap, Shape.fits,
    htoVal, List.length_map, List.all_map]
  simp only [Bool.and_eq_true, decide_eq_true_eq, List.all_eq_true, Function.comp_apply,
    Privilege.fits_eq]

theorem Metadata.fits_iff (m : Metadata) :
    Metadata.shape.fits (Layout.toVal m) ↔ Addressable m.lengths := by
  have hstatus : DataStatus.shape.fits (Layout.toVal m.status) = true := by
    cases m.status <;> rfl
  -- Field by field: the flag, the numbers and the status can always be written.
  have hfits : Metadata.shape.fits (Layout.toVal m) =
      (ObjectKey.shape.fits (Layout.toVal m.key) && (true &&
        ((Shape.list Privilege.shape).fits (Layout.toVal m.privileges) && (true && (true &&
          (Shape.text.fits m.sourcePackage && (Shape.text.fits m.createPackage &&
            (Shape.text.fits m.deviceId && (true &&
              (DataStatus.shape.fits (Layout.toVal m.status) && (true && true))))))))))) := rfl
  rw [hfits, ObjectKey.fits_eq, Privilege.fits_list, hstatus]
  simp [lengths, and_assoc]

/-! ## Stored values read back -/

namespace DataCodec

theorem encodeRecord_of_addressable (position : UInt32) {r : Record} (h : Addressable r.lengths) :
    ∃ bs, cbor.encodeRecord position r = .ok bs :=
  ⟨_, if_pos ((Record.fits_iff position r).mpr h)⟩

theorem encodeMetadata_of_addressable {m : Metadata} (h : Addressable m.lengths) :
    ∃ bs, cbor.encodeMetadata m = .ok bs :=
  ⟨_, if_pos ((Metadata.fits_iff m).mpr h)⟩

/-- Encoding a value that 64 bits can address and decoding the bytes answers the value: a record of
any kind with any position, and metadata. -/
theorem decode_encode :
    (∀ position r, Addressable r.lengths →
      (cbor.encodeRecord position r >>= cbor.decodeRecord) = .ok (position, r)) ∧
    ∀ m, Addressable m.lengths →
      (cbor.encodeMetadata m >>= cbor.decodeMetadata) = .ok m := by
  constructor
  · intro position r h
    obtain ⟨bs, hbs⟩ := encodeRecord_of_addressable position h
    rw [hbs]
    exact decodeRecord_of_encodeRecord hbs
  · intro m h
    obtain ⟨bs, hbs⟩ := encodeMetadata_of_addressable h
    rw [hbs]
    exact decodeMetadata_of_encodeMetadata hbs

/-- A form with details of all five kinds, at the ends of the number types and with texts of more
bytes than characters. -/
def detailedForm : Record where
  uid := "z-1"
  value := .form
    (.ofList
      [("größe", .long (-9223372036854775808)), ("leer", .text ""), ("roh", .bytes [0, 24, 255]),
        ("tiefe", .int (-2147483648)), ("wahr", .bool true), ("日本", .text "語😀")])
    { formId := 2147483647, formName := "карта", moduleName := "entry" }

/-- Metadata with two privileges and a status other than the usual one. -/
def sharedMetadata : Metadata where
  key := ObjectKey.ofSegments "drag" "com.example.test" "größe"
  isPrivate := true
  privileges := [{ tokenId := 4294967295, readPermission := "läs" }, { writePermission := "skriv" }]
  createTime := -1
  lastModifiedTime := 9223372036854775807
  recordTotal := 65536
  status := .deleted
  version := -2147483648

theorem decode_encode_detailed :
    Addressable detailedForm.lengths ∧ Addressable sharedMetadata.lengths ∧
      (cbor.encodeRecord 4294967295 detailedForm >>= cbor.decodeRecord) =
        .ok (4294967295, detailedForm) ∧
      (cbor.encodeMetadata sharedMetadata >>= cbor.decodeMetadata) = .ok sharedMetadata := by
  have hrecord : Addressable detailedForm.lengths := by decide +kernel
  have hmetadata : Addressable sharedMetadata.lengths := by decide +kernel
  exact ⟨hrecord, hmetadata, decode_encode.1 _ _ hrecord, decode_encode.2 _ hmetadata⟩

end DataCodec

end ObjectStore
