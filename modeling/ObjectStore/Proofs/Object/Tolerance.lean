import ObjectStore.Proofs.Cbor.Broken
import ObjectStore.Proofs.Object.Lengths

/-!
# Fields in any order and fields that no one knows

Stored values are records in records: metadata with a key and privileges, and a record with its payload. In
each of them the fields may come in any order and between them there may be fields that no one knows, with
any content that can be passed over; the decoder answers the same value. It answers none if a field is left
out or given twice.

Main statement: `DataCodec.tolerant_decode`, for records with their positions and for metadata.
-/

namespace ObjectStore

namespace Cbor

variable {α : Type} [Layout α]

/-- The bytes spell the value as a whole, the content of extra fields obeying the rules. -/
def Spells (rules : Rules) (a : α) (bs : Bytes) : Prop :=
  (Layout.shape α).Spells (Item rules) depthLimit (Layout.toVal a) bs

/-- The bytes spell the value but for one field, which is left out or given twice. -/
def Breaks (rules : Rules) (a : α) (bs : Bytes) : Prop :=
  (Layout.shape α).Breaks (Item rules) depthLimit (Layout.toVal a) bs

/-- What a decoder says of the bytes that spell a value and of those that do so but for one field. The
encoding is one of the spellings. -/
structure Tolerant (rules : Rules) (encoded : Except CodecError Bytes)
    (decode : Bytes → Except CodecError α) (a : α) : Prop where
  encoded_spells : ∃ bs, encoded = .ok (formatVersion :: bs) ∧ Spells rules a bs
  decode_spelled : ∀ bs, Spells rules a bs → decode (formatVersion :: bs) = .ok a
  decode_broken : ∀ bs, Breaks rules a bs →
    ∃ reason, decode (formatVersion :: bs) = .error (.decodingFailed reason)

theorem decode_of_refuses {bs : Bytes} (h : (Layout.shape α).Reads depthLimit bs none) :
    (decode (formatVersion :: bs) : Except CodecError α) =
      .error (.decodingFailed "not an item of this type") := by
  rw [decode, Shape.decode_of_refuses h]
  rfl

/-- A value whose shape can be read is answered for each of its spellings. -/
theorem tolerant_of_plain (hdepth : (Layout.shape α).depth ≤ depthLimit)
    (hplain : (Layout.shape α).isPlain) {a : α} (hfits : (Layout.shape α).fits (Layout.toVal a)) :
    Tolerant .readable (encode a) decode a where
  encoded_spells := ⟨_, if_pos hfits, Shape.spells_write _ _ depthLimit hplain _ hfits⟩
  decode_spelled bs h := by
    rw [decode, Shape.decode_of_spells hdepth hplain hfits h, Except.map, Layout.ofVal_toVal]
  decode_broken bs h :=
    ⟨_, decode_of_refuses (Shape.refuses_of_breaks _ depthLimit hdepth hplain _ hfits h)⟩

end Cbor

namespace DataCodec

open Cbor

/-! ## Metadata with a field too many or too few -/

/-- Metadata with their fields in reverse order, and in front of them a field that no one knows. -/
def metadataWith (item : Bytes) (m : Metadata) : Bytes :=
  Fields.writeWith _ (writeText "x" ++ item) (Layout.toVal m)

theorem spells_metadataWith {rules : Rules} {item : Bytes} {m : Metadata} (h : Addressable m.lengths)
    (hitem : Item rules 255 item) : Spells rules m (metadataWith item m) :=
  Shape.spells_writeWith Metadata.plain.2 ((Metadata.fits_iff m).mpr h) (by decide)
    (.of_writeText (by decide) (by decide) hitem)

/-- Metadata without their key. -/
def metadataWithoutKey (m : Metadata) : Bytes :=
  (Shape.record _).write (Layout.toVal m).2

theorem breaks_metadataWithoutKey {rules : Rules} {m : Metadata} (h : Addressable m.lengths) :
    Breaks rules m (metadataWithoutKey m) :=
  Shape.breaks_without_first Metadata.plain.2 ((Metadata.fits_iff m).mpr h)

/-! ## Tolerant decoding -/

/-- In the stored form of a value that 64 bits can address, of a record with its position or of metadata,
the fields may be in another order at every level, with extra fields between them whose content can be
passed over, and it still decodes as that value. With one field left out or given twice it decodes as none. -/
theorem tolerant_decode :
    (∀ position r, Addressable r.lengths →
      Tolerant .readable (cbor.encodeRecord position r) cbor.decodeRecord (position, r)) ∧
    ∀ m, Addressable m.lengths →
      Tolerant .readable (cbor.encodeMetadata m) cbor.decodeMetadata m := by
  constructor
  · intro position r h
    exact tolerant_of_plain Record.plain.1 Record.plain.2 ((Record.fits_iff position r).mpr h)
  · intro m h
    exact tolerant_of_plain Metadata.plain.1 Metadata.plain.2 ((Metadata.fits_iff m).mpr h)

/-- A record with details of all kinds, and metadata with an open array in an extra field and without
their key. -/
theorem tolerant_decode_reversed :
    Addressable detailedForm.lengths ∧ Addressable sharedMetadata.lengths ∧
      Tolerant .readable (cbor.encodeRecord 4294967295 detailedForm) cbor.decodeRecord
        (4294967295, detailedForm) ∧
      cbor.decodeMetadata (formatVersion :: metadataWith [0x9f, 0xf6, 0xff] sharedMetadata) =
        .ok sharedMetadata ∧
      ∃ reason, cbor.decodeMetadata (formatVersion :: metadataWithoutKey sharedMetadata) =
        .error (.decodingFailed reason) := by
  have hrecord : Addressable detailedForm.lengths := by decide +kernel
  have hmetadata : Addressable sharedMetadata.lengths := by decide +kernel
  have hnull : Item .readable 254 [0xf6] :=
    .simple ⟨22, 22, .inl ⟨by decide, rfl⟩⟩ (by decide) (by decide) ⟨by decide, by decide⟩
  have hitem : Item .readable 255 [0x9f, 0xf6, 0xff] := .openArray [[0xf6]] (by simpa using hnull)
  exact ⟨hrecord, hmetadata, tolerant_decode.1 _ _ hrecord,
    (tolerant_decode.2 _ hmetadata).decode_spelled _ (spells_metadataWith hmetadata hitem),
    (tolerant_decode.2 _ hmetadata).decode_broken _ (breaks_metadataWithoutKey hmetadata)⟩

/-- Metadata are spelled with a well-formed item in an extra field, but do not decode. -/
def Unread (item : Bytes) (m : Metadata) : Prop :=
  Spells .wellFormed m (metadataWith item m) ∧
    cbor.decodeMetadata (formatVersion :: metadataWith item m) =
      .error (.decodingFailed "not an item of this type")

/-- What is not passed over keeps metadata from being read. -/
theorem unread_of_rejects {item : Bytes} {m : Metadata} (h : Addressable m.lengths)
    (hitem : Item .wellFormed 255 item) (hrejects : (skipItem 255).Rejects item) : Unread item m := by
  have hrefuses : Metadata.shape.Reads depthLimit (metadataWith item m) none :=
    Shape.refuses_writeWith (by decide) Metadata.plain.2 ((Metadata.fits_iff m).mpr h) (by decide)
      (by decide) (by decide) hrejects
  exact ⟨spells_metadataWith h hitem, decode_of_refuses hrefuses⟩

/-- Not every well-formed item will do in an extra field: not a simple value without a meaning, not a text
that is none, and not a negative number with too large digits. -/
theorem not_tolerant_wellFormed :
    Unread [0xf0] {} ∧ Unread [0x61, 0xff] {} ∧
      Unread (0xc3 :: 0x50 :: 0x80 :: List.replicate 15 0) {} := by
  have haddressable : Addressable ({} : Metadata).lengths := by decide
  let one : Argument := ⟨1, 1, .inl ⟨by decide, rfl⟩⟩
  let three : Argument := ⟨3, 3, .inl ⟨by decide, rfl⟩⟩
  let sixteen : Argument := ⟨16, 16, .inl ⟨by decide, rfl⟩⟩
  refine ⟨?_, ?_, ?_⟩
  · have hunknown : ¬ Rules.readable.simple 16 := show ¬ (20 ≤ 16 ∧ 16 ≤ 23) by decide
    exact unread_of_rejects haddressable (.simple sixteen (by decide) (by decide) trivial)
      (rejects_skipItem_simple sixteen (by decide) hunknown)
  · have hinvalid : ¬ Rules.readable.text [0xff] := show ¬ (Utf8.decode? [0xff]).isSome by decide
    exact unread_of_rejects haddressable (.text one [0xff] rfl trivial)
      (rejects_skipItem_text one rfl hinvalid)
  · have hlarge : ¬ Rules.readable.digits 3 (0x80 :: List.replicate 15 0) :=
      fun hdigits => absurd (hdigits rfl (by decide)) (by decide)
    exact unread_of_rejects haddressable (.wideNumber three sixteen _ (.inr rfl) rfl (by decide) trivial)
      (rejects_skipItem_digits three sixteen rfl rfl (by decide) hlarge)

end DataCodec

end ObjectStore
