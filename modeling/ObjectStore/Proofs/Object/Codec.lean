import ObjectStore.Object.Codec
import ObjectStore.Proofs.Action
import ObjectStore.Proofs.Cbor.Opening
import ObjectStore.Proofs.Cbor.RoundTrip

/-!
# Stored values read back

Records with their positions and metadata decode from what the codec makes of them, and nothing decodes
as both.
-/

namespace ObjectStore

open Cbor

theorem Record.plain : (Layout.shape (UInt32 × Record)).depth ≤ depthLimit ∧
    (Layout.shape (UInt32 × Record)).isPlain := by
  decide +kernel

theorem Metadata.plain : (Layout.shape Metadata).depth ≤ depthLimit ∧
    (Layout.shape Metadata).isPlain := by
  decide +kernel

namespace DataCodec

/-- A record that can be encoded decodes with its position. -/
theorem decodeRecord_of_encodeRecord {position : UInt32} {r : Record} {bs : Bytes}
    (h : cbor.encodeRecord position r = .ok bs) : cbor.decodeRecord bs = .ok (position, r) :=
  decode_of_encode Record.plain.1 Record.plain.2 h

/-- Metadata that can be encoded decode. -/
theorem decodeMetadata_of_encodeMetadata {m : Metadata} {bs : Bytes}
    (h : cbor.encodeMetadata m = .ok bs) : cbor.decodeMetadata bs = .ok m :=
  decode_of_encode Metadata.plain.1 Metadata.plain.2 h

/-- A record with its position opens as an array and metadata open as a map, so that no value is taken for
the other. -/
theorem decodeMetadata_ne_ok {bs : Bytes} {member : UInt32 × Record}
    (h : cbor.decodeRecord bs = .ok member) (m : Metadata) : cbor.decodeMetadata bs ≠ .ok m := by
  intro hm
  obtain ⟨v, hpair, -⟩ := Answer.map_eq_ok_iff.mp h
  obtain ⟨vs, hrecord, -⟩ := Answer.map_eq_ok_iff.mp hm
  exact Shape.not_decode_pair_record hpair hrecord

end DataCodec

end ObjectStore
