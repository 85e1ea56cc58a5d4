import ObjectStore.Proofs.Object.Lengths

/-!
# Where a stored value ends

An encoded value ends where its item ends. The decoder finds that place by itself: it takes the item
and nothing else, so it can say how many bytes come after it, and it does not take a part of the item
for an item. This holds at every cut, in a head, in a text or between two fields of a record, because
no reader answers differently when more bytes follow (`Reader.run_append`).

Main statement: `DataCodec.framed_encode`, for what the codec makes of records with their positions and
of metadata.
-/

namespace ObjectStore

namespace Cbor

/-- What a decoder says of the bytes of a value when something is added behind them, when something is
missing at their end, when nothing is left of them, and when they start with another version. -/
structure Framed {α : Type} (decode : Bytes → Except CodecError α) (bs : Bytes) : Prop where
  version_first : bs.head? = some formatVersion
  trailing : ∀ more, more ≠ [] → decode (bs ++ more) = .error (.trailingBytes more.length)
  cut : ∀ front, front <+: bs → front ≠ bs → front ≠ [] →
    ∃ reason, decode front = .error (.decodingFailed reason)
  empty : decode [] = .error .unexpectedEnd
  other_version : ∀ version, version ≠ formatVersion → ∀ rest,
    decode (version :: rest) = .error (.unsupportedVersion version)

/-- Whatever decodes is the version and then what the reader of the shape takes to its end. -/
theorem Shape.exists_of_decode {s : Shape} {bs : Bytes} {v : s.Val} (h : s.decode bs = .ok v) :
    ∃ body, bs = formatVersion :: body ∧ (s.read depthLimit).run body = some (v, []) := by
  cases bs with
  | nil => cases h
  | cons version body =>
    by_cases hversion : version = formatVersion
    · exact ⟨body, by rw [hversion], Shape.read_of_decode h⟩
    · simp [Shape.decode, hversion] at h

theorem Shape.framed_of_decode {s : Shape} {bs : Bytes} {v : s.Val} (h : s.decode bs = .ok v) :
    Framed s.decode bs := by
  obtain ⟨body, rfl, hrun⟩ := Shape.exists_of_decode h
  refine ⟨rfl, ?_, ?_, rfl, ?_⟩
  · intro more hmore
    obtain ⟨b, more, rfl⟩ := List.exists_cons_of_ne_nil hmore
    have hlong := Reader.run_append hrun (b :: more)
    simp [Shape.decode, hlong]
  · intro front hfront hne hnil
    obtain ⟨version, part, rfl⟩ := List.exists_cons_of_ne_nil hnil
    obtain ⟨rfl, hpart⟩ := List.cons_prefix_cons.mp hfront
    have hshort := Reader.run_eq_none_of_isPrefix hrun hpart fun heq => hne (by rw [heq])
    exact ⟨"not an item of this type", by simp [Shape.decode, hshort]⟩
  · intro version hversion rest
    simp [Shape.decode, hversion]

variable {α : Type} [Layout α]

/-- Bytes that decode are framed. -/
theorem framed_of_decode {bs : Bytes} {a : α} (h : decode bs = .ok a) :
    Framed (decode : Bytes → Except CodecError α) bs := by
  obtain ⟨v, hv, -⟩ := Answer.map_eq_ok_iff.mp h
  have hframed := Shape.framed_of_decode hv
  refine ⟨hframed.version_first, ?_, ?_, rfl, ?_⟩
  · intro more hmore
    rw [decode, hframed.trailing more hmore]
    rfl
  · intro front hfront hne hnil
    obtain ⟨reason, hreason⟩ := hframed.cut front hfront hne hnil
    exact ⟨reason, by rw [decode, hreason]; rfl⟩
  · intro version hversion rest
    rw [decode, hframed.other_version version hversion rest]
    rfl

end Cbor

namespace DataCodec

open Cbor

/-- The stored form of a value that 64 bits can address, of a record with its position or of metadata,
ends where its item ends: with anything behind it, it has that many bytes too many; cut anywhere, it
decodes as no value; cut down to nothing, it is no input; and under another version it is not read. -/
theorem framed_encode :
    (∀ position r, Addressable r.lengths →
      ∃ bs, cbor.encodeRecord position r = .ok bs ∧ Framed cbor.decodeRecord bs) ∧
    ∀ m, Addressable m.lengths →
      ∃ bs, cbor.encodeMetadata m = .ok bs ∧ Framed cbor.decodeMetadata bs := by
  constructor
  · intro position r h
    obtain ⟨bs, hbs⟩ := encodeRecord_of_addressable position h
    exact ⟨bs, hbs, framed_of_decode (decodeRecord_of_encodeRecord hbs)⟩
  · intro m h
    obtain ⟨bs, hbs⟩ := encodeMetadata_of_addressable h
    exact ⟨bs, hbs, framed_of_decode (decodeMetadata_of_encodeMetadata hbs)⟩

theorem framed_encode_detailed :
    Addressable detailedForm.lengths ∧ Addressable sharedMetadata.lengths ∧
      (∃ bs, cbor.encodeRecord 4294967295 detailedForm = .ok bs ∧ Framed cbor.decodeRecord bs) ∧
      ∃ bs, cbor.encodeMetadata sharedMetadata = .ok bs ∧ Framed cbor.decodeMetadata bs := by
  have hrecord : Addressable detailedForm.lengths := by decide +kernel
  have hmetadata : Addressable sharedMetadata.lengths := by decide +kernel
  exact ⟨hrecord, hmetadata, framed_encode.1 _ _ hrecord, framed_encode.2 _ hmetadata⟩

end DataCodec

end ObjectStore
