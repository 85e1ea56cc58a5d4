import ObjectStore.Object.Layout

/-!
# Data codecs

A store hands records and metadata to a codec and never looks inside the bytes. A record is
encoded with its position in the object, because a listing comes in the order of the record ids.

`DataCodec.cbor` is the codec in use; `DataCodec.failing` is the same codec with some of its four
operations switched off.
-/

namespace ObjectStore

/-- Encodes and decodes what is stored under group keys and member keys. -/
structure DataCodec where
  encodeRecord : UInt32 → Record → Except CodecError Bytes
  decodeRecord : Bytes → Except CodecError (UInt32 × Record)
  encodeMetadata : Metadata → Except CodecError Bytes
  decodeMetadata : Bytes → Except CodecError Metadata

/-- Which operations of a codec fail. -/
structure CodecFaults where
  encodeRecord : Bool := false
  decodeRecord : Bool := false
  encodeMetadata : Bool := false
  decodeMetadata : Bool := false
  deriving DecidableEq, Repr

namespace DataCodec

/-- The codec of versioned items. -/
def cbor : DataCodec where
  encodeRecord position record := Cbor.encode (position, record)
  decodeRecord bs := Cbor.decode bs
  encodeMetadata metadata := Cbor.encode metadata
  decodeMetadata bs := Cbor.decode bs

/-- What an encoding that is switched off answers. -/
def encodingOff : CodecError :=
  .encodingFailed "injected"

/-- What a decoding that is switched off answers. -/
def decodingOff : CodecError :=
  .decodingFailed "injected"

/-- The codec of versioned items with some operations switched off. -/
def failing (faults : CodecFaults) : DataCodec where
  encodeRecord position record :=
    if faults.encodeRecord then .error encodingOff else cbor.encodeRecord position record
  decodeRecord bs := if faults.decodeRecord then .error decodingOff else cbor.decodeRecord bs
  encodeMetadata metadata :=
    if faults.encodeMetadata then .error encodingOff else cbor.encodeMetadata metadata
  decodeMetadata bs := if faults.decodeMetadata then .error decodingOff else cbor.decodeMetadata bs

end DataCodec

end ObjectStore
