import ObjectStore.Cbor.Read

/-!
# Encoded values

An encoded value is one byte for the version of the format, then exactly one item. Decoding tells
apart an empty byte string, another version, an item that cannot be read, and bytes after the item.
-/

namespace ObjectStore

/-- Why a value could not be encoded or decoded. -/
inductive CodecError where
  | encodingFailed (reason : String)
  | decodingFailed (reason : String)
  | trailingBytes (count : Nat)
  | unsupportedVersion (found : UInt8)
  | unexpectedEnd
  deriving DecidableEq, Repr

namespace Cbor

/-- The version of the format. -/
def formatVersion : UInt8 := 1

/-- How deeply items may nest. -/
def depthLimit : Nat := 256

end Cbor

/-- The text of an error. -/
def CodecError.message : CodecError → String
  | .encodingFailed reason => s!"encoding failed: {reason}"
  | .decodingFailed reason => s!"decoding failed: {reason}"
  | .trailingBytes count => s!"trailing bytes after value: {count}"
  | .unsupportedVersion found =>
    s!"unsupported format version {found.toNat}, expected {Cbor.formatVersion.toNat}"
  | .unexpectedEnd => "unexpected end of input"

namespace Cbor

/-- Encodes a value of a shape. -/
def Shape.encode (s : Shape) (v : s.Val) : Except CodecError Bytes :=
  if s.fits v then .ok (formatVersion :: s.write v)
  else .error (.encodingFailed "a length exceeds 64 bits")

/-- Decodes a value of a shape. -/
def Shape.decode (s : Shape) : Bytes → Except CodecError s.Val
  | [] => .error .unexpectedEnd
  | version :: body =>
    if version = formatVersion then
      match (s.read depthLimit).run body with
      | none => .error (.decodingFailed "not an item of this type")
      | some (v, []) => .ok v
      | some (_, rest) => .error (.trailingBytes rest.length)
    else .error (.unsupportedVersion version)

end Cbor

end ObjectStore
