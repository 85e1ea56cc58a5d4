import ObjectStore.Object.Detail
import ObjectStore.Object.Kind

/-!
# Payloads

What a record carries: one of fourteen kinds of typed content. Five kinds refer to a file and differ
in the kind only, so they share one constructor.
-/

namespace ObjectStore

/-- The kinds of payload that name a file. -/
inductive FileKind where
  | file
  | image
  | video
  | audio
  | folder
  deriving DecidableEq, Repr

/-- The record kind of a file kind. -/
def FileKind.kind : FileKind → Kind
  | .file => .file
  | .image => .image
  | .video => .video
  | .audio => .audio
  | .folder => .folder

/-- A service form card. -/
structure Form where
  formId : Int32 := 0
  formName : String := ""
  bundleName : String := ""
  abilityName : String := ""
  moduleName : String := ""
  deriving DecidableEq, Repr

/-- A launcher entry of an application. -/
structure AppItem where
  appId : String := ""
  appName : String := ""
  iconId : String := ""
  labelId : String := ""
  bundleName : String := ""
  abilityName : String := ""
  deriving DecidableEq, Repr

/-- The typed content of a record. -/
inductive Payload where
  | text (details : Details)
  | plainText (details : Details) (content abstractText : String)
  | html (details : Details) (htmlContent plainContent : String)
  | hyperlink (details : Details) (url description : String)
  | file (kind : FileKind) (details : Details) (uri : String)
  | systemDefined (details : Details)
  | form (details : Details) (card : Form)
  | appItem (details : Details) (item : AppItem)
  | pixelMap (details : Details) (rawData : Bytes)
  | applicationDefined (typeName : String) (rawData : Bytes)
  deriving DecidableEq, Repr

namespace Payload

/-- The kind of a payload. -/
def kind : Payload → Kind
  | .text _ => .text
  | .plainText .. => .plainText
  | .html .. => .html
  | .hyperlink .. => .hyperlink
  | .file kind _ _ => kind.kind
  | .systemDefined _ => .systemDefinedRecord
  | .form .. => .systemDefinedForm
  | .appItem .. => .systemDefinedAppItem
  | .pixelMap .. => .systemDefinedPixelMap
  | .applicationDefined .. => .applicationDefined

/-- The details of a payload; an application-defined payload has none. -/
def details : Payload → Details
  | .text details => details
  | .plainText details _ _ => details
  | .html details _ _ => details
  | .hyperlink details _ _ => details
  | .file _ details _ => details
  | .systemDefined details => details
  | .form details _ => details
  | .appItem details _ => details
  | .pixelMap details _ => details
  | .applicationDefined _ _ => .empty

/-- The texts that a payload carries beside its details. -/
def texts : Payload → List String
  | .text _ => []
  | .plainText _ content abstractText => [content, abstractText]
  | .html _ htmlContent plainContent => [htmlContent, plainContent]
  | .hyperlink _ url description => [url, description]
  | .file _ _ uri => [uri]
  | .systemDefined _ => []
  | .form _ card => [card.formName, card.bundleName, card.abilityName, card.moduleName]
  | .appItem _ item =>
    [item.appId, item.appName, item.iconId, item.labelId, item.bundleName, item.abilityName]
  | .pixelMap _ _ => []
  | .applicationDefined typeName _ => [typeName]

/-- The bytes that a payload carries beside its details and texts: a form's number takes four. -/
def rawSize : Payload → Nat
  | .form _ _ => 4
  | .pixelMap _ rawData => rawData.length
  | .applicationDefined _ rawData => rawData.length
  | _ => 0

/-- The byte size of a payload. -/
def byteSize (p : Payload) : Nat :=
  p.details.byteSize + totalSize String.utf8ByteSize p.texts + p.rawSize

end Payload

end ObjectStore
