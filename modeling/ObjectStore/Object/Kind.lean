/-!
# Record kinds

The fourteen kinds of record. A kind has a name, which the stored form of a record carries, and a
type identifier, which summaries are keyed by. `ofIdentifier?_identifier` says that identifiers do
not collide.
-/

namespace ObjectStore

/-- The kind of a record. -/
inductive Kind where
  | text
  | plainText
  | html
  | hyperlink
  | file
  | image
  | video
  | audio
  | folder
  | systemDefinedRecord
  | systemDefinedForm
  | systemDefinedAppItem
  | systemDefinedPixelMap
  | applicationDefined
  deriving DecidableEq, Repr

namespace Kind

/-- Every kind, in order. -/
def all : List Kind :=
  [.text, .plainText, .html, .hyperlink, .file, .image, .video, .audio, .folder,
    .systemDefinedRecord, .systemDefinedForm, .systemDefinedAppItem, .systemDefinedPixelMap,
    .applicationDefined]

theorem mem_all (k : Kind) : k ∈ all := by
  cases k <;> decide

/-- The name of a kind. -/
def name : Kind → String
  | .text => "Text"
  | .plainText => "PlainText"
  | .html => "Html"
  | .hyperlink => "Hyperlink"
  | .file => "File"
  | .image => "Image"
  | .video => "Video"
  | .audio => "Audio"
  | .folder => "Folder"
  | .systemDefinedRecord => "SystemDefinedRecord"
  | .systemDefinedForm => "SystemDefinedForm"
  | .systemDefinedAppItem => "SystemDefinedAppItem"
  | .systemDefinedPixelMap => "SystemDefinedPixelMap"
  | .applicationDefined => "ApplicationDefined"

/-- The type identifier of a kind. -/
def identifier : Kind → String
  | .text => "general.text"
  | .plainText => "general.plain-text"
  | .html => "general.html"
  | .hyperlink => "general.hyperlink"
  | .file => "general.file"
  | .image => "general.image"
  | .video => "general.video"
  | .audio => "general.audio"
  | .folder => "general.folder"
  | .systemDefinedRecord => "openharmony.system-defined-record"
  | .systemDefinedForm => "openharmony.form"
  | .systemDefinedAppItem => "openharmony.app-item"
  | .systemDefinedPixelMap => "openharmony.pixel-map"
  | .applicationDefined => "ApplicationDefinedType"

/-- The kind with the given type identifier. -/
def ofIdentifier? (identifier : String) : Option Kind :=
  all.find? fun k => k.identifier == identifier

theorem ofIdentifier?_identifier (k : Kind) : ofIdentifier? k.identifier = some k := by
  cases k <;> decide

/-- What is said of a text that is no type identifier. -/
def unknownMessage (identifier : String) : String :=
  s!"unknown type identifier: {identifier}"

end Kind

end ObjectStore
