import ObjectStore.Cbor.Choice
import ObjectStore.Cbor.Layout
import ObjectStore.Object.Basic

/-!
# The stored form of objects

The shapes of all types that are stored: metadata with its key and privileges, and records with their
payloads and details. Field and variant names are those of the stored form.
-/

namespace ObjectStore

open Cbor Choice

/-! ## Metadata -/

/-- The shape of a key: its text and its segments. -/
@[reducible]
def ObjectKey.shape : Shape :=
  .record
    (.cons "key" .text
      (.cons "intention" .text
        (.cons "bundle_name" .text
          (.cons "group_id" .text .nil))))

instance : Layout ObjectKey where
  shape := ObjectKey.shape
  toVal k := (k.cached, k.intention, k.bundle, k.group, ())
  ofVal := fun (cached, intention, bundle, group, ()) => { cached, intention, bundle, group }
  ofVal_toVal _ := rfl
  toVal_ofVal _ := rfl

/-- The shape of a privilege. -/
@[reducible]
def Privilege.shape : Shape :=
  .record
    (.cons "token_id" (.word .u32)
      (.cons "read_permission" .text
        (.cons "write_permission" .text .nil)))

instance : Layout Privilege where
  shape := Privilege.shape
  toVal p := (p.tokenId, p.readPermission, p.writePermission, ())
  ofVal := fun (tokenId, readPermission, writePermission, ()) =>
    { tokenId, readPermission, writePermission }
  ofVal_toVal _ := rfl
  toVal_ofVal _ := rfl

/-- The shape of a status: its bare name. -/
@[reducible]
def DataStatus.shape : Shape :=
  .choice (.unit "Working" (.unit "History" (.unit "Deleted" .nil)))

instance : Layout DataStatus where
  shape := DataStatus.shape
  toVal
    | .working => at0 ()
    | .history => at1 ()
    | .deleted => at2 ()
  ofVal
    | at0 () => .working
    | at1 () => .history
    | at2 () => .deleted
  ofVal_toVal s := by cases s <;> rfl
  toVal_ofVal
    | at0 () => rfl
    | at1 () => rfl
    | at2 () => rfl

/-- The shape of metadata. -/
@[reducible]
def Metadata.shape : Shape :=
  .record
    (.cons "key" ObjectKey.shape
      (.cons "is_private" .bool
        (.cons "privileges" (.list Privilege.shape)
          (.cons "create_time" (.word .i64)
            (.cons "last_modified_time" (.word .i64)
              (.cons "source_package" .text
                (.cons "create_package" .text
                  (.cons "device_id" .text
                    (.cons "record_total_num" (.word .u32)
                      (.cons "data_status" DataStatus.shape
                        (.cons "data_version" (.word .i32) .nil)))))))))))

instance : Layout Metadata where
  shape := Metadata.shape
  toVal r :=
    (Layout.toVal r.key, r.isPrivate, Layout.toVal r.privileges, r.createTime,
      r.lastModifiedTime, r.sourcePackage, r.createPackage, r.deviceId, r.recordTotal,
      Layout.toVal r.status, r.version, ())
  ofVal := fun (key, isPrivate, privileges, createTime, lastModifiedTime, sourcePackage,
      createPackage, deviceId, recordTotal, status, version, ()) =>
    { key := Layout.ofVal (α := ObjectKey) key
      isPrivate
      privileges := Layout.ofVal (α := List Privilege) privileges
      createTime
      lastModifiedTime
      sourcePackage
      createPackage
      deviceId
      recordTotal
      status := Layout.ofVal (α := DataStatus) status
      version }
  ofVal_toVal r := by
    simp only [Layout.ofVal_toVal]
  toVal_ofVal v := by
    simp only [Layout.toVal_ofVal]

/-! ## Records -/

/-- The shape of a details value. -/
@[reducible]
def DetailValue.shape : Shape :=
  .choice
    (.payload "Int" (.word .i32)
      (.payload "Long" (.word .i64)
        (.payload "Bool" .bool
          (.payload "Text" .text
            (.payload "Bytes" (.list (.word .u8)) .nil)))))

instance : Layout DetailValue where
  shape := DetailValue.shape
  toVal
    | .int n => at0 n
    | .long n => at1 n
    | .bool b => at2 b
    | .text s => at3 s
    | .bytes bs => at4 bs
  ofVal
    | at0 n => .int n
    | at1 n => .long n
    | at2 b => .bool b
    | at3 s => .text s
    | at4 bs => .bytes bs
  ofVal_toVal v := by cases v <;> rfl
  toVal_ofVal
    | at0 _ => rfl
    | at1 _ => rfl
    | at2 _ => rfl
    | at3 _ => rfl
    | at4 _ => rfl

/-- The shape of details. -/
@[reducible]
def Details.shape : Shape :=
  .dict DetailValue.shape

/-- The shape of a kind: its bare name. -/
@[reducible]
def Kind.shape : Shape :=
  .choice
    (.unit "Text"
      (.unit "PlainText"
        (.unit "Html"
          (.unit "Hyperlink"
            (.unit "File"
              (.unit "Image"
                (.unit "Video"
                  (.unit "Audio"
                    (.unit "Folder"
                      (.unit "SystemDefinedRecord"
                        (.unit "SystemDefinedForm"
                          (.unit "SystemDefinedAppItem"
                            (.unit "SystemDefinedPixelMap"
                              (.unit "ApplicationDefined" .nil))))))))))))))

instance : Layout Kind where
  shape := Kind.shape
  toVal
    | .text => at0 ()
    | .plainText => at1 ()
    | .html => at2 ()
    | .hyperlink => at3 ()
    | .file => at4 ()
    | .image => at5 ()
    | .video => at6 ()
    | .audio => at7 ()
    | .folder => at8 ()
    | .systemDefinedRecord => at9 ()
    | .systemDefinedForm => at10 ()
    | .systemDefinedAppItem => at11 ()
    | .systemDefinedPixelMap => at12 ()
    | .applicationDefined => at13 ()
  ofVal
    | at0 () => .text
    | at1 () => .plainText
    | at2 () => .html
    | at3 () => .hyperlink
    | at4 () => .file
    | at5 () => .image
    | at6 () => .video
    | at7 () => .audio
    | at8 () => .folder
    | at9 () => .systemDefinedRecord
    | at10 () => .systemDefinedForm
    | at11 () => .systemDefinedAppItem
    | at12 () => .systemDefinedPixelMap
    | at13 () => .applicationDefined
  ofVal_toVal k := by cases k <;> rfl
  toVal_ofVal
    | at0 () => rfl
    | at1 () => rfl
    | at2 () => rfl
    | at3 () => rfl
    | at4 () => rfl
    | at5 () => rfl
    | at6 () => rfl
    | at7 () => rfl
    | at8 () => rfl
    | at9 () => rfl
    | at10 () => rfl
    | at11 () => rfl
    | at12 () => rfl
    | at13 () => rfl

/-- The shape of a payload that has details and nothing else. -/
@[reducible]
def Payload.detailsShape : Shape :=
  .record (.cons "details" Details.shape .nil)

/-- The shape of a payload that names a file. -/
@[reducible]
def Payload.fileShape : Shape :=
  .record (.cons "details" Details.shape (.cons "uri" .text .nil))

/-- The shape of plain text. -/
@[reducible]
def Payload.plainTextShape : Shape :=
  .record
    (.cons "details" Details.shape
      (.cons "content" .text
        (.cons "abstract_text" .text .nil)))

/-- The shape of a fragment of HTML. -/
@[reducible]
def Payload.htmlShape : Shape :=
  .record
    (.cons "details" Details.shape
      (.cons "html_content" .text
        (.cons "plain_content" .text .nil)))

/-- The shape of a hyperlink. -/
@[reducible]
def Payload.hyperlinkShape : Shape :=
  .record
    (.cons "details" Details.shape
      (.cons "url" .text
        (.cons "description" .text .nil)))

/-- The shape of a form card. -/
@[reducible]
def Payload.formShape : Shape :=
  .record
    (.cons "details" Details.shape
      (.cons "form_id" (.word .i32)
        (.cons "form_name" .text
          (.cons "bundle_name" .text
            (.cons "ability_name" .text
              (.cons "module" .text .nil))))))

/-- The shape of a launcher entry. -/
@[reducible]
def Payload.appItemShape : Shape :=
  .record
    (.cons "details" Details.shape
      (.cons "app_id" .text
        (.cons "app_name" .text
          (.cons "app_icon_id" .text
            (.cons "app_label_id" .text
              (.cons "bundle_name" .text
                (.cons "ability_name" .text .nil)))))))

/-- The shape of a pixel map. -/
@[reducible]
def Payload.pixelMapShape : Shape :=
  .record
    (.cons "details" Details.shape
      (.cons "raw_data" (.list (.word .u8)) .nil))

/-- The shape of an application-defined payload. -/
@[reducible]
def Payload.applicationDefinedShape : Shape :=
  .record
    (.cons "application_defined_type" .text
      (.cons "raw_data" (.list (.word .u8)) .nil))

/-- The shape of a payload: its kind's name with its fields. -/
@[reducible]
def Payload.shape : Shape :=
  .choice
    (.payload "Text" Payload.detailsShape
      (.payload "PlainText" Payload.plainTextShape
        (.payload "Html" Payload.htmlShape
          (.payload "Hyperlink" Payload.hyperlinkShape
            (.payload "File" Payload.fileShape
              (.payload "Image" Payload.fileShape
                (.payload "Video" Payload.fileShape
                  (.payload "Audio" Payload.fileShape
                    (.payload "Folder" Payload.fileShape
                      (.payload "SystemDefinedRecord" Payload.detailsShape
                        (.payload "SystemDefinedForm" Payload.formShape
                          (.payload "SystemDefinedAppItem" Payload.appItemShape
                            (.payload "SystemDefinedPixelMap" Payload.pixelMapShape
                              (.payload "ApplicationDefined" Payload.applicationDefinedShape
                                .nil))))))))))))))

/-- Details as a value of their shape. -/
def Details.toVal (d : Details) : Details.shape.Val :=
  Layout.toVal d

/-- Details from a value of their shape. -/
def Details.ofVal (v : Details.shape.Val) : Details :=
  Layout.ofVal v

theorem Details.ofVal_toVal (d : Details) : ofVal (toVal d) = d :=
  Layout.ofVal_toVal d

theorem Details.toVal_ofVal (v : Details.shape.Val) : toVal (ofVal v) = v :=
  Layout.toVal_ofVal (α := Details) v

instance : Layout Payload where
  shape := Payload.shape
  toVal
    | .text d => at0 (Details.toVal d, ())
    | .plainText d content abstractText => at1 (Details.toVal d, content, abstractText, ())
    | .html d htmlContent plainContent => at2 (Details.toVal d, htmlContent, plainContent, ())
    | .hyperlink d url description => at3 (Details.toVal d, url, description, ())
    | .file .file d uri => at4 (Details.toVal d, uri, ())
    | .file .image d uri => at5 (Details.toVal d, uri, ())
    | .file .video d uri => at6 (Details.toVal d, uri, ())
    | .file .audio d uri => at7 (Details.toVal d, uri, ())
    | .file .folder d uri => at8 (Details.toVal d, uri, ())
    | .systemDefined d => at9 (Details.toVal d, ())
    | .form d card =>
      at10 (Details.toVal d, card.formId, card.formName, card.bundleName, card.abilityName,
        card.moduleName, ())
    | .appItem d item =>
      at11 (Details.toVal d, item.appId, item.appName, item.iconId, item.labelId, item.bundleName,
        item.abilityName, ())
    | .pixelMap d rawData => at12 (Details.toVal d, rawData, ())
    | .applicationDefined typeName rawData => at13 (typeName, rawData, ())
  ofVal
    | at0 (d, ()) => .text (Details.ofVal d)
    | at1 (d, content, abstractText, ()) => .plainText (Details.ofVal d) content abstractText
    | at2 (d, htmlContent, plainContent, ()) => .html (Details.ofVal d) htmlContent plainContent
    | at3 (d, url, description, ()) => .hyperlink (Details.ofVal d) url description
    | at4 (d, uri, ()) => .file .file (Details.ofVal d) uri
    | at5 (d, uri, ()) => .file .image (Details.ofVal d) uri
    | at6 (d, uri, ()) => .file .video (Details.ofVal d) uri
    | at7 (d, uri, ()) => .file .audio (Details.ofVal d) uri
    | at8 (d, uri, ()) => .file .folder (Details.ofVal d) uri
    | at9 (d, ()) => .systemDefined (Details.ofVal d)
    | at10 (d, formId, formName, bundleName, abilityName, moduleName, ()) =>
      .form (Details.ofVal d) { formId, formName, bundleName, abilityName, moduleName }
    | at11 (d, appId, appName, iconId, labelId, bundleName, abilityName, ()) =>
      .appItem (Details.ofVal d) { appId, appName, iconId, labelId, bundleName, abilityName }
    | at12 (d, rawData, ()) => .pixelMap (Details.ofVal d) rawData
    | at13 (typeName, rawData, ()) => .applicationDefined typeName rawData
  ofVal_toVal p := by
    cases p with
    | file kind d uri => cases kind <;> simp [Details.ofVal_toVal]
    | _ => simp [Details.ofVal_toVal]
  toVal_ofVal
    | at0 (d, ()) => by simp [Details.toVal_ofVal]
    | at1 (d, _, _, ()) => by simp [Details.toVal_ofVal]
    | at2 (d, _, _, ()) => by simp [Details.toVal_ofVal]
    | at3 (d, _, _, ()) => by simp [Details.toVal_ofVal]
    | at4 (d, _, ()) => by simp [Details.toVal_ofVal]
    | at5 (d, _, ()) => by simp [Details.toVal_ofVal]
    | at6 (d, _, ()) => by simp [Details.toVal_ofVal]
    | at7 (d, _, ()) => by simp [Details.toVal_ofVal]
    | at8 (d, _, ()) => by simp [Details.toVal_ofVal]
    | at9 (d, ()) => by simp [Details.toVal_ofVal]
    | at10 (d, _, _, _, _, _, ()) => by simp [Details.toVal_ofVal]
    | at11 (d, _, _, _, _, _, _, ()) => by simp [Details.toVal_ofVal]
    | at12 (d, _, ()) => by simp [Details.toVal_ofVal]
    | at13 (_, _, ()) => rfl

/-- The shape of a record. -/
@[reducible]
def Record.shape : Shape :=
  .record (.cons "uid" .text (.cons "value" Payload.shape .nil))

instance : Layout Record where
  shape := Record.shape
  toVal r := (r.uid, Layout.toVal r.value, ())
  ofVal := fun (uid, value, ()) => { uid, value := Layout.ofVal (α := Payload) value }
  ofVal_toVal r := by simp [Layout.ofVal_toVal]
  toVal_ofVal v := by simp [Layout.toVal_ofVal]

end ObjectStore
