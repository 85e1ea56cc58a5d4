import ObjectStore.Object.Key

/-!
# Metadata

What is known of an object as a whole: its key, who may use it, when and by whom it was made.
-/

namespace ObjectStore

/-- What one caller may do with an object. -/
structure Privilege where
  tokenId : UInt32 := 0
  readPermission : String := ""
  writePermission : String := ""
  deriving DecidableEq, Repr

/-- The stage of an object's life. -/
inductive DataStatus where
  | working
  | history
  | deleted
  deriving DecidableEq, Repr

/-- The metadata of an object. Times are in milliseconds since 1970. -/
structure Metadata where
  key : ObjectKey := {}
  isPrivate : Bool := false
  privileges : List Privilege := []
  createTime : Int64 := 0
  lastModifiedTime : Int64 := 0
  sourcePackage : String := ""
  createPackage : String := ""
  deviceId : String := ""
  recordTotal : UInt32 := 0
  status : DataStatus := .working
  version : Int32 := 0
  deriving DecidableEq, Repr

/-- The group key that an object is stored under. -/
def Metadata.groupKey (r : Metadata) : String :=
  r.key.text

end ObjectStore
